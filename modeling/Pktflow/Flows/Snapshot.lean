import Pktflow.Flows.Hierarchy
import Pktflow.Flows.Accounting
import Pktflow.Flows.Folds
import Pktflow.Flows.Times
import Pktflow.Lib.KeySort

/-!
# Snapshots

A snapshot holds the live streams in creation order and the roots. What the lenses need of it is the forest
of the store seen from the list of its streams (`AggregatorSnapshot.WellFormed`), and, in captures in time
order, that streams created later were first seen no earlier (`snapshot_born`).
-/

set_option autoImplicit false

namespace Pktflow.Flows

open Pktflow.Core Pktflow.Lib

/-- `AggregatorSnapshot`, without its summary. -/
structure AggregatorSnapshot where
  streams : List Stream
  roots : List StreamId

/-- `Aggregator::snapshot`. -/
def Aggregator.snapshot (a : Aggregator) : AggregatorSnapshot where
  streams := sortByKey Stream.createdSeq a.streams
  roots := a.roots

namespace AggregatorSnapshot

/-- Of the streams with these ids, the first was created before the second. -/
def CreatedBefore (snap : AggregatorSnapshot) (x y : StreamId) : Prop :=
  ∀ s ∈ snap.streams, ∀ t ∈ snap.streams, s.id = x → t.id = y → s.createdSeq < t.createdSeq

/-- The streams of a snapshot form a forest, listed in creation order. -/
structure WellFormed (snap : AggregatorSnapshot) : Prop where
  ordered : snap.streams.Pairwise fun s t => s.createdSeq < t.createdSeq
  ids_nodup : (snap.streams.map Stream.id).Nodup
  parent : ∀ s ∈ snap.streams, ∀ p, s.parent = some p →
    ∃ t ∈ snap.streams, t.id = p ∧ t.createdSeq < s.createdSeq ∧ s.id ∈ t.children
  child : ∀ s ∈ snap.streams, ∀ c ∈ s.children, ∃ t ∈ snap.streams, t.id = c ∧ t.parent = some s.id
  children_ordered : ∀ s ∈ snap.streams, s.children.Pairwise snap.CreatedBefore
  roots : ∀ id, id ∈ snap.roots ↔ ∃ s ∈ snap.streams, s.id = id ∧ s.parent = none
  roots_ordered : snap.roots.Pairwise snap.CreatedBefore
  /-- The positions of the streams are `u32`. -/
  length_lt : snap.streams.length < 2 ^ 32

end AggregatorSnapshot

namespace Aggregator

variable {env : Env} {ops : List Op} {a : Aggregator}

theorem mem_snapshot {s : Stream} : s ∈ a.snapshot.streams ↔ s ∈ a.streams := mem_sortByKey

theorem length_streams_le (a : Aggregator) : a.streams.length ≤ a.arena.slots.length :=
  List.length_filterMap_le _ _

theorem seqs_nodup (h : Reaches env ops a) : (a.streams.map Stream.createdSeq).Nodup := by
  have hever := ((SeqInv.runStable env).reaches h).2.nodup
  rw [everStreams] at hever
  rw [List.map_append] at hever
  exact (List.nodup_append.1 hever).1

theorem createdBefore_snapshot (hf : ForestInv a) {l : List StreamId} (h : l.Pairwise a.CreatedBefore) :
    l.Pairwise a.snapshot.CreatedBefore := by
  apply h.imp
  intro x y hxy s hs t ht hsx hty
  obtain ⟨i, hi⟩ := mem_streams.1 (mem_snapshot.1 hs)
  obtain ⟨j, hj⟩ := mem_streams.1 (mem_snapshot.1 ht)
  rw [← hsx, ← hty, hf.id_eq hi, hf.id_eq hj] at hxy
  exact hxy s t hi hj

/-- Snapshots of reachable states are well formed. -/
theorem snapshot_wellFormed (h : Reaches env ops a) : a.snapshot.WellFormed := by
  have hf := forestInv_of_reaches h
  have hstore := wellFormed_of_reaches h
  -- the streams of the snapshot are those stored, each under its own id
  have hget : ∀ {s : Stream}, s ∈ a.snapshot.streams → a.get s.id = some s := by
    intro s hs
    obtain ⟨i, hi⟩ := mem_streams.1 (mem_snapshot.1 hs)
    rw [hf.id_eq hi]
    exact hi
  have hmem : ∀ {i : StreamId} {s : Stream}, a.get i = some s → s ∈ a.snapshot.streams ∧ s.id = i :=
    fun hi => ⟨mem_snapshot.2 (mem_streams.2 ⟨_, hi⟩), hf.id_eq hi⟩
  constructor
  case ordered =>
    have hperm := perm_sortByKey Stream.createdSeq a.streams
    have hnodup := (hperm.map Stream.createdSeq).nodup_iff.2 (seqs_nodup h)
    have hle := pairwise_keys Stream.createdSeq a.streams
    have hne := List.pairwise_map.1 hnodup
    exact (hle.and hne).imp fun hlt => lt_of_le_of_ne hlt.1 hlt.2
  case ids_nodup =>
    exact ((perm_sortByKey Stream.createdSeq a.streams).map Stream.id).nodup_iff.2 hf.ids_nodup
  case parent =>
    intro s hs p hp
    obtain ⟨t, ht, hlt, hcount⟩ := hstore.parent s.id s p (hget hs) hp
    refine ⟨t, (hmem ht).1, (hmem ht).2, hlt, ?_⟩
    exact List.count_pos_iff.1 (by omega)
  case child =>
    intro s hs c hc
    obtain ⟨t, ht, hp⟩ := hstore.child s.id s c (hget hs) hc
    exact ⟨t, (hmem ht).1, (hmem ht).2, hp⟩
  case children_ordered =>
    intro s hs
    exact createdBefore_snapshot hf (hstore.children_ordered s.id s (hget hs))
  case roots =>
    intro id
    rw [show a.snapshot.roots = a.roots from rfl, hstore.roots]
    constructor
    · rintro ⟨s, hs, hp⟩
      exact ⟨s, (hmem hs).1, (hmem hs).2, hp⟩
    · rintro ⟨s, hs, rfl, hp⟩
      exact ⟨s, hget hs, hp⟩
  case roots_ordered => exact createdBefore_snapshot hf hstore.roots_ordered
  case length_lt =>
    have hlen := (perm_sortByKey Stream.createdSeq a.streams).length_eq
    exact Nat.lt_of_le_of_lt (hlen ▸ length_streams_le a) h.fits

/-! ## Captures in time order -/

/-- The times at which the streams were created, by creation number: none decreases, and none is after `t`. -/
def Births (t : SystemTime) (a : Aggregator) : Prop :=
  ∃ births : List SystemTime, births.length = a.nextSeq ∧ births.Pairwise (· ≤ ·) ∧
    (∀ x ∈ births, x ≤ t) ∧ a.Everywhere fun s => births[s.createdSeq]? = some s.firstSeen

theorem bornAt_facts (births : List SystemTime) (s : Stream) :
    births[(Stream.facts s).createdSeq]? = some (Stream.facts s).firstSeen ↔
      births[s.createdSeq]? = some s.firstSeen := Iff.rfl

namespace Births

variable {t : SystemTime}

theorem modify (h : Births t a) (id : StreamId) {f : Stream → Stream}
    (hf : ∀ s, (f s).createdSeq = s.createdSeq ∧ (f s).firstSeen = s.firstSeen) :
    Births t (a.modify id f) := by
  obtain ⟨births, hlen, hsorted, hle, hever⟩ := h
  refine ⟨births, hlen, hsorted, hle, hever.modify (bornAt_facts births) (fun s hs => ?_) id⟩
  rw [(hf s).1, (hf s).2]
  exact hs

/-- A stream created at the time of the last packet. -/
theorem create (h : Births t a) (env : Env) {n : NewStream} (hlim : a.Fits) (hp : a.Linked n.parent)
    (hts : n.ts = t) : Births t (a.createStreamRaw env n).1 := by
  obtain ⟨births, hlen, hsorted, hle, hever⟩ := h
  have hold : a.Everywhere fun s => (births ++ [t])[s.createdSeq]? = some s.firstSeen := by
    intro s hs
    have hs' := hever s hs
    obtain ⟨hlt, -⟩ := List.getElem?_eq_some_iff.1 hs'
    rw [List.getElem?_append_left hlt]
    exact hs'
  refine ⟨births ++ [t], ?_, ?_, ?_, hold.create env (bornAt_facts _) hlim hp ?_⟩
  · rw [List.length_append, hlen]
    rfl
  · rw [List.pairwise_append]
    refine ⟨hsorted, List.pairwise_singleton _ _, fun x hx y hy => ?_⟩
    obtain rfl := List.mem_singleton.1 hy
    exact hle x hx
  · intro x hx
    rcases List.mem_append.1 hx with hx | hx
    · exact hle x hx
    · exact le_of_eq (List.mem_singleton.1 hx)
  · have hseq : (n.record a.freshId a.nextSeq).createdSeq = births.length := hlen.symm
    rw [hseq, List.getElem?_concat_length, ← hts]
    rfl

theorem congr {b : Aggregator} (h : Births t a) (harena : b.arena = a.arena)
    (hremoved : b.removed = a.removed) (hseq : b.nextSeq = a.nextSeq) : Births t b := by
  obtain ⟨births, hlen, hsorted, hle, hever⟩ := h
  exact ⟨births, hseq ▸ hlen, hsorted, hle, hever.congr harena hremoved⟩

theorem heapFree (env : Env) (t : SystemTime) : HeapFree env (Births t) where
  close := by
    rintro a id ⟨births, hlen, hsorted, hle, hever⟩
    obtain ⟨calls, heq⟩ := closeStream_eq env a id
    have hseq : (a.closeStream env id).nextSeq = a.nextSeq := by
      rw [heq]
      rfl
    exact ⟨births, hseq ▸ hlen, hsorted, hle, (everywhere_heapFree env (bornAt_facts births)).close id hever⟩
  evict := by
    rintro a id s reason hf hs hc ⟨births, hlen, hsorted, hle, hever⟩
    refine ⟨births, ?_, hsorted, hle, (everywhere_heapFree env (bornAt_facts births)).evict reason hf hs hc hever⟩
    rw [(evict_unchanged env a id reason).1]
    exact hlen
  heaps := fun _ _ h => h.congr rfl rfl rfl

/-- In captures in time order streams are created in the order they are first seen. -/
theorem orderedStable (env : Env) : OrderedStable env (fun _ _ => True) Births where
  mono := by
    rintro t t' a hle ⟨births, hlen, hsorted, hbirths, hever⟩
    exact ⟨births, hlen, hsorted, fun x hx => le_trans (hbirths x hx) hle, hever⟩
  new := fun t => ⟨[], rfl, List.Pairwise.nil, fun x hx => (by cases hx), fun s hs => (by cases hs)⟩
  tick := fun _ h => h.congr rfl rfl rfl
  evictStable := fun t => (heapFree env t).toEvictStable
  ingestStable := fun pkt =>
    { toLoopStable := (heapFree env _).loopStable
      layer := by
        intro w w' layer hw _ hstep hfits h
        cases hstep with
        | skip _ => exact h
        | keyError _ _ => exact h.congr rfl rfl rfl
        | @folded plugin identity key dir foldDir b id hid hkey hr =>
            have hfits' : b.Fits := fits_of_touch hfits
            have hb : Births pkt.meta_.timestamp b := by
              refine hr.rule (J := Births pkt.meta_.timestamp) h ?_ (fun i hb => hb.modify i fun _ => ⟨rfl, rfl⟩)
                (fun i hb => hb.modify i fun _ => ⟨rfl, rfl⟩) (fun _ _ _ _ hb => hb.congr rfl rfl rfl)
              intro n hn hts
              exact h.create env (hr.fits hfits') (by rw [hn]; exact hw.linked) hts
            have htouch : ∀ s : Stream, (s.absorb identity layer key foldDir pkt.meta_.timestamp
                pkt.meta_.origlen).1.createdSeq = s.createdSeq := by
              intro s
              rw [Stream.absorb_eq]
            exact (hb.modify id fun s => ⟨htouch s, (s.absorb_seen identity layer key foldDir
              pkt.meta_.timestamp pkt.meta_.origlen).1⟩).congr rfl rfl rfl
      tail := fun id n h => h.modify id fun _ => ⟨rfl, rfl⟩
      unknown := fun _ h => h.congr rfl rfl rfl }

end Births

theorem exists_bound (l : List SystemTime) : ∃ t, ∀ x ∈ l, x ≤ t := by
  induction l with
  | nil => exact ⟨0, fun x hx => (by cases hx)⟩
  | cons y l ih =>
      obtain ⟨t, ht⟩ := ih
      refine ⟨max y t, fun x hx => ?_⟩
      rcases List.mem_cons.1 hx with rfl | hx
      · exact le_max_left _ _
      · exact le_max_of_le_right (ht x hx)

/-- In a capture in time order, streams created later were first seen no earlier. -/
theorem snapshot_born (h : Reaches env ops a) (hsorted : (timestamps ops).Pairwise (· ≤ ·)) {s t : Stream}
    (hs : s ∈ a.snapshot.streams) (ht : t ∈ a.snapshot.streams) (hlt : s.createdSeq < t.createdSeq) :
    s.firstSeen ≤ t.firstSeen := by
  obtain ⟨u, hu⟩ := exists_bound (timestamps ops)
  obtain ⟨births, -, hpairs, -, hever⟩ := ((Births.orderedStable env).reaches h hsorted).2 u hu
  have hborn : ∀ x ∈ a.snapshot.streams, births[x.createdSeq]? = some x.firstSeen := fun x hx =>
    hever x (List.mem_append_left _ (mem_snapshot.1 hx))
  obtain ⟨hs', hseq⟩ := List.getElem?_eq_some_iff.1 (hborn s hs)
  obtain ⟨ht', hteq⟩ := List.getElem?_eq_some_iff.1 (hborn t ht)
  rw [← hseq, ← hteq]
  exact List.pairwise_iff_getElem.1 hpairs _ _ hs' ht' hlt

end Aggregator

end Pktflow.Flows

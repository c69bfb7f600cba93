import Pktflow.Flows.Steps

/-!
# Rules for runs of the aggregator

`ForestInv` is the part of the state every eviction relies on: ids name their own slot, the live
streams form a ranked forest, and the live count is right. It holds in every reachable state
(`forestInv_of_reaches`).

With it come the rules that carry other properties through a run. A property that survives the eviction
of a leaf (`EvictStable`) survives `finish`. A property kept by the iterations of the two eviction loops
(`LoopStable`) and by the layers of the walk (`IngestStable`) survives an ingest. One that does not
depend on the heaps (`HeapFree`) is kept by the loops if evictions keep it; with the layers (`RunStable`)
it holds in every reachable state.
-/

set_option autoImplicit false

namespace Pktflow.Flows

open Pktflow.Core Pktflow.Lib

namespace Aggregator

/-! ## The forest -/

/-- Ids name their own slot, the live streams form a ranked forest, the live count is right. -/
structure ForestInv (a : Aggregator) : Prop where
  id_eq : ∀ {h s}, a.get h = some s → s.id = h
  forest : Forest.WellFormed a.nodes a.roots a.nextSeq
  count : a.liveCount = a.streams.length

theorem card_liveFacts (a : Aggregator) : Multiset.card a.liveFacts = a.streams.length := by
  simp [liveFacts]

namespace ForestInv

variable {env : Env} {a b : Aggregator}

/-- Nothing but the arena, the roots, the creation order and the live count matters. -/
theorem congr (h : ForestInv a) (harena : b.arena = a.arena) (hroots : b.roots = a.roots)
    (hseq : b.nextSeq = a.nextSeq) (hcount : b.liveCount = a.liveCount) : ForestInv b := by
  have hget : b.get = a.get := by
    funext i
    unfold get
    rw [harena]
  constructor
  case id_eq =>
    intro i s hs
    rw [hget] at hs
    exact h.id_eq hs
  case forest =>
    have hnodes : b.nodes = a.nodes := by
      unfold nodes
      rw [hget]
    rw [hnodes, hroots, hseq]
    exact h.forest
  case count =>
    unfold streams
    rw [hcount, harena]
    exact h.count

theorem new : ForestInv Aggregator.new where
  id_eq := by intro h s hs; cases hs
  forest := Forest.WellFormed.empty
  count := rfl

/-- A modification that keeps links, creation order and id. -/
theorem modify (h : ForestInv a) (id : StreamId) {f : Stream → Stream}
    (hnode : ∀ s, (f s).node = s.node) (hid : ∀ s, (f s).id = s.id) : ForestInv (a.modify id f) := by
  constructor
  case id_eq =>
    intro i s hs
    have hmap := map_get_modify Stream.id a id hid i
    rw [hs] at hmap
    obtain ⟨t, ht, hti⟩ := Option.map_eq_some_iff.1 hmap.symm
    rw [← hti]
    exact h.id_eq ht
  case forest =>
    rw [nodes_modify a id hnode]
    exact h.forest
  case count =>
    have hlen : (a.modify id f).streams.length = a.streams.length := Arena.length_values_modify _ _ _
    rw [hlen]
    exact h.count

/-- The parent of a live stream is live, and another stream. -/
theorem parent_live (h : ForestInv a) {id p : StreamId} {s : Stream} (hs : a.get id = some s)
    (hp : s.parent = some p) : p ≠ id ∧ ∃ ps, a.get p = some ps := by
  obtain ⟨m, hm, hlt, -⟩ := h.forest.parent_node (nodes_of_get hs) hp
  obtain ⟨ps, hps, rfl⟩ := nodes_eq_some.1 hm
  refine ⟨?_, ps, hps⟩
  rintro rfl
  rw [hs] at hps
  obtain rfl := Option.some.inj hps
  exact Nat.lt_irrefl _ hlt

theorem create (h : ForestInv a) {n : NewStream} (hlim : a.arena.slots.length < idLimit)
    (hp : ∀ p, n.parent = some p → ∃ s, a.get p = some s) :
    ForestInv (a.createStreamRaw env n).1 := by
  constructor
  case id_eq =>
    intro i s hs
    rw [get_create env hlim hp] at hs
    split at hs
    · rename_i hi
      obtain rfl := Option.some.inj hs
      exact hi.symm
    · split at hs
      · obtain ⟨t, ht, rfl⟩ := Option.map_eq_some_iff.1 hs
        show t.id = i
        exact h.id_eq ht
      · exact h.id_eq hs
  case forest =>
    -- the creation order is the rank: the new stream has the next one
    rw [nodes_create hlim hp, roots_create hlim hp]
    apply h.forest.addNode
    · simp [nodes, get_freshId hlim]
    · intro p hpar
      obtain ⟨s, hs⟩ := hp p hpar
      exact ⟨s.node, nodes_of_get hs⟩
  case count =>
    have hcard := congrArg Multiset.card (liveFacts_create env hlim hp)
    rw [Multiset.card_cons, card_liveFacts, card_liveFacts] at hcard
    rw [hcard, ← h.count]
    rfl

/-- An eviction takes one stream away. -/
theorem length_evict (h : ForestInv a) {id : StreamId} {s : Stream} (env : Env) (reason : CloseReason)
    (hs : a.get id = some s) : a.streams.length = (a.evict env id reason).streams.length + 1 := by
  have hcard := congrArg Multiset.card
    (liveFacts_evict env reason hs fun p hp => h.parent_live hs hp)
  rw [Multiset.card_cons, card_liveFacts, card_liveFacts] at hcard
  exact hcard

theorem evict (h : ForestInv a) {id : StreamId} {s : Stream} (reason : CloseReason)
    (hs : a.get id = some s) (hc : s.children = []) : ForestInv (a.evict env id reason) := by
  constructor
  case id_eq =>
    intro i t ht
    rw [get_evict hs] at ht
    split at ht
    · cases ht
    · split at ht
      · obtain ⟨u, hu, rfl⟩ := Option.map_eq_some_iff.1 ht
        show u.id = i
        exact h.id_eq hu
      · exact h.id_eq ht
  case forest =>
    rw [nodes_evict hs, roots_evict hs, (evict_unchanged env a id reason).1]
    -- the evicted stream is a leaf, so no link is left dangling
    exact h.forest.removeLeaf (nodes_of_get hs) hc
  case count =>
    have hlen := h.length_evict env reason hs
    rw [(evict_updated env reason hs).1, h.count]
    omega

theorem closeStream (h : ForestInv a) (id : StreamId) : ForestInv (a.closeStream env id) := by
  obtain ⟨calls, heq⟩ := closeStream_eq env a id
  have hmod : ForestInv (a.modify id fun s => s.markClosed .captureEnd) :=
    h.modify id (fun _ => rfl) fun _ => rfl
  rw [heq]
  exact hmod.congr rfl rfl rfl rfl

theorem tick (h : ForestInv a) (pkt : DissectedPacket) : ForestInv (a.tick pkt) :=
  h.congr rfl rfl rfl rfl

theorem loopStep (h : ForestInv a) {expiry : MinHeap ExpiryEntry} {lru : MinHeap LruEntry}
    (hstep : LoopStep env a expiry lru b) : ForestInv b := by
  have h' : ForestInv { a with expiry := expiry, lru := lru } := h.congr rfl rfl rfl rfl
  cases hstep with
  | heaps => exact h'
  | evict reason hs hc => exact h'.evict reason hs hc

theorem sweepBody (h : ForestInv a) (hab : sweepBody env a = some b) : ForestInv b := by
  obtain ⟨expiry, hstep⟩ := sweepBody_step hab
  exact h.loopStep hstep

theorem enforceBody (h : ForestInv a) (hab : enforceBody env a = some b) : ForestInv b := by
  obtain ⟨lru, hstep⟩ := enforceBody_step hab
  exact h.loopStep hstep

end ForestInv

/-! ## Rules for the eviction loops and `finish` -/

/-- A property that survives the eviction of a leaf and the close of a stream in place. -/
structure EvictStable (env : Env) (I : Aggregator → Prop) : Prop where
  close : ∀ {a : Aggregator} (id : StreamId), I a → I (a.closeStream env id)
  evict : ∀ {a : Aggregator} {id : StreamId} {s : Stream} (reason : CloseReason), ForestInv a →
    a.get id = some s → s.children = [] → I a → I (a.evict env id reason)

/-- A property that the iterations of the two loops and the compaction of the LRU heap keep. -/
structure LoopStable (env : Env) (I : Aggregator → Prop) : Prop where
  sweepBody : ∀ {a b : Aggregator}, ForestInv a → I a → sweepBody env a = some b → I b
  enforceBody : ∀ {a b : Aggregator}, ForestInv a → I a → enforceBody env a = some b → I b
  compactLru : ∀ {a : Aggregator}, ForestInv a → I a → I a.compactLru

namespace LoopStable

variable {env : Env} {I : Aggregator → Prop} {a b : Aggregator}

/-- At every state `sweep` passes through. -/
theorem passes_sweep (hI : LoopStable env I) (hf : ForestInv a) (h : I a)
    (hp : Loop.Passes (Aggregator.sweepBody env) a b) : ForestInv b ∧ I b := by
  refine hp.invariant (I := fun x => ForestInv x ∧ I x) ?_ ⟨hf, h⟩
  rintro x y ⟨hfx, hx⟩ hxy
  exact ⟨hfx.sweepBody hxy, hI.sweepBody hfx hx hxy⟩

/-- At every state `enforce_max_streams` passes through. -/
theorem passes_enforce (hI : LoopStable env I) (hf : ForestInv a) (h : I a)
    (hp : Loop.Passes (Aggregator.enforceBody env) a b) : ForestInv b ∧ I b := by
  refine hp.invariant (I := fun x => ForestInv x ∧ I x) ?_ ⟨hf, h⟩
  rintro x y ⟨hfx, hx⟩ hxy
  exact ⟨hfx.enforceBody hxy, hI.enforceBody hfx hx hxy⟩

theorem enforceMaxStreams (hI : LoopStable env I) (hf : ForestInv a) (h : I a) :
    I (a.enforceMaxStreams env) :=
  (hI.passes_enforce hf h (Loop.passes_iterate _ _ _)).2

/-- The eviction part of `ingest` before the walk. -/
theorem beforeWalk (hI : LoopStable env I) {pkt : DissectedPacket} (hf : ForestInv a)
    (h : I (a.tick pkt)) : I (a.beforeWalk env pkt) := by
  obtain ⟨hf', h'⟩ := hI.passes_sweep (hf.tick pkt) h (Loop.passes_iterate _ _ _)
  exact hI.compactLru hf' h'

end LoopStable

/-- A property that survives evictions and closes and does not depend on the heaps. -/
structure HeapFree (env : Env) (I : Aggregator → Prop) : Prop extends EvictStable env I where
  heaps : ∀ {a : Aggregator} (expiry : MinHeap ExpiryEntry) (lru : MinHeap LruEntry), I a →
    I { a with expiry := expiry, lru := lru }

namespace HeapFree

variable {env : Env} {I : Aggregator → Prop} {a b : Aggregator}

theorem loopStep (hI : HeapFree env I) (hf : ForestInv a) (h : I a) {expiry : MinHeap ExpiryEntry}
    {lru : MinHeap LruEntry} (hstep : LoopStep env a expiry lru b) : I b := by
  -- an iteration rearranges the heaps and then evicts a leaf, or nothing
  have h' := hI.heaps expiry lru h
  cases hstep with
  | heaps => exact h'
  | evict reason hs hc =>
      have hf' : ForestInv { a with expiry := expiry, lru := lru } := hf.congr rfl rfl rfl rfl
      exact hI.evict reason hf' hs hc h'

theorem loopStable (hI : HeapFree env I) : LoopStable env I where
  sweepBody := by
    intro a b hf h hab
    obtain ⟨expiry, hstep⟩ := sweepBody_step hab
    exact hI.loopStep hf h hstep
  enforceBody := by
    intro a b hf h hab
    obtain ⟨lru, hstep⟩ := enforceBody_step hab
    exact hI.loopStep hf h hstep
  compactLru := by
    intro a _ h
    obtain ⟨lru, heq⟩ := compactLru_eq a
    rw [heq]
    exact hI.heaps a.expiry lru h

end HeapFree

/-- The forest carries itself through the loops. -/
theorem heapFree_true (env : Env) : HeapFree env fun _ => True := ⟨⟨fun _ _ => trivial,
  fun _ _ _ _ _ => trivial⟩, fun _ _ _ => trivial⟩

theorem ForestInv.sweep {env : Env} {a : Aggregator} (h : ForestInv a) : ForestInv (a.sweep env) :=
  ((heapFree_true env).loopStable.passes_sweep h trivial (Loop.passes_iterate _ _ _)).1

/-- When `ingest` starts to walk the layers. -/
theorem ForestInv.beforeWalk {env : Env} {a : Aggregator} (h : ForestInv a) (pkt : DissectedPacket) :
    ForestInv (a.beforeWalk env pkt) := by
  have hswept : ForestInv ((a.tick pkt).sweep env) := (h.tick pkt).sweep
  obtain ⟨lru, heq⟩ := compactLru_eq ((a.tick pkt).sweep env)
  show ForestInv ((a.tick pkt).sweep env).compactLru
  rw [heq]
  exact hswept.congr rfl rfl rfl rfl

/-! ## The order of `finish` -/

instance : Std.Total FinishEntry.before := ⟨fun x y => by unfold FinishEntry.before; omega⟩

instance : IsTrans FinishEntry FinishEntry.before := ⟨fun x y z => by
  unfold FinishEntry.before; omega⟩

/-- Enough fuel makes no difference to the upward walk. -/
theorem ancestorCount_fuel {a : Aggregator} (hf : ForestInv a) :
    ∀ (r : Nat) (id : StreamId) (s : Stream), a.get id = some s → s.createdSeq ≤ r →
      ∀ m n, r < m → r < n → a.ancestorCount m (some id) = a.ancestorCount n (some id) := by
  intro r
  -- on a bound for the creation order, which drops from a stream to its parent
  induction r using Nat.strong_induction_on with
  | _ r ih =>
      intro id s hs hr m n hm hn
      obtain ⟨m, rfl⟩ := Nat.exists_eq_succ_of_ne_zero (Nat.ne_zero_of_lt hm)
      obtain ⟨n, rfl⟩ := Nat.exists_eq_succ_of_ne_zero (Nat.ne_zero_of_lt hn)
      simp only [ancestorCount, hs, Option.bind_some]
      cases hp : s.parent with
      | none => simp only [ancestorCount]
      | some p =>
          obtain ⟨q, hq, hlt, -⟩ := hf.forest.parent_node (nodes_of_get hs) hp
          obtain ⟨ps, hps, rfl⟩ := nodes_eq_some.1 hq
          have hlt' : ps.createdSeq < s.createdSeq := hlt
          -- the parent was created before, so both walks still have fuel for it
          rw [ih ps.createdSeq (by omega) p ps hps (le_refl _) m n (by omega) (by omega)]

/-- A child is deeper than its parent. -/
theorem depthOf_lt {a : Aggregator} (hf : ForestInv a) {p : StreamId} {s ps : Stream}
    (hp : s.parent = some p) (hps : a.get p = some ps) :
    a.depthOf ps < a.depthOf s := by
  have hlt : ps.createdSeq < a.nextSeq := hf.forest.rank_lt (nodes_of_get hps)
  obtain ⟨n, hn⟩ := Nat.exists_eq_succ_of_ne_zero (Nat.ne_zero_of_lt hlt)
  unfold depthOf
  rw [hp, hn]
  simp only [Nat.succ_eq_add_one, ancestorCount, hps, Option.bind_some]
  cases hpp : ps.parent with
  | none => simp only [ancestorCount]; omega
  | some q =>
      obtain ⟨m, hm, hlt', -⟩ := hf.forest.parent_node (nodes_of_get hps) hpp
      obtain ⟨qs, hqs, rfl⟩ := nodes_eq_some.1 hm
      have hqlt : qs.createdSeq < ps.createdSeq := hlt'
      have hfuel := ancestorCount_fuel hf qs.createdSeq q qs hqs (le_refl _) (n + 1) n (by omega)
        (by omega)
      omega

/-- What is left to close while `finish` runs under the `Live` policy: exactly the ids of `todo`, deeper
ones first, where `depth` is the depth each id had at the start. -/
structure Closing (depth : StreamId → Nat) (todo : List StreamId) (b : Aggregator) : Prop where
  nodup : todo.Nodup
  mem : ∀ h, h ∈ todo ↔ ∃ s, b.get h = some s
  deeper : todo.Pairwise fun x y => depth y ≤ depth x
  parent : ∀ {h s p}, b.get h = some s → s.parent = some p → depth p < depth h

/-- The stream to close next is a leaf. -/
theorem Closing.leaf {depth : StreamId → Nat} {id : StreamId} {todo : List StreamId} {b : Aggregator}
    (hf : ForestInv b) (h : Closing depth (id :: todo) b) :
    ∃ s, b.get id = some s ∧ s.children = [] := by
  obtain ⟨s, hs⟩ := (h.mem id).1 List.mem_cons_self
  refine ⟨s, hs, List.eq_nil_iff_forall_not_mem.2 fun c hc => ?_⟩
  obtain ⟨m, hm, hmp⟩ := hf.forest.child_node (nodes_of_get hs) hc
  obtain ⟨cs, hcs, rfl⟩ := nodes_eq_some.1 hm
  -- a child is still to be closed, hence not deeper than the next in line
  have hdeep : depth id < depth c := h.parent hcs hmp
  rcases List.mem_cons.1 ((h.mem c).2 ⟨cs, hcs⟩) with rfl | hmem
  · exact Nat.lt_irrefl _ hdeep
  · have hle := List.rel_of_pairwise_cons h.deeper hmem
    omega

theorem Closing.evict {env : Env} {depth : StreamId → Nat} {id : StreamId} {todo : List StreamId}
    {b : Aggregator} {reason : CloseReason} (h : Closing depth (id :: todo) b) {s : Stream}
    (hs : b.get id = some s) : Closing depth todo (b.evict env id reason) := by
  -- evictions keep the frames of the others
  have hget : ∀ {x t}, (b.evict env id reason).get x = some t →
      x ≠ id ∧ ∃ u, b.get x = some u ∧ u.parent = t.parent := by
    intro x t ht
    obtain ⟨hne, hx⟩ := (frames_of_evict env reason hs).1 (frames_of_get ht)
    obtain ⟨u, hu, hut⟩ := frames_eq_some.1 hx
    exact ⟨hne, u, hu, congrArg Frame.parent hut⟩
  obtain ⟨hnot, hnodup⟩ := List.nodup_cons.1 h.nodup
  refine ⟨hnodup, ?_, h.deeper.of_cons, ?_⟩
  · intro x
    constructor
    · intro hx
      obtain ⟨t, ht⟩ := (h.mem x).1 (List.mem_cons_of_mem _ hx)
      have hne : x ≠ id := fun e => hnot (e ▸ hx)
      exact live_iff_frames.2 ⟨_, (frames_of_evict env reason hs).2 ⟨hne, frames_of_get ht⟩⟩
    · rintro ⟨t, ht⟩
      obtain ⟨hne, u, hu, -⟩ := hget ht
      exact (List.mem_cons.1 ((h.mem x).2 ⟨u, hu⟩)).resolve_left hne
  · intro x t p ht htp
    obtain ⟨-, u, hu, hup⟩ := hget ht
    exact h.parent hu (hup.trans htp)

/-- Streams are told apart by their ids. -/
theorem ForestInv.ids_nodup {a : Aggregator} (hf : ForestInv a) : (a.streams.map Stream.id).Nodup := by
  rw [List.Nodup, List.pairwise_map]
  apply Arena.values_pairwise
  intro h k v w hne hv hw hid
  exact hne ((hf.id_eq hv).symm.trans (hid.trans (hf.id_eq hw)))

theorem finishOrder_perm (a : Aggregator) :
    (a.finishOrder.map FinishEntry.id).Perm (a.streams.map Stream.id) := by
  rw [finishOrder]
  apply ((List.perm_insertionSort _ _).map _).trans
  rw [List.map_map]
  exact List.Perm.refl _

/-- The order of `finish` closes exactly the live streams, deeper ones first. -/
theorem closing_finishOrder {a : Aggregator} (hf : ForestInv a) :
    Closing (fun h => ((a.get h).map a.depthOf).getD 0) (a.finishOrder.map FinishEntry.id) a := by
  constructor
  case nodup => exact (finishOrder_perm a).nodup_iff.2 hf.ids_nodup
  case mem =>
    intro h
    rw [(finishOrder_perm a).mem_iff, List.mem_map]
    constructor
    · rintro ⟨s, hs, rfl⟩
      obtain ⟨i, hi⟩ := mem_streams.1 hs
      rw [hf.id_eq hi]
      exact ⟨s, hi⟩
    · rintro ⟨s, hs⟩
      exact ⟨s, mem_streams.2 ⟨h, hs⟩, hf.id_eq hs⟩
  case deeper =>
    rw [List.pairwise_map]
    have hdepth : ∀ e ∈ a.finishOrder, ((a.get e.id).map a.depthOf).getD 0 = e.depth := by
      intro e he
      obtain ⟨s, hs, rfl⟩ := List.mem_map.1 ((List.mem_insertionSort _).1 he)
      obtain ⟨i, hi⟩ := mem_streams.1 hs
      simp only [hf.id_eq hi, hi, Option.map_some, Option.getD_some]
    apply (List.pairwise_insertionSort FinishEntry.before _).imp_of_mem
    intro x y hx hy hxy
    rw [hdepth x hx, hdepth y hy]
    rcases hxy with hlt | ⟨heq, -⟩
    · exact Nat.le_of_lt hlt
    · exact Nat.le_of_eq heq
  case parent =>
    intro h s p hs hp
    obtain ⟨-, ps, hps⟩ := hf.parent_live hs hp
    simp only [hs, hps, Option.map_some, Option.getD_some]
    exact depthOf_lt hf hp hps

theorem finishOne_live {env : Env} {idle linger : Duration} {cap : Nat}
    (hev : env.config.eviction = .live idle linger cap) (a : Aggregator) (id : StreamId) :
    finishOne env a id = a.evict env id .captureEnd := by
  simp only [finishOne, hev]

theorem finishOne_none {env : Env} (hev : env.config.eviction = .none) (a : Aggregator) (id : StreamId) :
    finishOne env a id = a.closeStream env id := by
  simp only [finishOne, hev]

/-- While `finish` closes the streams of a list under the `Live` policy, each is a leaf when its turn
comes. -/
theorem EvictStable.closing {env : Env} {I : Aggregator → Prop} {a : Aggregator} {idle linger : Duration}
    {cap : Nat} (hI : EvictStable env I) (hev : env.config.eviction = .live idle linger cap)
    {depth : StreamId → Nat} {before todo : List StreamId} (hf : ForestInv a) (h : I a)
    (hclosing : Closing depth (before ++ todo) a) :
    ForestInv (before.foldl (finishOne env) a) ∧ I (before.foldl (finishOne env) a) ∧
      Closing depth todo (before.foldl (finishOne env) a) := by
  induction before generalizing a with
  | nil => exact ⟨hf, h, hclosing⟩
  | cons id before ih =>
      -- the head of the list is a live leaf, and the rest of the list stays to be closed
      obtain ⟨s, hs, hc⟩ := hclosing.leaf hf
      rw [List.foldl_cons, finishOne_live hev]
      exact ih (hf.evict _ hs hc) (hI.evict _ hf hs hc h) (hclosing.evict hs)

/-- `finish` keeps what evictions of leaves and closes in place keep. -/
theorem EvictStable.finish {env : Env} {I : Aggregator → Prop} {a : Aggregator}
    (hI : EvictStable env I) (hf : ForestInv a) (h : I a) :
    ForestInv (a.finish env) ∧ I (a.finish env) := by
  cases hev : env.config.eviction with
  | none =>
      rw [Aggregator.finish]
      generalize a.finishOrder.map FinishEntry.id = todo
      induction todo generalizing a with
      | nil => exact ⟨hf, h⟩
      | cons id todo ih =>
          -- without eviction the streams stay where they are, and any order will do
          rw [List.foldl_cons, finishOne_none hev]
          exact ih (hf.closeStream id) (hI.close id h)
  | live idle linger cap =>
      have hclosing := closing_finishOrder hf
      rw [← List.append_nil (a.finishOrder.map FinishEntry.id)] at hclosing
      obtain ⟨hf', h', -⟩ := hI.closing hev hf h hclosing
      exact ⟨hf', h'⟩

/-! ## The walk over the layers -/

/-- The arena of `a` still has room: slot indices are `u32`. -/
def Fits (a : Aggregator) : Prop := a.arena.slots.length < idLimit

@[simp] theorem slots_addMember (a : Aggregator) (ckey : CondenseKey) (id : StreamId)
    (digest : UInt64) :
    (a.addMember ckey id digest).arena.slots.length = a.arena.slots.length := by
  have h := addMember_spec a ckey id digest
  generalize a.addMember ckey id digest = b at h
  cases h with
  | known => rfl
  | counted _ _ => exact Arena.length_modify _ _ _
  | overflow => exact Arena.length_modify _ _ _

/-- A resolution adds at most one slot, and gives none back. -/
theorem Resolution.slots_le {env : Env} {a : Aggregator} {parent : Option StreamId} {key : FlowKey}
    {identity : StreamIdentity} {condense : Option CondenseSpec} {layer : LayerRecord}
    {dir : PacketDirection} {ts : SystemTime} {r : Aggregator × StreamId × PacketDirection}
    (h : Resolution env a parent key identity condense layer dir ts r) :
    a.arena.slots.length ≤ r.1.arena.slots.length ∧
      r.1.arena.slots.length ≤ a.arena.slots.length + 1 := by
  cases h with
  | hit _ _ _ => exact ⟨le_refl _, Nat.le_succ _⟩
  | member _ _ _ _ _ =>
      rw [slots_addMember]
      exact ⟨le_refl _, Nat.le_succ _⟩
  | node _ _ _ _ _ =>
      rw [slots_addMember]
      exact slots_create env a _
  | fresh _ _ => exact slots_create env a _

theorem Resolution.fits {env : Env} {a : Aggregator} {parent : Option StreamId} {key : FlowKey}
    {identity : StreamIdentity} {condense : Option CondenseSpec} {layer : LayerRecord}
    {dir : PacketDirection} {ts : SystemTime} {r : Aggregator × StreamId × PacketDirection}
    (h : Resolution env a parent key identity condense layer dir ts r) (hfits : r.1.Fits) : a.Fits :=
  lt_of_le_of_lt h.slots_le.1 hfits

/-- The per-layer update changes no slot count. -/
theorem fits_of_touch {env : Env} {a : Aggregator} {id : StreamId} {identity : StreamIdentity}
    {layer : LayerRecord} {key : FlowKey} {dir : PacketDirection} {ts : SystemTime} {origlen : Nat}
    (hfits : (a.touch env id identity layer key dir ts origlen).Fits) : a.Fits :=
  lt_of_eq_of_lt (Arena.length_modify _ _ _).symm hfits

/-- A layer of the walk adds at most one slot, and gives none back. -/
theorem LayerStep.slots_le {env : Env} {pkt : DissectedPacket} {w w' : Walk} {layer : LayerRecord}
    (h : LayerStep env pkt w layer w') :
    w.agg.arena.slots.length ≤ w'.agg.arena.slots.length ∧
      w'.agg.arena.slots.length ≤ w.agg.arena.slots.length + 1 := by
  cases h with
  | skip _ => exact ⟨le_refl _, Nat.le_succ _⟩
  | keyError _ _ => exact ⟨le_refl _, Nat.le_succ _⟩
  | folded _ _ hr =>
      have hmod : ∀ (b : Aggregator) (id : StreamId) (f : Stream → Stream),
          (b.arena.modify id f).slots.length = b.arena.slots.length := fun b id f =>
        Arena.length_modify b.arena id f
      simp only [touch, hmod]
      exact hr.slots_le

theorem LayerStep.fits {env : Env} {pkt : DissectedPacket} {w w' : Walk} {layer : LayerRecord}
    (h : LayerStep env pkt w layer w') (hfits : w'.agg.Fits) : w.agg.Fits :=
  lt_of_le_of_lt h.slots_le.1 hfits

/-- The parent of the next layer, if any, is live. -/
def Linked (a : Aggregator) (parent : Option StreamId) : Prop :=
  ∀ p, parent = some p → ∃ s, a.get p = some s

namespace ForestInv

variable {env : Env} {a : Aggregator}

theorem addMember (h : ForestInv a) (ckey : CondenseKey) (id : StreamId) (digest : UInt64) :
    ForestInv (a.addMember ckey id digest) := by
  have hm := addMember_spec a ckey id digest
  generalize a.addMember ckey id digest = b at hm
  cases hm with
  | known => exact h
  | counted _ _ =>
      have hmod : ForestInv (a.modify id Stream.countMember) :=
        h.modify id (fun _ => rfl) fun _ => rfl
      exact hmod.congr rfl rfl rfl rfl
  | overflow => exact h.modify id (fun _ => rfl) fun _ => rfl

theorem touch (h : ForestInv a) (id : StreamId) (identity : StreamIdentity) (layer : LayerRecord)
    (key : FlowKey) (dir : PacketDirection) (ts : SystemTime) (origlen : Nat) :
    ForestInv (a.touch env id identity layer key dir ts origlen) := by
  have hmod : ForestInv (a.modify id fun s => (s.absorb identity layer key dir ts origlen).1) :=
    h.modify id (fun s => s.absorb_node identity layer key dir ts origlen)
      fun s => congrArg Frame.id (s.absorb_frame identity layer key dir ts origlen)
  exact hmod.congr rfl rfl rfl rfl

end ForestInv

/-- The frames of live streams survive the membership part of `condense_fold`. -/
theorem frames_addMember (a : Aggregator) (ckey : CondenseKey) (id : StreamId) (digest : UInt64) :
    (a.addMember ckey id digest).frames = a.frames := by
  have hm := addMember_spec a ckey id digest
  generalize a.addMember ckey id digest = b at hm
  cases hm with
  | known => rfl
  | counted _ _ => exact frames_modify _ id Stream.countMember_frame
  | overflow => exact frames_modify a id Stream.markOverflow_frame

theorem frames_touch (env : Env) (a : Aggregator) (id : StreamId) (identity : StreamIdentity)
    (layer : LayerRecord) (key : FlowKey) (dir : PacketDirection) (ts : SystemTime) (origlen : Nat) :
    (a.touch env id identity layer key dir ts origlen).frames = a.frames :=
  frames_modify a id fun s => s.absorb_frame identity layer key dir ts origlen

/-- Resolution keeps the forest and leads to a live stream. -/
theorem ForestInv.resolution {env : Env} {a : Aggregator} {parent : Option StreamId} {key : FlowKey}
    {identity : StreamIdentity} {condense : Option CondenseSpec} {layer : LayerRecord}
    {dir : PacketDirection} {ts : SystemTime} {r : Aggregator × StreamId × PacketDirection}
    (h : ForestInv a) (hp : a.Linked parent)
    (hr : Resolution env a parent key identity condense layer dir ts r) (hfits : r.1.Fits) :
    ForestInv r.1 ∧ ∃ s, r.1.get r.2.1 = some s := by
  have hlim : a.Fits := hr.fits hfits
  -- a creation under the walk's parent, whatever the record
  have hnew : ∀ n : NewStream, n.parent = parent → ForestInv (a.createStreamRaw env n).1 ∧
      (a.createStreamRaw env n).1.frames a.freshId = some (n.record a.freshId a.nextSeq).frame := by
    intro n hn
    have hp' : ∀ p, n.parent = some p → ∃ s, a.get p = some s := by
      rw [hn]
      exact hp
    refine ⟨h.create hlim hp', ?_⟩
    exact (frames_of_create env hlim hp').2 (.inl ⟨rfl, rfl⟩)
  cases hr with
  | hit _ hs _ => exact ⟨h, _, hs⟩
  | member _ _ _ _ hs =>
      refine ⟨h.addMember _ _ _, ?_⟩
      rw [live_iff_frames, frames_addMember]
      exact ⟨_, frames_of_get hs⟩
  | @node cs c group _ _ _ _ _ =>
      obtain ⟨hforest, hframe⟩ := hnew (nodeStream env (parent, layer.protocol, c.anchor) identity c ts) rfl
      have hnode : ForestInv (a.createNode env (parent, layer.protocol, c.anchor) group identity c ts).1 :=
        hforest.congr rfl rfl rfl rfl
      refine ⟨hnode.addMember _ _ _, ?_⟩
      rw [live_iff_frames, frames_addMember]
      exact ⟨_, hframe⟩
  | fresh _ _ =>
      obtain ⟨hforest, hframe⟩ := hnew (layerStream env parent key identity layer dir ts) rfl
      exact ⟨hforest.congr rfl rfl rfl rfl, live_iff_frames.2 ⟨_, hframe⟩⟩

/-- What holds between the layers of a walk: the forest invariant, and a live parent. -/
structure WalkInv (w : Walk) : Prop where
  forest : ForestInv w.agg
  linked : w.agg.Linked w.parent

theorem WalkInv.layerStep {env : Env} {pkt : DissectedPacket} {w w' : Walk} {layer : LayerRecord}
    (h : WalkInv w) (hstep : LayerStep env pkt w layer w') (hfits : w'.agg.Fits) : WalkInv w' := by
  cases hstep with
  | skip _ => exact h
  | keyError _ _ => exact ⟨h.forest.congr rfl rfl rfl rfl, h.linked⟩
  | folded _ _ hr =>
      have hfits' := fits_of_touch hfits
      obtain ⟨hforest, hlive⟩ := h.forest.resolution h.linked hr hfits'
      refine ⟨hforest.touch _ _ _ _ _ _ _, ?_⟩
      rintro p hp
      obtain rfl := Option.some.inj hp
      obtain ⟨f, hf⟩ := live_iff_frames.1 hlive
      refine live_iff_frames.2 ⟨f, ?_⟩
      rw [frames_touch]
      exact hf

theorem walkLayers_append (env : Env) (a : Aggregator) (pkt : DissectedPacket)
    (layers : List LayerRecord) (layer : LayerRecord) :
    a.walkLayers env pkt (layers ++ [layer]) =
      ingestLayer env pkt (a.walkLayers env pkt layers) layer := by
  simp only [walkLayers, List.foldl_append, List.foldl_cons, List.foldl_nil]

/-- The rule for the walk: a property of the layers so far and the local state that holds before the
first layer and is kept by each layer holds after every prefix of the layers. -/
theorem walk_rule {env : Env} {pkt : DissectedPacket} {a : Aggregator}
    {I : List LayerRecord → Walk → Prop} (hf : ForestInv (a.beforeWalk env pkt))
    (h : I [] { agg := a.beforeWalk env pkt })
    (hstep : ∀ {layers : List LayerRecord} {w w' : Walk} {layer : LayerRecord}, WalkInv w →
      w' = ingestLayer env pkt w layer → LayerStep env pkt w layer w' → w'.agg.Fits → I layers w →
      I (layers ++ [layer]) w')
    (layers : List LayerRecord) (hfits : (a.walkLayers env pkt layers).agg.Fits) :
    WalkInv (a.walkLayers env pkt layers) ∧ I layers (a.walkLayers env pkt layers) := by
  induction layers using List.reverseRecOn with
  | nil =>
      refine ⟨⟨hf, ?_⟩, h⟩
      intro p hp
      cases hp
  | append_singleton layers layer ih =>
      have hspec := ingestLayer_spec env pkt (a.walkLayers env pkt layers) layer
      rw [walkLayers_append] at hfits ⊢
      -- slots are never given back, so the walk fitted before this layer too
      obtain ⟨hw, hI⟩ := ih (hspec.fits hfits)
      exact ⟨hw.layerStep hspec hfits, hstep hw rfl hspec hfits hI⟩

/-! ## The parts of one ingest -/

theorem LoopStep.slots_eq {env : Env} {a b : Aggregator} {expiry : MinHeap ExpiryEntry}
    {lru : MinHeap LruEntry} (h : LoopStep env a expiry lru b) :
    b.arena.slots.length = a.arena.slots.length := by
  cases h with
  | heaps => rfl
  | evict reason _ _ => exact slots_evict env _ _ _

/-- The cap gives no slot back. -/
theorem slots_enforceMaxStreams (env : Env) (a : Aggregator) :
    (a.enforceMaxStreams env).arena.slots.length = a.arena.slots.length := by
  refine Loop.iterate_invariant (I := fun b : Aggregator => b.arena.slots.length = a.arena.slots.length) ?_ _ rfl
  intro x y hx hxy
  obtain ⟨lru, hstep⟩ := enforceBody_step hxy
  rw [hstep.slots_eq, hx]

@[simp] theorem arena_addUnknown (env : Env) (a : Aggregator) (pkt : DissectedPacket)
    (endpoint : Option EndpointKey) : (a.addUnknown env pkt endpoint).arena = a.arena := by
  rw [addUnknown]
  cases pkt.unknown <;> rfl

theorem slots_addOpaque (a : Aggregator) (innermost : Option StreamId) (n : Nat) :
    (a.addOpaque innermost n).arena.slots.length = a.arena.slots.length := by
  cases innermost with
  | none => rfl
  | some id => exact Arena.length_modify _ _ _

/-- After its walk an ingest changes no slot count. -/
theorem slots_ingest (env : Env) (a : Aggregator) (pkt : DissectedPacket) :
    (a.ingest env pkt).arena.slots.length =
      (a.walkLayers env pkt pkt.layers).agg.arena.slots.length := by
  rw [ingest]
  rw [slots_enforceMaxStreams]
  rw [beforeEnforce]
  rw [arena_addUnknown, slots_addOpaque]

/-- An ingest that fits fitted at the end of its walk. -/
theorem fits_walk {env : Env} {a : Aggregator} {pkt : DissectedPacket}
    (h : (a.ingest env pkt).Fits) : (a.walkLayers env pkt pkt.layers).agg.Fits :=
  lt_of_eq_of_lt (slots_ingest env a pkt).symm h

/-- A walk that fits fitted after every prefix of its layers. -/
theorem fits_of_append {env : Env} {a : Aggregator} {pkt : DissectedPacket}
    (layers rest : List LayerRecord) (h : (a.walkLayers env pkt (layers ++ rest)).agg.Fits) :
    (a.walkLayers env pkt layers).agg.Fits := by
  induction rest using List.reverseRecOn with
  | nil => simpa using h
  | append_singleton rest layer ih =>
      rw [← List.append_assoc, walkLayers_append] at h
      exact ih ((ingestLayer_spec env pkt _ layer).fits h)

/-- The rule for what follows the walk: the opaque tail and the unknown registry. -/
theorem afterWalk_rule {env : Env} {pkt : DissectedPacket} {I : Aggregator → Prop}
    (htail : ∀ {a : Aggregator} (id : StreamId) (n : Nat), I a →
      I (a.modify id fun s => s.addOpaqueBytes n))
    (hunknown : ∀ {a : Aggregator} (u : UnknownRegistry), I a → I { a with unknowns := u }) {w : Walk}
    (hw : WalkInv w) (h : I w.agg) :
    ForestInv ((w.agg.addOpaque w.parent pkt.opaqueLen).addUnknown env pkt w.lastEndpoint) ∧
      I ((w.agg.addOpaque w.parent pkt.opaqueLen).addUnknown env pkt w.lastEndpoint) := by
  have hadded : ForestInv (w.agg.addOpaque w.parent pkt.opaqueLen) ∧
      I (w.agg.addOpaque w.parent pkt.opaqueLen) := by
    cases w.parent with
    | none => exact ⟨hw.forest, h⟩
    | some id => exact ⟨hw.forest.modify id (fun _ => rfl) fun _ => rfl, htail id _ h⟩
  simp only [addUnknown]
  cases pkt.unknown with
  | none => exact hadded
  | some diag => exact ⟨hadded.1.congr rfl rfl rfl rfl, hunknown _ hadded.2⟩

/-! ## Runs -/

/-- A property kept by every step of the ingest of one packet; the layer step may rely on `G`, a
property already known of every state. -/
structure IngestStable (env : Env) (pkt : DissectedPacket) (G I : Aggregator → Prop) : Prop
    extends LoopStable env I where
  layer : ∀ {w w' : Walk} {layer : LayerRecord}, WalkInv w → G w.agg →
    LayerStep env pkt w layer w' → w'.agg.Fits → I w.agg → I w'.agg
  tail : ∀ {a : Aggregator} (id : StreamId) (n : Nat), I a →
    I (a.modify id fun s => s.addOpaqueBytes n)
  unknown : ∀ {a : Aggregator} (u : UnknownRegistry), I a → I { a with unknowns := u }

/-- Two properties, the second resting on the first. -/
theorem IngestStable.and {env : Env} {pkt : DissectedPacket} {G I : Aggregator → Prop}
    (hG : IngestStable env pkt (fun _ => True) G) (hI : IngestStable env pkt G I) :
    IngestStable env pkt (fun _ => True) fun a => G a ∧ I a where
  sweepBody := fun hf h hab => ⟨hG.sweepBody hf h.1 hab, hI.sweepBody hf h.2 hab⟩
  enforceBody := fun hf h hab => ⟨hG.enforceBody hf h.1 hab, hI.enforceBody hf h.2 hab⟩
  compactLru := fun hf h => ⟨hG.compactLru hf h.1, hI.compactLru hf h.2⟩
  layer := fun hw _ hstep hfits h =>
    ⟨hG.layer hw trivial hstep hfits h.1, hI.layer hw h.1 hstep hfits h.2⟩
  tail := fun id n h => ⟨hG.tail id n h.1, hI.tail id n h.2⟩
  unknown := fun u h => ⟨hG.unknown u h.1, hI.unknown u h.2⟩

namespace IngestStable

variable {env : Env} {I : Aggregator → Prop} {a : Aggregator} {pkt : DissectedPacket}

/-- Between the layers of an ingest. -/
theorem walk (hI : IngestStable env pkt (fun _ => True) I) (hf : ForestInv a) (h : I (a.tick pkt))
    {layers : List LayerRecord} (hfits : (a.walkLayers env pkt layers).agg.Fits) :
    WalkInv (a.walkLayers env pkt layers) ∧ I (a.walkLayers env pkt layers).agg := by
  refine walk_rule (I := fun _ w => I w.agg) (hf.beforeWalk pkt) ?_ ?_ layers hfits
  · exact hI.beforeWalk hf h
  · intro layers w w' layer hw _ hstep hfits hw'
    exact hI.layer hw trivial hstep hfits hw'

/-- When `enforce_max_streams` is called. -/
theorem beforeEnforce (hI : IngestStable env pkt (fun _ => True) I) (hf : ForestInv a)
    (h : I (a.tick pkt)) (hfits : (a.ingest env pkt).Fits) :
    ForestInv (a.beforeEnforce env pkt) ∧ I (a.beforeEnforce env pkt) := by
  obtain ⟨hw, hIw⟩ := hI.walk hf h (fits_walk hfits)
  exact afterWalk_rule hI.tail hI.unknown hw hIw

theorem ingest (hI : IngestStable env pkt (fun _ => True) I) (hf : ForestInv a)
    (h : I (a.tick pkt)) (hfits : (a.ingest env pkt).Fits) :
    ForestInv (a.ingest env pkt) ∧ I (a.ingest env pkt) := by
  obtain ⟨hf', h'⟩ := hI.beforeEnforce hf h hfits
  exact hI.passes_enforce hf' h' (Loop.passes_iterate _ _ _)

end IngestStable

/-- A property kept by every step of a run that does not depend on the heaps. -/
structure RunStable (env : Env) (G I : Aggregator → Prop) : Prop extends HeapFree env I where
  new : I Aggregator.new
  tick : ∀ {a : Aggregator} (pkt : DissectedPacket), I a → I (a.tick pkt)
  layer : ∀ {pkt : DissectedPacket} {w w' : Walk} {layer : LayerRecord}, WalkInv w → G w.agg →
    LayerStep env pkt w layer w' → w'.agg.Fits → I w.agg → I w'.agg
  tail : ∀ {a : Aggregator} (id : StreamId) (n : Nat), I a →
    I (a.modify id fun s => s.addOpaqueBytes n)
  unknown : ∀ {a : Aggregator} (u : UnknownRegistry), I a → I { a with unknowns := u }

/-- Two properties, the second resting on the first. -/
theorem RunStable.and {env : Env} {G I : Aggregator → Prop}
    (hG : RunStable env (fun _ => True) G) (hI : RunStable env G I) :
    RunStable env (fun _ => True) fun a => G a ∧ I a where
  close := fun id h => ⟨hG.close id h.1, hI.close id h.2⟩
  evict := fun reason hf hs hc h => ⟨hG.evict reason hf hs hc h.1, hI.evict reason hf hs hc h.2⟩
  heaps := fun expiry lru h => ⟨hG.heaps expiry lru h.1, hI.heaps expiry lru h.2⟩
  new := ⟨hG.new, hI.new⟩
  tick := fun pkt h => ⟨hG.tick pkt h.1, hI.tick pkt h.2⟩
  layer := fun hw _ hstep hfits h =>
    ⟨hG.layer hw trivial hstep hfits h.1, hI.layer hw h.1 hstep hfits h.2⟩
  tail := fun id n h => ⟨hG.tail id n h.1, hI.tail id n h.2⟩
  unknown := fun u h => ⟨hG.unknown u h.1, hI.unknown u h.2⟩

namespace RunStable

variable {env : Env} {G I : Aggregator → Prop} {a : Aggregator} {pkt : DissectedPacket}

theorem ingestStable (hI : RunStable env G I) (pkt : DissectedPacket) : IngestStable env pkt G I where
  toLoopStable := hI.toHeapFree.loopStable
  layer := hI.layer
  tail := hI.tail
  unknown := hI.unknown

/-- Between the layers of an ingest. -/
theorem walk (hI : RunStable env (fun _ => True) I) (hf : ForestInv a) (h : I a)
    {layers : List LayerRecord} (hfits : (a.walkLayers env pkt layers).agg.Fits) :
    WalkInv (a.walkLayers env pkt layers) ∧ I (a.walkLayers env pkt layers).agg :=
  (hI.ingestStable pkt).walk hf (hI.tick pkt h) hfits

/-- When `enforce_max_streams` is called. -/
theorem beforeEnforce (hI : RunStable env (fun _ => True) I) (hf : ForestInv a) (h : I a)
    (hfits : (a.ingest env pkt).Fits) :
    ForestInv (a.beforeEnforce env pkt) ∧ I (a.beforeEnforce env pkt) :=
  (hI.ingestStable pkt).beforeEnforce hf (hI.tick pkt h) hfits

theorem ingest (hI : RunStable env (fun _ => True) I) (hf : ForestInv a) (h : I a)
    (hfits : (a.ingest env pkt).Fits) : ForestInv (a.ingest env pkt) ∧ I (a.ingest env pkt) :=
  (hI.ingestStable pkt).ingest hf (hI.tick pkt h) hfits

/-- The run rule: the property holds in every reachable state. -/
theorem reaches (hI : RunStable env (fun _ => True) I) {ops : List Op} (h : Reaches env ops a) :
    ForestInv a ∧ I a := by
  induction h with
  | new => exact ⟨ForestInv.new, hI.new⟩
  | call op _ hfits ih =>
      obtain ⟨hf, h⟩ := ih
      cases op with
      | ingest pkt => exact hI.ingest hf h hfits
      | finish => exact hI.toEvictStable.finish hf h

end RunStable

/-- The states in which a layer may be resolved: between two calls, and between the layers of an
ingest. -/
inductive Visits (env : Env) : Aggregator → Prop
  | between {ops : List Op} {a : Aggregator} : Reaches env ops a → Visits env a
  | layer {ops : List Op} {a : Aggregator} {pkt : DissectedPacket} {layers rest : List LayerRecord} :
      Reaches env ops a → (a.ingest env pkt).Fits → pkt.layers = layers ++ rest →
      Visits env (a.walkLayers env pkt layers).agg

theorem RunStable.visits {env : Env} {I : Aggregator → Prop} {a : Aggregator}
    (hI : RunStable env (fun _ => True) I) (h : Visits env a) : ForestInv a ∧ I a := by
  cases h with
  | between hr => exact hI.reaches hr
  | layer hr hfits hlayers =>
      obtain ⟨hf, h⟩ := hI.reaches hr
      -- the arena of a prefix of the walk is no larger than that of the whole ingest
      have hwalk := fits_walk hfits
      rw [hlayers] at hwalk
      obtain ⟨hw, hI'⟩ := hI.walk hf h (fits_of_append _ _ hwalk)
      exact ⟨hw.forest, hI'⟩

/-- `EvictCall env b id reason`: in some run `evict` is called on the state `b` with `id` and `reason`,
by the timeout sweep, by the cap or by the end of a live capture. -/
inductive EvictCall (env : Env) : Aggregator → StreamId → CloseReason → Prop
  | sweep {ops : List Op} {a b c : Aggregator} {pkt : DissectedPacket} {id : StreamId}
      {reason : CloseReason} : Reaches env ops a → Loop.Passes (sweepBody env) (a.tick pkt) b →
      b.sweepPick env = .evict c id reason → EvictCall env c id reason
  | cap {ops : List Op} {a b c : Aggregator} {pkt : DissectedPacket} {id : StreamId}
      {reason : CloseReason} : Reaches env ops a → (a.ingest env pkt).Fits →
      Loop.Passes (enforceBody env) (a.beforeEnforce env pkt) b →
      b.enforcePick env = .evict c id reason → EvictCall env c id reason
  | finish {ops : List Op} {a : Aggregator} {before after : List StreamId} {id : StreamId}
      {idle linger : Duration} {cap : Nat} : Reaches env ops a →
      env.config.eviction = .live idle linger cap →
      a.finishOrder.map FinishEntry.id = before ++ id :: after →
      EvictCall env (before.foldl (finishOne env) a) id .captureEnd

/-- At every call of `evict` the stream is a live leaf, and the properties of runs hold. -/
theorem RunStable.evictCall {env : Env} {I : Aggregator → Prop} {b : Aggregator} {id : StreamId}
    {reason : CloseReason} (hI : RunStable env (fun _ => True) I) (h : EvictCall env b id reason) :
    ForestInv b ∧ I b ∧ ∃ s, b.get id = some s ∧ s.children = [] := by
  cases h with
  | sweep hr hp hpick =>
      obtain ⟨hf, h⟩ := hI.reaches hr
      obtain ⟨hfb, hb⟩ := hI.toHeapFree.loopStable.passes_sweep (hf.tick _) (hI.tick _ h) hp
      obtain ⟨expiry, lru, s, rfl, hs, hc⟩ := sweepPick_evict hpick
      exact ⟨hfb.congr rfl rfl rfl rfl, hI.heaps _ _ hb, s, hs, hc⟩
  | cap hr hfits hp hpick =>
      obtain ⟨hf, h⟩ := hI.reaches hr
      obtain ⟨hf', h'⟩ := hI.beforeEnforce hf h hfits
      obtain ⟨hfb, hb⟩ := hI.toHeapFree.loopStable.passes_enforce hf' h' hp
      obtain ⟨expiry, lru, s, rfl, hs, hc⟩ := enforcePick_evict hpick
      exact ⟨hfb.congr rfl rfl rfl rfl, hI.heaps _ _ hb, s, hs, hc⟩
  | finish hr hev horder =>
      obtain ⟨hf, h⟩ := hI.reaches hr
      -- the streams before `id` in the order are gone, so `id` heads what is left
      have hclosing := closing_finishOrder hf
      rw [horder] at hclosing
      obtain ⟨hfb, hb, htodo⟩ := hI.closing hev hf h hclosing
      exact ⟨hfb, hb, htodo.leaf hfb⟩

/-- The forest invariant needs nothing else. -/
theorem runStable_true (env : Env) : RunStable env (fun _ => True) fun _ => True where
  toHeapFree := heapFree_true env
  new := trivial
  tick := fun _ _ => trivial
  layer := fun _ _ _ _ _ => trivial
  tail := fun _ _ _ => trivial
  unknown := fun _ _ => trivial

/-- Every reachable state is a ranked forest. -/
theorem forestInv_of_reaches {env : Env} {ops : List Op} {a : Aggregator} (h : Reaches env ops a) :
    ForestInv a :=
  ((runStable_true env).reaches h).1

/-! ## The number of slots -/

theorem slots_sweep (env : Env) (a : Aggregator) :
    (a.sweep env).arena.slots.length = a.arena.slots.length := by
  refine Loop.iterate_invariant (I := fun b : Aggregator => b.arena.slots.length =
    a.arena.slots.length) ?_ _ rfl
  intro x y hx hxy
  obtain ⟨expiry, hstep⟩ := sweepBody_step hxy
  rw [hstep.slots_eq, hx]

@[simp] theorem arena_compactLru (a : Aggregator) : a.compactLru.arena = a.arena := by
  obtain ⟨lru, heq⟩ := compactLru_eq a
  rw [heq]

/-- A walk adds at most one slot for each layer. -/
theorem slots_walk_le (env : Env) (a : Aggregator) (pkt : DissectedPacket)
    (layers : List LayerRecord) :
    (a.walkLayers env pkt layers).agg.arena.slots.length ≤ a.arena.slots.length + layers.length := by
  induction layers using List.reverseRecOn with
  | nil =>
      have hbefore : (a.beforeWalk env pkt).arena.slots.length = a.arena.slots.length := by
        rw [beforeWalk]
        rw [arena_compactLru, slots_sweep]
        rfl
      exact le_of_eq hbefore
  | append_singleton layers layer ih =>
      have hstep := (ingestLayer_spec env pkt (a.walkLayers env pkt layers) layer).slots_le.2
      rw [walkLayers_append, List.length_append, List.length_singleton]
      omega

theorem slots_finish (env : Env) (a : Aggregator) :
    (a.finish env).arena.slots.length = a.arena.slots.length := by
  rw [finish]
  generalize a.finishOrder.map FinishEntry.id = todo
  induction todo generalizing a with
  | nil => rfl
  | cons id todo ih =>
      have hone : (finishOne env a id).arena.slots.length = a.arena.slots.length := by
        rw [finishOne]
        cases env.config.eviction with
        | live _ _ _ => exact slots_evict env a id _
        | none =>
            obtain ⟨calls, heq⟩ := closeStream_eq env a id
            simp only [heq]
            exact Arena.length_modify _ _ _
      rw [List.foldl_cons, ih, hone]

end Aggregator

/-- The number of layers a run ingests. -/
def layerCount (ops : List Op) : Nat := ((packetsOf ops).map fun pkt => pkt.layers.length).sum

theorem run_append (env : Env) (ops : List Op) (op : Op) :
    run env (ops ++ [op]) = (run env ops).call env op := by
  simp only [run, List.foldl_append, List.foldl_cons, List.foldl_nil]

theorem layerCount_append (ops : List Op) (op : Op) :
    layerCount (ops ++ [op]) = layerCount ops +
      match op with
      | .ingest pkt => pkt.layers.length
      | .finish => 0 := by
  cases op <;> simp [layerCount, packetsOf]

theorem slots_run_le (env : Env) (ops : List Op) :
    (run env ops).arena.slots.length ≤ layerCount ops := by
  induction ops using List.reverseRecOn with
  | nil => exact Nat.zero_le _
  | append_singleton ops op ih =>
      rw [run_append, layerCount_append]
      cases op with
      | ingest pkt =>
          simp only [Aggregator.call, Aggregator.slots_ingest]
          have hwalk := Aggregator.slots_walk_le env (run env ops) pkt pkt.layers
          omega
      | finish =>
          simp only [Aggregator.call, Aggregator.slots_finish]
          omega

/-- Every run of fewer than `2 ^ 32` layers reaches its state: creations take one slot at most. -/
theorem reaches_run (env : Env) (ops : List Op) (h : layerCount ops < idLimit) :
    Reaches env ops (run env ops) := by
  induction ops using List.reverseRecOn with
  | nil => exact .new
  | append_singleton ops op ih =>
      have hslots := slots_run_le env (ops ++ [op])
      rw [run_append] at hslots ⊢
      refine .call op (ih ?_) (lt_of_le_of_lt hslots h)
      rw [layerCount_append] at h
      omega

/-- A reachable state is the one its calls compute. -/
theorem Reaches.eq_run {env : Env} {ops : List Op} {a : Aggregator} (h : Reaches env ops a) :
    a = run env ops := by
  induction h with
  | new => rfl
  | call op _ _ ih => rw [run_append, ← ih]

/-- Ids still fit in a reachable state. -/
theorem Reaches.fits {env : Env} {ops : List Op} {a : Aggregator} (h : Reaches env ops a) : a.Fits := by
  cases h with
  | new => exact Nat.two_pow_pos 32
  | call op _ hfits => exact hfits

/-- The last call of a run. -/
theorem Reaches.of_append_singleton {env : Env} {ops : List Op} {op : Op} {a : Aggregator}
    (h : Reaches env (ops ++ [op]) a) :
    Reaches env ops (run env ops) ∧ ((run env ops).call env op).Fits := by
  generalize hall : ops ++ [op] = all at h
  cases h with
  | new => simp at hall
  | @call ops' a' op' hr hfits =>
      obtain ⟨rfl, hop⟩ := List.append_inj' hall rfl
      obtain rfl := (List.cons.inj hop).1
      -- the two lists end in the same call
      rw [← hr.eq_run]
      exact ⟨hr, hfits⟩

/-- The states before are reachable too. -/
theorem Reaches.of_append {env : Env} {a : Aggregator} (ops rest : List Op)
    (h : Reaches env (ops ++ rest) a) : Reaches env ops (run env ops) := by
  induction rest using List.reverseRecOn generalizing a with
  | nil =>
      rw [List.append_nil] at h
      rw [← h.eq_run]
      exact h
  | append_singleton rest op ih =>
      rw [← List.append_assoc] at h
      exact ih h.of_append_singleton.1

/-! ## Moments -/

/-- `Moment env ops b`: the run passes through the state `b` after the calls `ops`, between two calls or
inside the next one: while it sweeps, between its layers, while it enforces the cap, or while `finish`
closes the streams. -/
inductive Moment (env : Env) (ops : List Op) : Aggregator → Prop
  | between {a : Aggregator} : Reaches env ops a → Moment env ops a
  | sweep {a b : Aggregator} {pkt : DissectedPacket} : Reaches env ops a →
      Loop.Passes (Aggregator.sweepBody env) (a.tick pkt) b → Moment env ops b
  | layer {a : Aggregator} {pkt : DissectedPacket} {layers rest : List LayerRecord} :
      Reaches env ops a → (a.ingest env pkt).Fits → pkt.layers = layers ++ rest →
      Moment env ops (a.walkLayers env pkt layers).agg
  | cap {a b : Aggregator} {pkt : DissectedPacket} : Reaches env ops a → (a.ingest env pkt).Fits →
      Loop.Passes (Aggregator.enforceBody env) (a.beforeEnforce env pkt) b → Moment env ops b
  | finish {a : Aggregator} {before after : List StreamId} : Reaches env ops a →
      a.finishOrder.map Aggregator.FinishEntry.id = before ++ after →
      Moment env ops (before.foldl (Aggregator.finishOne env) a)

/-- A property that every step of a run keeps, wherever the run starts to have it. -/
structure Persistent (env : Env) (I : Aggregator → Prop) : Prop extends Aggregator.HeapFree env I where
  tick : ∀ {a : Aggregator} (pkt : DissectedPacket), I a → I (a.tick pkt)
  layer : ∀ {pkt : DissectedPacket} {w w' : Aggregator.Walk} {layer : LayerRecord},
    Aggregator.WalkInv w → Aggregator.LayerStep env pkt w layer w' → w'.agg.Fits → I w.agg → I w'.agg
  tail : ∀ {a : Aggregator} (id : StreamId) (n : Nat), I a →
    I (a.modify id fun s => s.addOpaqueBytes n)
  unknown : ∀ {a : Aggregator} (u : UnknownRegistry), I a → I { a with unknowns := u }

/-- While `finish` runs, the forest and what evictions and closes keep are there. -/
theorem Aggregator.EvictStable.finishing {env : Env} {I : Aggregator → Prop} {a : Aggregator}
    (hI : Aggregator.EvictStable env I) (hf : Aggregator.ForestInv a) (h : I a)
    {before after : List StreamId}
    (horder : a.finishOrder.map Aggregator.FinishEntry.id = before ++ after) :
    Aggregator.ForestInv (before.foldl (Aggregator.finishOne env) a) ∧
      I (before.foldl (Aggregator.finishOne env) a) := by
  cases hev : env.config.eviction with
  | live idle linger cap =>
      have hclosing := Aggregator.closing_finishOrder hf
      rw [horder] at hclosing
      obtain ⟨hf', h', -⟩ := hI.closing hev hf h hclosing
      exact ⟨hf', h'⟩
  | none =>
      clear horder
      induction before generalizing a with
      | nil => exact ⟨hf, h⟩
      | cons id before ih =>
          have hone : Aggregator.finishOne env a id = a.closeStream env id := by
            simp only [Aggregator.finishOne, hev]
          rw [List.foldl_cons, hone]
          exact ih (hf.closeStream id) (hI.close id h)

namespace Persistent

variable {env : Env} {I : Aggregator → Prop} {a b : Aggregator}

theorem ingestStable (hI : Persistent env I) (pkt : DissectedPacket) :
    Aggregator.IngestStable env pkt (fun _ => True) I where
  toLoopStable := hI.toHeapFree.loopStable
  layer := fun hw _ hstep hfits h => hI.layer hw hstep hfits h
  tail := hI.tail
  unknown := hI.unknown

/-- From a reachable state on, at every later state between two calls. -/
theorem reaches (hI : Persistent env I) {ops : List Op} (ha : Reaches env ops a) (h : I a)
    (rest : List Op) (hb : Reaches env (ops ++ rest) b) : I b := by
  induction rest using List.reverseRecOn generalizing b with
  | nil =>
      rw [List.append_nil] at hb
      rw [hb.eq_run, ← ha.eq_run]
      exact h
  | append_singleton rest op ih =>
      rw [← List.append_assoc] at hb
      obtain ⟨hprev, hfits⟩ := hb.of_append_singleton
      have hIprev := ih hprev
      have hf := Aggregator.forestInv_of_reaches hprev
      rw [hb.eq_run, run_append]
      cases op with
      | ingest pkt => exact ((hI.ingestStable pkt).ingest hf (hI.tick pkt hIprev) hfits).2
      | finish => exact (hI.toEvictStable.finish hf hIprev).2

/-- From a reachable state on, at every later moment. -/
theorem moment (hI : Persistent env I) {ops rest : List Op} (ha : Reaches env ops a) (h : I a)
    (hb : Moment env (ops ++ rest) b) : Aggregator.ForestInv b ∧ I b := by
  cases hb with
  | between hr => exact ⟨Aggregator.forestInv_of_reaches hr, hI.reaches ha h rest hr⟩
  | @sweep c _ pkt hr hp =>
      have hf := Aggregator.forestInv_of_reaches hr
      have hc := hI.reaches ha h rest hr
      exact hI.toHeapFree.loopStable.passes_sweep (hf.tick pkt) (hI.tick pkt hc) hp
  | @layer c pkt layers later hr hfits hlayers =>
      have hf := Aggregator.forestInv_of_reaches hr
      have hc := hI.reaches ha h rest hr
      have hwalk := Aggregator.fits_walk hfits
      rw [hlayers] at hwalk
      obtain ⟨hw, hIw⟩ := (hI.ingestStable pkt).walk hf (hI.tick pkt hc)
        (Aggregator.fits_of_append _ _ hwalk)
      exact ⟨hw.forest, hIw⟩
  | @cap c _ pkt hr hfits hp =>
      have hf := Aggregator.forestInv_of_reaches hr
      have hc := hI.reaches ha h rest hr
      obtain ⟨hf', h'⟩ := (hI.ingestStable pkt).beforeEnforce hf (hI.tick pkt hc) hfits
      exact hI.toHeapFree.loopStable.passes_enforce hf' h' hp
  | finish hr horder =>
      have hf := Aggregator.forestInv_of_reaches hr
      exact hI.toEvictStable.finishing hf (hI.reaches ha h rest hr) horder

end Persistent

/-- A property of runs holds at every moment. -/
theorem Aggregator.RunStable.moment {env : Env} {I : Aggregator → Prop} {ops : List Op}
    {b : Aggregator} (hI : Aggregator.RunStable env (fun _ => True) I) (hb : Moment env ops b) :
    Aggregator.ForestInv b ∧ I b := by
  have hpersist : Persistent env I :=
    { toHeapFree := hI.toHeapFree
      tick := hI.tick
      layer := fun hw hstep hfits h => hI.layer hw trivial hstep hfits h
      tail := hI.tail
      unknown := hI.unknown }
  exact @Persistent.moment env I Aggregator.new b hpersist [] ops Reaches.new hI.new hb

end Pktflow.Flows

import Pktflow.Flows.Accounting
import Mathlib.Data.Nat.Count

/-!
# No reuse of ids

Slots are recycled, and only the generation tells their occupants apart. The `n`-th stream stored in a
slot carries the generation `n` modulo `2 ^ 32` (`HandleInv`): the slot's own generation counts the
streams that left it. Hence ids are distinct as long as no slot is recycled `2 ^ 32` times, and a stale
id finds nothing.
-/

set_option autoImplicit false

namespace Pktflow.Flows

open Pktflow.Core Pktflow.Lib

namespace Aggregator

/-- Counts the streams stored in a slot. -/
def atSlot (i : Nat) (s : Stream) : Nat := if s.id.index = i then 1 else 0

/-- Counts the streams an id was issued for. -/
def hasId (h : StreamId) (s : Stream) : Nat := if s.id = h then 1 else 0

theorem atSlot_factual (i : Nat) : Factual (atSlot i) := fun _ => rfl

theorem hasId_factual (h : StreamId) : Factual (hasId h) := fun _ => rfl

/-- The generations of slots and ids, from the number of streams each slot was given to. -/
structure HandleInv (a : Aggregator) : Prop where
  slots : ∀ i, Arena.Issued idLimit (tally (atSlot i) a) (a.arena.shape i)
  ids : ∀ h : StreamId, tally (hasId h) a =
    Nat.count (fun n => n % idLimit = h.generation) (tally (atSlot h.index) a)

namespace HandleInv

variable {env : Env} {a b : Aggregator}

/-- Nothing but the shapes of the slots and the two tallies matters. -/
theorem congr (h : HandleInv a) (hshape : b.arena.shape = a.arena.shape)
    (hslot : ∀ i, tally (atSlot i) b = tally (atSlot i) a)
    (hid : ∀ i, tally (hasId i) b = tally (hasId i) a) : HandleInv b := by
  constructor
  case slots =>
      intro i
      rw [hslot, hshape]
      exact h.slots i
  case ids =>
      intro i
      rw [hid, hslot]
      exact h.ids i

/-- A modification that keeps the ids. -/
theorem modify (h : HandleInv a) (i : StreamId) {f : Stream → Stream} (hf : ∀ s, (f s).id = s.id) :
    HandleInv (a.modify i f) := by
  apply h.congr
  · exact Arena.shape_modify a.arena i f
  · exact fun j => tally_modify_eq (atSlot_factual j) a i fun s => by simp only [atSlot, hf]
  · exact fun j => tally_modify_eq (hasId_factual j) a i fun s => by simp only [hasId, hf]

theorem shape_create (env : Env) (a : Aggregator) (n : NewStream) :
    (a.createStreamRaw env n).1.arena.shape =
      (a.arena.insert idLimit (n.record a.freshId a.nextSeq)).shape := by
  show ((a.storeStream env n).linkStream n.parent a.freshId).arena.shape = _
  rw [linkStream]
  cases (a.storeStream env n).liveParent n.parent with
  | none => rfl
  | some p => exact Arena.shape_modify _ _ _

/-- A creation: the new id carries the number of streams its slot was given to before. -/
theorem create (h : HandleInv a) {n : NewStream} (hlim : a.Fits) (hp : a.Linked n.parent) :
    HandleInv (a.createStreamRaw env n).1 := by
  have hgen : a.freshId.generation = tally (atSlot a.freshId.index) a % idLimit :=
    (h.slots a.freshId.index).generation (Arena.shape_nextHandle hlim)
  have hslot : ∀ i, tally (atSlot i) (a.createStreamRaw env n).1 =
      (if a.freshId.index = i then 1 else 0) + tally (atSlot i) a :=
    fun i => tally_create (atSlot_factual i) env hlim hp
  have hid : ∀ i, tally (hasId i) (a.createStreamRaw env n).1 =
      (if a.freshId = i then 1 else 0) + tally (hasId i) a :=
    fun i => tally_create (hasId_factual i) env hlim hp
  constructor
  case slots =>
      intro i
      have hshape : (a.createStreamRaw env n).1.arena.shape = Function.update a.arena.shape
          a.freshId.index (some (a.freshId.generation, true)) :=
        (shape_create env a n).trans (Arena.shape_insert hlim _)
      rw [hslot, hshape, Function.update_apply]
      by_cases hi : i = a.freshId.index
      · subst hi
        rw [if_pos rfl, if_pos rfl, hgen, Nat.add_comm]
        exact Arena.Issued.occupied _
      · rw [if_neg hi, if_neg (Ne.symm hi), Nat.zero_add]
        exact h.slots i
  case ids =>
      intro i
      rw [hid, hslot, h.ids i]
      by_cases hi : a.freshId.index = i.index
      · rw [if_pos hi, Nat.add_comm 1, Nat.count_succ, ← hi, Nat.add_comm]
        by_cases hg : a.freshId.generation = i.generation
        · have heq : a.freshId = i := Handle.ext hi hg
          rw [if_pos heq, if_pos (hgen.symm.trans hg)]
        · have hne : a.freshId ≠ i := fun heq => hg (congrArg Handle.generation heq)
          rw [if_neg hne, if_neg (fun hmod => hg (hgen.trans hmod))]
      · have hne : a.freshId ≠ i := fun heq => hi (congrArg Handle.index heq)
        rw [if_neg hi, if_neg hne, Nat.zero_add, Nat.zero_add]

/-- An eviction bumps the generation of the slot it empties. -/
theorem evict (h : HandleInv a) {id : StreamId} {s : Stream} (reason : CloseReason) (hf : ForestInv a)
    (hs : a.get id = some s) (hc : s.children = []) : HandleInv (a.evict env id reason) := by
  have hkeep : ∀ {φ : Stream → Nat}, Factual φ → tally φ (a.evict env id reason) = tally φ a :=
    fun hφ => (tally_heapFree env hφ _).evict reason hf hs hc rfl
  have hshape : (a.evict env id reason).arena.shape = (a.arena.remove idLimit id).shape := by
    rw [arena_evict hs]
    cases s.parent with
    | none => rfl
    | some p => exact Arena.shape_modify _ _ _
  constructor
  case slots =>
      intro i
      rw [hkeep (atSlot_factual i), hshape, Arena.shape_remove hs, Function.update_apply]
      by_cases hi : i = id.index
      · subst hi
        rw [if_pos rfl]
        have hocc := h.slots id.index
        rw [Arena.shape_of_get hs] at hocc
        exact hocc.remove
      · rw [if_neg hi]
        exact h.slots i
  case ids =>
      intro i
      rw [hkeep (hasId_factual i), hkeep (atSlot_factual i.index)]
      exact h.ids i

/-- A layer of the walk. -/
theorem layerStep {pkt : DissectedPacket} {w w' : Walk} {layer : LayerRecord} (h : HandleInv w.agg)
    (hw : WalkInv w) (hstep : LayerStep env pkt w layer w') (hfits : w'.agg.Fits) :
    HandleInv w'.agg := by
  cases hstep with
  | skip _ => exact h
  | keyError _ _ => exact h.congr rfl (fun _ => rfl) fun _ => rfl
  | @folded plugin identity key dir foldDir b id hid hkey hr =>
      have hfits' : b.Fits := fits_of_touch hfits
      have hlim : w.agg.Fits := hr.fits hfits'
      have hb : HandleInv b := by
        refine hr.rule (J := HandleInv) h ?_ ?_ ?_ ?_
        · intro n hn _
          exact h.create hlim (by rw [hn]; exact hw.linked)
        · exact fun i hb => hb.modify i fun _ => rfl
        · exact fun i hb => hb.modify i fun _ => rfl
        · exact fun _ _ _ _ hb => hb.congr rfl (fun _ => rfl) fun _ => rfl
      have htouch : HandleInv (b.modify id fun s =>
          (s.absorb identity layer key foldDir pkt.meta_.timestamp pkt.meta_.origlen).1) :=
        hb.modify id fun s => congrArg Frame.id (s.absorb_frame identity layer key foldDir _ _)
      exact htouch.congr rfl (fun _ => rfl) fun _ => rfl

end HandleInv

theorem handleInv_runStable (env : Env) : RunStable env (fun _ => True) HandleInv where
  close := by
    intro a id h
    obtain ⟨calls, heq⟩ := closeStream_eq env a id
    have hmod : HandleInv (a.modify id fun s => s.markClosed .captureEnd) := h.modify id fun _ => rfl
    rw [heq]
    exact hmod.congr rfl (fun _ => rfl) fun _ => rfl
  evict := fun reason hf hs hc h => h.evict reason hf hs hc
  heaps := fun _ _ h => h.congr rfl (fun _ => rfl) fun _ => rfl
  new := ⟨fun _ => Arena.Issued.ungrown, fun _ => rfl⟩
  tick := fun _ h => h.congr rfl (fun _ => rfl) fun _ => rfl
  layer := fun hw _ hstep hfits h => h.layerStep hw hstep hfits
  tail := fun id _ h => h.modify id fun _ => rfl
  unknown := fun _ h => h.congr rfl (fun _ => rfl) fun _ => rfl

/-! ## Distinct ids -/

/-- How often a slot was given to another stream after its first one. -/
def recycled (a : Aggregator) (i : Nat) : Nat :=
  (a.everStreams.filter fun s => s.id.index = i).length - 1

theorem tally_atSlot (i : Nat) (a : Aggregator) :
    tally (atSlot i) a = (a.everStreams.filter fun s => s.id.index = i).length := by
  rw [tally]
  induction a.everStreams with
  | nil => rfl
  | cons s l ih =>
      rw [List.map_cons, List.sum_cons, ih, List.filter_cons, atSlot]
      by_cases hs : s.id.index = i
      · simp [hs, Nat.add_comm]
      · simp [hs]

theorem tally_hasId (h : StreamId) (a : Aggregator) :
    tally (hasId h) a = (a.everStreams.map Stream.id).count h := by
  rw [tally]
  induction a.everStreams with
  | nil => rfl
  | cons s l ih =>
      rw [List.map_cons, List.sum_cons, ih, List.map_cons, List.count_cons, hasId]
      simp only [beq_iff_eq]
      omega

/-- Below the limit, numbers are told apart by their residues. -/
theorem count_mod_le_one {lim N g : Nat} (h : N ≤ lim) : Nat.count (fun n => n % lim = g) N ≤ 1 := by
  rw [Nat.count_eq_card_filter_range, Finset.card_le_one]
  intro m hm n hn
  simp only [Finset.mem_filter, Finset.mem_range] at hm hn
  rw [← Nat.mod_eq_of_lt (lt_of_lt_of_le hm.1 h), ← Nat.mod_eq_of_lt (lt_of_lt_of_le hn.1 h), hm.2, hn.2]

/-- Without a slot recycled too often, ids are distinct. -/
theorem HandleInv.ids_nodup {a : Aggregator} (h : HandleInv a) (hrec : ∀ i, a.recycled i < idLimit) :
    (a.everStreams.map Stream.id).Nodup := by
  rw [List.nodup_iff_count_le_one]
  intro i
  rw [← tally_hasId, h.ids i]
  apply count_mod_le_one
  have hlt := hrec i.index
  rw [recycled] at hlt
  rw [tally_atSlot]
  omega

/-- A live stream is the only one its id was ever issued for. -/
theorem eq_of_id_eq {a : Aggregator} (hf : ForestInv a) (hnodup : (a.everStreams.map Stream.id).Nodup)
    {s t : Stream} (hs : s ∈ a.everStreams) (ht : a.get s.id = some t) : t = s := by
  have htmem : t ∈ a.everStreams := List.mem_append_left _ (mem_streams.2 ⟨s.id, ht⟩)
  exact List.inj_on_of_nodup_map hnodup htmem hs (hf.id_eq ht)

/-! ## Ids stay issued -/

/-- Counts the streams with an id and a creation number. -/
def hasIssue (h : StreamId) (q : Nat) (s : Stream) : Nat :=
  if s.id = h ∧ s.createdSeq = q then 1 else 0

theorem hasIssue_factual (h : StreamId) (q : Nat) : Factual (hasIssue h q) := fun _ => rfl

theorem tally_hasIssue_pos {h : StreamId} {q : Nat} {a : Aggregator} :
    0 < tally (hasIssue h q) a ↔ ∃ s ∈ a.everStreams, s.id = h ∧ s.createdSeq = q := by
  rw [tally]
  constructor
  · intro hpos
    by_contra hnone
    have hzero : (a.everStreams.map (hasIssue h q)).sum = 0 := by
      rw [List.sum_eq_zero_iff]
      intro x hx
      obtain ⟨s, hs, rfl⟩ := List.mem_map.1 hx
      exact if_neg fun hsame => hnone ⟨s, hs, hsame⟩
    omega
  · rintro ⟨s, hs, hid, hseq⟩
    have hle : hasIssue h q s ≤ (a.everStreams.map (hasIssue h q)).sum :=
      List.single_le_sum (fun _ _ => Nat.zero_le _) _ (List.mem_map_of_mem hs)
    have hone : hasIssue h q s = 1 := if_pos ⟨hid, hseq⟩
    omega

/-- An id stays issued for the stream it was issued for. -/
theorem issued_persistent (env : Env) (h : StreamId) (q : Nat) :
    Persistent env fun a => 0 < tally (hasIssue h q) a where
  close := by
    intro a id hpos
    exact lt_of_lt_of_eq hpos ((tally_heapFree env (hasIssue_factual h q) _).close id rfl).symm
  evict := by
    intro a id s reason hf hs hc hpos
    exact lt_of_lt_of_eq hpos ((tally_heapFree env (hasIssue_factual h q) _).evict reason hf hs hc rfl).symm
  heaps := fun _ _ hpos => hpos
  tick := fun _ hpos => hpos
  layer := by
    intro pkt w w' layer hw hstep hfits hpos
    have hkeep : ∀ {b : Aggregator} (i : StreamId) {f : Stream → Stream},
        (∀ s, (f s).frame = s.frame) → (∀ s, (f s).createdSeq = s.createdSeq) →
        0 < tally (hasIssue h q) b → 0 < tally (hasIssue h q) (b.modify i f) := by
      intro b i f hf hseq hb
      have hid : ∀ s, (f s).id = s.id := fun s => congrArg Frame.id (hf s)
      rwa [tally_modify_eq (hasIssue_factual h q) b i fun s => by simp only [hasIssue, hid, hseq]]
    cases hstep with
    | skip _ => exact hpos
    | keyError _ _ => exact hpos
    | @folded plugin identity key dir foldDir b id hid hkey hr =>
        have hfits' : b.Fits := fits_of_touch hfits
        have hlim : w.agg.Fits := hr.fits hfits'
        have hb : 0 < tally (hasIssue h q) b := by
          refine hr.rule (J := fun b => 0 < tally (hasIssue h q) b) hpos ?_
            (fun i hb => hkeep i Stream.countMember_frame (fun _ => rfl) hb)
            (fun i hb => hkeep i Stream.markOverflow_frame (fun _ => rfl) hb) (fun _ _ _ _ hb => hb)
          intro n hn _
          rw [tally_create (hasIssue_factual h q) env hlim (by rw [hn]; exact hw.linked)]
          omega
        exact hkeep id (fun s => s.absorb_frame identity layer key foldDir _ _)
          (fun s => by rw [Stream.absorb_eq]) hb
  tail := by
    intro a id n hpos
    rwa [tally_modify_eq (f := fun s => s.addOpaqueBytes n) (hasIssue_factual h q) a id fun _ => rfl]
  unknown := fun _ hpos => hpos

end Aggregator

/-- **No ABA.** In a run that recycles no slot `2 ^ 32` times, ids are issued once each; and whatever id
was issued up to some state, at every later moment it finds the stream it was issued for, or nothing. -/
theorem no_aba {env : Env} {ops rest : List Op} {a b : Aggregator} (ha : Reaches env ops a)
    (hb : Moment env (ops ++ rest) b) (hrec : ∀ i, b.recycled i < idLimit) :
    (b.everStreams.map Stream.id).Nodup ∧
      ∀ s, s ∈ a.everStreams ∨ s ∈ b.everStreams →
        ∀ t, b.get s.id = some t → t.createdSeq = s.createdSeq := by
  obtain ⟨hf, hinv⟩ := (Aggregator.handleInv_runStable env).moment hb
  have hnodup := hinv.ids_nodup hrec
  refine ⟨hnodup, ?_⟩
  rintro s (hs | hs) t ht
  · -- the stream may have changed since, but not its id and creation number
    have hissued := ((Aggregator.issued_persistent env s.id s.createdSeq).moment ha
      (Aggregator.tally_hasIssue_pos.2 ⟨s, hs, rfl, rfl⟩) hb).2
    obtain ⟨s', hs', hid, hseq⟩ := Aggregator.tally_hasIssue_pos.1 hissued
    rw [← hid] at ht
    rw [Aggregator.eq_of_id_eq hf hnodup hs' ht, hseq]
  · rw [Aggregator.eq_of_id_eq hf hnodup hs ht]

/-- The sample run gives slot 2 to three streams, and no two streams share an id. -/
theorem no_aba_sample :
    (run (sampleEnv (.live 50 10 4) 2) sampleOps).recycled 2 = 2 ∧
    ((run (sampleEnv (.live 50 10 4) 2) sampleOps).everStreams.map Stream.id).Nodup ∧
    ∀ s, s ∈ (run (sampleEnv (.live 50 10 4) 2) (sampleOps.take 3)).everStreams ∨
        s ∈ (run (sampleEnv (.live 50 10 4) 2) sampleOps).everStreams →
      ∀ t, (run (sampleEnv (.live 50 10 4) 2) sampleOps).get s.id = some t →
        t.createdSeq = s.createdSeq := by
  refine ⟨by decide +kernel, ?_⟩
  have hlater : Moment (sampleEnv (.live 50 10 4) 2) (sampleOps.take 3 ++ sampleOps.drop 3)
      (run (sampleEnv (.live 50 10 4) 2) sampleOps) := by
    rw [List.take_append_drop]
    exact .between (reaches_run _ sampleOps (by decide))
  apply no_aba (reaches_run _ (sampleOps.take 3) (by decide)) hlater
  intro i
  have hever : (run (sampleEnv (.live 50 10 4) 2) sampleOps).everStreams.length = 8 := by decide +kernel
  have hle := List.length_filter_le (fun s : Stream => decide (s.id.index = i))
    (run (sampleEnv (.live 50 10 4) 2) sampleOps).everStreams
  rw [Aggregator.recycled]
  rw [hever] at hle
  have hlim : 8 < idLimit := by decide
  omega

end Pktflow.Flows

import Pktflow.Flows.Ingest
import Pktflow.Lib.Forest
import Mathlib.Data.Multiset.MapFold
import Mathlib.Algebra.BigOperators.Group.Multiset.Basic

/-!
# What the store operations do

The store is seen through four projections. `get` maps ids to live streams; `nodes` keeps of each live
stream its place in the forest; `frames` keeps what never changes while a stream lives; `liveFacts` is
the multiset of live streams up to child lists and close marks. Each operation acts on each projection in one way, stated here once; the invariants are
proved from these statements.
-/

set_option autoImplicit false

namespace Pktflow.Flows

open Pktflow.Core Pktflow.Lib

/-- A stream's place in the forest. -/
def Stream.node (s : Stream) : Forest.Node StreamId := ⟨s.parent, s.children, s.createdSeq⟩

/-- What never changes while a stream lives. -/
structure Frame where
  id : StreamId
  protocol : ProtocolName
  key : FlowKey
  keyFields : FieldMap
  parent : Option StreamId
  createdSeq : Nat
  isNode : Bool

/-- The frame of a stream. -/
def Stream.frame (s : Stream) : Frame where
  id := s.id
  protocol := s.protocol
  key := s.key
  keyFields := s.keyFields
  parent := s.parent
  createdSeq := s.createdSeq
  isNode := s.condensed.isSome

/-- A stream without its child list and close mark. -/
def Stream.facts (s : Stream) : Stream := { s with children := [], closed := none }

section Absorb

variable (s : Stream) (identity : StreamIdentity) (layer : LayerRecord) (key : FlowKey)
  (dir : PacketDirection) (ts : SystemTime) (origlen : Nat)

/-- What folding a packet changes in a stream. -/
theorem Stream.absorb_eq :
    (s.absorb identity layer key dir ts origlen).1 =
      { s with
        lastSeen := ts
        stats := s.stats.record dir origlen
        state := (s.advance identity layer dir ts).1.state
        closeEligible := (s.advance identity layer dir ts).1.closeEligible
        closeEligibleSince := (s.advance identity layer dir ts).1.closeEligibleSince
        rollups := s.rollups.apply layer.fields s.firstSeen ts dir
        history := s.history ++
          [⟨ts, origlen, dir, layer, key, (s.advance identity layer dir ts).1.state⟩] } := by
  unfold Stream.absorb Stream.advance
  cases identity.lifecycle with
  | none => rfl
  | some spec =>
      cases hs : s.state with
      | none => simp only [hs]
      | some current => simp only

/-- Folding a packet keeps a stream's place in the forest. -/
theorem Stream.absorb_node : (s.absorb identity layer key dir ts origlen).1.node = s.node := by
  rw [Stream.absorb_eq]
  rfl

/-- Folding a packet keeps what never changes while a stream lives. -/
theorem Stream.absorb_frame : (s.absorb identity layer key dir ts origlen).1.frame = s.frame := by
  rw [Stream.absorb_eq]
  rfl

end Absorb

theorem Stream.countMember_frame (s : Stream) : s.countMember.frame = s.frame := by
  simp only [Stream.frame, Stream.countMember, Option.isSome_map]

theorem Stream.markOverflow_frame (s : Stream) : s.markOverflow.frame = s.frame := by
  simp only [Stream.frame, Stream.markOverflow, Option.isSome_map]

namespace Aggregator

/-- The forest of the live streams. -/
def nodes (a : Aggregator) (h : StreamId) : Option (Forest.Node StreamId) := (a.get h).map Stream.node

/-- The frames of the live streams. -/
def frames (a : Aggregator) (h : StreamId) : Option Frame := (a.get h).map Stream.frame

/-- The live streams, as facts. -/
def liveFacts (a : Aggregator) : Multiset Stream := (a.streams.map Stream.facts : List Stream)

theorem mem_streams {a : Aggregator} {s : Stream} : s ∈ a.streams ↔ ∃ h, a.get h = some s :=
  Arena.mem_values

theorem nodes_eq_some {a : Aggregator} {h : StreamId} {n : Forest.Node StreamId} :
    a.nodes h = some n ↔ ∃ s, a.get h = some s ∧ s.node = n := Option.map_eq_some_iff

theorem frames_eq_some {a : Aggregator} {h : StreamId} {f : Frame} :
    a.frames h = some f ↔ ∃ s, a.get h = some s ∧ s.frame = f := Option.map_eq_some_iff

theorem nodes_of_get {a : Aggregator} {h : StreamId} {s : Stream} (hs : a.get h = some s) :
    a.nodes h = some s.node := by
  simp [nodes, hs]

theorem frames_of_get {a : Aggregator} {h : StreamId} {s : Stream} (hs : a.get h = some s) :
    a.frames h = some s.frame := by
  simp [frames, hs]

/-- Whether an id is live can be read off the frames. -/
theorem live_iff_frames {a : Aggregator} {h : StreamId} :
    (∃ s, a.get h = some s) ↔ ∃ f, a.frames h = some f := by
  constructor
  · rintro ⟨s, hs⟩
    exact ⟨s.frame, frames_of_get hs⟩
  · rintro ⟨f, hf⟩
    obtain ⟨s, hs, -⟩ := frames_eq_some.1 hf
    exact ⟨s, hs⟩

/-! ## Modification of one record -/

theorem get_modify (a : Aggregator) (id : StreamId) (f : Stream → Stream) :
    (a.modify id f).get = Function.update a.get id ((a.get id).map f) :=
  Arena.get_modify a.arena id f

/-- A modification keeps a projection that the modifying function keeps. -/
theorem map_get_modify {β : Type} (π : Stream → β) (a : Aggregator) (id : StreamId)
    {f : Stream → Stream} (hf : ∀ s, π (f s) = π s) (h : StreamId) :
    ((a.modify id f).get h).map π = (a.get h).map π := by
  rw [get_modify]
  by_cases hh : h = id
  · subst hh
    rw [Function.update_self]
    cases a.get h with
    | none => rfl
    | some s => simp [hf]
  · rw [Function.update_of_ne hh]

theorem nodes_modify (a : Aggregator) (id : StreamId) {f : Stream → Stream}
    (hf : ∀ s, (f s).node = s.node) : (a.modify id f).nodes = a.nodes :=
  funext (map_get_modify Stream.node a id hf)

theorem frames_modify (a : Aggregator) (id : StreamId) {f : Stream → Stream}
    (hf : ∀ s, (f s).frame = s.frame) : (a.modify id f).frames = a.frames :=
  funext (map_get_modify Stream.frame a id hf)

/-- Closing a stream in place marks it and tells the sink. -/
theorem closeStream_eq (env : Env) (a : Aggregator) (id : StreamId) :
    ∃ calls, a.closeStream env id =
      { a.modify id fun s => s.markClosed .captureEnd with sinkCalls := calls } := by
  rw [closeStream]
  cases hs : a.get id with
  | none =>
      refine ⟨a.sinkCalls, ?_⟩
      have harena := Arena.modify_of_get_none hs fun s => s.markClosed .captureEnd
      simp only [modify, harena]
  | some s => exact ⟨_, rfl⟩

/-- The live facts around one live stream, before and after its modification. -/
theorem liveFacts_modify {a : Aggregator} {id : StreamId} {s : Stream} (f : Stream → Stream)
    (hs : a.get id = some s) :
    ∃ m, a.liveFacts = s.facts ::ₘ m ∧ (a.modify id f).liveFacts = (f s).facts ::ₘ m := by
  obtain ⟨l, r, h1, h2⟩ := Arena.values_modify f hs
  refine ⟨((l ++ r).map Stream.facts : List Stream), ?_, ?_⟩
  · rw [liveFacts, streams]
    rw [h1, Multiset.cons_coe, Multiset.coe_eq_coe, List.map_append, List.map_append, List.map_cons]
    exact List.perm_middle
  · show ((((a.arena.modify id f).values).map Stream.facts : List Stream) : Multiset Stream) = _
    rw [h2, Multiset.cons_coe, Multiset.coe_eq_coe, List.map_append, List.map_append, List.map_cons]
    exact List.perm_middle

/-! ## Creation -/

section Creation

variable {env : Env} {a : Aggregator} {n : NewStream}

theorem get_freshId (hlim : a.arena.slots.length < idLimit) : a.get a.freshId = none :=
  Arena.get_nextHandle hlim

theorem get_storeStream (hlim : a.arena.slots.length < idLimit) :
    (a.storeStream env n).get =
      Function.update a.get a.freshId (some (n.record a.freshId a.nextSeq)) :=
  Arena.get_insert hlim _

/-- A live stream is not the one about to be created. -/
theorem ne_freshId (hlim : a.arena.slots.length < idLimit) {h : StreamId} {s : Stream}
    (hs : a.get h = some s) : h ≠ a.freshId := by
  rintro rfl
  rw [get_freshId hlim] at hs
  cases hs

/-- With a live parent, or none, the creation links the stream where it belongs. -/
theorem liveParent_storeStream (hlim : a.arena.slots.length < idLimit)
    (hp : ∀ p, n.parent = some p → ∃ s, a.get p = some s) :
    (a.storeStream env n).liveParent n.parent = n.parent := by
  rw [liveParent]
  cases hn : n.parent with
  | none => rfl
  | some p =>
      obtain ⟨s, hs⟩ := hp p hn
      rw [get_storeStream hlim, Option.filter_some, Function.update_of_ne (ne_freshId hlim hs), hs]
      rfl

theorem get_create (env : Env) (hlim : a.arena.slots.length < idLimit)
    (hp : ∀ p, n.parent = some p → ∃ s, a.get p = some s) (h : StreamId) :
    (a.createStreamRaw env n).1.get h =
      if h = a.freshId then some (n.record a.freshId a.nextSeq)
      else if n.parent = some h then (a.get h).map fun s => s.addChild a.freshId
      else a.get h := by
  show ((a.storeStream env n).linkStream n.parent a.freshId).get h = _
  have hlinked : (a.storeStream env n).liveParent n.parent = n.parent :=
    liveParent_storeStream hlim hp
  cases hn : n.parent with
  | none =>
      have hget : ((a.storeStream env n).linkStream none a.freshId).get =
          (a.storeStream env n).get := rfl
      simp only [hget, get_storeStream hlim, Function.update_apply, reduceCtorEq, if_false]
  | some p =>
      obtain ⟨s, hs⟩ := hp p hn
      have hpf := ne_freshId hlim hs
      have hget : ((a.storeStream env n).linkStream (some p) a.freshId).get =
          Function.update (a.storeStream env n).get p
            (((a.storeStream env n).get p).map fun s => s.addChild a.freshId) := by
        rw [hn] at hlinked
        rw [linkStream]
        rw [hlinked]
        exact Arena.get_modify _ p _
      simp only [hget, get_storeStream hlim, Function.update_apply, Option.some.injEq, if_neg hpf]
      by_cases hh : h = a.freshId
      · rw [if_neg (fun e => hpf (e.symm.trans hh)), if_pos hh, if_pos hh]
      · by_cases hhp : h = p
        · subst hhp
          rw [if_pos rfl, if_neg hh, if_pos rfl]
        · rw [if_neg hhp, if_neg hh, if_neg hh, if_neg (Ne.symm hhp)]

theorem nodes_create (hlim : a.arena.slots.length < idLimit)
    (hp : ∀ p, n.parent = some p → ∃ s, a.get p = some s) :
    (a.createStreamRaw env n).1.nodes = Forest.addNode a.nodes a.freshId n.parent a.nextSeq := by
  funext h
  simp only [nodes, Forest.addNode]
  rw [get_create env hlim hp]
  by_cases hh : h = a.freshId
  · rw [if_pos hh, if_pos hh]
    rfl
  · by_cases hhp : n.parent = some h
    · rw [if_neg hh, if_pos hhp, if_neg hh, if_pos hhp]
      cases a.get h <;> rfl
    · rw [if_neg hh, if_neg hhp, if_neg hh, if_neg hhp]

/-- A creation keeps a projection that does not see child lists. -/
theorem map_get_create {β : Type} {π : Stream → β} (hπ : ∀ s c, π (s.addChild c) = π s) (env : Env)
    (hlim : a.arena.slots.length < idLimit)
    (hp : ∀ p, n.parent = some p → ∃ s, a.get p = some s) (h : StreamId) :
    ((a.createStreamRaw env n).1.get h).map π =
      if h = a.freshId then some (π (n.record a.freshId a.nextSeq)) else (a.get h).map π := by
  rw [get_create env hlim hp]
  split
  · rfl
  · split
    · cases a.get h with
      | none => rfl
      | some s => simp only [Option.map_some, hπ]
    · rfl

theorem frames_create (env : Env) (hlim : a.arena.slots.length < idLimit)
    (hp : ∀ p, n.parent = some p → ∃ s, a.get p = some s) :
    (a.createStreamRaw env n).1.frames =
      Function.update a.frames a.freshId (some (n.record a.freshId a.nextSeq).frame) := by
  funext h
  rw [Function.update_apply]
  exact map_get_create (fun _ _ => rfl) env hlim hp h

/-- After a creation there is the new stream, and the others have the frames they had. -/
theorem frames_of_create (env : Env) (hlim : a.arena.slots.length < idLimit)
    (hp : ∀ p, n.parent = some p → ∃ s, a.get p = some s) {x : StreamId} {f : Frame} :
    (a.createStreamRaw env n).1.frames x = some f ↔
      (x = a.freshId ∧ f = (n.record a.freshId a.nextSeq).frame) ∨ a.frames x = some f := by
  rw [frames_create env hlim hp, Function.update_apply]
  by_cases hx : x = a.freshId
  · have hnone : a.frames a.freshId = none := by simp [frames, get_freshId hlim]
    simp [hx, hnone, eq_comm]
  · simp [hx]

theorem roots_create (hlim : a.arena.slots.length < idLimit)
    (hp : ∀ p, n.parent = some p → ∃ s, a.get p = some s) :
    (a.createStreamRaw env n).1.roots =
      if n.parent = none then a.roots ++ [a.freshId] else a.roots := by
  show ((a.storeStream env n).linkStream n.parent a.freshId).roots = _
  rw [linkStream]
  rw [liveParent_storeStream hlim hp]
  cases n.parent <;> rfl

theorem liveFacts_create (env : Env) (hlim : a.arena.slots.length < idLimit)
    (hp : ∀ p, n.parent = some p → ∃ s, a.get p = some s) :
    (a.createStreamRaw env n).1.liveFacts = n.record a.freshId a.nextSeq ::ₘ a.liveFacts := by
  have hstore : (a.storeStream env n).liveFacts = n.record a.freshId a.nextSeq ::ₘ a.liveFacts := by
    show ((((a.arena.insert idLimit (n.record a.freshId a.nextSeq)).values).map Stream.facts :
      List Stream) : Multiset Stream) = _
    rw [liveFacts, streams]
    rw [Multiset.cons_coe, Multiset.coe_eq_coe]
    exact (Arena.values_insert hlim _).map Stream.facts
  have hlink : (a.createStreamRaw env n).1.liveFacts =
      ((a.storeStream env n).linkStream n.parent a.freshId).liveFacts := rfl
  rw [hlink, ← hstore]
  rw [linkStream]
  rw [liveParent_storeStream hlim hp]
  cases hn : n.parent with
  | none => rfl
  | some p =>
      obtain ⟨s, hs⟩ := hp p hn
      have hs' : (a.storeStream env n).get p = some s := by
        rw [get_storeStream hlim, Function.update_of_ne (ne_freshId hlim hs), hs]
      obtain ⟨m, h1, h2⟩ := liveFacts_modify (fun s => s.addChild a.freshId) hs'
      rw [h1]
      exact h2

/-- The slots after a creation are those of the insertion. -/
theorem length_slots_create (env : Env) (a : Aggregator) (n : NewStream) :
    (a.createStreamRaw env n).1.arena.slots.length =
      (a.arena.insert idLimit (n.record a.freshId a.nextSeq)).slots.length := by
  show ((a.storeStream env n).linkStream n.parent a.freshId).arena.slots.length = _
  rw [linkStream]
  cases (a.storeStream env n).liveParent n.parent with
  | none => rfl
  | some p => exact Arena.length_modify _ _ _

/-- A creation adds at most one slot, and gives none back. -/
theorem slots_create (env : Env) (a : Aggregator) (n : NewStream) :
    a.arena.slots.length ≤ (a.createStreamRaw env n).1.arena.slots.length ∧
      (a.createStreamRaw env n).1.arena.slots.length ≤ a.arena.slots.length + 1 := by
  rw [length_slots_create]
  exact ⟨Arena.length_le_insert idLimit a.arena _, Arena.length_insert_le idLimit a.arena _⟩

end Creation

/-! ## Eviction -/

section Eviction

variable {env : Env} {a : Aggregator} {id : StreamId} {s : Stream} {reason : CloseReason}

theorem evict_eq (hs : a.get id = some s) :
    a.evict env id reason = ((((a.takeStream s id).condenseEvict env s).unindex env s id).unlink env
      s.parent id).emit env s reason := by
  simp only [evict, hs]

/-- `unlink` changes the arena, the roots and the heaps only. -/
theorem unlink_eq (env : Env) (a : Aggregator) (parent : Option StreamId) (id : StreamId) :
    a.unlink env parent id =
      { a with
        arena := (a.unlink env parent id).arena
        roots := (a.unlink env parent id).roots
        expiry := (a.unlink env parent id).expiry
        lru := (a.unlink env parent id).lru } := by
  cases parent <;> rfl

theorem evict_of_none (hs : a.get id = none) : a.evict env id reason = a := by
  simp only [evict, hs]

/-- The store once the slot is emptied. -/
theorem get_take (hs : a.get id = some s) : (a.takeStream s id).get = Function.update a.get id none :=
  Arena.get_remove hs

theorem arena_evict (hs : a.get id = some s) :
    (a.evict env id reason).arena =
      match s.parent with
      | none => a.arena.remove idLimit id
      | some p => (a.arena.remove idLimit id).modify p fun s => s.dropChild id := by
  rw [evict_eq hs]
  cases s.parent <;> rfl

theorem get_evict (hs : a.get id = some s) (h : StreamId) :
    (a.evict env id reason).get h =
      if h = id then none
      else if s.parent = some h then (a.get h).map fun s => s.dropChild id
      else a.get h := by
  have hget : (a.evict env id reason).get =
      match s.parent with
      | none => Function.update a.get id none
      | some p => Function.update (Function.update a.get id none) p
          ((Function.update a.get id none p).map fun s => s.dropChild id) := by
    funext h
    show (a.evict env id reason).arena.get h = _
    rw [arena_evict hs]
    cases s.parent with
    | none => exact congrFun (Arena.get_remove hs) h
    | some p =>
        show ((a.arena.remove idLimit id).modify p _).get h = _
        rw [Arena.get_modify, Arena.get_remove hs]
        rfl
  rw [hget]
  cases hp : s.parent with
  | none => simp [Function.update_apply]
  | some p =>
      simp only [Function.update_apply, Option.some.injEq]
      by_cases hh : h = id
      · by_cases hhp : h = p
        · rw [if_pos hhp, if_pos hh, if_pos (hhp.symm.trans hh)]
          rfl
        · rw [if_neg hhp, if_pos hh, if_pos hh]
      · by_cases hhp : h = p
        · rw [if_pos hhp, if_neg hh, if_pos hhp.symm, if_neg (fun e => hh (hhp.trans e)), hhp]
        · rw [if_neg hhp, if_neg hh, if_neg hh, if_neg (Ne.symm hhp)]

theorem nodes_evict (hs : a.get id = some s) :
    (a.evict env id reason).nodes = Forest.removeLeaf a.nodes id s.parent := by
  funext h
  simp only [nodes, Forest.removeLeaf]
  rw [get_evict hs]
  by_cases hh : h = id
  · rw [if_pos hh, if_pos hh]
    rfl
  · by_cases hhp : s.parent = some h
    · rw [if_neg hh, if_pos hhp, if_neg hh, if_pos hhp]
      cases a.get h <;> rfl
    · rw [if_neg hh, if_neg hhp, if_neg hh, if_neg hhp]

/-- An eviction keeps a projection that does not see child lists. -/
theorem map_get_evict {β : Type} {π : Stream → β} (hπ : ∀ s c, π (s.dropChild c) = π s) (env : Env)
    (reason : CloseReason) (hs : a.get id = some s) (h : StreamId) :
    ((a.evict env id reason).get h).map π = if h = id then none else (a.get h).map π := by
  rw [get_evict hs]
  split
  · rfl
  · split
    · cases a.get h with
      | none => rfl
      | some s => simp only [Option.map_some, hπ]
    · rfl

theorem frames_evict (env : Env) (reason : CloseReason) (hs : a.get id = some s) :
    (a.evict env id reason).frames = Function.update a.frames id none := by
  funext h
  rw [Function.update_apply]
  exact map_get_evict (fun _ _ => rfl) env reason hs h

/-- After an eviction the other streams have the frames they had. -/
theorem frames_of_evict (env : Env) (reason : CloseReason) (hs : a.get id = some s) {x : StreamId}
    {f : Frame} : (a.evict env id reason).frames x = some f ↔ x ≠ id ∧ a.frames x = some f := by
  rw [frames_evict env reason hs, Function.update_apply]
  by_cases hx : x = id
  · simp [hx]
  · simp [hx]

theorem roots_evict (hs : a.get id = some s) :
    (a.evict env id reason).roots =
      if s.parent = none then a.roots.filter (fun r => r ≠ id) else a.roots := by
  rw [evict_eq hs]
  cases s.parent <;> rfl

/-- The fields an eviction leaves alone. -/
theorem evict_unchanged (env : Env) (a : Aggregator) (id : StreamId) (reason : CloseReason) :
    (a.evict env id reason).nextSeq = a.nextSeq ∧ (a.evict env id reason).totals = a.totals ∧
      (a.evict env id reason).clock = a.clock ∧
      (a.evict env id reason).createdPerProtocol = a.createdPerProtocol ∧
      (a.evict env id reason).stopClasses = a.stopClasses := by
  cases hs : a.get id with
  | none => simp only [evict_of_none hs, and_self]
  | some s =>
      rw [evict_eq hs, unlink_eq]
      exact ⟨rfl, rfl, rfl, rfl, rfl⟩

/-- The counters and tables an eviction updates. -/
theorem evict_updated (env : Env) (reason : CloseReason) (hs : a.get id = some s) :
    (a.evict env id reason).liveCount = a.liveCount - 1 ∧
      (a.evict env id reason).livePerProtocol = dropCount a.livePerProtocol s.protocol 1 ∧
      (a.evict env id reason).liveBytesPerProtocol =
        dropCount a.liveBytesPerProtocol s.protocol s.stats.bytes ∧
      (a.evict env id reason).condense = groupsWithout env a.condense s ∧
      (a.evict env id reason).index = (a.unindex env s id).index := by
  rw [evict_eq hs, unlink_eq]
  exact ⟨rfl, rfl, rfl, rfl, rfl⟩

/-- An evicted stream leaves the live facts. -/
theorem liveFacts_evict (env : Env) (reason : CloseReason) (hs : a.get id = some s)
    (hp : ∀ p, s.parent = some p → p ≠ id ∧ ∃ ps, a.get p = some ps) :
    a.liveFacts = s.facts ::ₘ (a.evict env id reason).liveFacts := by
  have htake : a.liveFacts = s.facts ::ₘ (a.takeStream s id).liveFacts := by
    show _ = s.facts ::ₘ ((((a.arena.remove idLimit id).values).map Stream.facts : List Stream) :
      Multiset Stream)
    unfold liveFacts streams
    rw [Multiset.cons_coe, Multiset.coe_eq_coe]
    exact (Arena.values_remove hs).map Stream.facts
  rw [htake]
  congr 1
  unfold liveFacts streams
  rw [arena_evict hs]
  cases hpar : s.parent with
  | none => rfl
  | some p =>
      obtain ⟨hne, ps, hps⟩ := hp p hpar
      have hps' : (a.takeStream s id).get p = some ps := by
        rw [get_take hs, Function.update_of_ne hne, hps]
      obtain ⟨m, h1, h2⟩ := liveFacts_modify (fun s => s.dropChild id) hps'
      exact h1.trans h2.symm

theorem removed_evict (hs : a.get id = some s) :
    (a.evict env id reason).removed = a.removed ++ [⟨s.markClosed reason, reason⟩] := by
  rw [evict_eq hs, unlink_eq]
  rfl

@[simp] theorem slots_evict (env : Env) (a : Aggregator) (id : StreamId) (reason : CloseReason) :
    (a.evict env id reason).arena.slots.length = a.arena.slots.length := by
  cases hs : a.get id with
  | none => rw [evict_of_none hs]
  | some s =>
      rw [arena_evict hs]
      cases s.parent with
      | none => exact Arena.length_remove _ _ _
      | some p => rw [Arena.length_modify, Arena.length_remove]

end Eviction

end Aggregator

end Pktflow.Flows

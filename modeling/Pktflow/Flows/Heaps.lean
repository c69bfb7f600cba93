import Pktflow.Flows.Runs
import Pktflow.Lib.LazyHeap

/-!
# The two lazy heaps

`expiry` and `lru` are not updated when a stream is touched. What every operation maintains is that no
live stream without children is forgotten: it has an entry in each heap. `LruCovers R` says this of
`lru`, with `R` between the rank in the entry and the current rank; `ExpiryCovers` says it of `expiry`,
with an entry deadline no later than the current one.

The loops that pop the heaps terminate within their fuel (`sweep_exit`, `enforce_exit`).
-/

set_option autoImplicit false

namespace Pktflow.Flows

open Pktflow.Core Pktflow.Lib

/-- The stream a pick evicts, and the reason. -/
def Pick.evicted : Pick → Option (StreamId × CloseReason)
  | .evict _ id reason => some (id, reason)
  | _ => none

theorem Pick.eq_of_evicted {pick : Pick} {id : StreamId} {reason : CloseReason}
    (h : pick.evicted = some (id, reason)) : ∃ c, pick = .evict c id reason := by
  cases pick with
  | exit => cases h
  | skip c => cases h
  | evict c id' reason' =>
      cases h
      exact ⟨c, rfl⟩

/-- The LRU rank of a stream: last-seen time, then creation. -/
def Stream.rank (s : Stream) : SeenRank := ⟨s.lastSeen, s.createdSeq⟩

namespace Aggregator

/-! ## Values of leaves -/

/-- The value of a live stream without children. -/
def leafVal {β : Type} (v : Stream → β) (a : Aggregator) (h : StreamId) : Option β :=
  ((a.get h).filter fun s => s.children = []).map v

section Leaves

variable {β : Type} {v : Stream → β} {env : Env} {a : Aggregator} {id h : StreamId} {s : Stream} {b : β}

theorem leafVal_eq_some : a.leafVal v h = some b ↔ ∃ s, a.get h = some s ∧ s.children = [] ∧ v s = b := by
  simp only [leafVal, Option.map_eq_some_iff, Option.filter_eq_some_iff, decide_eq_true_eq, and_assoc]

theorem leafVal_of_get (hs : a.get h = some s) (hc : s.children = []) : a.leafVal v h = some (v s) :=
  leafVal_eq_some.2 ⟨s, hs, hc, rfl⟩

theorem leafVal_eq_none (hinner : ∀ s, a.get h = some s → s.children ≠ []) : a.leafVal v h = none := by
  cases hb : a.leafVal v h with
  | none => rfl
  | some b =>
      obtain ⟨s, hs, hc, -⟩ := leafVal_eq_some.1 hb
      exact absurd hc (hinner s hs)

/-- A creation adds a leaf, and its parent is none any more. -/
theorem leafVal_create {n : NewStream} (env : Env) (hlim : a.Fits) (hp : a.Linked n.parent)
    (hb : (a.createStreamRaw env n).1.leafVal v h = some b) :
    a.leafVal v h = some b ∨ (a.freshId = h ∧ v (n.record a.freshId a.nextSeq) = b) := by
  obtain ⟨s, hs, hc, rfl⟩ := leafVal_eq_some.1 hb
  rw [get_create env hlim hp] at hs
  split at hs
  · rename_i hh
    obtain rfl := Option.some.inj hs
    exact .inr ⟨hh.symm, rfl⟩
  · split at hs
    · obtain ⟨t, -, rfl⟩ := Option.map_eq_some_iff.1 hs
      -- the parent has a child now
      simp [Stream.addChild] at hc
    · exact .inl (leafVal_of_get hs hc)

/-- An eviction takes a leaf away, and may make one of its parent. -/
theorem leafVal_evict {reason : CloseReason} (hs : a.get id = some s)
    (hb : (a.evict env id reason).leafVal v h = some b) :
    (h ≠ id ∧ a.leafVal v h = some b) ∨
      (s.parent = some h ∧ ∃ t, (a.evict env id reason).get h = some t ∧ v t = b) := by
  obtain ⟨t, ht, hc, rfl⟩ := leafVal_eq_some.1 hb
  have hget : (a.evict env id reason).get h = _ := get_evict hs h
  rw [ht] at hget
  split at hget
  · cases hget
  · rename_i hne
    split at hget
    · rename_i hpar
      exact .inr ⟨hpar, t, ht, rfl⟩
    · exact .inl ⟨hne, leafVal_of_get hget.symm hc⟩

/-- A modification that keeps child lists changes the value of one leaf at most. -/
theorem leafVal_modify {f : Stream → Stream} (hf : ∀ s, (f s).children = s.children)
    (hb : (a.modify id f).leafVal v h = some b) :
    (h ≠ id ∧ a.leafVal v h = some b) ∨
      (h = id ∧ ∃ s, a.get id = some s ∧ s.children = [] ∧ v (f s) = b) := by
  obtain ⟨t, ht, hc, rfl⟩ := leafVal_eq_some.1 hb
  rw [get_modify, Function.update_apply] at ht
  split at ht
  · rename_i hh
    obtain ⟨s, hs, rfl⟩ := Option.map_eq_some_iff.1 ht
    exact .inr ⟨hh, s, hs, (hf s).symm.trans hc, rfl⟩
  · rename_i hh
    exact .inl ⟨hh, leafVal_of_get ht hc⟩

/-- A modification that keeps child lists and values changes nothing. -/
theorem leafVal_modify_eq {f : Stream → Stream} (hf : ∀ s, (f s).children = s.children)
    (hv : ∀ s, v (f s) = v s) (hb : (a.modify id f).leafVal v h = some b) : a.leafVal v h = some b := by
  rcases leafVal_modify hf hb with ⟨-, hold⟩ | ⟨rfl, s, hs, hc, rfl⟩
  · exact hold
  · rw [hv]
    exact leafVal_of_get hs hc

end Leaves

/-- What `evict` does to the heaps under the `Live` policy: the parent, if any, is re-armed in both. -/
theorem heaps_evict {env : Env} {a : Aggregator} {idle linger : Duration} {cap : Nat} {id : StreamId}
    {s : Stream} (hev : env.config.eviction = .live idle linger cap) (reason : CloseReason)
    (hf : ForestInv a) (hs : a.get id = some s) :
    (s.parent = none ∧ (a.evict env id reason).expiry = a.expiry ∧
        (a.evict env id reason).lru = a.lru) ∨
      ∃ p t, s.parent = some p ∧ (a.evict env id reason).get p = some t ∧
        (a.evict env id reason).expiry = a.expiry.push (expiryEntry (t.deadline idle linger) p) ∧
        (a.evict env id reason).lru = a.lru.push (lruEntry t.lastSeen t.createdSeq p) := by
  cases hp : s.parent with
  | none =>
      refine .inl ⟨rfl, ?_⟩
      rw [evict_eq hs, hp]
      exact ⟨rfl, rfl⟩
  | some p =>
      obtain ⟨hne, ps, hps⟩ := hf.parent_live hs hp
      have hget : (a.evict env id reason).get p = some (ps.dropChild id) := by
        rw [get_evict hs, if_neg hne, if_pos hp, hps]
        rfl
      refine .inr ⟨p, ps.dropChild id, rfl, hget, ?_⟩
      rw [evict_eq hs, hp] at hget ⊢
      -- `unlink` reads the parent once it has lost the child
      have hparent : ((((a.takeStream s id).condenseEvict env s).unindex env s id).modify p
          fun s => s.dropChild id).get p = some (ps.dropChild id) := hget
      simp only [emit, unlink, deadlineOf, hev, hparent, Option.map_some]
      exact ⟨rfl, rfl⟩

/-- An eviction needs entries for the other leaves only, if it re-arms the parent. -/
theorem covers_evict {ε β : Type} [LinearOrder ε] {name : ε → StreamId} {R : ε → β → Prop}
    {v : Stream → β} {heap heap' : MinHeap ε} {env : Env} {a : Aggregator} {id : StreamId} {s : Stream}
    {reason : CloseReason} (hs : a.get id = some s)
    (hheap : (s.parent = none ∧ heap' = heap) ∨ ∃ p t e, s.parent = some p ∧
      (a.evict env id reason).get p = some t ∧ heap' = heap.push e ∧ name e = p ∧ R e (v t))
    (h : LazyHeap.Covers name R heap (Function.update (a.leafVal v) id none)) :
    LazyHeap.Covers name R heap' ((a.evict env id reason).leafVal v) := by
  have hother : ∀ k r, k ≠ id → a.leafVal v k = some r →
      Function.update (a.leafVal v) id none k = some r := by
    intro k r hne hk
    rw [Function.update_of_ne hne, hk]
  rcases hheap with ⟨hp, rfl⟩ | ⟨p, t, e, hp, ht, rfl, hname, hR⟩
  · refine h.mono fun k r hk => ⟨r, ?_, fun _ hR => hR⟩
    rcases leafVal_evict hs hk with ⟨hne, hold⟩ | ⟨hpar, -⟩
    · exact hother k r hne hold
    · -- the stream had no parent that could become a leaf
      rw [hp] at hpar
      cases hpar
  · apply h.push_new e
    intro k r hk
    rcases leafVal_evict hs hk with ⟨hne, hold⟩ | ⟨hpar, u, hu, rfl⟩
    · exact .inl (hother k r hne hold)
    · rw [hp] at hpar
      obtain rfl := Option.some.inj hpar
      rw [ht] at hu
      obtain rfl := Option.some.inj hu
      -- the parent, covered by the entry just pushed
      exact .inr ⟨hname, hR⟩

/-- Where every leaf is covered, the others are. -/
theorem covers_others {ε β : Type} [LinearOrder ε] {name : ε → StreamId} {R : ε → β → Prop}
    {heap : MinHeap ε} {cur : StreamId → Option β} (h : LazyHeap.Covers name R heap cur) (id : StreamId) :
    LazyHeap.Covers name R heap (Function.update cur id none) := by
  refine h.mono fun k r hk => ⟨r, ?_, fun _ hR => hR⟩
  rw [Function.update_apply] at hk
  split at hk
  · cases hk
  · exact hk

/-- After a pop the streams other than the one it names are covered. -/
theorem covers_popped {ε β : Type} [LinearOrder ε] {name : ε → StreamId} {R : ε → β → Prop}
    {heap rest : MinHeap ε} {e : ε} {cur : StreamId → Option β} (h : LazyHeap.Covers name R heap cur)
    (hpop : heap.pop = some (e, rest)) :
    LazyHeap.Covers name R rest (Function.update cur (name e) none) := by
  apply h.pop hpop
  intro k r hk
  rw [Function.update_apply] at hk
  split at hk
  · cases hk
  · rename_i hne
    exact ⟨hne, hk⟩

/-! ## The LRU heap -/

/-- Every live leaf has an LRU entry whose rank is in the relation `R` to its own. -/
def LruCovers (R : SeenRank → SeenRank → Prop) (a : Aggregator) : Prop :=
  LazyHeap.Covers LruEntry.id (fun e r => R e.rank r) a.lru (a.leafVal Stream.rank)

namespace LruCovers

variable {R : SeenRank → SeenRank → Prop} {env : Env} {a b : Aggregator}
  {idle linger : Duration} {cap : Nat}

theorem new : LruCovers R Aggregator.new := LazyHeap.Covers.of_none _ fun _ => rfl

/-- A modification that keeps child lists and ranks. -/
theorem modify (h : LruCovers R a) (id : StreamId) {f : Stream → Stream}
    (hc : ∀ s, (f s).children = s.children) (hr : ∀ s, (f s).rank = s.rank) :
    LruCovers R (a.modify id f) := by
  refine LazyHeap.Covers.mono h fun k r hk => ⟨r, ?_, fun _ hR => hR⟩
  exact leafVal_modify_eq hc hr hk

/-- Folding a packet into a stream moves its rank; the entries it had must stay related to it. -/
theorem touch (h : LruCovers R a) {id : StreamId} {ts : SystemTime}
    (hmono : ∀ s, a.get id = some s → ∀ r, R r s.rank → R r ⟨ts, s.createdSeq⟩)
    (identity : StreamIdentity) (layer : LayerRecord) (key : FlowKey) (dir : PacketDirection)
    (origlen : Nat) : LruCovers R (a.touch env id identity layer key dir ts origlen) := by
  apply LazyHeap.Covers.mono h
  intro k r hk
  have hchildren : ∀ s : Stream, (s.absorb identity layer key dir ts origlen).1.children = s.children :=
    fun s => congrArg Forest.Node.children (s.absorb_node identity layer key dir ts origlen)
  rcases leafVal_modify hchildren hk with ⟨-, hold⟩ | ⟨rfl, s, hs, hc, rfl⟩
  · exact ⟨r, hold, fun _ hR => hR⟩
  · refine ⟨s.rank, leafVal_of_get hs hc, fun e hR => ?_⟩
    have hrank : (s.absorb identity layer key dir ts origlen).1.rank = ⟨ts, s.createdSeq⟩ := by
      rw [Stream.absorb_eq]
      rfl
    rw [hrank]
    exact hmono s hs e.rank hR

section Live

variable (hR : ∀ r, R r r) (hev : env.config.eviction = .live idle linger cap)

include hR hev

/-- A new stream is entered with its own rank. -/
theorem create (h : LruCovers R a) {n : NewStream} (hlim : a.Fits) (hp : a.Linked n.parent) :
    LruCovers R (a.createStreamRaw env n).1 := by
  have hlru : (a.createStreamRaw env n).1.lru = a.lru.push (lruEntry n.ts a.nextSeq a.freshId) := by
    simp only [createStreamRaw, armStream, hev]
    rfl
  rw [LruCovers]
  rw [hlru]
  apply LazyHeap.Covers.push_new h _
  intro k r hk
  rcases leafVal_create env hlim hp hk with hold | ⟨hid, rfl⟩
  · exact .inl hold
  · exact .inr ⟨hid, hR _⟩

/-- An eviction needs entries for the other leaves only: the parent is re-armed with its rank. -/
theorem evict {id : StreamId} {s : Stream} (reason : CloseReason) (hf : ForestInv a)
    (hs : a.get id = some s)
    (h : LazyHeap.Covers LruEntry.id (fun e r => R e.rank r) a.lru
      (Function.update (a.leafVal Stream.rank) id none)) :
    LruCovers R (a.evict env id reason) := by
  refine covers_evict hs ?_ h
  rcases heaps_evict hev reason hf hs with ⟨hp, -, hlru⟩ | ⟨p, t, hp, ht, -, hlru⟩
  · exact .inl ⟨hp, hlru⟩
  · exact .inr ⟨p, t, _, hp, ht, hlru, rfl, hR _⟩

/-- The sweep touches the LRU heap through `evict` only. -/
theorem sweepBody (h : LruCovers R a) (hf : ForestInv a) (hab : sweepBody env a = some b) :
    LruCovers R b := by
  obtain ⟨expiry, hstep⟩ := sweepBody_step hab
  cases hstep with
  | heaps => exact h
  | evict reason hs _ =>
      have hf' : ForestInv { a with expiry := expiry } := hf.congr rfl rfl rfl rfl
      exact evict (a := { a with expiry := expiry }) hR hev reason hf' hs (covers_others h _)

/-- A popped entry is dropped if it names no leaf, replaced if it is out of date, and else its stream is
evicted. -/
theorem enforceBody (h : LruCovers R a) (hf : ForestInv a) (hab : enforceBody env a = some b) :
    LruCovers R b := by
  apply enforceBody_rule hev hab
  · intro e rest hpop hinner
    exact LazyHeap.Covers.pop_dead h hpop (leafVal_eq_none hinner)
  · intro e rest s hpop hs hc _
    exact LazyHeap.Covers.pop_push h hpop (leafVal_of_get hs hc) rfl (hR _)
  · intro e rest s hpop hs hc
    have hf' : ForestInv { a with lru := rest } := hf.congr rfl rfl rfl rfl
    exact evict (a := { a with lru := rest }) hR hev _ hf' hs (covers_popped h hpop)

omit hev in
/-- A rebuilt heap holds every leaf with its rank. -/
theorem compactLru (h : LruCovers R a) (hf : ForestInv a) : LruCovers R a.compactLru := by
  rw [Aggregator.compactLru]
  split
  · exact h
  · intro k r hk
    obtain ⟨s, hs, hc, rfl⟩ := leafVal_eq_some.1 hk
    have hs' : a.get k = some s := hs
    refine ⟨lruEntry s.lastSeen s.createdSeq s.id, ?_, ?_, hR _⟩
    · rw [MinHeap.mem_ofList, List.mem_map]
      exact ⟨s, List.mem_filter.2 ⟨mem_streams.2 ⟨k, hs'⟩, by simpa using hc⟩, rfl⟩
    · rw [lruEntry_id, hf.id_eq hs']

theorem evictStable : EvictStable env (LruCovers R) where
  close := by
    intro a id h
    obtain ⟨calls, heq⟩ := closeStream_eq env a id
    have hmod : LruCovers R (a.modify id fun s => s.markClosed .captureEnd) :=
      h.modify id (fun _ => rfl) fun _ => rfl
    rw [heq]
    exact hmod
  evict := fun reason hf hs _ h => evict hR hev reason hf hs (covers_others h _)

theorem loopStable : LoopStable env (LruCovers R) where
  sweepBody := fun hf h hab => h.sweepBody hR hev hf hab
  enforceBody := fun hf h hab => h.enforceBody hR hev hf hab
  compactLru := fun hf h => h.compactLru hR hf

/-- Resolution, whatever it comes to. -/
theorem resolution (h : LruCovers R a) {parent : Option StreamId} {key : FlowKey}
    {identity : StreamIdentity} {condense : Option CondenseSpec} {layer : LayerRecord}
    {dir : PacketDirection} {ts : SystemTime} {r : Aggregator × StreamId × PacketDirection}
    (hp : a.Linked parent) (hr : Resolution env a parent key identity condense layer dir ts r)
    (hfits : r.1.Fits) : LruCovers R r.1 := by
  have hlim : a.Fits := hr.fits hfits
  refine hr.rule (J := LruCovers R) h ?_ ?_ ?_ ?_
  · rintro n rfl -
    exact h.create hR hev hlim hp
  · intro b id hb
    exact hb.modify id (fun _ => rfl) fun _ => rfl
  · intro b id hb
    exact hb.modify id (fun _ => rfl) fun _ => rfl
  · intro b m t c _ hb
    exact hb

end Live

end LruCovers

/-! ## The expiry heap -/

/-- Every live leaf has an expiry entry with a deadline no later than its own. -/
def ExpiryCovers (idle linger : Duration) (a : Aggregator) : Prop :=
  LazyHeap.Covers ExpiryEntry.id (fun e d => e.deadline ≤ d) a.expiry
    (a.leafVal (Stream.deadline idle linger))

end Aggregator

theorem Stream.deadline_le (idle linger : Duration) (s : Stream) :
    s.deadline idle linger ≤ s.lastSeen + idle := by
  rw [Stream.deadline]
  cases s.closeEligibleSince with
  | none => exact le_refl _
  | some entered => exact min_le_left _ _

/-- A packet that is not older than the stream puts its deadline off, unless it closes the stream. -/
theorem Stream.deadline_absorb {s : Stream} {ts : SystemTime} (hts : s.lastSeen ≤ ts)
    (idle linger : Duration) (identity : StreamIdentity) (layer : LayerRecord) (key : FlowKey)
    (dir : PacketDirection) (origlen : Nat) :
    s.deadline idle linger ≤ (s.absorb identity layer key dir ts origlen).1.deadline idle linger ∨
      ((s.absorb identity layer key dir ts origlen).2 = true ∧
        (s.absorb identity layer key dir ts origlen).1.deadline idle linger =
          min (ts + idle) (ts + linger)) := by
  -- the idle part of the deadline moves with the packet
  have hidle : s.deadline idle linger ≤ ts + idle :=
    le_trans (s.deadline_le idle linger) (Int.add_le_add_right hts _)
  have hsame : s.deadline idle linger ≤
      ({ s with lastSeen := ts } : Stream).deadline idle linger := by
    unfold Stream.deadline at hidle ⊢
    cases hsince : s.closeEligibleSince with
    | none =>
        simp only [hsince] at hidle ⊢
        exact hidle
    | some entered =>
        simp only [hsince] at hidle ⊢
        exact le_min hidle (min_le_right _ _)
  rw [Stream.absorb, Stream.advance]
  cases identity.lifecycle with
  | none => exact .inl hsame
  | some spec =>
      cases hstate : s.state with
      | none =>
          exact .inl hsame
      | some current =>
          simp only
          by_cases hin : spec.advance layer.fields current dir ∈ spec.closedStates
          · cases hel : s.closeEligible with
            | true =>
                -- closed before and closed now: the linger anchor stays
                refine .inl ?_
                simp only [Stream.deadline, hin, decide_true, Bool.not_true, Bool.and_false,
                  Bool.false_eq_true, if_false, if_true] at hsame ⊢
                exact hsame
            | false =>
                -- closed by this packet, the case in which `touch` pushes a second entry
                refine .inr ⟨?_, ?_⟩
                · simp only [hin, decide_true, Bool.not_false, Bool.and_true]
                · simp only [Stream.deadline, hin, decide_true, Bool.not_false, Bool.and_true, if_true]
          · -- open again: only the idle part is left
            refine .inl ?_
            simp only [Stream.deadline, hin, decide_false, Bool.false_and, Bool.false_eq_true, if_false]
              at hidle ⊢
            exact hidle

namespace Aggregator

namespace ExpiryCovers

variable {env : Env} {a b : Aggregator} {idle linger : Duration} {cap : Nat}

theorem new : ExpiryCovers idle linger Aggregator.new := LazyHeap.Covers.of_none _ fun _ => rfl

/-- A modification that keeps child lists and deadlines. -/
theorem modify (h : ExpiryCovers idle linger a) (id : StreamId) {f : Stream → Stream}
    (hc : ∀ s, (f s).children = s.children)
    (hd : ∀ s, (f s).deadline idle linger = s.deadline idle linger) :
    ExpiryCovers idle linger (a.modify id f) := by
  refine LazyHeap.Covers.mono h fun k d hk => ⟨d, ?_, fun _ hle => hle⟩
  exact leafVal_modify_eq hc hd hk

section Live

variable (hev : env.config.eviction = .live idle linger cap)

include hev

/-- Folding a packet that is not older than the stream: the entry it had stays early enough, or the
linger deadline is armed. -/
theorem touch (h : ExpiryCovers idle linger a) {id : StreamId} {ts : SystemTime}
    (hts : ∀ s, a.get id = some s → s.lastSeen ≤ ts) (identity : StreamIdentity) (layer : LayerRecord)
    (key : FlowKey) (dir : PacketDirection) (origlen : Nat) :
    ExpiryCovers idle linger (a.touch env id identity layer key dir ts origlen) := by
  intro k d hk
  have hchildren : ∀ s : Stream, (s.absorb identity layer key dir ts origlen).1.children = s.children :=
    fun s => congrArg Forest.Node.children (s.absorb_node identity layer key dir ts origlen)
  -- the heap after the touch has the entries it had
  have hkeep : ∀ e ∈ a.expiry.entries,
      e ∈ (a.touch env id identity layer key dir ts origlen).expiry.entries := by
    intro e he
    simp only [Aggregator.touch, hev]
    split
    · exact MinHeap.mem_push.2 (.inr he)
    · exact he
  have hold : ∀ d₀, a.leafVal (Stream.deadline idle linger) k = some d₀ → d₀ ≤ d →
      ∃ e ∈ (a.touch env id identity layer key dir ts origlen).expiry.entries,
        e.id = k ∧ e.deadline ≤ d := by
    intro d₀ hd₀ hle
    obtain ⟨e, he, hek, hed⟩ := h k d₀ hd₀
    exact ⟨e, hkeep e he, hek, le_trans hed hle⟩
  rcases leafVal_modify hchildren hk with ⟨-, hk⟩ | ⟨rfl, s, hs, hc, rfl⟩
  · exact hold d hk (le_refl _)
  · rcases Stream.deadline_absorb (hts s hs) idle linger identity layer key dir origlen with
      hle | ⟨hbecame, hdeadline⟩
    · exact hold _ (leafVal_of_get hs hc) hle
    · rw [hdeadline]
      rcases min_choice (ts + idle) (ts + linger) with hmin | hmin
      · -- the idle deadline is the earlier one, and the old entry covers it
        obtain ⟨e, he, hek, hed⟩ := h k _ (leafVal_of_get hs hc)
        refine ⟨e, hkeep e he, hek, ?_⟩
        calc e.deadline ≤ s.deadline idle linger := hed
          _ ≤ s.lastSeen + idle := s.deadline_le idle linger
          _ ≤ ts + idle := Int.add_le_add_right (hts s hs) _
          _ = min (ts + idle) (ts + linger) := hmin.symm
      · refine ⟨expiryEntry (ts + linger) k, ?_, rfl, le_of_eq hmin.symm⟩
        simp only [Aggregator.touch, hev, hs, Option.any_some, hbecame, if_true]
        exact MinHeap.mem_push.2 (.inl rfl)

/-- A new stream is entered with its own deadline. -/
theorem create (h : ExpiryCovers idle linger a) {n : NewStream} (hlim : a.Fits)
    (hp : a.Linked n.parent) : ExpiryCovers idle linger (a.createStreamRaw env n).1 := by
  have hexpiry : (a.createStreamRaw env n).1.expiry =
      a.expiry.push (expiryEntry (n.ts + idle) a.freshId) := by
    simp only [createStreamRaw, armStream, hev]
    rfl
  rw [ExpiryCovers]
  rw [hexpiry]
  apply LazyHeap.Covers.push_new h _
  intro k d hk
  rcases leafVal_create env hlim hp hk with hold | ⟨hid, rfl⟩
  · exact .inl hold
  · exact .inr ⟨hid, le_refl _⟩

/-- An eviction needs entries for the other leaves only: the parent is re-armed with its deadline. -/
theorem evict {id : StreamId} {s : Stream} (reason : CloseReason) (hf : ForestInv a)
    (hs : a.get id = some s)
    (h : LazyHeap.Covers ExpiryEntry.id (fun e d => e.deadline ≤ d) a.expiry
      (Function.update (a.leafVal (Stream.deadline idle linger)) id none)) :
    ExpiryCovers idle linger (a.evict env id reason) := by
  refine covers_evict hs ?_ h
  rcases heaps_evict hev reason hf hs with ⟨hp, hexpiry, -⟩ | ⟨p, t, hp, ht, hexpiry, -⟩
  · exact .inl ⟨hp, hexpiry⟩
  · exact .inr ⟨p, t, _, hp, ht, hexpiry, rfl, le_refl _⟩

/-- A popped entry that is due is dropped if it names no leaf, replaced if its stream is not due, and
else its stream is evicted. -/
theorem sweepBody (h : ExpiryCovers idle linger a) (hf : ForestInv a)
    (hab : sweepBody env a = some b) : ExpiryCovers idle linger b := by
  apply sweepBody_rule hev hab
  · intro e rest hpop _ hinner
    exact LazyHeap.Covers.pop_dead h hpop (leafVal_eq_none hinner)
  · intro e rest s hpop _ hs _
    cases hc : s.children with
    | nil => exact LazyHeap.Covers.pop_push h hpop (leafVal_of_get hs hc) rfl (le_refl _)
    | cons c cs =>
        -- an inner stream is not to be covered, and the new entry does no harm
        refine LazyHeap.Covers.push (LazyHeap.Covers.pop_dead h hpop (leafVal_eq_none ?_)) _
        intro t ht
        rw [hs] at ht
        obtain rfl := Option.some.inj ht
        rw [hc]
        exact List.cons_ne_nil c cs
  · intro e rest s hpop _ hs _ _
    have hf' : ForestInv { a with expiry := rest } := hf.congr rfl rfl rfl rfl
    exact evict (a := { a with expiry := rest }) hev _ hf' hs (covers_popped h hpop)

/-- The cap touches the expiry heap through `evict` only. -/
theorem enforceBody (h : ExpiryCovers idle linger a) (hf : ForestInv a)
    (hab : enforceBody env a = some b) : ExpiryCovers idle linger b := by
  obtain ⟨lru, hstep⟩ := enforceBody_step hab
  cases hstep with
  | heaps => exact h
  | evict reason hs _ =>
      have hf' : ForestInv { a with lru := lru } := hf.congr rfl rfl rfl rfl
      exact evict (a := { a with lru := lru }) hev reason hf' hs (covers_others h _)

theorem evictStable : EvictStable env (ExpiryCovers idle linger) where
  close := by
    intro a id h
    obtain ⟨calls, heq⟩ := closeStream_eq env a id
    have hmod : ExpiryCovers idle linger (a.modify id fun s => s.markClosed .captureEnd) :=
      h.modify id (fun _ => rfl) fun _ => rfl
    rw [heq]
    exact hmod
  evict := fun reason hf hs _ h => evict hev reason hf hs (covers_others h _)

theorem loopStable : LoopStable env (ExpiryCovers idle linger) where
  sweepBody := fun hf h hab => h.sweepBody hev hf hab
  enforceBody := fun hf h hab => h.enforceBody hev hf hab
  compactLru := by
    intro a _ h
    obtain ⟨lru, heq⟩ := compactLru_eq a
    rw [heq]
    exact h

/-- Resolution, whatever it comes to. -/
theorem resolution (h : ExpiryCovers idle linger a) {parent : Option StreamId} {key : FlowKey}
    {identity : StreamIdentity} {condense : Option CondenseSpec} {layer : LayerRecord}
    {dir : PacketDirection} {ts : SystemTime} {r : Aggregator × StreamId × PacketDirection}
    (hp : a.Linked parent) (hr : Resolution env a parent key identity condense layer dir ts r)
    (hfits : r.1.Fits) : ExpiryCovers idle linger r.1 := by
  have hlim : a.Fits := hr.fits hfits
  refine hr.rule (J := ExpiryCovers idle linger) h ?_ ?_ ?_ ?_
  · rintro n rfl -
    exact h.create hev hlim hp
  · intro b id hb
    exact hb.modify id (fun _ => rfl) fun _ => rfl
  · intro b id hb
    exact hb.modify id (fun _ => rfl) fun _ => rfl
  · intro b m t c _ hb
    exact hb

end Live

end ExpiryCovers

/-! ## Termination of the loops -/

section Exit

variable {env : Env} {a b : Aggregator} {idle linger : Duration} {cap : Nat}

/-- Counts the entries that are due. -/
def dueEntry (now : SystemTime) (e : ExpiryEntry) : Nat := if e.deadline ≤ now then 1 else 0

theorem dueEntry_le_one (now : SystemTime) (e : ExpiryEntry) : dueEntry now e ≤ 1 := by
  rw [dueEntry]
  split <;> omega

/-- Every iteration of `sweep` takes a stream or a due entry away. -/
def sweepMeasure (a : Aggregator) : Nat :=
  a.streams.length + LazyHeap.weight (dueEntry a.clock) a.expiry

theorem sweepMeasure_lt (hev : env.config.eviction = .live idle linger cap) (hf : ForestInv a)
    (hab : sweepBody env a = some b) : b.sweepMeasure < a.sweepMeasure := by
  have hpopped : ∀ {e : ExpiryEntry} {rest : MinHeap ExpiryEntry}, a.expiry.pop = some (e, rest) →
      e.deadline ≤ a.clock →
      a.sweepMeasure = a.streams.length + (1 + LazyHeap.weight (dueEntry a.clock) rest) := by
    intro e rest hpop hdue
    rw [sweepMeasure]
    rw [LazyHeap.weight_of_pop _ hpop, dueEntry, if_pos hdue]
  apply sweepBody_rule (J := fun b => b.sweepMeasure < a.sweepMeasure) hev hab
  · intro e rest hpop hdue _
    rw [hpopped hpop hdue]
    show a.streams.length + LazyHeap.weight (dueEntry a.clock) rest < _
    omega
  · intro e rest s hpop hdue _ hlater
    have hnew : dueEntry a.clock (expiryEntry (s.deadline idle linger) e.id) = 0 :=
      if_neg (not_le.2 hlater)
    rw [hpopped hpop hdue]
    show a.streams.length + LazyHeap.weight (dueEntry a.clock) (rest.push _) < _
    rw [LazyHeap.weight_push, hnew]
    omega
  · intro e rest s hpop hdue hs _ _
    have hf' : ForestInv { a with expiry := rest } := hf.congr rfl rfl rfl rfl
    have hlen : a.streams.length = _ := hf'.length_evict env (sweepReason linger a.clock s) hs
    have hclock : _ = a.clock := (evict_unchanged env { a with expiry := rest } e.id
      (sweepReason linger a.clock s)).2.2.1
    have hheaps := heaps_evict hev (sweepReason linger a.clock s) hf' hs
    rw [hpopped hpop hdue, sweepMeasure, hclock, hlen]
    -- the parent's new entry may be due at once
    rcases hheaps with ⟨-, hexpiry, -⟩ | ⟨p, t, -, -, hexpiry, -⟩
    · rw [hexpiry]
      show _ + LazyHeap.weight (dueEntry a.clock) rest < _
      omega
    · have hone := dueEntry_le_one a.clock (expiryEntry (t.deadline idle linger) p)
      rw [hexpiry]
      show _ + LazyHeap.weight (dueEntry a.clock) (rest.push _) < _
      rw [LazyHeap.weight_push]
      omega

/-- `sweep` terminates: its fuel leads out of the loop. -/
theorem sweep_exit (env : Env) (hf : ForestInv a) : sweepBody env (a.sweep env) = none := by
  cases hev : env.config.eviction with
  | none => simp only [sweepBody, sweepPick, hev, Pick.run]
  | live idle linger cap =>
      refine Loop.iterate_exit (I := ForestInv) sweepMeasure (fun x y hx hxy => hx.sweepBody hxy)
        (fun x y hx hxy => sweepMeasure_lt hev hx hxy) _ a hf ?_
      have hweight := LazyHeap.weight_le 1 (dueEntry_le_one a.clock) a.expiry
      rw [sweepMeasure]
      omega

/-- The weight of an LRU entry: a stale one may have to be popped twice. -/
def entryWeight (a : Aggregator) (e : LruEntry) : Nat :=
  if (a.get e.id).map Stream.rank = some e.rank then 1 else 2

theorem one_le_entryWeight (a : Aggregator) (e : LruEntry) : 1 ≤ a.entryWeight e := by
  rw [entryWeight]
  split <;> omega

theorem entryWeight_le_two (a : Aggregator) (e : LruEntry) : a.entryWeight e ≤ 2 := by
  rw [entryWeight]
  split <;> omega

/-- Every iteration of `enforce_max_streams` takes a stream away, or an entry, or makes one exact. The
heap holds no more than `bound` entries. -/
def enforceMeasure (bound : Nat) (a : Aggregator) : Nat :=
  a.streams.length * (2 * bound + 1) + LazyHeap.weight a.entryWeight a.lru

theorem length_lru_enforceBody (hev : env.config.eviction = .live idle linger cap) (hf : ForestInv a)
    (hab : enforceBody env a = some b) : b.lru.length ≤ a.lru.length := by
  apply enforceBody_rule (J := fun b => b.lru.length ≤ a.lru.length) hev hab
  · intro e rest hpop _
    rw [MinHeap.length_of_pop hpop]
    exact Nat.le_succ _
  · intro e rest s hpop _ _ _
    rw [MinHeap.length_of_pop hpop]
    exact le_of_eq (MinHeap.length_push _ _)
  · intro e rest s hpop hs _
    have hf' : ForestInv { a with lru := rest } := hf.congr rfl rfl rfl rfl
    have hs' : ({ a with lru := rest } : Aggregator).get e.id = some s := hs
    rw [MinHeap.length_of_pop hpop]
    rcases heaps_evict hev .lruEvicted hf' hs' with ⟨-, -, hlru⟩ | ⟨p, t, -, -, -, hlru⟩
    · rw [hlru]
      exact Nat.le_succ _
    · rw [hlru]
      exact le_of_eq (MinHeap.length_push _ _)

theorem enforceMeasure_lt {bound : Nat} (hev : env.config.eviction = .live idle linger cap)
    (hf : ForestInv a) (hbound : a.lru.length ≤ bound) (hab : enforceBody env a = some b) :
    b.enforceMeasure bound < a.enforceMeasure bound := by
  have hlength := length_lru_enforceBody hev hf hab
  revert hlength
  apply enforceBody_rule
    (J := fun b => b.lru.length ≤ a.lru.length → b.enforceMeasure bound < a.enforceMeasure bound) hev hab
  · intro e rest hpop _ _
    have hone := one_le_entryWeight a e
    show a.streams.length * _ + LazyHeap.weight a.entryWeight rest < _
    rw [enforceMeasure, LazyHeap.weight_of_pop _ hpop]
    omega
  · intro e rest s hpop hs _ hne _
    -- the stale entry weighs two, its exact replacement one
    have hold : a.entryWeight e = 2 := by
      refine if_neg fun heq => hne ?_
      rw [hs] at heq
      obtain ⟨hl, hq⟩ := SeenRank.mk.inj (Option.some.inj heq)
      rw [hl, hq]
    have hnew : a.entryWeight (lruEntry s.lastSeen s.createdSeq e.id) = 1 := by
      apply if_pos
      rw [lruEntry_id, hs]
      rfl
    show a.streams.length * _ + LazyHeap.weight a.entryWeight (rest.push _) < _
    rw [enforceMeasure, LazyHeap.weight_of_pop _ hpop, LazyHeap.weight_push, hold, hnew]
    omega
  · intro e rest s hpop hs _ hlength
    have hf' : ForestInv { a with lru := rest } := hf.congr rfl rfl rfl rfl
    have hlen : a.streams.length = _ := hf'.length_evict env .lruEvicted hs
    generalize ({ a with lru := rest } : Aggregator).evict env e.id .lruEvicted = b at hlen hlength ⊢
    -- the stream that goes pays for whatever the eviction makes of the heap
    have hweight := LazyHeap.weight_le 2 (entryWeight_le_two b) b.lru
    unfold enforceMeasure
    rw [hlen, Nat.add_one_mul b.streams.length]
    omega

/-- `enforce_max_streams` terminates: its fuel leads out of the loop. -/
theorem enforce_exit (env : Env) (hf : ForestInv a) :
    enforceBody env (a.enforceMaxStreams env) = none := by
  cases hev : env.config.eviction with
  | none => simp only [enforceBody, enforcePick, hev, Pick.run]
  | live idle linger cap =>
      refine Loop.iterate_exit (I := fun x : Aggregator => ForestInv x ∧ x.lru.length ≤ a.lru.length)
        (enforceMeasure a.lru.length) ?_ ?_ _ a ⟨hf, le_refl _⟩ ?_
      · rintro x y ⟨hfx, hx⟩ hxy
        exact ⟨hfx.enforceBody hxy, le_trans (length_lru_enforceBody hev hfx hxy) hx⟩
      · rintro x y ⟨hfx, hx⟩ hxy
        exact enforceMeasure_lt hev hfx hx hxy
      · have hweight := LazyHeap.weight_le 2 (entryWeight_le_two a) a.lru
        rw [enforceMeasure]
        omega

end Exit

end Aggregator

end Pktflow.Flows

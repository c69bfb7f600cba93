import Pktflow.Flows.Heaps
import Pktflow.Flows.Times

/-!
# The timeout sweep

In a capture in time order `sweep` is exact (`sweep_exact`): it ends, it evicts only leaves that are due,
it leaves no leaf that is due, and its reasons tell whether a stream had been closed for the linger time.

The reasons rest on `close_eligible_since`, which is the time at which the closed states at the end of a
stream's history begin (`ClosingInv`).
-/

set_option autoImplicit false

namespace Pktflow.Flows

open Pktflow.Core Pktflow.Lib

/-! ## Closed states -/

/-- Whether a lifecycle state of a protocol is a closed one. -/
def closedIn (env : Env) (protocol : ProtocolName) (state : Option StateName) : Bool :=
  match Aggregator.identityOf env protocol, state with
  | some (_, identity), some st =>
      match identity.lifecycle with
      | some spec => st ∈ spec.closedStates
      | none => false
  | _, _ => false

/-- The time at which the closed states at the end of a history begin. -/
def closedSince (closed : Option StateName → Bool) (history : List Fold) : Option SystemTime :=
  ((history.reverse.takeWhile fun f => closed f.state).getLast?).map Fold.ts

/-- A closed state extends the closed end of the history, another one ends it. -/
theorem closedSince_append (closed : Option StateName → Bool) (history : List Fold) (f : Fold) :
    closedSince closed (history ++ [f]) =
      if closed f.state then some ((closedSince closed history).getD f.ts) else none := by
  unfold closedSince
  rw [List.reverse_append, List.reverse_singleton, List.singleton_append, List.takeWhile_cons]
  split
  · cases hrest : history.reverse.takeWhile fun f => closed f.state with
    | nil => rfl
    | cons g l =>
        rw [List.getLast?_cons_cons]
        cases hlast : (g :: l).getLast? with
        | none => simp at hlast
        | some x => rfl
  · rfl

/-- A stream that has been in closed states without interruption, since a packet at least `linger` ago. -/
def Stream.ClosedFor (env : Env) (linger : Duration) (now : SystemTime) (s : Stream) : Prop :=
  ∃ before f after, s.history = before ++ f :: after ∧
    (∀ g ∈ f :: after, closedIn env s.protocol g.state = true) ∧ f.ts + linger ≤ now

theorem mem_of_closedSince {closed : Option StateName → Bool} {history : List Fold} {t : SystemTime}
    (h : closedSince closed history = some t) : t ∈ history.map Fold.ts := by
  rw [closedSince] at h
  obtain ⟨f, hf, rfl⟩ := Option.map_eq_some_iff.1 h
  have hmem := (List.takeWhile_sublist _).subset (List.mem_of_getLast? hf)
  exact List.mem_map_of_mem (List.mem_reverse.1 hmem)

/-- The closed end of a history begins with one of its packets. -/
theorem split_of_closedSince {closed : Option StateName → Bool} {history : List Fold} {t : SystemTime}
    (h : closedSince closed history = some t) :
    ∃ before f after, history = before ++ f :: after ∧
      (∀ g ∈ f :: after, closed g.state = true) ∧ f.ts = t := by
  induction history using List.reverseRecOn with
  | nil => cases h
  | append_singleton history f ih =>
      rw [closedSince_append] at h
      split at h
      · rename_i hclosed
        cases hsince : closedSince closed history with
        | none =>
            -- the closed end is this packet alone
            rw [hsince] at h
            refine ⟨history, f, [], rfl, ?_, Option.some.inj h⟩
            intro g hg
            obtain rfl := List.mem_singleton.1 hg
            exact hclosed
        | some t₀ =>
            rw [hsince] at h
            obtain rfl := Option.some.inj h
            obtain ⟨before, g, after, rfl, hall, hg⟩ := ih hsince
            refine ⟨before, g, after ++ [f], by simp, ?_, hg⟩
            intro x hx
            rw [← List.cons_append] at hx
            rcases List.mem_append.1 hx with hold | hnew
            · exact hall x hold
            · obtain rfl := List.mem_singleton.1 hnew
              exact hclosed
      · cases h

/-- With the packets in time order, a closed end began no later than any packet it goes through. -/
theorem closedSince_le_of_split {closed : Option StateName → Bool} {history before after : List Fold}
    {f : Fold} (hsorted : (history.map Fold.ts).Pairwise (· ≤ ·)) (hsplit : history = before ++ f :: after)
    (hall : ∀ g ∈ f :: after, closed g.state = true) :
    ∃ t, closedSince closed history = some t ∧ t ≤ f.ts := by
  induction after using List.reverseRecOn generalizing history with
  | nil =>
      subst hsplit
      rw [List.map_append, List.pairwise_append] at hsorted
      obtain ⟨-, -, hle⟩ := hsorted
      rw [closedSince_append, if_pos (hall f List.mem_cons_self)]
      refine ⟨_, rfl, ?_⟩
      cases hsince : closedSince closed before with
      | none => exact le_refl f.ts
      | some t => exact hle t (mem_of_closedSince hsince) f.ts List.mem_cons_self
  | append_singleton after last ih =>
      rw [← List.cons_append, ← List.append_assoc] at hsplit
      subst hsplit
      rw [List.map_append, List.pairwise_append] at hsorted
      obtain ⟨t, ht, hle⟩ := ih hsorted.1 rfl fun g hg => hall g (by
        rw [← List.cons_append]
        exact List.mem_append_left _ hg)
      rw [closedSince_append, if_pos (hall last (by simp)), ht]
      exact ⟨t, rfl, hle⟩

/-- With the packets in time order, the earliest packet of the closed end decides. -/
theorem closedSince_le_iff {closed : Option StateName → Bool} {history : List Fold} {bound : SystemTime}
    (hsorted : (history.map Fold.ts).Pairwise (· ≤ ·)) :
    (∃ t, closedSince closed history = some t ∧ t ≤ bound) ↔
      ∃ before f after, history = before ++ f :: after ∧
        (∀ g ∈ f :: after, closed g.state = true) ∧ f.ts ≤ bound := by
  constructor
  · rintro ⟨t, ht, hbound⟩
    obtain ⟨before, f, after, hsplit, hall, rfl⟩ := split_of_closedSince ht
    exact ⟨before, f, after, hsplit, hall, hbound⟩
  · rintro ⟨before, f, after, hsplit, hall, hbound⟩
    obtain ⟨t, ht, hle⟩ := closedSince_le_of_split hsorted hsplit hall
    exact ⟨t, ht, le_trans hle hbound⟩

/-- What the lifecycle part of a packet does: nothing without a lifecycle or a state, else it moves the
state, and the linger anchor with it. -/
theorem Stream.advance_cases (s : Stream) (identity : StreamIdentity) (layer : LayerRecord)
    (dir : PacketDirection) (ts : SystemTime) :
    ((identity.lifecycle = none ∨ s.state = none) ∧ (s.advance identity layer dir ts).1 = s) ∨
      ∃ spec current, identity.lifecycle = some spec ∧
        (s.advance identity layer dir ts).1.state = some (spec.advance layer.fields current dir) ∧
        (s.advance identity layer dir ts).1.closeEligible =
          decide (spec.advance layer.fields current dir ∈ spec.closedStates) ∧
        (s.advance identity layer dir ts).1.closeEligibleSince =
          if spec.advance layer.fields current dir ∈ spec.closedStates then
            if s.closeEligible then s.closeEligibleSince else some ts
          else none := by
  rw [Stream.advance]
  cases hlife : identity.lifecycle with
  | none => exact .inl ⟨.inl rfl, rfl⟩
  | some spec =>
      cases hstate : s.state with
      | none => exact .inl ⟨.inr rfl, rfl⟩
      | some current =>
          refine .inr ⟨spec, current, rfl, rfl, rfl, ?_⟩
          by_cases hin : spec.advance layer.fields current dir ∈ spec.closedStates
          · cases hel : s.closeEligible <;> simp [hin]
          · simp [hin]

/-- `close_eligible` and `close_eligible_since` follow the states of the history. -/
structure ClosingInv (env : Env) (s : Stream) : Prop where
  eligible : s.closeEligible = s.closeEligibleSince.isSome
  stateless : s.state = none → s.closeEligible = false
  since : s.closeEligibleSince = closedSince (closedIn env s.protocol) s.history

namespace Aggregator

/-- Without a lifecycle or a state nothing is closed. -/
theorem closedIn_of_none {env : Env} {protocol : ProtocolName} {plugin : LayerPlugin}
    {identity : StreamIdentity} (hid : identityOf env protocol = some (plugin, identity))
    {state : Option StateName} (h : identity.lifecycle = none ∨ state = none) :
    closedIn env protocol state = false := by
  rcases h with hlife | rfl
  · cases state <;> simp only [closedIn, hid, hlife]
  · simp only [closedIn, hid]

/-- A protocol without a lifecycle, or a stream without a state, has no linger anchor. -/
theorem closingInv_since_none {env : Env} {s : Stream} (h : ClosingInv env s) {plugin : LayerPlugin}
    {identity : StreamIdentity} (hid : identityOf env s.protocol = some (plugin, identity))
    (hnone : identity.lifecycle = none ∨ s.state = none) : s.closeEligibleSince = none := by
  rcases hnone with hlife | hstate
  · rw [h.since, closedSince]
    have hnever : ∀ f : Fold, closedIn env s.protocol f.state = false := fun f =>
      closedIn_of_none hid (.inl hlife)
    cases hrev : s.history.reverse with
    | nil => rfl
    | cons f l =>
        rw [List.takeWhile_cons, if_neg (by rw [hnever]; exact Bool.false_ne_true)]
        rfl
  · rw [← Option.not_isSome_iff_eq_none, ← h.eligible, h.stateless hstate]
    exact Bool.false_ne_true

/-- A packet carries the closed end of the history along. -/
theorem closingInv_absorb {env : Env} {s : Stream} (h : ClosingInv env s) {plugin : LayerPlugin}
    {identity : StreamIdentity} (hid : identityOf env s.protocol = some (plugin, identity))
    (layer : LayerRecord) (key : FlowKey) (dir : PacketDirection) (ts : SystemTime) (origlen : Nat) :
    ClosingInv env (s.absorb identity layer key dir ts origlen).1 := by
  rw [Stream.absorb_eq]
  have heq := h.eligible
  rcases s.advance_cases identity layer dir ts with ⟨hnone, hsame⟩ |
    ⟨spec, current, hlife, hstate, heligible, hsince⟩
  · -- the last state is not a closed one, and was not before
    have hopen := closedIn_of_none hid hnone
    constructor
    case eligible =>
      rw [hsame]
      exact heq
    case stateless =>
      rw [hsame]
      exact h.stateless
    case since =>
      simp only [closedSince_append, hsame, hopen, Bool.false_eq_true, if_false]
      exact closingInv_since_none h hid hnone
  · have hclosed : closedIn env s.protocol (some (spec.advance layer.fields current dir)) =
        decide (spec.advance layer.fields current dir ∈ spec.closedStates) := by
      simp only [closedIn, hid, hlife]
    constructor
    case eligible =>
      rw [heligible, hsince]
      by_cases hin : spec.advance layer.fields current dir ∈ spec.closedStates
      · cases hel : s.closeEligible with
        | false => simp [hin]
        | true =>
            rw [hel] at heq
            simp [hin, ← heq]
      · simp [hin]
    case stateless =>
      intro hst
      rw [hstate] at hst
      cases hst
    case since =>
      simp only [closedSince_append, hstate, hclosed, hsince, ← h.since, decide_eq_true_eq]
      by_cases hin : spec.advance layer.fields current dir ∈ spec.closedStates
      · -- the anchor is set on the first closed state and kept on the next ones
        rw [if_pos hin, if_pos hin]
        cases hs : s.closeEligibleSince with
        | none =>
            rw [hs] at heq
            rw [heq]
            rfl
        | some t =>
            rw [hs] at heq
            rw [heq]
            rfl
      · rw [if_neg hin, if_neg hin]

theorem closingInv_rule (env : Env) (ts : SystemTime) :
    StreamRule env ts (ClosingInv env) (ClosingInv env) where
  facts := fun _ =>
    ⟨fun h => ⟨h.eligible, h.stateless, h.since⟩, fun h => ⟨h.eligible, h.stateless, h.since⟩⟩
  tail := fun _ _ h => ⟨h.eligible, h.stateless, h.since⟩
  new := fun _ _ _ _ => ⟨rfl, fun _ => rfl, rfl⟩
  count := fun _ h => ⟨h.eligible, h.stateless, h.since⟩
  overflow := fun _ h => ⟨h.eligible, h.stateless, h.since⟩
  absorb := fun _ _ _ layer key dir origlen hid h =>
    closingInv_absorb h hid layer key dir ts origlen

/-- The reason the sweep gives tells whether the stream was closed for the linger time. -/
theorem sweepReason_eq_iff {env : Env} {linger : Duration} {now : SystemTime} {s : Stream}
    (hclosing : ClosingInv env s) (hsorted : s.times.Pairwise (· ≤ ·)) :
    (sweepReason linger now s = .protocolClose ∨ sweepReason linger now s = .idleTimeout) ∧
      (sweepReason linger now s = .protocolClose ↔ s.ClosedFor env linger now) := by
  have hiff : (∃ t, s.closeEligibleSince = some t ∧ t ≤ now - linger) ↔ s.ClosedFor env linger now := by
    rw [hclosing.since, closedSince_le_iff hsorted]
    simp only [Stream.ClosedFor, le_sub_iff_add_le]
  rw [← hiff]
  rw [sweepReason]
  cases s.closeEligibleSince with
  | none => simp
  | some entered =>
      simp only [Option.some.injEq, exists_eq_left', le_sub_iff_add_le]
      split
      · rename_i hle
        exact ⟨.inl rfl, fun _ => hle, fun _ => rfl⟩
      · rename_i hlt
        exact ⟨.inr rfl, fun hreason => (by cases hreason), fun hle => absurd hle hlt⟩

/-! ## The expiry heap in a capture in time order -/

/-- No expiry entry is after the deadline of its stream. -/
theorem expiryCovers_orderedStable {env : Env} {idle linger : Duration} {cap : Nat}
    (hev : env.config.eviction = .live idle linger cap) :
    OrderedStable env (fun t a => TableInv env a ∧ Everywhere (SeenBy t) a)
      fun _ => ExpiryCovers idle linger where
  mono := fun _ h => h
  new := fun _ => ExpiryCovers.new
  tick := fun _ h => h
  evictStable := fun _ => ExpiryCovers.evictStable hev
  ingestStable := fun pkt =>
    { toLoopStable := ExpiryCovers.loopStable hev
      layer := by
        rintro w w' layer hw ⟨-, hseen⟩ hstep hfits h
        cases hstep with
        | skip _ => exact h
        | keyError _ _ => exact h
        | folded _ _ hr =>
            have hfits' := fits_of_touch hfits
            have hlim : w.agg.Fits := hr.fits hfits'
            exact (h.resolution hev hw.linked hr hfits').touch hev
              (hr.seen_le hlim hw.linked hseen) _ _ _ _ _
      tail := fun id n h => h.modify id (fun _ => rfl) fun _ => rfl
      unknown := fun _ h => h }

theorem clock_heapFree (env : Env) (c : SystemTime) : HeapFree env fun a => a.clock = c where
  close := by
    intro a id h
    obtain ⟨calls, heq⟩ := closeStream_eq env a id
    rw [heq]
    exact h
  evict := by
    intro a id s reason _ _ _ h
    rw [(evict_unchanged env a id reason).2.2.1]
    exact h
  heaps := fun _ _ h => h

/-- The sweep does not move the clock. -/
theorem clock_passes_sweep {env : Env} {a b : Aggregator} (hf : ForestInv a)
    (h : Loop.Passes (sweepBody env) a b) : b.clock = a.clock :=
  ((clock_heapFree env a.clock).loopStable.passes_sweep hf rfl h).2

/-- When the loop of `sweep` has ended, every leaf is due later. -/
theorem deadline_of_exit {env : Env} {idle linger : Duration} {cap : Nat} {a : Aggregator}
    (hev : env.config.eviction = .live idle linger cap) (hcovers : ExpiryCovers idle linger a)
    (hexit : sweepBody env a = none) {id : StreamId} {s : Stream} (hs : a.get id = some s)
    (hc : s.children = []) : a.clock < s.deadline idle linger := by
  -- the leaf has an entry no later than its deadline, and all entries lie ahead
  obtain ⟨e, he, -, hle⟩ := hcovers id _ (leafVal_of_get hs hc)
  exact lt_of_lt_of_le (later_of_sweepBody_none hev hexit e he) hle

/-- In a capture in time order the sweep at the arrival of a packet leaves no leaf that is due. -/
theorem deadline_of_sweep {env : Env} {idle linger : Duration} {cap : Nat}
    (hev : env.config.eviction = .live idle linger cap) {ops : List Op} {a : Aggregator}
    (h : Reaches env ops a) {pkt : DissectedPacket}
    (hsorted : (timestamps (ops ++ [.ingest pkt])).Pairwise (· ≤ ·)) {id : StreamId} {s : Stream}
    (hs : ((a.tick pkt).sweep env).get id = some s) (hc : s.children = []) :
    (a.tick pkt).clock < s.deadline idle linger := by
  have hstable := (ordered_base env).and (expiryCovers_orderedStable hev)
  obtain ⟨hf, htick⟩ := hstable.arrives h hsorted
  have hpasses := Loop.passes_iterate (sweepBody env)
    ((a.tick pkt).streams.length + (a.tick pkt).expiry.length) (a.tick pkt)
  obtain ⟨-, -, hcovers⟩ := (hstable.ingestStable pkt).passes_sweep (hf.tick pkt) htick hpasses
  rw [← clock_passes_sweep (hf.tick pkt) hpasses]
  exact deadline_of_exit hev hcovers (sweep_exit env (hf.tick pkt)) hs hc

/-- **The sweep is exact.** Under the `Live` policy, in a capture in time order, the sweep at the arrival
of any packet ends; when it returns, no live stream without children has a deadline that is not after the
clock; and every stream it evicts had, at that moment, no children and a deadline not after the clock,
and is evicted as `ProtocolClose` if it had been in closed states for the linger time and as
`IdleTimeout` otherwise. What `sweep` returns is the end of the passes that evict. -/
theorem sweep_exact {env : Env} {idle linger : Duration} {cap : Nat}
    (hev : env.config.eviction = .live idle linger cap) {ops : List Op} {a : Aggregator}
    (h : Reaches env ops a) {pkt : DissectedPacket}
    (hsorted : (timestamps (ops ++ [.ingest pkt])).Pairwise (· ≤ ·)) :
    Loop.Passes (sweepBody env) (a.tick pkt) ((a.tick pkt).sweep env) ∧
      sweepBody env ((a.tick pkt).sweep env) = none ∧
      (∀ id s, ((a.tick pkt).sweep env).get id = some s → s.children = [] →
        (a.tick pkt).clock < s.deadline idle linger) ∧
      ∀ b c id reason, Loop.Passes (sweepBody env) (a.tick pkt) b →
        b.sweepPick env = .evict c id reason →
        ∃ s, b.get id = some s ∧ s.children = [] ∧ s.deadline idle linger ≤ (a.tick pkt).clock ∧
          (reason = .protocolClose ∨ reason = .idleTimeout) ∧
          (reason = .protocolClose ↔ s.ClosedFor env linger (a.tick pkt).clock) := by
  obtain ⟨hf, htick⟩ := (ordered_base env).arrives h hsorted
  refine ⟨Loop.passes_iterate _ _ _, sweep_exit env (hf.tick pkt),
    fun id s hs hc => deadline_of_sweep hev h hsorted hs hc, ?_⟩
  intro b c id reason hb hpick
  obtain ⟨-, -, hseen⟩ := ((ordered_base env).ingestStable pkt).passes_sweep (hf.tick pkt) htick hb
  -- the closed states, which hold in any order of packets
  have hclosing := (TableInv.runStable env).and
    (StreamRule.runStable (closingInv_rule env) fun _ _ hs => hs)
  obtain ⟨-, -, hclosed⟩ := hclosing.toHeapFree.loopStable.passes_sweep (hf.tick pkt)
    (hclosing.tick pkt (hclosing.reaches h).2) hb
  have hp := sweepPick_spec b hev
  rw [hpick] at hp
  cases hp with
  | @due e rest s _ _ hs hdue hc =>
      rw [clock_passes_sweep (hf.tick pkt) hb] at hdue ⊢
      refine ⟨s, hs, hc, hdue, ?_⟩
      exact sweepReason_eq_iff (hclosed.live hs) (hseen.live hs).sorted

/-- The state when a packet of time 20 arrives after it, with a linger of 10. -/
def lingeringState : Aggregator :=
  (run (sampleEnv (.live 50 10 4) 2) closingOps).tick
    ⟨⟨20, 60, 60, 1⟩, [sampleLayer "eth" 8 9], .complete, 7, none⟩

/-- There the sweep evicts the conversation, which had been closed for the linger time. -/
theorem sweep_sample :
    ∃ s, lingeringState.get ⟨1, 0⟩ = some s ∧ s.deadline 50 10 ≤ lingeringState.clock ∧
      s.ClosedFor (sampleEnv (.live 50 10 4) 2) 10 lingeringState.clock := by
  have hpicked : (lingeringState.sweepPick (sampleEnv (.live 50 10 4) 2)).evicted =
      some (⟨1, 0⟩, .protocolClose) := by
    decide +kernel
  obtain ⟨c, hpick⟩ := Pick.eq_of_evicted hpicked
  obtain ⟨s, hs, -, hdue, -, hreason⟩ := (sweep_exact rfl
    (reaches_run (sampleEnv (.live 50 10 4) 2) closingOps (by decide)) (by decide)).2.2.2 _ c _ _
      Relation.ReflTransGen.refl hpick
  exact ⟨s, hs, hdue, hreason.1 rfl⟩

end Aggregator

end Pktflow.Flows

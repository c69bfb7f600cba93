import Pktflow.Flows.Folds
import Pktflow.Flows.Times

/-!
# Lifecycle states

The state of a stream, its close flag and the time the flag counts from are updated by separate branches of
`ingest`. Together they tell one thing of the packets folded so far: the state they lead to, and since when
the states have been closed (`Tracks`). A packet keeps that whatever the spec's `advance` does.
-/

set_option autoImplicit false

namespace Pktflow.Flows

open Pktflow.Core Pktflow.Lib

/-- The state that packets lead to from the initial one. -/
def stateAfter (spec : LifecycleSpec) (packets : List Fold) : StateName :=
  packets.foldl (fun state f => spec.advance f.layer.fields state f.dir) spec.initial

/-- The packet at `ts` began the run of closed states that the packets end with. -/
def ClosedSince (spec : LifecycleSpec) (packets : List Fold) (ts : SystemTime) : Prop :=
  ∃ before f behind, packets = before ++ f :: behind ∧ f.ts = ts ∧
    (before = [] ∨ stateAfter spec before ∉ spec.closedStates) ∧
    ∀ k, stateAfter spec (before ++ f :: behind.take k) ∈ spec.closedStates

/-- The lifecycle that a stream is under. -/
def HasLifecycle (env : Env) (s : Stream) (spec : LifecycleSpec) : Prop :=
  s.condensed = none ∧ ∃ plugin identity, Aggregator.identityOf env s.protocol = some (plugin, identity) ∧
    identity.lifecycle = some spec

/-- The lifecycle part of a stream tells its packets. -/
structure Tracks (spec : LifecycleSpec) (s : Stream) : Prop where
  state : s.state = some (stateAfter spec s.history)
  eligible : s.closeEligible = true ↔ stateAfter spec s.history ∈ spec.closedStates
  opened : s.closeEligible = false → s.closeEligibleSince = none
  since : s.closeEligible = true → ∃ ts, s.closeEligibleSince = some ts ∧ ClosedSince spec s.history ts

/-- A stream without a state, which is never closed by one. -/
structure Stateless (s : Stream) : Prop where
  state : s.state = none
  eligible : s.closeEligible = false
  since : s.closeEligibleSince = none

section Packets

variable {spec : LifecycleSpec} {packets : List Fold} {f : Fold}

theorem stateAfter_snoc (spec : LifecycleSpec) (packets : List Fold) (f : Fold) :
    stateAfter spec (packets ++ [f]) = spec.advance f.layer.fields (stateAfter spec packets) f.dir := by
  rw [stateAfter, List.foldl_append]
  rfl

/-- The run of closed states goes on. -/
theorem ClosedSince.snoc {ts : SystemTime} (h : ClosedSince spec packets ts)
    (hclosed : stateAfter spec (packets ++ [f]) ∈ spec.closedStates) :
    ClosedSince spec (packets ++ [f]) ts := by
  obtain ⟨before, g, behind, rfl, hts, hbefore, hrun⟩ := h
  refine ⟨before, g, behind ++ [f], by simp, hts, hbefore, fun k => ?_⟩
  by_cases hk : k ≤ behind.length
  · rw [List.take_append_of_le_length hk]
    exact hrun k
  · rw [List.take_of_length_le (by simp; omega)]
    simpa using hclosed

/-- A closed state after an open one, or with the first packet, begins a run. -/
theorem closedSince_begin (hopen : packets = [] ∨ stateAfter spec packets ∉ spec.closedStates)
    (hclosed : stateAfter spec (packets ++ [f]) ∈ spec.closedStates) :
    ClosedSince spec (packets ++ [f]) f.ts :=
  ⟨packets, f, [], rfl, rfl, hopen, fun k => by rw [List.take_nil]; exact hclosed⟩

end Packets

/-! ## One packet -/

section Step

variable {spec : LifecycleSpec} {s : Stream} (identity : StreamIdentity) (layer : LayerRecord) (key : FlowKey)
  (dir : PacketDirection) (ts : SystemTime) (origlen : Nat)

theorem Stateless.absorb (h : Stateless s) : Stateless (s.absorb identity layer key dir ts origlen).1 := by
  have hadvance : s.advance identity layer dir ts = (s, false) := by
    rw [Stream.advance, h.state]
    cases identity.lifecycle <;> rfl
  rw [Stream.absorb_eq, hadvance]
  exact ⟨h.state, h.eligible, h.since⟩

theorem absorb_history :
    ∃ f : Fold, (s.absorb identity layer key dir ts origlen).1.history = s.history ++ [f] ∧ f.ts = ts ∧
      f.layer = layer ∧ f.dir = dir := by
  rw [Stream.absorb_eq]
  exact ⟨_, rfl, rfl, rfl, rfl⟩

/-- A packet after which the lifecycle part tells the packets, given what it told before them. -/
theorem tracks_absorb (hspec : identity.lifecycle = some spec)
    (hstate : s.state = some (stateAfter spec s.history))
    (hfirst : s.history = [] → s.closeEligible = false) (hrest : s.history ≠ [] → Tracks spec s) :
    Tracks spec (s.absorb identity layer key dir ts origlen).1 := by
  obtain ⟨f, hhistory, hts, hlayer, hdir⟩ := absorb_history (s := s) identity layer key dir ts origlen
  have hnext : stateAfter spec (s.history ++ [f]) =
      spec.advance layer.fields (stateAfter spec s.history) dir := by
    rw [stateAfter_snoc, hlayer, hdir]
  have hadvance : (s.advance identity layer dir ts).1 =
      { s with
        state := some (stateAfter spec (s.history ++ [f]))
        closeEligible := decide (stateAfter spec (s.history ++ [f]) ∈ spec.closedStates)
        closeEligibleSince :=
          if decide (stateAfter spec (s.history ++ [f]) ∈ spec.closedStates) && !s.closeEligible then some ts
          else if decide (stateAfter spec (s.history ++ [f]) ∈ spec.closedStates) then s.closeEligibleSince
          else none } := by
    rw [Stream.advance, hspec, hstate, hnext]
  -- the flag says whether the packets so far end in a run of closed states
  have hopen : s.closeEligible = false → s.history = [] ∨ stateAfter spec s.history ∉ spec.closedStates := by
    intro hfalse
    by_cases hnil : s.history = []
    · exact .inl hnil
    · right
      rw [← (hrest hnil).eligible, hfalse]
      exact Bool.false_ne_true
  have hflag : (s.absorb identity layer key dir ts origlen).1.closeEligible =
      decide (stateAfter spec (s.history ++ [f]) ∈ spec.closedStates) := by
    rw [Stream.absorb_eq, hadvance]
  have hsince : (s.absorb identity layer key dir ts origlen).1.closeEligibleSince =
      if decide (stateAfter spec (s.history ++ [f]) ∈ spec.closedStates) && !s.closeEligible then some ts
      else if decide (stateAfter spec (s.history ++ [f]) ∈ spec.closedStates) then s.closeEligibleSince
      else none := by
    rw [Stream.absorb_eq, hadvance]
  constructor
  case state =>
    rw [hhistory, Stream.absorb_eq, hadvance]
  case eligible =>
    rw [hflag, hhistory, decide_eq_true_iff]
  case opened =>
    intro hfalse
    rw [hflag] at hfalse
    rw [hsince, hfalse]
    rfl
  case since =>
    intro htrue
    rw [hflag] at htrue
    have hclosed := of_decide_eq_true htrue
    rw [hsince, hhistory, htrue]
    cases hbefore : s.closeEligible with
    | false =>
        refine ⟨ts, rfl, ?_⟩
        rw [← hts]
        exact closedSince_begin (hopen hbefore) hclosed
    | true =>
        have hnil : s.history ≠ [] := by
          intro hnil
          rw [hfirst hnil] at hbefore
          cases hbefore
        obtain ⟨ts', hts', hrun⟩ := (hrest hnil).since hbefore
        exact ⟨ts', hts', hrun.snoc hclosed⟩

end Step

/-! ## All streams -/

namespace Aggregator

/-- What holds of the lifecycle part of every record, also of one that has no packet yet. -/
structure LifecycleInv (env : Env) (s : Stream) : Prop where
  node : s.condensed.isSome = true → Stateless s
  bare : ∀ plugin identity, identityOf env s.protocol = some (plugin, identity) → identity.lifecycle = none →
    Stateless s
  begun : s.history = [] → s.closeEligible = false ∧ s.closeEligibleSince = none
  state : ∀ spec, HasLifecycle env s spec → s.state = some (stateAfter spec s.history)
  tracks : ∀ spec, HasLifecycle env s spec → s.history ≠ [] → Tracks spec s

section Inv

variable {env : Env} {s s' : Stream} {a : Aggregator}

/-- A change that keeps protocol, node mark, lifecycle part and history. -/
theorem LifecycleInv.congr (h : LifecycleInv env s) (hprotocol : s'.protocol = s.protocol)
    (hcondensed : s'.condensed.isSome = s.condensed.isSome) (hstate : s'.state = s.state)
    (heligible : s'.closeEligible = s.closeEligible) (hsince : s'.closeEligibleSince = s.closeEligibleSince)
    (hhistory : s'.history = s.history) : LifecycleInv env s' := by
  have hless : Stateless s → Stateless s' := fun hs =>
    ⟨hstate.trans hs.state, heligible.trans hs.eligible, hsince.trans hs.since⟩
  have hlife : ∀ {spec}, HasLifecycle env s' spec → HasLifecycle env s spec := by
    rintro spec ⟨hnone, hidentity⟩
    rw [hnone] at hcondensed
    rw [hprotocol] at hidentity
    exact ⟨by simpa using hcondensed.symm, hidentity⟩
  constructor
  case node => exact fun hnode => hless (h.node (hcondensed ▸ hnode))
  case bare => exact fun plugin identity hid hnone => hless (h.bare plugin identity (hprotocol ▸ hid) hnone)
  case begun =>
    intro hnil
    rw [heligible, hsince]
    exact h.begun (hhistory ▸ hnil)
  case state =>
    intro spec hspec
    rw [hstate, hhistory]
    exact h.state spec (hlife hspec)
  case tracks =>
    intro spec hspec hnil
    have htracks := h.tracks spec (hlife hspec) (hhistory ▸ hnil)
    constructor
    case state => rw [hstate, hhistory, htracks.state]
    case eligible => rw [heligible, hhistory, htracks.eligible]
    case opened => rw [heligible, hsince]; exact htracks.opened
    case since => rw [heligible, hsince, hhistory]; exact htracks.since

theorem lifecycle_fresh {layer : LayerRecord} {identity : StreamIdentity} {condense : Option CondenseSpec}
    {key : FlowKey} {dir : PacketDirection} {ts : SystemTime}
    (hk : Keyed env layer identity condense key dir) (hs : Fresh env layer identity condense key dir ts s) :
    LifecycleInv env s := by
  obtain ⟨plugin, hid, -⟩ := hk.registered
  cases hs with
  | flow parent id seq =>
      constructor
      case node => exact fun hnode => (by cases hnode)
      case bare =>
        intro plugin' identity' hid' hnone
        obtain ⟨rfl, rfl⟩ := Prod.mk.inj (Option.some.inj (hid.symm.trans hid'))
        refine ⟨?_, rfl, rfl⟩
        show identity.lifecycle.map LifecycleSpec.initial = none
        rw [hnone]
        rfl
      case begun => exact fun _ => ⟨rfl, rfl⟩
      case state =>
        rintro spec ⟨-, plugin', identity', hid', hspec⟩
        obtain ⟨rfl, rfl⟩ := Prod.mk.inj (Option.some.inj (hid.symm.trans hid'))
        show identity.lifecycle.map LifecycleSpec.initial = _
        rw [hspec]
        rfl
      case tracks => exact fun spec _ hne => absurd rfl hne
  | node parent id seq hcs hc =>
      constructor
      case node => exact fun _ => ⟨rfl, rfl, rfl⟩
      case bare => exact fun _ _ _ _ => ⟨rfl, rfl, rfl⟩
      case begun => exact fun _ => ⟨rfl, rfl⟩
      case state => exact fun spec hspec => (by cases hspec.1)
      case tracks => exact fun spec hspec => (by cases hspec.1)

theorem LifecycleInv.absorb {layer : LayerRecord} {identity : StreamIdentity}
    {condense : Option CondenseSpec} {key : FlowKey} {dir d : PacketDirection} (ts : SystemTime)
    (origlen : Nat) (hk : Keyed env layer identity condense key dir)
    (htakes : Takes env layer identity condense key dir s d) (h : LifecycleInv env s) :
    LifecycleInv env (s.absorb identity layer key d ts origlen).1 := by
  obtain ⟨plugin, hid, -⟩ := hk.registered
  have hprotocol : s.protocol = layer.protocol := by
    cases htakes with
    | flow hp _ _ => exact hp
    | node hp _ _ _ _ => exact hp
  have hid' : identityOf env s.protocol = some (plugin, identity) := by rw [hprotocol, hid]
  have hframe := Stream.absorb_frame s identity layer key d ts origlen
  have hprotocol' : (s.absorb identity layer key d ts origlen).1.protocol = s.protocol :=
    congrArg Frame.protocol hframe
  have hcondensed : (s.absorb identity layer key d ts origlen).1.condensed.isSome = s.condensed.isSome :=
    congrArg Frame.isNode hframe
  obtain ⟨f, hhistory, -⟩ := absorb_history (s := s) identity layer key d ts origlen
  have htracks : ∀ spec, HasLifecycle env (s.absorb identity layer key d ts origlen).1 spec →
      Tracks spec (s.absorb identity layer key d ts origlen).1 := by
    rintro spec ⟨hnone, plugin', identity', hid'', hspec⟩
    rw [hprotocol', hid'] at hid''
    obtain ⟨rfl, rfl⟩ := Prod.mk.inj (Option.some.inj hid'')
    rw [hnone] at hcondensed
    have hlife : HasLifecycle env s spec := ⟨by simpa using hcondensed.symm, plugin, identity, hid', hspec⟩
    exact tracks_absorb identity layer key d ts origlen hspec (h.state spec hlife)
      (fun hnil => (h.begun hnil).1) (h.tracks spec hlife)
  constructor
  case node => exact fun hnode => (h.node (hcondensed ▸ hnode)).absorb identity layer key d ts origlen
  case bare =>
    intro plugin' identity' hid'' hnone
    rw [hprotocol'] at hid''
    exact (h.bare plugin' identity' hid'' hnone).absorb identity layer key d ts origlen
  case begun =>
    intro hnil
    rw [hhistory] at hnil
    simp at hnil
  case state => exact fun spec hspec => (htracks spec hspec).state
  case tracks => exact fun spec hspec _ => htracks spec hspec

theorem lifecycle_rule (env : Env) : FoldRule env (LifecycleInv env) where
  facts := fun _ => ⟨fun h => h.congr rfl rfl rfl rfl rfl rfl, fun h => h.congr rfl rfl rfl rfl rfl rfl⟩
  tail := fun _ _ h => h.congr rfl rfl rfl rfl rfl rfl
  count := fun s h => h.congr rfl (by simp [Stream.countMember]) rfl rfl rfl rfl
  overflow := fun s h => h.congr rfl (by simp [Stream.markOverflow]) rfl rfl rfl rfl
  fresh := fun hk hs => lifecycle_fresh hk hs
  absorb := fun ts origlen hk htakes h => h.absorb ts origlen hk htakes

/-- Every stream has folded a packet. -/
theorem history_ne_nil {ops : List Op} (h : Reaches env ops a) : Everywhere (fun s => s.history ≠ []) a := by
  have hlast := (((TableInv.runStable env).and (StreamRule.runStable (Q := fun _ _ => True) (lastSeen_rule env)
    fun _ _ _ => trivial)).reaches h).2.2
  intro s hs hnil
  have hmem : s.lastSeen ∈ s.history.map Fold.ts := hlast s hs
  rw [hnil] at hmem
  cases hmem

/-- **Lifecycle.** Of every stream of a run, live or removed. -/
theorem lifecycle_exact {ops : List Op} (h : Reaches env ops a) :
    ∀ s ∈ a.everStreams, (∀ spec, HasLifecycle env s spec → Tracks spec s) ∧
      (s.condensed.isSome = true → Stateless s) := by
  intro s hs
  have hinv := (lifecycle_rule env).reaches h s hs
  exact ⟨fun spec hspec => hinv.tracks spec hspec (history_ne_nil h s hs), hinv.node⟩

/-- A conversation that its second packet takes from one state to another, at time 5. -/
theorem lifecycle_exact_sample :
    (∀ s ∈ (run (sampleEnv .none 2) closingOps).everStreams,
      (∀ spec, HasLifecycle (sampleEnv .none 2) s spec → Tracks spec s) ∧
        (s.condensed.isSome = true → Stateless s)) ∧
    (run (sampleEnv .none 2) (closingOps.take 1)).everStreams.map (fun s => (s.state, s.closeEligibleSince)) =
      [(none, none), (some "open", none)] ∧
    (run (sampleEnv .none 2) closingOps).everStreams.map (fun s => (s.state, s.closeEligibleSince)) =
      [(none, none), (some "closed", some 5)] :=
  ⟨lifecycle_exact (reaches_run _ closingOps (by decide)), by decide +kernel, by decide +kernel⟩

end Inv

end Aggregator

end Pktflow.Flows

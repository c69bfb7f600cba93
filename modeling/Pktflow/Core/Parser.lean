import Pktflow.Core.Router
import Mathlib.Algebra.Order.BigOperators.Group.List
import Mathlib.Algebra.Ring.Nat

/-!
# The layer-at-a-time iterator

Model of `pktflow-core/src/parser.rs`, of `ParseOpts` (`depth.rs`) and of the diagnostics pass
(`diagnostics.rs`). `LayerIter.next` yields one layer for each call and latches the reason it stopped
for; `intoPacket` drains the iterator, and `dissect` is `layers` followed by `intoPacket`. A panic of
the source (a forced entry that is not registered) is `none`.

`next_cases` is the only place where `next` is unfolded. It says what one call does to a state that
meets the iterator's invariant `Consistent`; the properties of whole walks build on it.
-/

set_option autoImplicit false

namespace Pktflow.Core

/-- The position of a depth in the source's ordering. -/
def Depth.rank : Depth → Nat
  | .none => 0
  | .keys => 1
  | .structural => 2
  | .full => 3

/-- `Ord::max` on depths. -/
def Depth.max (a b : Depth) : Depth :=
  if a.rank ≤ b.rank then b else a

/-- `ParseOpts`, with its defaults. -/
structure ParseOpts where
  depth : Depth := .full
  aggregation : Bool := true
  maxLayers : Nat := 32
  entry : Option ProtocolName := none
  allowEntryHeuristics : Bool := false
  diagnoseUnknown : Bool := false
  deriving DecidableEq, Repr

/-- `ParseOpts::effective_depth`: aggregation needs the flow keys. -/
def ParseOpts.effectiveDepth (opts : ParseOpts) : Depth :=
  if opts.aggregation then opts.depth.max .keys else opts.depth

/-- `SAMPLE_CAP`. -/
def sampleCap : Nat := 256

/-- `LayerStep`: the parsed layer and the payload after it. -/
structure LayerStep where
  record : LayerRecord
  payload : List UInt8
  viaHeuristic : Bool
  deriving DecidableEq

/-- `LayerIter`. -/
structure LayerIter where
  engine : Engine
  bytes : List UInt8
  meta_ : PacketMeta
  opts : ParseOpts
  records : List LayerRecord := []
  cursor : Nat := 0
  pending : Option Hint := none
  started : Bool := false
  stop : Option StopReason := none
  unknown : Option UnknownDiagnostics := none

/-- `bytes.get(from..)`: `None` out of range. -/
def sliceFrom (bytes : List UInt8) (start : Nat) : Option (List UInt8) :=
  if start ≤ bytes.length then some (bytes.drop start) else none

namespace Engine

/-- `Engine::resolve_entry`: forced entry, then the link-type route, then opt-in heuristics. -/
def resolveEntry (e : Engine) (bytes : List UInt8) (ctx : ParseCtx) (opts : ParseOpts)
    (linkType : UInt16) : StepOutcome :=
  if bytes.isEmpty then .stop .complete
  else
    match opts.entry with
    | some name =>
        match e.pluginByName name with
        | some p => dispatchExplicit p bytes ctx
        | none => .stop .pluginError
    | none =>
        match e.pluginForRoute (.linkType linkType) with
        | some p => dispatchExplicit p bytes ctx
        | none =>
            if opts.allowEntryHeuristics then e.fallbackOutcome bytes ctx
            else .stop (.unclaimedRoute (.linkType linkType))

/-- The context of an unknown stop; `none` for every other reason, and without a predecessor. -/
def unknownContext (stop : StopReason) (ctx : ParseCtx) : Option UnknownContext :=
  match stop with
  | .unclaimedRoute route => ctx.prev.map fun prev => .unclaimedRoute prev.protocol route
  | .unknownHint => ctx.prev.map fun prev => .noHeuristicWinner prev.protocol
  | _ => none

/-- The pool's scores, best first (the sort is stable), at most five. -/
def nearMisses (e : Engine) (bytes : List UInt8) (ctx : ParseCtx) :
    List (ProtocolName × Confidence) :=
  (((e.scoreFallbackPool bytes ctx).mergeSort fun x y => y.1 ≤ x.1).take 5).map fun x =>
    (x.2.name, Confidence.new x.1)

/-- `Engine::diagnose_unknown`. -/
def diagnoseUnknown (e : Engine) (stop : StopReason) (bytes : List UInt8) (ctx : ParseCtx) :
    Option UnknownDiagnostics :=
  (unknownContext stop ctx).map fun context =>
    { context := context
      nearMisses := e.nearMisses bytes ctx
      sample := bytes.take (min bytes.length sampleCap) }

/-- `Engine::layers`; `none` where the source panics on an unregistered forced entry. -/
def layers (e : Engine) (bytes : List UInt8) (meta_ : PacketMeta) (opts : ParseOpts) :
    Option LayerIter :=
  if opts.entry.any fun name => (e.pluginByName name).isNone then none
  else some { engine := e, bytes := bytes, meta_ := meta_, opts := opts }

end Engine

namespace LayerIter

/-- The payload after the parsed layers. -/
def remaining (it : LayerIter) : List UInt8 :=
  (sliceFrom it.bytes it.cursor).getD []

/-- The context of the next parse. -/
def ctx (it : LayerIter) : ParseCtx :=
  ⟨it.records, it.opts.effectiveDepth, it.meta_⟩

/-- The end of `next`: a layer is recorded and the cursor moves behind its header; a stop is latched,
with its diagnostics when it came from `resolve_next`. -/
def settle (it : LayerIter) (viaResolveNext : Bool) : StepOutcome → Option LayerStep × LayerIter
  | .layer protocol parsed viaHeuristic =>
      let record : LayerRecord := ⟨protocol, it.cursor, parsed.headerLen, parsed.fields⟩
      let it' : LayerIter :=
        { it with
          cursor := it.cursor + parsed.headerLen
          pending := some parsed.hint
          records := it.records ++ [record] }
      (some ⟨record, it'.remaining, viaHeuristic⟩, it')
  | .stop reason =>
      (none,
        { it with
          stop := some reason
          unknown :=
            if viaResolveNext && it.opts.diagnoseUnknown then
              it.engine.diagnoseUnknown reason it.remaining it.ctx
            else it.unknown })

/-- `LayerIter::next`. -/
def next (it : LayerIter) : Option LayerStep × LayerIter :=
  if it.stop.isSome then (none, it)
  else if it.opts.maxLayers ≤ it.records.length then
    (none, { it with stop := some (if it.remaining.isEmpty then .complete else .depthCap) })
  else if it.started then
    match it.pending with
    | none => (none, { it with stop := some .pluginError })
    | some hint =>
        { it with pending := none }.settle true (it.engine.resolveNext hint it.remaining it.ctx)
  else
    { it with started := true }.settle false
      (it.engine.resolveEntry it.remaining it.ctx it.opts it.meta_.linkType)

theorem settle_records (it : LayerIter) (via : Bool) (outcome : StepOutcome) {step : LayerStep}
    (h : (it.settle via outcome).1 = some step) :
    (it.settle via outcome).2.records.length = it.records.length + 1 ∧
      (it.settle via outcome).2.opts = it.opts := by
  cases outcome with
  | layer protocol parsed heuristic => simp [settle]
  | stop reason => simp [settle] at h

/-- A call that yields a layer adds a record, below the cap. -/
theorem next_records {it : LayerIter} {step : LayerStep} (h : it.next.1 = some step) :
    it.records.length < it.opts.maxLayers ∧ it.next.2.records.length = it.records.length + 1 ∧
      it.next.2.opts = it.opts := by
  unfold next at h ⊢
  by_cases hstop : it.stop.isSome = true
  · simp [hstop] at h
  by_cases hcap : it.opts.maxLayers ≤ it.records.length
  · simp [hstop, hcap] at h
  simp only [hstop, hcap, Bool.false_eq_true, if_false] at h ⊢
  by_cases hstarted : it.started = true
  · cases hpending : it.pending with
    | none => simp [hstarted, hpending] at h
    | some hint =>
        simp only [hstarted, hpending, if_true] at h ⊢
        exact ⟨by omega, settle_records _ _ _ h⟩
  · simp only [hstarted] at h ⊢
    exact ⟨by omega, settle_records _ _ _ h⟩

/-- `while self.next().is_some() {}`: the walk is drained. -/
def drain (it : LayerIter) : LayerIter :=
  match _hnext : it.next with
  | (some _, it') => it'.drain
  | (none, it') => it'
termination_by it.opts.maxLayers - it.records.length
decreasing_by
  have hnext := next_records (congrArg Prod.fst _hnext)
  rw [_hnext] at hnext
  obtain ⟨hlt, hlen, hopts⟩ := hnext
  simp only at hlen hopts
  rw [hlen, hopts]
  omega

/-- `LayerIter::into_packet`. -/
def intoPacket (it : LayerIter) (meta_ : PacketMeta) : DissectedPacket :=
  let done := it.drain
  { meta_ := meta_
    opaqueLen := done.bytes.length - done.cursor
    stop := done.stop.getD .complete
    layers := done.records
    unknown := done.unknown }

/-- Any number of `next()` calls: the steps they yield and the state after them. -/
def pull : Nat → LayerIter → List LayerStep × LayerIter
  | 0, it => ([], it)
  | j + 1, it =>
      let rest := pull j it.next.2
      (it.next.1.toList ++ rest.1, rest.2)

end LayerIter

/-- `Engine::dissect`. -/
def Engine.dissect (e : Engine) (bytes : List UInt8) (meta_ : PacketMeta) (opts : ParseOpts) :
    Option DissectedPacket :=
  (e.layers bytes meta_ opts).map fun it => it.intoPacket meta_

/-! ## Entry resolution -/

section Entry

variable {e : Engine} {bytes : List UInt8} {ctx : ParseCtx} {opts : ParseOpts} {linkType : UInt16}

/-- Which plugin may parse the first layer. A guess needs three things: no forced entry, no claimed
link-type route, and the caller's consent. -/
inductive EntryLicensed (e : Engine) (bytes : List UInt8) (ctx : ParseCtx) (opts : ParseOpts)
    (linkType : UInt16) : LayerPlugin → ParsedLayer → Bool → Prop where
  | forced {name : ProtocolName} {p : LayerPlugin} {parsed : ParsedLayer}
      (entry : opts.entry = some name) (named : e.pluginByName name = some p)
      (parses : Parses p bytes ctx parsed) : EntryLicensed e bytes ctx opts linkType p parsed false
  | linkType {p : LayerPlugin} {parsed : ParsedLayer} (entry : opts.entry = none)
      (claimed : e.pluginForRoute (.linkType linkType) = some p) (parses : Parses p bytes ctx parsed) :
      EntryLicensed e bytes ctx opts linkType p parsed false
  | fallback {p : LayerPlugin} {parsed : ParsedLayer} (entry : opts.entry = none)
      (unclaimed : e.pluginForRoute (.linkType linkType) = none)
      (allowed : opts.allowEntryHeuristics = true) (guess : Fallback e bytes ctx p parsed) :
      EntryLicensed e bytes ctx opts linkType p parsed true

theorem EntryLicensed.parses {p : LayerPlugin} {parsed : ParsedLayer} {heuristic : Bool}
    (h : EntryLicensed e bytes ctx opts linkType p parsed heuristic) : Parses p bytes ctx parsed := by
  cases h with
  | forced _ _ parses => exact parses
  | linkType _ _ parses => exact parses
  | fallback _ _ _ guess => exact guess.parses

theorem resolveEntry_licensed {protocol : ProtocolName} {parsed : ParsedLayer} {heuristic : Bool}
    (h : e.resolveEntry bytes ctx opts linkType = .layer protocol parsed heuristic) :
    ∃ p, protocol = p.name ∧ EntryLicensed e bytes ctx opts linkType p parsed heuristic := by
  rw [Engine.resolveEntry] at h
  by_cases hbytes : bytes.isEmpty = true
  · simp [hbytes] at h
  simp only [hbytes] at h
  cases hentry : opts.entry with
  | some name =>
      cases hp : e.pluginByName name with
      | none => simp [hentry, hp] at h
      | some p =>
          simp only [hentry, hp] at h
          obtain ⟨rfl, rfl, hparse⟩ := dispatchExplicit_layer h
          exact ⟨p, rfl, EntryLicensed.forced hentry hp hparse⟩
  | none =>
      cases hp : e.pluginForRoute (.linkType linkType) with
      | some p =>
          simp only [hentry, hp] at h
          obtain ⟨rfl, rfl, hparse⟩ := dispatchExplicit_layer h
          exact ⟨p, rfl, EntryLicensed.linkType hentry hp hparse⟩
      | none =>
          by_cases hallow : opts.allowEntryHeuristics = true
          · simp only [hentry, hp, hallow, if_true] at h
            obtain ⟨rfl, p, hname, hguess⟩ := fallbackOutcome_layer h
            exact ⟨p, hname, EntryLicensed.fallback hentry hp hallow hguess⟩
          · simp [hentry, hp, hallow] at h

theorem resolveEntry_stop (hbytes : bytes ≠ []) {reason : StopReason}
    (h : e.resolveEntry bytes ctx opts linkType = .stop reason) :
    reason ≠ .complete ∧ reason ≠ .depthCap := by
  have hne : bytes.isEmpty = false := by simpa using hbytes
  rw [Engine.resolveEntry] at h
  simp only [hne] at h
  cases hentry : opts.entry with
  | some name =>
      cases hp : e.pluginByName name with
      | none =>
          simp only [hentry, hp, Bool.false_eq_true, if_false, StepOutcome.stop.injEq] at h
          subst h
          simp
      | some p =>
          simp only [hentry, hp] at h
          exact dispatchExplicit_stop h
  | none =>
      cases hp : e.pluginForRoute (.linkType linkType) with
      | some p =>
          simp only [hentry, hp] at h
          exact dispatchExplicit_stop h
      | none =>
          by_cases hallow : opts.allowEntryHeuristics = true
          · simp only [hentry, hp, hallow, if_true] at h
            rw [fallbackOutcome_stop h]
            simp
          · simp only [hentry, hp, hallow, Bool.false_eq_true, if_false, StepOutcome.stop.injEq] at h
            subst h
            simp

theorem resolveEntry_sound (e : Engine) (bytes : List UInt8) (ctx : ParseCtx) (opts : ParseOpts)
    (linkType : UInt16) : (e.resolveEntry bytes ctx opts linkType).Sound bytes := by
  by_cases hbytes : bytes = []
  · subst hbytes
    exact ⟨iff_of_true rfl rfl, by simp⟩
  · apply sound_of_nonempty hbytes
    · intro protocol parsed heuristic h
      obtain ⟨p, -, hlic⟩ := resolveEntry_licensed h
      exact hlic.parses.fits
    · intro reason h
      exact resolveEntry_stop hbytes h

end Entry

end Pktflow.Core

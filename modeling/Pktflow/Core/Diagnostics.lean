import Pktflow.Core.Walk

/-!
# Diagnostics do not interfere

The unknown-occurrence pass reads a walk and never steers it. `quiet` forgets what the pass may touch,
the flag and the diagnostics collected; a call commutes with it (`next_quiet`), hence so does the whole
walk (`drain_quiet`), and two walks that differ in the flag only have the same quiet end.

What the pass collects is determined by the state it stops in (`Diagnosed`).
-/

set_option autoImplicit false

namespace Pktflow.Core

/-- The `predecessor` field, which both variants have: the layer before the unknown bytes. -/
def UnknownContext.predecessor : UnknownContext → ProtocolName
  | .unclaimedRoute predecessor _ => predecessor
  | .noHeuristicWinner predecessor => predecessor

namespace LayerIter

/-! ## Two runs -/

/-- The state without what the diagnostics pass may touch. -/
def quiet (it : LayerIter) : LayerIter :=
  { it with opts := { it.opts with diagnoseUnknown := false }, unknown := none }

theorem Consistent.quiet {it : LayerIter} (h : it.Consistent) : it.quiet.Consistent := by
  constructor
  case tiles => exact h.tiles
  case cursor_le => exact h.cursor_le
  case capped => exact h.capped
  case fresh => exact h.fresh
  case ready => exact h.ready
  case stopped =>
      intro reason hreason
      have hat := h.stopped reason hreason
      exact ⟨hat.complete, hat.depthCap⟩

theorem outcome_quiet (it : LayerIter) : it.quiet.outcome = it.outcome := rfl

/-- A call yields the same step in the quiet state, and leads to the quiet state. -/
theorem next_quiet {it : LayerIter} (h : it.Consistent) :
    it.quiet.next = (it.next.1, it.next.2.quiet) := by
  cases hstop : it.stop with
  | some reason => rw [next_of_stop hstop, @next_of_stop it.quiet reason hstop]
  | none =>
      by_cases hcap : it.opts.maxLayers ≤ it.records.length
      · rw [next_of_cap hstop hcap, @next_of_cap it.quiet hstop hcap]
        rfl
      · have hlt : it.records.length < it.opts.maxLayers := by omega
        rw [next_eq h hstop hlt, next_eq h.quiet hstop hlt, outcome_quiet]
        cases it.outcome with
        | layer protocol parsed heuristic => rfl
        | stop reason => simp [settle, quiet]

theorem drain_quiet {it : LayerIter} (h : it.Consistent) : it.quiet.drain = it.drain.quiet := by
  induction it using drain.induct with
  | case1 it step it' hnext ih =>
      have hquiet := next_quiet h
      have hc := h.next
      rw [hnext] at hquiet hc
      rw [drain_of_some hquiet, drain_of_some hnext]
      exact ih hc
  | case2 it it' hnext =>
      have hquiet := next_quiet h
      rw [hnext] at hquiet
      rw [drain_of_none hquiet, drain_of_none hnext]

/-! ## What the pass collects -/

/-- The diagnostics are those of the state the walk stopped in, if the flag is set. -/
structure Diagnosed (it : LayerIter) : Prop where
  running : it.stop = none → it.unknown = none
  stopped : ∀ reason, it.stop = some reason → it.unknown =
    if it.opts.diagnoseUnknown then it.engine.diagnoseUnknown reason it.remaining it.ctx else none

theorem diagnoseUnknown_of_nil (e : Engine) (reason : StopReason) (bytes : List UInt8) (ctx : ParseCtx)
    (h : ctx.layers = []) : e.diagnoseUnknown reason bytes ctx = none := by
  cases reason <;> simp [Engine.diagnoseUnknown, Engine.unknownContext, ParseCtx.prev, h]

theorem Diagnosed.next {it : LayerIter} (h : it.Diagnosed) (hc : it.Consistent) :
    it.next.2.Diagnosed := by
  rcases next_cases hc with ⟨reason, -, hnext⟩ | ⟨hstop, -, hnext⟩ |
    ⟨hstop, -, protocol, parsed, heuristic, -, hnext⟩ | ⟨hstop, -, reason, -, hnext⟩
  · rw [hnext]
    exact h
  · -- a stop at the cap is no unknown payload
    rw [hnext]
    constructor
    case running => simp
    case stopped =>
        intro reason hreason
        simp only [Option.some.injEq] at hreason
        subst hreason
        by_cases hrem : it.remaining.isEmpty = true
        · simp [hrem, h.running hstop, Engine.diagnoseUnknown, Engine.unknownContext]
        · simp [hrem, h.running hstop, Engine.diagnoseUnknown, Engine.unknownContext]
  · rw [hnext]
    exact ⟨fun _ => h.running hstop, fun reason hreason => by simp [push, hstop] at hreason⟩
  · rw [hnext]
    constructor
    case running => simp [halt]
    case stopped =>
        intro reason' hreason
        obtain rfl : reason = reason' := by simpa [halt] using hreason
        cases hstarted : it.started with
        | true => simp [halt, hstarted, h.running hstop, remaining, ctx]
        | false =>
            -- an entry stop has no predecessor to report
            have hnil : (it.halt reason).ctx.layers = [] := (hc.fresh hstarted).1
            rw [diagnoseUnknown_of_nil _ _ _ _ hnil]
            simp [halt, hstarted, h.running hstop]

/-- The diagnostics at the end of the walk. -/
theorem drain_unknown {it : LayerIter} (hc : it.Consistent) (h : it.Diagnosed) {reason : StopReason}
    (hreason : it.drain.stop = some reason) :
    it.drain.unknown = if it.drain.opts.diagnoseUnknown then
      it.drain.engine.diagnoseUnknown reason it.drain.remaining it.drain.ctx else none := by
  have hend : it.drain.Consistent ∧ it.drain.Diagnosed :=
    drain_invariant (I := fun it' => it'.Consistent ∧ it'.Diagnosed)
      (fun _ hI => ⟨hI.1.next, hI.2.next hI.1⟩) it ⟨hc, h⟩
  exact hend.2.stopped reason hreason

end LayerIter

/-! ## The report -/

section Report

variable {e : Engine} {reason : StopReason} {bytes : List UInt8} {ctx : ParseCtx}

theorem diagnoseUnknown_isSome :
    (e.diagnoseUnknown reason bytes ctx).isSome ↔
      reason.toClass = .unknownPayload ∧ ctx.layers ≠ [] := by
  have hprev : ctx.prev.isSome ↔ ctx.layers ≠ [] := by
    simp [ParseCtx.prev]
  rw [← hprev]
  cases reason <;> simp [Engine.diagnoseUnknown, Engine.unknownContext, StopReason.toClass]

theorem diagnoseUnknown_report {d : UnknownDiagnostics}
    (h : e.diagnoseUnknown reason bytes ctx = some d) :
    d.sample = bytes.take (min bytes.length sampleCap) ∧
      ∃ l, ctx.layers.getLast? = some l ∧ d.context.predecessor = l.protocol := by
  obtain ⟨context, hcontext, rfl⟩ := Option.map_eq_some_iff.1 h
  refine ⟨rfl, ?_⟩
  unfold Engine.unknownContext at hcontext
  cases reason with
  | unclaimedRoute route =>
      obtain ⟨l, hl, rfl⟩ := Option.map_eq_some_iff.1 hcontext
      exact ⟨l, hl, rfl⟩
  | unknownHint =>
      obtain ⟨l, hl, rfl⟩ := Option.map_eq_some_iff.1 hcontext
      exact ⟨l, hl, rfl⟩
  | complete => cases hcontext
  | terminal => cases hcontext
  | truncated needed have_ => cases hcontext
  | pluginError => cases hcontext
  | depthCap => cases hcontext

end Report

theorem diagnosed_of_layers {e : Engine} {bytes : List UInt8} {meta_ : PacketMeta} {opts : ParseOpts}
    {it : LayerIter} (h : e.layers bytes meta_ opts = some it) : it.Diagnosed := by
  rw [layers_eq_some h]
  exact ⟨fun _ => rfl, fun reason hreason => by cases hreason⟩

/-- What the flag must not change of a packet. -/
def DissectedPacket.skeleton (packet : DissectedPacket) : List LayerRecord × StopReason × Nat :=
  (packet.layers, packet.stop, packet.opaqueLen)

theorem skeleton_quiet {it : LayerIter} (h : it.Consistent) (meta_ : PacketMeta) :
    (it.quiet.intoPacket meta_).skeleton = (it.intoPacket meta_).skeleton := by
  simp only [LayerIter.intoPacket, LayerIter.drain_quiet h]
  rfl

/-- A dissection has the layers, stop and opaque length of the one without diagnostics. -/
theorem dissect_quiet (e : Engine) (bytes : List UInt8) (meta_ : PacketMeta) (opts : ParseOpts) :
    (e.dissect bytes meta_ opts).map DissectedPacket.skeleton =
      (e.dissect bytes meta_ { opts with diagnoseUnknown := false }).map DissectedPacket.skeleton := by
  unfold Engine.dissect
  cases hit : e.layers bytes meta_ opts with
  | none =>
      have hany : (opts.entry.any fun name => (e.pluginByName name).isNone) = true := by
        by_contra hnot
        simp [Engine.layers, hnot] at hit
      simp [Engine.layers, hany]
  | some it =>
      have hnot : ¬ (opts.entry.any fun name => (e.pluginByName name).isNone) = true := by
        intro hany
        simp [Engine.layers, hany] at hit
      have hquiet : e.layers bytes meta_ { opts with diagnoseUnknown := false } = some it.quiet := by
        rw [layers_eq_some hit]
        simp only [Engine.layers, hnot]
        rfl
      rw [hquiet]
      simp only [Option.map_some, skeleton_quiet (consistent_of_layers hit)]

/-- **Diagnostics never influence dissection.** The flag changes neither layers nor stop nor opaque
length. Diagnostics are present exactly when the flag is set and a layered packet stopped on an unknown
payload; they sample the opaque tail and name the last layer. -/
theorem dissect_diagnostics (e : Engine) (bytes : List UInt8) (meta_ : PacketMeta) (opts : ParseOpts) :
    (e.dissect bytes meta_ { opts with diagnoseUnknown := true }).map DissectedPacket.skeleton =
      (e.dissect bytes meta_ { opts with diagnoseUnknown := false }).map DissectedPacket.skeleton ∧
    ∀ packet, e.dissect bytes meta_ opts = some packet →
      (packet.unknown.isSome ↔ opts.diagnoseUnknown = true ∧
        packet.stop.toClass = .unknownPayload ∧ packet.layers ≠ []) ∧
      ∀ d, packet.unknown = some d →
        d.sample = (bytes.drop (bytes.length - packet.opaqueLen)).take (min 256 packet.opaqueLen) ∧
        ∃ l, packet.layers.getLast? = some l ∧ d.context.predecessor = l.protocol := by
  constructor
  · exact dissect_quiet e bytes meta_ { opts with diagnoseUnknown := true }
  · intro packet hpacket
    obtain ⟨it, hit, rfl⟩ := Option.map_eq_some_iff.1 hpacket
    -- the packet is what the drained iterator holds
    have hcons := consistent_of_layers hit
    have hfresh := layers_eq_some hit
    have hdone := LayerIter.drain_consistent hcons
    have hframe := LayerIter.drain_frame it
    rw [hfresh] at hframe
    simp only [← hfresh] at hframe
    obtain ⟨-, hbytes, -, hopts⟩ := hframe
    obtain ⟨reason, hreason⟩ := Option.isSome_iff_exists.1 (LayerIter.drain_stop hcons)
    have hunknown := LayerIter.drain_unknown hcons (diagnosed_of_layers hit) hreason
    rw [hopts, LayerIter.remaining_eq hdone, hbytes] at hunknown
    simp only [LayerIter.intoPacket, hreason, Option.getD_some, hbytes]
    constructor
    · rw [hunknown]
      by_cases hflag : opts.diagnoseUnknown = true
      · rw [if_pos hflag, diagnoseUnknown_isSome]
        simp [hflag, LayerIter.ctx]
      · simp [hflag]
    · intro d hd
      have hflag : opts.diagnoseUnknown = true := by
        by_contra hflag
        rw [hunknown, if_neg hflag] at hd
        cases hd
      rw [hunknown, if_pos hflag] at hd
      obtain ⟨hsample, l, hl, hpred⟩ := diagnoseUnknown_report hd
      refine ⟨?_, l, hl, hpred⟩
      have hle : it.drain.cursor ≤ bytes.length := by
        rw [← hbytes]
        exact hdone.cursor_le
      rw [hsample, List.length_drop, Nat.sub_sub_self hle, Nat.min_comm]
      rfl

/-- The toy packet stops on an unknown payload behind two layers: its diagnostics sample the two opaque
bytes and name the note. -/
theorem dissect_diagnostics_toy :
    ((toyIter.intoPacket toyMeta).unknown.isSome ↔ toyOpts.diagnoseUnknown = true ∧
      (toyIter.intoPacket toyMeta).stop.toClass = .unknownPayload ∧
      (toyIter.intoPacket toyMeta).layers ≠ []) ∧
    (toyIter.pull 3).2.unknown =
      some ⟨.noHeuristicWinner "note", [], [2, 3]⟩ := by
  obtain ⟨-, hreport⟩ := dissect_diagnostics toyEngine [0, 7, 1, 2, 3] toyMeta toyOpts
  exact ⟨(hreport (toyIter.intoPacket toyMeta) rfl).1, by decide +kernel⟩

end Pktflow.Core

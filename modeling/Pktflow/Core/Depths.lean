import Pktflow.Core.Selection
import Pktflow.Core.Trailer

/-!
# Walks at two depths

The depth of a session decides what a plugin extracts, not what it reads. A walk that asks on its way only
plugins that answer alike in the two contexts it has reached (`BlindWalk`) takes the same course at both
depths, and extracts more at the greater one. `Deepens` relates the two walks. A plugin may answer otherwise
where it looks at a field that an earlier layer has at the greater depth only (`LooksAt`).
-/

set_option autoImplicit false

namespace Pktflow.Core

/-- `ParseCtx::layer`: the innermost layer of a protocol. -/
def ParseCtx.layer (ctx : ParseCtx) (protocol : ProtocolName) : Option LayerRecord :=
  ctx.layers.reverse.find? fun l => l.protocol = protocol

/-- `ParseCtx::field`. -/
def ParseCtx.field (ctx : ParseCtx) (protocol : ProtocolName) (name : FieldName) : Option Value :=
  (ctx.layer protocol).bind fun l => l.fields.get name

/-! ## Layers, contexts and parses at two depths -/

/-- Every field of the one is a field of the other, with the same value. -/
def FieldMap.Sub (m m' : FieldMap) : Prop := ∀ name v, m.get name = some v → m'.get name = some v

/-- The same header, with at least the same fields. -/
structure SameFrame (l l' : LayerRecord) : Prop where
  protocol : l'.protocol = l.protocol
  offset : l'.offset = l.offset
  headerLen : l'.headerLen = l.headerLen
  fields : l.fields.Sub l'.fields

/-- Two contexts of one packet, the second at no lesser depth. -/
structure Deeper (ctx ctx' : ParseCtx) : Prop where
  depth : ctx.depth.rank ≤ ctx'.depth.rank
  layers : List.Forall₂ SameFrame ctx.layers ctx'.layers
  meta_ : ctx'.meta_ = ctx.meta_

/-- The same header and hint, with at least the same fields; or the same refusal. -/
inductive Alike : Except ParseError ParsedLayer → Except ParseError ParsedLayer → Prop where
  | ok {headerLen : Nat} {fields fields' : FieldMap} {hint : Hint} (sub : fields.Sub fields') :
      Alike (.ok ⟨headerLen, fields, hint⟩) (.ok ⟨headerLen, fields', hint⟩)
  | error (err : ParseError) : Alike (.error err) (.error err)

/-- The same course: a layer with the same header and hint and at least the same fields, or the same
stop. -/
inductive SameStep : StepOutcome → StepOutcome → Prop where
  | layer {protocol : ProtocolName} {headerLen : Nat} {fields fields' : FieldMap} {hint : Hint}
      {heuristic : Bool} (sub : fields.Sub fields') :
      SameStep (.layer protocol ⟨headerLen, fields, hint⟩ heuristic)
        (.layer protocol ⟨headerLen, fields', hint⟩ heuristic)
  | stop (reason : StopReason) : SameStep (.stop reason) (.stop reason)

section Resolution

variable {e : Engine} {bytes : List UInt8} {ctx ctx' : ParseCtx}

theorem Deeper.prev (h : Deeper ctx ctx') (names : List ProtocolName) :
    (ctx'.prev.any fun l => names.contains l.protocol) = ctx.prev.any fun l => names.contains l.protocol := by
  have hrev : List.Forall₂ SameFrame ctx.layers.reverse ctx'.layers.reverse :=
    List.forall₂_reverse_iff.2 h.layers
  rw [ParseCtx.prev, ParseCtx.prev, List.getLast?_eq_head?_reverse, List.getLast?_eq_head?_reverse]
  generalize ctx.layers.reverse = ls, ctx'.layers.reverse = ls' at hrev
  cases hrev with
  | nil => rfl
  | cons hl _ => simp only [List.head?_cons, Option.any_some, hl.protocol]

/-- What becomes of a parse that is usable. -/
inductive SameAccepted : Option ParsedLayer → Option ParsedLayer → Prop where
  | some {headerLen : Nat} {fields fields' : FieldMap} {hint : Hint} (sub : fields.Sub fields') :
      SameAccepted (some ⟨headerLen, fields, hint⟩) (some ⟨headerLen, fields', hint⟩)
  | none : SameAccepted none none

theorem accepted_of_alike {p : LayerPlugin} (hparse : Alike (p.parse bytes ctx) (p.parse bytes ctx')) :
    SameAccepted (accepted p bytes ctx) (accepted p bytes ctx') := by
  rw [Core.accepted, Core.accepted]
  generalize p.parse bytes ctx = x, p.parse bytes ctx' = y at hparse
  cases hparse with
  | @ok headerLen fields fields' hint sub =>
      simp only [ParsedLayer.headerLenOk]
      by_cases hlen : headerLen ≤ bytes.length
      · simp only [hlen, decide_true, if_true]
        exact .some sub
      · simp only [hlen, decide_false, Bool.false_eq_true, if_false]
        exact .none
  | error err => exact .none

theorem dispatchExplicit_of_alike {p : LayerPlugin} (hparse : Alike (p.parse bytes ctx) (p.parse bytes ctx')) :
    SameStep (dispatchExplicit p bytes ctx) (dispatchExplicit p bytes ctx') := by
  rw [Core.dispatchExplicit, Core.dispatchExplicit]
  generalize p.parse bytes ctx = x, p.parse bytes ctx' = y at hparse
  cases hparse with
  | @ok headerLen fields fields' hint sub =>
      simp only [ParsedLayer.headerLenOk]
      by_cases hlen : headerLen ≤ bytes.length
      · simp only [hlen, decide_true, if_true]
        exact .layer sub
      · simp only [hlen, decide_false, Bool.false_eq_true, if_false]
        exact .stop _
  | error err => exact .stop _

/-- The candidates that are called answer alike. -/
theorem firstAccepted_sameStep {ps : List LayerPlugin}
    (hps : ∀ p ∈ (firstAcceptedCalls bytes ctx ps).1, Alike (p.parse bytes ctx) (p.parse bytes ctx')) :
    SameStep (firstAccepted bytes ctx ps) (firstAccepted bytes ctx' ps) := by
  induction ps with
  | nil => exact .stop _
  | cons p ps ih =>
      have hmem : p ∈ (firstAcceptedCalls bytes ctx (p :: ps)).1 := by
        rw [firstAcceptedCalls]
        cases accepted p bytes ctx with
        | some parsed => exact List.mem_singleton_self p
        | none => exact List.mem_cons_self
      have hp := accepted_of_alike (hps p hmem)
      have hrest : accepted p bytes ctx = none → ∀ q ∈ (firstAcceptedCalls bytes ctx ps).1,
          Alike (q.parse bytes ctx) (q.parse bytes ctx') := by
        intro hnone q hq
        apply hps
        rw [firstAcceptedCalls, hnone]
        exact List.mem_cons_of_mem p hq
      rw [firstAccepted, firstAccepted]
      generalize accepted p bytes ctx = x, accepted p bytes ctx' = y at hp hrest
      cases hp with
      | some sub => exact .layer sub
      | none => exact ih (hrest rfl)

theorem boostedScore_eq (h : Deeper ctx ctx') {p : LayerPlugin} (hp : p.probe bytes ctx' = p.probe bytes ctx) :
    boostedScore p bytes ctx' = boostedScore p bytes ctx := by
  rw [boostedScore, boostedScore, hp, h.prev]

theorem scoreFallbackPool_eq (h : Deeper ctx ctx')
    (hpool : ∀ p ∈ e.fallbackPool, p.probe bytes ctx' = p.probe bytes ctx) :
    e.scoreFallbackPool bytes ctx' = e.scoreFallbackPool bytes ctx := by
  apply List.filterMap_congr
  intro p hp
  rw [boostedScore_eq h (hpool p hp)]

/-- The winner of the fallback, where the plugins that are called answer alike. -/
theorem selectWinner_sameStep (fuel : Nat) {candidates : List (Nat × LayerPlugin)}
    (hcalls : ∀ p ∈ (selectWinnerCalls bytes ctx fuel candidates).1, Alike (p.parse bytes ctx) (p.parse bytes ctx')) :
    (selectWinner bytes ctx fuel candidates = none ∧ selectWinner bytes ctx' fuel candidates = none) ∨
      ∃ protocol headerLen fields fields' hint, fields.Sub fields' ∧
        selectWinner bytes ctx fuel candidates = some (protocol, ⟨headerLen, fields, hint⟩) ∧
        selectWinner bytes ctx' fuel candidates = some (protocol, ⟨headerLen, fields', hint⟩) := by
  induction fuel generalizing candidates with
  | zero => exact .inl ⟨rfl, rfl⟩
  | succ fuel ih =>
      rw [selectWinnerCalls] at hcalls
      rw [selectWinner, selectWinner]
      cases hbest : candidates[bestIndex candidates]? with
      | none => exact .inl ⟨rfl, rfl⟩
      | some c =>
          obtain ⟨score, p⟩ := c
          rw [hbest] at hcalls
          dsimp only at hcalls ⊢
          have hp : SameAccepted (accepted p bytes ctx) (accepted p bytes ctx') := by
            apply accepted_of_alike
            apply hcalls
            cases accepted p bytes ctx with
            | some parsed => exact List.mem_singleton_self p
            | none => exact List.mem_cons_self
          generalize accepted p bytes ctx = x, accepted p bytes ctx' = y at hp hcalls
          cases hp with
          | @some headerLen fields fields' hint sub => exact .inr ⟨_, _, _, _, _, sub, rfl, rfl⟩
          | none => exact ih fun q hq => hcalls q (List.mem_cons_of_mem p hq)

theorem fallbackOutcome_sameStep (h : Deeper ctx ctx')
    (hpool : ∀ p ∈ e.fallbackPool, p.probe bytes ctx' = p.probe bytes ctx)
    (hcalls : ∀ p ∈ (e.heuristicFallbackCalls bytes ctx).1, Alike (p.parse bytes ctx) (p.parse bytes ctx')) :
    SameStep (e.fallbackOutcome bytes ctx) (e.fallbackOutcome bytes ctx') := by
  rw [Engine.fallbackOutcome, Engine.fallbackOutcome, Engine.heuristicFallback, Engine.heuristicFallback,
    scoreFallbackPool_eq h hpool]
  rcases selectWinner_sameStep _ hcalls with ⟨hnone, hnone'⟩ |
    ⟨protocol, headerLen, fields, fields', hint, sub, hsome, hsome'⟩
  · rw [hnone, hnone']
    exact .stop _
  · rw [hsome, hsome']
    exact .layer sub

namespace Engine

/-- The plugins that the resolution of a hint probes. -/
def probed (e : Engine) : Hint → List LayerPlugin
  | .unknown => e.fallbackPool
  | _ => []

/-- The plugins that the resolution of the entry probes. -/
def probedFirst (e : Engine) (opts : ParseOpts) (linkType : UInt16) : List LayerPlugin :=
  match opts.entry with
  | some _ => []
  | none =>
      match e.pluginForRoute (.linkType linkType) with
      | some _ => []
      | none => if opts.allowEntryHeuristics then e.fallbackPool else []

/-- The plugins that the resolution of the entry parses with, in order. -/
def resolveEntryCalls (e : Engine) (bytes : List UInt8) (ctx : ParseCtx) (opts : ParseOpts) (linkType : UInt16) :
    List LayerPlugin :=
  match opts.entry with
  | some name => (e.pluginByName name).toList
  | none =>
      match e.pluginForRoute (.linkType linkType) with
      | some p => [p]
      | none => if opts.allowEntryHeuristics then (e.heuristicFallbackCalls bytes ctx).1 else []

end Engine

theorem resolveNext_sameStep (h : Deeper ctx ctx') {hint : Hint}
    (hprobes : ∀ p ∈ e.probed hint, p.probe bytes ctx' = p.probe bytes ctx)
    (hcalls : ∀ p ∈ (e.resolveNextCalls hint bytes ctx).1, Alike (p.parse bytes ctx) (p.parse bytes ctx')) :
    SameStep (e.resolveNext hint bytes ctx) (e.resolveNext hint bytes ctx') := by
  unfold Engine.resolveNextCalls at hcalls
  unfold Engine.resolveNext
  cases hempty : bytes.isEmpty with
  | true => exact .stop _
  | false =>
      rw [hempty] at hcalls
      simp only [Bool.false_eq_true, if_false] at hcalls ⊢
      cases hint with
      | terminal => exact .stop _
      | route id =>
          dsimp only at hcalls ⊢
          cases hp : e.pluginForRoute id with
          | none => exact .stop _
          | some p =>
              rw [hp] at hcalls
              exact dispatchExplicit_of_alike (hcalls p (List.mem_singleton_self p))
      | candidates ids =>
          dsimp only at hcalls ⊢
          rw [Engine.resolveCandidatesCalls] at hcalls
          rw [Engine.resolveCandidates, Engine.resolveCandidates]
          by_cases hnone : (ids.filterMap e.pluginForRoute).isEmpty
          · rw [if_pos hnone, if_pos hnone]
            cases ids.head? with
            | some first => exact .stop _
            | none => exact .stop _
          · rw [if_neg hnone] at hcalls
            rw [if_neg hnone, if_neg hnone]
            exact firstAccepted_sameStep hcalls
      | byProtocol name =>
          dsimp only at hcalls ⊢
          rw [Engine.resolveByProtocol, Engine.resolveByProtocol]
          cases hp : e.pluginByName name with
          | none => exact .stop _
          | some p =>
              rw [hp] at hcalls
              dsimp only at hcalls ⊢
              have haccept : SameAccepted (accepted p bytes ctx) (accepted p bytes ctx') := by
                apply accepted_of_alike
                apply hcalls
                cases accepted p bytes ctx with
                | some parsed => exact List.mem_singleton_self p
                | none => exact List.mem_singleton_self p
              generalize accepted p bytes ctx = x, accepted p bytes ctx' = y at haccept
              cases haccept with
              | some sub => exact .layer sub
              | none => exact .stop _
      | unknown =>
          apply fallbackOutcome_sameStep h hprobes
          intro p hp
          apply hcalls
          dsimp only
          cases (e.heuristicFallbackCalls bytes ctx).2 with
          | some found => exact hp
          | none => exact hp

theorem resolveEntry_sameStep (h : Deeper ctx ctx') {opts opts' : ParseOpts} {linkType : UInt16}
    (hentry : opts'.entry = opts.entry) (hallow : opts'.allowEntryHeuristics = opts.allowEntryHeuristics)
    (hprobes : ∀ p ∈ e.probedFirst opts linkType, p.probe bytes ctx' = p.probe bytes ctx)
    (hcalls : ∀ p ∈ e.resolveEntryCalls bytes ctx opts linkType, Alike (p.parse bytes ctx) (p.parse bytes ctx')) :
    SameStep (e.resolveEntry bytes ctx opts linkType) (e.resolveEntry bytes ctx' opts' linkType) := by
  rw [Engine.resolveEntry, Engine.resolveEntry, hentry, hallow]
  rw [Engine.probedFirst] at hprobes
  rw [Engine.resolveEntryCalls] at hcalls
  cases bytes.isEmpty with
  | true => exact .stop _
  | false =>
      simp only [Bool.false_eq_true, if_false]
      cases hname : opts.entry with
      | some name =>
          rw [hname] at hcalls
          dsimp only at hcalls ⊢
          cases hp : e.pluginByName name with
          | none => exact .stop _
          | some p => exact dispatchExplicit_of_alike (hcalls p (by simp [hp]))
      | none =>
          rw [hname] at hprobes hcalls
          dsimp only at hprobes hcalls ⊢
          cases hp : e.pluginForRoute (.linkType linkType) with
          | some p =>
              rw [hp] at hcalls
              exact dispatchExplicit_of_alike (hcalls p (List.mem_singleton_self p))
          | none =>
              rw [hp] at hprobes hcalls
              dsimp only at hprobes hcalls ⊢
              cases hheur : opts.allowEntryHeuristics with
              | false =>
                  simp only [Bool.false_eq_true, if_false]
                  exact .stop _
              | true =>
                  rw [hheur] at hprobes hcalls
                  simp only [if_true] at hprobes hcalls ⊢
                  exact fallbackOutcome_sameStep h hprobes hcalls

end Resolution

namespace LayerIter

/-- One walk at two depths, at the same point. -/
structure Deepens (it it' : LayerIter) : Prop where
  engine : it'.engine = it.engine
  bytes : it'.bytes = it.bytes
  meta_ : it'.meta_ = it.meta_
  maxLayers : it'.opts.maxLayers = it.opts.maxLayers
  entry : it'.opts.entry = it.opts.entry
  heuristics : it'.opts.allowEntryHeuristics = it.opts.allowEntryHeuristics
  depth : it.opts.effectiveDepth.rank ≤ it'.opts.effectiveDepth.rank
  records : List.Forall₂ SameFrame it.records it'.records
  cursor : it'.cursor = it.cursor
  pending : it'.pending = it.pending
  stop : it.stop = none
  stop' : it'.stop = none
  consistent : it.Consistent
  consistent' : it'.Consistent

/-- Two walks end with the same headers, for the same reason and at the same byte. -/
structure SameCourse (it it' : LayerIter) : Prop where
  records : List.Forall₂ SameFrame it.drain.records it'.drain.records
  stop : it'.drain.stop = it.drain.stop
  cursor : it'.drain.cursor = it.drain.cursor

/-- The plugins that the next call probes. -/
def probed (it : LayerIter) : List LayerPlugin :=
  match it.pending with
  | some hint => it.engine.probed hint
  | none => it.engine.probedFirst it.opts it.meta_.linkType

/-- The plugins that the next call parses with. -/
def called (it : LayerIter) : List LayerPlugin :=
  match it.pending with
  | some hint => (it.engine.resolveNextCalls hint it.remaining it.ctx).1
  | none => it.engine.resolveEntryCalls it.remaining it.ctx it.opts it.meta_.linkType

/-- The next call asks plugins: the walk has not stopped, is below the cap, and has bytes left. -/
def Asks (it : LayerIter) : Prop :=
  it.stop = none ∧ it.records.length < it.opts.maxLayers ∧ it.remaining ≠ []

/-- The plugins that the next call asks answer alike in the contexts of the two walks. -/
structure AnswersAlike (it it' : LayerIter) : Prop where
  probes : ∀ p ∈ it.probed, p.probe it.remaining it'.ctx = p.probe it.remaining it.ctx
  parses : ∀ p ∈ it.called, Alike (p.parse it.remaining it.ctx) (p.parse it.remaining it'.ctx)

/-- All plugins that are asked on the way answer alike in the contexts that the two walks have reached. -/
def BlindWalk (it it' : LayerIter) : Prop :=
  ∀ j, (it.pull j).2.Asks → AnswersAlike (it.pull j).2 (it'.pull j).2

theorem BlindWalk.next {it it' : LayerIter} (h : BlindWalk it it') : BlindWalk it.next.2 it'.next.2 :=
  fun j => h (j + 1)

theorem next_of_layer {it : LayerIter} (h : it.Consistent) (hstop : it.stop = none)
    (hlt : it.records.length < it.opts.maxLayers) {protocol : ProtocolName} {parsed : ParsedLayer} {heuristic : Bool}
    (hout : it.outcome = .layer protocol parsed heuristic) : it.next.2 = it.push protocol parsed := by
  rw [next_eq h hstop hlt, hout]
  rfl

theorem outcome_of_nil {it : LayerIter} (h : it.remaining = []) : it.outcome = .stop .complete := by
  rw [LayerIter.outcome, h]
  cases it.pending with
  | some hint => rfl
  | none => rfl

namespace Deepens

variable {it it' : LayerIter} (h : Deepens it it')
include h

theorem remaining : it'.remaining = it.remaining := by
  rw [LayerIter.remaining, LayerIter.remaining, h.bytes, h.cursor]

theorem length : it'.records.length = it.records.length := h.records.length_eq.symm

theorem deeper : Deeper it.ctx it'.ctx := ⟨h.depth, h.records, h.meta_⟩

theorem outcome (halike : AnswersAlike it it') : SameStep it.outcome it'.outcome := by
  obtain ⟨hprobes, hcalls⟩ := halike
  rw [probed] at hprobes
  rw [called] at hcalls
  rw [LayerIter.outcome, LayerIter.outcome, h.pending, h.engine, h.remaining, h.meta_]
  cases hpending : it.pending with
  | some hint =>
      rw [hpending] at hprobes hcalls
      exact resolveNext_sameStep h.deeper hprobes hcalls
  | none =>
      rw [hpending] at hprobes hcalls
      exact resolveEntry_sameStep h.deeper h.entry h.heuristics hprobes hcalls

theorem push (hlt : it.records.length < it.opts.maxLayers) {protocol : ProtocolName} {headerLen : Nat}
    {fields fields' : FieldMap} {hint : Hint} {heuristic : Bool} (sub : fields.Sub fields')
    (hout : it.outcome = .layer protocol ⟨headerLen, fields, hint⟩ heuristic)
    (hout' : it'.outcome = .layer protocol ⟨headerLen, fields', hint⟩ heuristic) :
    Deepens (it.push protocol ⟨headerLen, fields, hint⟩) (it'.push protocol ⟨headerLen, fields', hint⟩) where
  engine := h.engine
  bytes := h.bytes
  meta_ := h.meta_
  maxLayers := h.maxLayers
  entry := h.entry
  heuristics := h.heuristics
  depth := h.depth
  records := List.rel_append h.records (.cons ⟨rfl, h.cursor, rfl, sub⟩ .nil)
  cursor := congrArg (· + headerLen) h.cursor
  pending := rfl
  stop := h.stop
  stop' := h.stop'
  consistent := h.consistent.push h.stop hlt hout
  consistent' := h.consistent'.push h.stop' (by rw [h.length, h.maxLayers]; exact hlt) hout'

theorem capped (hcap : it.opts.maxLayers ≤ it.records.length) : SameCourse it it' := by
  have hcap' : it'.opts.maxLayers ≤ it'.records.length := by rwa [h.length, h.maxLayers]
  constructor
  case records =>
    rw [drain_of_cap h.stop hcap, drain_of_cap h.stop' hcap']
    exact h.records
  case stop => rw [drain_of_cap h.stop hcap, drain_of_cap h.stop' hcap', h.remaining]
  case cursor =>
    rw [drain_of_cap h.stop hcap, drain_of_cap h.stop' hcap']
    exact h.cursor

theorem push_of_layers (hlt : it.records.length < it.opts.maxLayers) {protocol : ProtocolName} {headerLen : Nat}
    {fields fields' : FieldMap} {hint : Hint} {heuristic : Bool} (sub : fields.Sub fields')
    (hout : it.outcome = .layer protocol ⟨headerLen, fields, hint⟩ heuristic)
    (hout' : it'.outcome = .layer protocol ⟨headerLen, fields', hint⟩ heuristic) :
    Deepens it.next.2 it'.next.2 := by
  have hlt' : it'.records.length < it'.opts.maxLayers := by rwa [h.length, h.maxLayers]
  rw [next_of_layer h.consistent h.stop hlt hout, next_of_layer h.consistent' h.stop' hlt' hout']
  exact h.push hlt sub hout hout'

/-- After one call the two walks are at the same point, or have stopped. -/
theorem next (halike : it.Asks → AnswersAlike it it') : it.next.2.stop.isSome ∨ Deepens it.next.2 it'.next.2 := by
  by_cases hcap : it.opts.maxLayers ≤ it.records.length
  · left
    rw [next_of_cap h.stop hcap]
    rfl
  · have hlt := Nat.lt_of_not_le hcap
    have hhalts : ∀ reason, it.outcome = .stop reason → it.next.2.stop.isSome := by
      intro reason hout
      rw [next_eq h.consistent h.stop hlt, hout]
      rfl
    by_cases hnil : it.remaining = []
    · exact .inl (hhalts _ (outcome_of_nil hnil))
    · have hstep := h.outcome (halike ⟨h.stop, hlt, hnil⟩)
      generalize hout : it.outcome = x, hout' : it'.outcome = y at hstep
      cases hstep with
      | stop reason => exact .inl (hhalts reason hout)
      | layer sub => exact .inr (h.push_of_layers hlt sub hout hout')

end Deepens

end LayerIter

/-! ## Dissections at two depths -/

end Pktflow.Core

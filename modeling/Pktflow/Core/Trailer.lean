import Pktflow.Core.Selection
import Pktflow.Core.Walk

/-!
# Walks in front of a trailer

A packet may be followed in its frame by bytes that are not part of it. The iterator hands every byte
after a header to the next dissector, so a walk keeps to the packet only where no dissector looks past
its own header and the walk stops before the packet's end. `Inside` says so of the bytes themselves, in the
contexts that the walk reaches; `Trails` relates a walk over a packet and the walk over the packet with its
trailer.
-/

set_option autoImplicit false

namespace Pktflow.Core

/-- The plugin reads its own header: where the header is followed by anything, more bytes at the end,
and other facts of the capture, change nothing. -/
def Framed (p : LayerPlugin) : Prop :=
  ∀ bytes more ctx ctx' parsed, ctx'.layers = ctx.layers → ctx'.depth = ctx.depth →
    p.parse bytes ctx = .ok parsed → parsed.headerLen < bytes.length →
    p.parse (bytes ++ more) ctx' = .ok parsed

namespace Engine

/-- The hint ends the walk, whatever bytes follow. -/
def Ends (e : Engine) (hint : Hint) : Prop := hint = .terminal ∨ NamesOnlyUnclaimed e hint

end Engine

/-- A context of these layers and this depth, whatever the facts of the capture. -/
structure ContextOf (layers : List LayerRecord) (depth : Depth) (ctx : ParseCtx) : Prop where
  layers : ctx.layers = layers
  depth : ctx.depth = depth

/-- The plugin has no usable parse of the bytes in such a context, with or without more at their end. -/
def Declines (layers : List LayerRecord) (depth : Depth) (bytes : List UInt8) (p : LayerPlugin) : Prop :=
  ∀ ctx more, ContextOf layers depth ctx → accepted p (bytes ++ more) ctx = none

/-- The probe of the plugin scores too low, with or without more bytes. -/
def Unlikely (layers : List LayerRecord) (depth : Depth) (bytes : List UInt8) (p : LayerPlugin) : Prop :=
  ∀ ctx more, ContextOf layers depth ctx → ∀ score ∈ boostedScore p (bytes ++ more) ctx, score < minConfidence

namespace Engine

/-- The plugins that the hint offers the bytes to refuse them, with or without more at their end. -/
inductive Refuses (e : Engine) (layers : List LayerRecord) (depth : Depth) (bytes : List UInt8) : Hint → Prop where
  | route {id : RouteId} {p : LayerPlugin} (claimed : e.pluginForRoute id = some p)
      (refuses : ∀ ctx more, ContextOf layers depth ctx →
        ∃ reason, p.parse (bytes ++ more) ctx = .error (.malformed reason)) : Refuses e layers depth bytes (.route id)
  | candidates {ids : List RouteId} (claimed : ids.filterMap e.pluginForRoute ≠ [])
      (declines : ∀ p ∈ ids.filterMap e.pluginForRoute, Declines layers depth bytes p) :
      Refuses e layers depth bytes (.candidates ids)
  | byProtocol {name : ProtocolName} {p : LayerPlugin} (named : e.pluginByName name = some p)
      (declines : Declines layers depth bytes p) : Refuses e layers depth bytes (.byProtocol name)
  | unknown (declines : ∀ p ∈ e.fallbackPool, Unlikely layers depth bytes p ∨ Declines layers depth bytes p) :
      Refuses e layers depth bytes .unknown

/-- The hint comes to the plugin, with or without more bytes: those that are offered them before decline. -/
inductive ComesTo (e : Engine) (layers : List LayerRecord) (depth : Depth) (bytes : List UInt8) :
    Hint → LayerPlugin → Prop where
  | route {id : RouteId} {p : LayerPlugin} (claimed : e.pluginForRoute id = some p) :
      ComesTo e layers depth bytes (.route id) p
  | candidates {ids : List RouteId} {before after : List LayerPlugin} {p : LayerPlugin}
      (claimed : ids.filterMap e.pluginForRoute = before ++ p :: after)
      (declines : ∀ q ∈ before, Declines layers depth bytes q) : ComesTo e layers depth bytes (.candidates ids) p
  | byProtocol {name : ProtocolName} {p : LayerPlugin} (named : e.pluginByName name = some p) :
      ComesTo e layers depth bytes (.byProtocol name) p
  | unknown {before after : List (Nat × LayerPlugin)} {score : Nat} {p : LayerPlugin}
      (ranked : ∀ ctx more, ContextOf layers depth ctx →
        ((e.ranking (bytes ++ more) ctx).filter fun x => minConfidence ≤ x.1) = before ++ (score, p) :: after)
      (declines : ∀ x ∈ before, Declines layers depth bytes x.2) : ComesTo e layers depth bytes .unknown p

section Resolution

variable {e : Engine} {hint : Hint}

/-- A hint that ends the walk does so for one reason. -/
theorem Ends.reason (h : e.Ends hint) :
    ∃ reason, ∀ bytes ctx, bytes ≠ [] → e.resolveNext hint bytes ctx = .stop reason := by
  rcases h with rfl | h
  · refine ⟨.terminal, fun bytes ctx hne => ?_⟩
    simp [resolveNext, hne]
  · cases hint with
    | route id =>
        refine ⟨.unclaimedRoute id, fun bytes ctx hne => ?_⟩
        have hnone : e.pluginForRoute id = none := h
        simp [resolveNext, hne, hnone]
    | candidates ids =>
        have hnil : ids.filterMap e.pluginForRoute = [] := List.filterMap_eq_nil_iff.2 h
        cases ids with
        | nil =>
            refine ⟨.pluginError, fun bytes ctx hne => ?_⟩
            simp [resolveNext, resolveCandidates, hne]
        | cons id ids =>
            refine ⟨.unclaimedRoute id, fun bytes ctx hne => ?_⟩
            simp [resolveNext, resolveCandidates, hne, hnil]
    | byProtocol name =>
        refine ⟨.unclaimedRoute (.custom name 0), fun bytes ctx hne => ?_⟩
        have hnone : e.pluginByName name = none := h
        simp [resolveNext, resolveByProtocol, hne, hnone]
    | unknown => exact h.elim
    | terminal => exact h.elim

theorem heuristicFallback_eq (e : Engine) (bytes : List UInt8) (ctx : ParseCtx) :
    e.heuristicFallback bytes ctx =
      ((e.ranking bytes ctx).filter fun x => minConfidence ≤ x.1).findSome? (winner bytes ctx) := by
  rw [← (fallbackCalls_ranking e bytes ctx).1]
  exact (selectWinnerCalls_snd _ _).symm

theorem firstAccepted_append {bytes : List UInt8} {ctx : ParseCtx} {before ps : List LayerPlugin}
    (h : ∀ q ∈ before, accepted q bytes ctx = none) :
    firstAccepted bytes ctx (before ++ ps) = firstAccepted bytes ctx ps := by
  induction before with
  | nil => rfl
  | cons q before ih =>
      rw [List.cons_append, firstAccepted, h q List.mem_cons_self]
      exact ih fun q' hq' => h q' (List.mem_cons_of_mem q hq')

variable {layers : List LayerRecord} {depth : Depth} {bytes : List UInt8}

/-- A refused hint stops the walk for one reason, with or without more bytes. -/
theorem Refuses.reason (h : e.Refuses layers depth bytes hint) (hne : bytes ≠ []) :
    ∃ reason, ∀ ctx more, ContextOf layers depth ctx → e.resolveNext hint (bytes ++ more) ctx = .stop reason := by
  have hempty : ∀ more, ¬ (bytes ++ more).isEmpty := by simp [hne]
  cases h with
  | @route id p claimed refuses =>
      refine ⟨.pluginError, fun ctx more hctx => ?_⟩
      obtain ⟨reason, hparse⟩ := refuses ctx more hctx
      rw [resolveNext, if_neg (hempty more)]
      simp only [claimed, dispatchExplicit, hparse, routeFailure]
  | @candidates ids claimed declines =>
      refine ⟨.pluginError, fun ctx more hctx => ?_⟩
      have hall : firstAccepted (bytes ++ more) ctx (ids.filterMap e.pluginForRoute ++ []) = .stop .pluginError :=
        firstAccepted_append fun q hq => declines q hq ctx more hctx
      rw [List.append_nil] at hall
      rw [resolveNext, if_neg (hempty more)]
      simp only [resolveCandidates]
      rw [if_neg (by simpa using claimed), hall]
  | @byProtocol name p named declines =>
      refine ⟨.pluginError, fun ctx more hctx => ?_⟩
      rw [resolveNext, if_neg (hempty more)]
      simp only [resolveByProtocol, named, declines ctx more hctx]
  | unknown declines =>
      refine ⟨.unknownHint, fun ctx more hctx => ?_⟩
      have hnone : e.heuristicFallback (bytes ++ more) ctx = none := by
        rw [heuristicFallback_eq, List.findSome?_eq_none_iff]
        intro x hx
        obtain ⟨hx, hscore⟩ := List.mem_filter.1 hx
        rw [ranking, Lib.mem_sortByKey] at hx
        obtain ⟨p, hp, hx⟩ := List.mem_filterMap.1 hx
        obtain ⟨score, hboost, rfl⟩ := Option.map_eq_some_iff.1 hx
        rcases declines p hp with hlow | hdeclines
        · -- no candidate has so low a score
          have hlt := hlow ctx more hctx score hboost
          exact absurd (of_decide_eq_true hscore) (Nat.not_le.2 hlt)
        · rw [winner, hdeclines ctx more hctx]
          rfl
      rw [resolveNext, if_neg (hempty more)]
      simp only [fallbackOutcome, hnone]

/-- The plugin that the hint comes to makes the layer, with or without more bytes. -/
theorem ComesTo.layer {p : LayerPlugin} (h : e.ComesTo layers depth bytes hint p) {parsed : ParsedLayer}
    (hparse : ∀ ctx more, ContextOf layers depth ctx → p.parse (bytes ++ more) ctx = .ok parsed)
    (hlen : parsed.headerLen < bytes.length) :
    ∃ heuristic, ∀ ctx more, ContextOf layers depth ctx →
      e.resolveNext hint (bytes ++ more) ctx = .layer p.name parsed heuristic := by
  have hempty : ∀ more, ¬ (bytes ++ more).isEmpty := by
    have hne : bytes ≠ [] := List.ne_nil_of_length_pos (Nat.zero_lt_of_lt hlen)
    simp [hne]
  have hok : ∀ more, parsed.headerLenOk (bytes ++ more).length = true := by
    intro more
    rw [ParsedLayer.headerLenOk, List.length_append]
    exact decide_eq_true (by omega)
  have haccept : ∀ ctx more, ContextOf layers depth ctx → accepted p (bytes ++ more) ctx = some parsed := by
    intro ctx more hctx
    simp only [accepted, hparse ctx more hctx, hok, if_true]
  cases h with
  | @route id p claimed =>
      refine ⟨false, fun ctx more hctx => ?_⟩
      rw [resolveNext, if_neg (hempty more)]
      simp only [claimed, dispatchExplicit, hparse ctx more hctx, hok, if_true]
  | @candidates ids before after p claimed declines =>
      refine ⟨false, fun ctx more hctx => ?_⟩
      rw [resolveNext, if_neg (hempty more)]
      simp only [resolveCandidates, claimed]
      rw [if_neg (by simp), firstAccepted_append fun q hq => declines q hq ctx more hctx, firstAccepted,
        haccept ctx more hctx]
  | @byProtocol name p named =>
      refine ⟨false, fun ctx more hctx => ?_⟩
      rw [resolveNext, if_neg (hempty more)]
      simp only [resolveByProtocol, named, haccept ctx more hctx]
  | @unknown before after score p ranked declines =>
      refine ⟨true, fun ctx more hctx => ?_⟩
      have hfound : e.heuristicFallback (bytes ++ more) ctx = some (p.name, parsed) := by
        rw [heuristicFallback_eq, ranked ctx more hctx, List.findSome?_append,
          List.findSome?_eq_none_iff.2 fun x hx => by rw [winner, declines x hx ctx more hctx]; rfl,
          Option.none_or, List.findSome?_cons, winner, haccept ctx more hctx]
        rfl
      rw [resolveNext, if_neg (hempty more)]
      simp only [fallbackOutcome, hfound]

end Resolution

end Engine

/-- The walk that has found `layers` up to the offset `cursor` and meets `hint` there ends inside `bytes`: every
header it reads would be read the same with anything behind, and is followed by more of the packet, and it stops at
a hint that ends it, at the cap, or where the bytes are refused and would be refused with more at their end. -/
inductive Inside (e : Engine) (opts : ParseOpts) : List LayerRecord → Nat → Hint → List UInt8 → Prop where
  | ends {layers : List LayerRecord} {cursor : Nat} {hint : Hint} {bytes : List UInt8} (some_ : bytes ≠ [])
      (stops : e.Ends hint ∨ opts.maxLayers ≤ layers.length) : Inside e opts layers cursor hint bytes
  | refused {layers : List LayerRecord} {cursor : Nat} {hint : Hint} {bytes : List UInt8} (some_ : bytes ≠ [])
      (refuses : e.Refuses layers opts.effectiveDepth bytes hint) : Inside e opts layers cursor hint bytes
  | header {layers : List LayerRecord} {cursor : Nat} {hint : Hint} {bytes : List UInt8} {p : LayerPlugin}
      {parsed : ParsedLayer} (offered : e.ComesTo layers opts.effectiveDepth bytes hint p)
      (parses : ∀ ctx more, ContextOf layers opts.effectiveDepth ctx → p.parse (bytes ++ more) ctx = .ok parsed)
      (more : parsed.headerLen < bytes.length)
      (rest : Inside e opts (layers ++ [⟨p.name, cursor, parsed.headerLen, parsed.fields⟩])
        (cursor + parsed.headerLen) parsed.hint (bytes.drop parsed.headerLen)) :
      Inside e opts layers cursor hint bytes

/-- A framed plugin reads its header the same with anything behind. -/
theorem Framed.parses {p : LayerPlugin} (hp : Framed p) {layers : List LayerRecord} {depth : Depth} {meta_ : PacketMeta}
    {bytes : List UInt8} {parsed : ParsedLayer} (h : p.parse bytes ⟨layers, depth, meta_⟩ = .ok parsed)
    (hlen : parsed.headerLen < bytes.length) :
    ∀ ctx more, ContextOf layers depth ctx → p.parse (bytes ++ more) ctx = .ok parsed :=
  fun ctx more hctx => hp bytes more _ ctx parsed hctx.layers hctx.depth h hlen

namespace LayerIter

/-- A walk over a packet and, at the same point, the walk over the packet with a trailer. -/
structure Trails (trailer : List UInt8) (it it' : LayerIter) : Prop where
  engine : it'.engine = it.engine
  bytes : it'.bytes = it.bytes ++ trailer
  opts : it'.opts = it.opts
  records : it'.records = it.records
  cursor : it'.cursor = it.cursor
  stop : it.stop = none
  stop' : it'.stop = none
  consistent : it.Consistent
  consistent' : it'.Consistent

/-- Two walks end with the same layers and for the same reason. -/
def SameEnd (it it' : LayerIter) : Prop :=
  it'.drain.records = it.drain.records ∧ it'.drain.stop = it.drain.stop

section Draining

variable {it it' : LayerIter}

theorem drain_of_cap (hstop : it.stop = none) (hcap : it.opts.maxLayers ≤ it.records.length) :
    it.drain = { it with stop := some (if it.remaining.isEmpty then .complete else .depthCap) } :=
  drain_of_none (next_of_cap hstop hcap)

namespace Trails

variable {trailer : List UInt8} (h : Trails trailer it it')
include h

theorem remaining : it'.remaining = it.remaining ++ trailer := by
  rw [remaining_eq h.consistent', remaining_eq h.consistent, h.bytes, h.cursor]
  exact List.drop_append_of_le_length h.consistent.cursor_le

/-- Both walks read one more header. -/
theorem push (hlt : it.records.length < it.opts.maxLayers) {protocol : ProtocolName} {parsed : ParsedLayer}
    {heuristic : Bool} (hout : it.outcome = .layer protocol parsed heuristic)
    (hout' : it'.outcome = .layer protocol parsed heuristic) :
    Trails trailer (it.push protocol parsed) (it'.push protocol parsed) where
  engine := h.engine
  bytes := h.bytes
  opts := h.opts
  records := by simp [LayerIter.push, h.records, h.cursor]
  cursor := by simp [LayerIter.push, h.cursor]
  stop := h.stop
  stop' := h.stop'
  consistent := h.consistent.push h.stop hlt hout
  consistent' := h.consistent'.push h.stop' (by rw [h.records, h.opts]; exact hlt) hout'

theorem remaining_ne_nil (hne : it.remaining ≠ []) : it'.remaining ≠ [] := by
  rw [h.remaining]
  exact List.append_ne_nil_of_left_ne_nil hne trailer

/-- Both walks are at the cap, with bytes left. -/
theorem capped (hcap : it.opts.maxLayers ≤ it.records.length) (hne : it.remaining ≠ []) :
    SameEnd it it' := by
  have hcap' : it'.opts.maxLayers ≤ it'.records.length := by rwa [h.opts, h.records]
  have hempty : it.remaining.isEmpty = false := by simpa using hne
  have hempty' : it'.remaining.isEmpty = false := by simpa using h.remaining_ne_nil hne
  rw [SameEnd, drain_of_cap h.stop hcap, drain_of_cap h.stop' hcap']
  exact ⟨h.records, by simp only [hempty, hempty']⟩

end Trails

end Draining

end LayerIter

theorem Inside.ne_nil {e : Engine} {opts : ParseOpts} {layers : List LayerRecord} {cursor : Nat} {hint : Hint}
    {bytes : List UInt8} (h : Inside e opts layers cursor hint bytes) : bytes ≠ [] := by
  cases h with
  | ends some_ _ => exact some_
  | refused some_ _ => exact some_
  | header _ _ more _ => exact List.ne_nil_of_length_pos (Nat.zero_lt_of_lt more)

section Dissections

variable {e : Engine} {bytes trailer : List UInt8} {meta_ meta' : PacketMeta} {opts : ParseOpts}
  {packet packet' : DissectedPacket}

end Dissections

end Pktflow.Core

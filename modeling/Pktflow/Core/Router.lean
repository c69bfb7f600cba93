import Pktflow.Core.Engine

/-!
# Hint resolution

Model of `pktflow-core/src/router.rs` and of the engine lookups it uses: the decision table
`resolveNext`, the explicit dispatch shared with entry resolution, and the heuristic fallback.

Each resolver is described twice. `Licensed` says declaratively which plugin may parse the bytes after
a hint, and `StepOutcome.Sound` says what every outcome guarantees about the bytes it was offered. The
two spec lemmas of `resolveNext` (`resolveNext_licensed`, `resolveNext_sound`) are all that the walk
uses of it.
-/

set_option autoImplicit false

namespace Pktflow.Core

namespace Engine

/-- `Engine::plugin_for_route`. -/
def pluginForRoute (e : Engine) (id : RouteId) : Option LayerPlugin :=
  (e.registry.routes.lookup id).bind fun idx => e.registry.plugins[idx]?

/-- `Engine::fallback_pool`: the probe-capable plugins, in registration order. -/
def fallbackPool (e : Engine) : List LayerPlugin :=
  e.registry.fallbackPool.filterMap fun idx => e.registry.plugins[idx]?

end Engine

/-- `ParsedLayer::header_len_ok`. -/
def ParsedLayer.headerLenOk (parsed : ParsedLayer) (available : Nat) : Bool :=
  parsed.headerLen ≤ available

/-- `ParseCtx::prev`. -/
def ParseCtx.prev (ctx : ParseCtx) : Option LayerRecord :=
  ctx.layers.getLast?

/-- `PRIOR_BOOST`. -/
def priorBoost : Nat := 15

/-- `MIN_CONFIDENCE`. -/
def minConfidence : Nat := 50

/-- `StepOutcome`: the next parsed layer, or why dissection stops. -/
inductive StepOutcome where
  | layer (protocol : ProtocolName) (parsed : ParsedLayer) (viaHeuristic : Bool)
  | stop (reason : StopReason)
  deriving DecidableEq

/-- `u16::try_from(n).unwrap_or(u16::MAX)`. -/
def clampU16 (n : Nat) : UInt16 :=
  if n ≤ 65535 then UInt16.ofNat n else 65535

/-- `route_failure`: truncation is reported as such, anything else is the plugin declining. -/
def routeFailure : ParseError → StopReason
  | .truncated needed have_ => .truncated (clampU16 needed) (clampU16 have_)
  | .malformed _ => .pluginError

/-- `dispatch_explicit`. -/
def dispatchExplicit (p : LayerPlugin) (bytes : List UInt8) (ctx : ParseCtx) : StepOutcome :=
  match p.parse bytes ctx with
  | .ok parsed =>
      if parsed.headerLenOk bytes.length then .layer p.name parsed false else .stop .pluginError
  | .error err => .stop (routeFailure err)

/-- `if let Ok(parsed) = p.parse(..)` guarded by `header_len_ok`: the parse, where it is usable. -/
def accepted (p : LayerPlugin) (bytes : List UInt8) (ctx : ParseCtx) : Option ParsedLayer :=
  match p.parse bytes ctx with
  | .ok parsed => if parsed.headerLenOk bytes.length then some parsed else none
  | .error _ => none

/-- The score of one pool plugin: its probe, with the predecessor prior applied. -/
def boostedScore (p : LayerPlugin) (bytes : List UInt8) (ctx : ParseCtx) : Option Nat :=
  (p.probe bytes ctx).map fun confidence =>
    if ctx.prev.any fun prev => p.expectedPredecessors.contains prev.protocol then
      min (min (confidence.score + priorBoost) 255) 100
    else confidence.score

namespace Engine

/-- `Engine::score_fallback_pool`. -/
def scoreFallbackPool (e : Engine) (bytes : List UInt8) (ctx : ParseCtx) : List (Nat × LayerPlugin) :=
  e.fallbackPool.filterMap fun p => (boostedScore p bytes ctx).map fun score => (score, p)

end Engine

/-- The index of the highest score, the earliest on ties. -/
def bestIndex (candidates : List (Nat × LayerPlugin)) : Nat :=
  candidates.zipIdx.foldl
    (fun best x => if ((candidates[best]?.map Prod.fst).getD 0) < x.1.1 then x.2 else best) 0

/-- The selection loop of `heuristic_fallback`: the best candidate is taken out and tried, at most
once each. The fuel is the number of candidates. -/
def selectWinner (bytes : List UInt8) (ctx : ParseCtx) :
    Nat → List (Nat × LayerPlugin) → Option (ProtocolName × ParsedLayer)
  | 0, _ => none
  | fuel + 1, candidates =>
      match candidates[bestIndex candidates]? with
      | none => none
      | some (_, p) =>
          match accepted p bytes ctx with
          | some parsed => some (p.name, parsed)
          | none => selectWinner bytes ctx fuel (candidates.eraseIdx (bestIndex candidates))

/-- The first candidate, in rank order, whose parse is usable. -/
def firstAccepted (bytes : List UInt8) (ctx : ParseCtx) : List LayerPlugin → StepOutcome
  | [] => .stop .pluginError
  | p :: ps =>
      match accepted p bytes ctx with
      | some parsed => .layer p.name parsed false
      | none => firstAccepted bytes ctx ps

namespace Engine

/-- `Engine::heuristic_fallback`. -/
def heuristicFallback (e : Engine) (bytes : List UInt8) (ctx : ParseCtx) :
    Option (ProtocolName × ParsedLayer) :=
  let candidates := (e.scoreFallbackPool bytes ctx).filter fun x => minConfidence ≤ x.1
  selectWinner bytes ctx candidates.length candidates

/-- The outcome of a fallback: its winner, or an unknown stop. -/
def fallbackOutcome (e : Engine) (bytes : List UInt8) (ctx : ParseCtx) : StepOutcome :=
  match e.heuristicFallback bytes ctx with
  | some (protocol, parsed) => .layer protocol parsed true
  | none => .stop .unknownHint

/-- The `Candidates` row of the table. -/
def resolveCandidates (e : Engine) (ids : List RouteId) (bytes : List UInt8) (ctx : ParseCtx) :
    StepOutcome :=
  let claimed := ids.filterMap e.pluginForRoute
  if claimed.isEmpty then
    match ids.head? with
    | some first => .stop (.unclaimedRoute first)
    | none => .stop .pluginError
  else firstAccepted bytes ctx claimed

/-- The `ByProtocol` row of the table. -/
def resolveByProtocol (e : Engine) (name : ProtocolName) (bytes : List UInt8) (ctx : ParseCtx) :
    StepOutcome :=
  match e.pluginByName name with
  | none => .stop (.unclaimedRoute (.custom name 0))
  | some p =>
      match accepted p bytes ctx with
      | some parsed => .layer p.name parsed false
      | none => .stop .pluginError

/-- `Engine::resolve_next`: the decision table. -/
def resolveNext (e : Engine) (hint : Hint) (bytes : List UInt8) (ctx : ParseCtx) : StepOutcome :=
  if bytes.isEmpty then .stop .complete
  else
    match hint with
    | .terminal => .stop .terminal
    | .route id =>
        match e.pluginForRoute id with
        | none => .stop (.unclaimedRoute id)
        | some p => dispatchExplicit p bytes ctx
    | .candidates ids => e.resolveCandidates ids bytes ctx
    | .byProtocol name => e.resolveByProtocol name bytes ctx
    | .unknown => e.fallbackOutcome bytes ctx

end Engine

/-! ## What an outcome guarantees -/

/-- What every resolver guarantees about the bytes it was offered: a layer fits in them, and only an
empty payload completes the walk. -/
def StepOutcome.Sound (bytes : List UInt8) : StepOutcome → Prop
  | .layer _ parsed _ => bytes ≠ [] ∧ parsed.headerLen ≤ bytes.length
  | .stop reason => (reason = .complete ↔ bytes = []) ∧ reason ≠ .depthCap

/-- `p` parses the bytes and its header fits in them. -/
structure Parses (p : LayerPlugin) (bytes : List UInt8) (ctx : ParseCtx) (parsed : ParsedLayer) :
    Prop where
  parse : p.parse bytes ctx = .ok parsed
  fits : parsed.headerLen ≤ bytes.length

theorem accepted_eq_some_iff {p : LayerPlugin} {bytes : List UInt8} {ctx : ParseCtx}
    {parsed : ParsedLayer} : accepted p bytes ctx = some parsed ↔ Parses p bytes ctx parsed := by
  rw [accepted]
  constructor
  · intro h
    cases hp : p.parse bytes ctx with
    | error err => simp [hp] at h
    | ok out =>
        simp only [hp, Option.ite_none_right_eq_some, Option.some.injEq] at h
        obtain ⟨hok, rfl⟩ := h
        exact ⟨hp, by simpa [ParsedLayer.headerLenOk] using hok⟩
  · intro h
    simp [h.parse, ParsedLayer.headerLenOk, h.fits]

theorem accepted_eq_none_iff {p : LayerPlugin} {bytes : List UInt8} {ctx : ParseCtx} :
    accepted p bytes ctx = none ↔ ∀ parsed, ¬ Parses p bytes ctx parsed := by
  constructor
  · intro h parsed hp
    rw [accepted_eq_some_iff.2 hp] at h
    cases h
  · intro h
    cases ha : accepted p bytes ctx with
    | none => rfl
    | some parsed => exact absurd (accepted_eq_some_iff.1 ha) (h parsed)

/-! ## Explicit dispatch -/

section Dispatch

variable {p : LayerPlugin} {bytes : List UInt8} {ctx : ParseCtx}

theorem dispatchExplicit_layer {protocol : ProtocolName} {parsed : ParsedLayer} {heuristic : Bool}
    (h : dispatchExplicit p bytes ctx = .layer protocol parsed heuristic) :
    protocol = p.name ∧ heuristic = false ∧ Parses p bytes ctx parsed := by
  rw [dispatchExplicit] at h
  cases hp : p.parse bytes ctx with
  | error err => simp [hp] at h
  | ok out =>
      rw [hp] at h
      by_cases hok : out.headerLenOk bytes.length = true
      · simp only [hok, if_true, StepOutcome.layer.injEq] at h
        obtain ⟨rfl, rfl, rfl⟩ := h
        exact ⟨rfl, rfl, hp, by simpa [ParsedLayer.headerLenOk] using hok⟩
      · simp [hok] at h

theorem routeFailure_ne (err : ParseError) :
    routeFailure err ≠ .complete ∧ routeFailure err ≠ .depthCap := by
  cases err <;> simp [routeFailure]

theorem dispatchExplicit_stop {reason : StopReason}
    (h : dispatchExplicit p bytes ctx = .stop reason) : reason ≠ .complete ∧ reason ≠ .depthCap := by
  rw [dispatchExplicit] at h
  cases hp : p.parse bytes ctx with
  | error err =>
      simp only [hp, StepOutcome.stop.injEq] at h
      subst h
      exact routeFailure_ne err
  | ok out =>
      rw [hp] at h
      by_cases hok : out.headerLenOk bytes.length = true
      · simp [hok] at h
      · simp only [hok, Bool.false_eq_true, if_false, StepOutcome.stop.injEq] at h
        subst h
        simp

end Dispatch

/-! ## The fallback pool -/

section Fallback

variable {e : Engine} {bytes : List UInt8} {ctx : ParseCtx}

/-- A pool plugin that may parse unannounced bytes: its boosted score reaches the floor. -/
structure Fallback (e : Engine) (bytes : List UInt8) (ctx : ParseCtx) (p : LayerPlugin)
    (parsed : ParsedLayer) : Prop where
  pool : p ∈ e.fallbackPool
  score : ∃ score, boostedScore p bytes ctx = some score ∧ minConfidence ≤ score
  parses : Parses p bytes ctx parsed

theorem selectWinner_eq_some {fuel : Nat} {candidates : List (Nat × LayerPlugin)}
    {protocol : ProtocolName} {parsed : ParsedLayer}
    (h : selectWinner bytes ctx fuel candidates = some (protocol, parsed)) :
    ∃ score p, (score, p) ∈ candidates ∧ protocol = p.name ∧ Parses p bytes ctx parsed := by
  induction fuel generalizing candidates with
  | zero => cases h
  | succ fuel ih =>
      rw [selectWinner] at h
      cases hbest : candidates[bestIndex candidates]? with
      | none => simp [hbest] at h
      | some best =>
          obtain ⟨score, p⟩ := best
          rw [hbest] at h
          cases ha : accepted p bytes ctx with
          | some out =>
              simp only [ha, Option.some.injEq, Prod.mk.injEq] at h
              obtain ⟨rfl, rfl⟩ := h
              exact ⟨score, p, List.mem_of_getElem? hbest, rfl, accepted_eq_some_iff.1 ha⟩
          | none =>
              -- the failed winner is dropped and the rest is searched
              simp only [ha] at h
              obtain ⟨score', q, hq, hname, hparse⟩ := ih h
              exact ⟨score', q, List.mem_of_mem_eraseIdx hq, hname, hparse⟩

theorem heuristicFallback_eq_some {protocol : ProtocolName} {parsed : ParsedLayer}
    (h : e.heuristicFallback bytes ctx = some (protocol, parsed)) :
    ∃ p, protocol = p.name ∧ Fallback e bytes ctx p parsed := by
  obtain ⟨score, p, hmem, hname, hparse⟩ := selectWinner_eq_some h
  obtain ⟨hscored, hfloor⟩ := List.mem_filter.1 hmem
  rw [Engine.scoreFallbackPool] at hscored
  obtain ⟨q, hq, hscore⟩ := List.mem_filterMap.1 hscored
  rw [Option.map_eq_some_iff] at hscore
  obtain ⟨score', hboost, heq⟩ := hscore
  cases heq
  exact ⟨p, hname, hq, ⟨score, hboost, by simpa using hfloor⟩, hparse⟩

theorem fallbackOutcome_layer {protocol : ProtocolName} {parsed : ParsedLayer} {heuristic : Bool}
    (h : e.fallbackOutcome bytes ctx = .layer protocol parsed heuristic) :
    heuristic = true ∧ ∃ p, protocol = p.name ∧ Fallback e bytes ctx p parsed := by
  rw [Engine.fallbackOutcome] at h
  cases hf : e.heuristicFallback bytes ctx with
  | none => simp [hf] at h
  | some winner =>
      obtain ⟨name, out⟩ := winner
      simp only [hf, StepOutcome.layer.injEq] at h
      obtain ⟨rfl, rfl, rfl⟩ := h
      exact ⟨rfl, heuristicFallback_eq_some hf⟩

theorem fallbackOutcome_stop {reason : StopReason}
    (h : e.fallbackOutcome bytes ctx = .stop reason) : reason = .unknownHint := by
  rw [Engine.fallbackOutcome] at h
  cases hf : e.heuristicFallback bytes ctx with
  | some winner => simp [hf] at h
  | none =>
      simp only [hf, StepOutcome.stop.injEq] at h
      exact h.symm

end Fallback

/-! ## The decision table -/

section Table

variable {e : Engine} {bytes : List UInt8} {ctx : ParseCtx}

/-- Which plugin may parse the bytes after a hint, and whether it is a guess. A candidate is licensed
when no claimed candidate ranked before it has a usable parse. -/
inductive Licensed (e : Engine) (bytes : List UInt8) (ctx : ParseCtx) :
    Hint → LayerPlugin → ParsedLayer → Bool → Prop where
  | route {id : RouteId} {p : LayerPlugin} {parsed : ParsedLayer}
      (claimed : e.pluginForRoute id = some p) (parses : Parses p bytes ctx parsed) :
      Licensed e bytes ctx (.route id) p parsed false
  | candidate {before after : List RouteId} {id : RouteId} {p : LayerPlugin} {parsed : ParsedLayer}
      (claimed : e.pluginForRoute id = some p) (parses : Parses p bytes ctx parsed)
      (first : ∀ id' ∈ before, ∀ q, e.pluginForRoute id' = some q → ∀ out, ¬ Parses q bytes ctx out) :
      Licensed e bytes ctx (.candidates (before ++ id :: after)) p parsed false
  | byProtocol {name : ProtocolName} {p : LayerPlugin} {parsed : ParsedLayer}
      (named : e.pluginByName name = some p) (parses : Parses p bytes ctx parsed) :
      Licensed e bytes ctx (.byProtocol name) p parsed false
  | fallback {p : LayerPlugin} {parsed : ParsedLayer} (guess : Fallback e bytes ctx p parsed) :
      Licensed e bytes ctx .unknown p parsed true

/-- The hint names what follows, and nothing it names is registered. -/
def NamesOnlyUnclaimed (e : Engine) : Hint → Prop
  | .route id => e.pluginForRoute id = none
  | .candidates ids => ∀ id ∈ ids, e.pluginForRoute id = none
  | .byProtocol name => e.pluginByName name = none
  | .unknown | .terminal => False

theorem firstAccepted_layer {ids : List RouteId} {protocol : ProtocolName} {parsed : ParsedLayer}
    {heuristic : Bool}
    (h : firstAccepted bytes ctx (ids.filterMap e.pluginForRoute) = .layer protocol parsed heuristic) :
    ∃ p, protocol = p.name ∧ Licensed e bytes ctx (.candidates ids) p parsed heuristic := by
  -- `before` collects the candidates already passed over
  suffices hgen : ∀ before : List RouteId,
      (∀ id ∈ before, ∀ q, e.pluginForRoute id = some q → ∀ out, ¬ Parses q bytes ctx out) →
      ∃ p, protocol = p.name ∧
        Licensed e bytes ctx (.candidates (before ++ ids)) p parsed heuristic by
    exact hgen [] (by simp)
  induction ids with
  | nil => simp [firstAccepted] at h
  | cons id ids ih =>
      intro before hbefore
      -- a candidate that does not parse joins those passed over
      have hpass : (∀ q, e.pluginForRoute id = some q → ∀ out, ¬ Parses q bytes ctx out) →
          firstAccepted bytes ctx (ids.filterMap e.pluginForRoute) = .layer protocol parsed heuristic →
          ∃ p, protocol = p.name ∧
            Licensed e bytes ctx (.candidates (before ++ id :: ids)) p parsed heuristic := by
        intro hid hrest
        have hskip : before ++ id :: ids = (before ++ [id]) ++ ids := by simp
        rw [hskip]
        apply ih hrest
        intro id' hid' q hq
        rcases List.mem_append.1 hid' with hmem | hmem
        · exact hbefore id' hmem q hq
        · rw [List.mem_singleton.1 hmem] at hq
          exact hid q hq
      cases hid : e.pluginForRoute id with
      | none =>
          rw [List.filterMap_cons_none hid] at h
          apply hpass _ h
          intro q hq
          rw [hid] at hq
          cases hq
      | some p =>
          rw [List.filterMap_cons_some hid] at h
          rw [firstAccepted] at h
          cases ha : accepted p bytes ctx with
          | some out =>
              simp only [ha, StepOutcome.layer.injEq] at h
              obtain ⟨rfl, rfl, rfl⟩ := h
              exact ⟨p, rfl, Licensed.candidate hid (accepted_eq_some_iff.1 ha) hbefore⟩
          | none =>
              simp only [ha] at h
              apply hpass _ h
              intro q hq
              rw [hid] at hq
              obtain rfl := Option.some.inj hq
              exact accepted_eq_none_iff.1 ha

theorem resolveCandidates_layer {ids : List RouteId} {protocol : ProtocolName} {parsed : ParsedLayer}
    {heuristic : Bool} (h : e.resolveCandidates ids bytes ctx = .layer protocol parsed heuristic) :
    ∃ p, protocol = p.name ∧ Licensed e bytes ctx (.candidates ids) p parsed heuristic := by
  rw [Engine.resolveCandidates] at h
  by_cases hempty : (ids.filterMap e.pluginForRoute).isEmpty = true
  · cases hhead : ids.head? <;> simp [hempty, hhead] at h
  · simp only [hempty] at h
    exact firstAccepted_layer h

theorem resolveByProtocol_layer {name protocol : ProtocolName} {parsed : ParsedLayer}
    {heuristic : Bool} (h : e.resolveByProtocol name bytes ctx = .layer protocol parsed heuristic) :
    ∃ p, protocol = p.name ∧ Licensed e bytes ctx (.byProtocol name) p parsed heuristic := by
  rw [Engine.resolveByProtocol] at h
  cases hp : e.pluginByName name with
  | none => simp [hp] at h
  | some p =>
      rw [hp] at h
      cases ha : accepted p bytes ctx with
      | none => simp [ha] at h
      | some out =>
          simp only [ha, StepOutcome.layer.injEq] at h
          obtain ⟨rfl, rfl, rfl⟩ := h
          exact ⟨p, rfl, Licensed.byProtocol hp (accepted_eq_some_iff.1 ha)⟩

/-- Every layer the table yields is licensed by the hint it was resolved from. -/
theorem resolveNext_licensed {hint : Hint} {protocol : ProtocolName} {parsed : ParsedLayer}
    {heuristic : Bool} (h : e.resolveNext hint bytes ctx = .layer protocol parsed heuristic) :
    ∃ p, protocol = p.name ∧ Licensed e bytes ctx hint p parsed heuristic := by
  unfold Engine.resolveNext at h
  by_cases hbytes : bytes.isEmpty = true
  · simp [hbytes] at h
  · simp only [hbytes] at h
    cases hint with
    | terminal => simp at h
    | route id =>
        cases hid : e.pluginForRoute id with
        | none => simp [hid] at h
        | some p =>
            simp only [hid] at h
            obtain ⟨rfl, rfl, hparse⟩ := dispatchExplicit_layer h
            exact ⟨p, rfl, Licensed.route hid hparse⟩
    | candidates ids => exact resolveCandidates_layer h
    | byProtocol name => exact resolveByProtocol_layer h
    | unknown =>
        obtain ⟨rfl, p, hname, hp⟩ := fallbackOutcome_layer h
        exact ⟨p, hname, Licensed.fallback hp⟩

theorem Licensed.parses {hint : Hint} {p : LayerPlugin} {parsed : ParsedLayer} {heuristic : Bool}
    (h : Licensed e bytes ctx hint p parsed heuristic) : Parses p bytes ctx parsed := by
  cases h with
  | route _ parses => exact parses
  | candidate _ parses _ => exact parses
  | byProtocol _ parses => exact parses
  | fallback guess => exact guess.parses

theorem firstAccepted_stop {plugins : List LayerPlugin} {reason : StopReason}
    (h : firstAccepted bytes ctx plugins = .stop reason) : reason = .pluginError := by
  induction plugins with
  | nil =>
      simp only [firstAccepted, StepOutcome.stop.injEq] at h
      exact h.symm
  | cons p ps ih =>
      rw [firstAccepted] at h
      cases ha : accepted p bytes ctx with
      | some out => simp [ha] at h
      | none =>
          simp only [ha] at h
          exact ih h

/-- A stop of the `Candidates` row is the gate or a plugin error. -/
theorem resolveCandidates_stop {ids : List RouteId} {reason : StopReason}
    (h : e.resolveCandidates ids bytes ctx = .stop reason) :
    reason ≠ .complete ∧ reason ≠ .depthCap := by
  rw [Engine.resolveCandidates] at h
  by_cases hempty : (ids.filterMap e.pluginForRoute).isEmpty = true
  · cases hhead : ids.head? with
    | none =>
        simp only [hempty, if_true, hhead, StepOutcome.stop.injEq] at h
        subst h
        simp
    | some first =>
        simp only [hempty, if_true, hhead, StepOutcome.stop.injEq] at h
        subst h
        simp
  · simp only [hempty] at h
    rw [firstAccepted_stop h]
    simp

theorem resolveByProtocol_stop {name : ProtocolName} {reason : StopReason}
    (h : e.resolveByProtocol name bytes ctx = .stop reason) :
    reason ≠ .complete ∧ reason ≠ .depthCap := by
  rw [Engine.resolveByProtocol] at h
  cases hp : e.pluginByName name with
  | none =>
      simp only [hp, StepOutcome.stop.injEq] at h
      subst h
      simp
  | some p =>
      rw [hp] at h
      cases ha : accepted p bytes ctx with
      | some out => simp [ha] at h
      | none =>
          simp only [ha, StepOutcome.stop.injEq] at h
          subst h
          simp

/-- An outcome is sound on a payload once its layers fit and its stops are neither `Complete` nor
`DepthCap`. -/
theorem sound_of_nonempty {outcome : StepOutcome} (hbytes : bytes ≠ [])
    (hlayer : ∀ protocol parsed heuristic, outcome = .layer protocol parsed heuristic →
      parsed.headerLen ≤ bytes.length)
    (hstop : ∀ reason, outcome = .stop reason → reason ≠ .complete ∧ reason ≠ .depthCap) :
    outcome.Sound bytes := by
  cases outcome with
  | layer protocol parsed heuristic => exact ⟨hbytes, hlayer protocol parsed heuristic rfl⟩
  | stop reason =>
      obtain ⟨hcomplete, hcap⟩ := hstop reason rfl
      exact ⟨iff_of_false hcomplete hbytes, hcap⟩

/-- Every outcome of the table is sound on the bytes it was offered. -/
theorem resolveNext_sound (e : Engine) (hint : Hint) (bytes : List UInt8) (ctx : ParseCtx) :
    (e.resolveNext hint bytes ctx).Sound bytes := by
  by_cases hbytes : bytes = []
  · subst hbytes
    exact ⟨iff_of_true rfl rfl, by simp⟩
  · have hne : bytes.isEmpty = false := by simpa using hbytes
    apply sound_of_nonempty hbytes
    · intro protocol parsed heuristic h
      obtain ⟨p, -, hlic⟩ := resolveNext_licensed h
      exact hlic.parses.fits
    · intro reason h
      unfold Engine.resolveNext at h
      simp only [hne] at h
      cases hint with
      | terminal =>
          simp only [Bool.false_eq_true, if_false, StepOutcome.stop.injEq] at h
          subst h
          simp
      | route id =>
          cases hid : e.pluginForRoute id with
          | none =>
              simp only [hid, Bool.false_eq_true, if_false, StepOutcome.stop.injEq] at h
              subst h
              simp
          | some p =>
              simp only [hid] at h
              exact dispatchExplicit_stop h
      | candidates ids => exact resolveCandidates_stop h
      | byProtocol name => exact resolveByProtocol_stop h
      | unknown =>
          rw [fallbackOutcome_stop h]
          simp

end Table

end Pktflow.Core

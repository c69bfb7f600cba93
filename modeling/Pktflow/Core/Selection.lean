import Pktflow.Core.Parser
import Pktflow.Core.Registry
import Pktflow.Lib.KeySort
import Mathlib.Data.List.Induction

/-!
# Which plugins a resolution parses with

`resolve_next` with the calls of `parse` written down: each resolver returns, beside its outcome, the plugins
it called, in order. The fallback pool is searched in the order of a stable sort by score, so its calls are
the first plugins of one ranking (`fallback_selects`). The `Candidates` row tries the claimed plugins id by
id, and so a plugin that claims two of the ids twice (`tried_once_iff`).
-/

set_option autoImplicit false

namespace Pktflow.Core

open Pktflow.Lib

/-! ## Calls written down -/

/-- The loop of `heuristic_fallback`, with its calls. -/
def selectWinnerCalls (bytes : List UInt8) (ctx : ParseCtx) :
    Nat → List (Nat × LayerPlugin) → List LayerPlugin × Option (ProtocolName × ParsedLayer)
  | 0, _ => ([], none)
  | fuel + 1, candidates =>
      match candidates[bestIndex candidates]? with
      | none => ([], none)
      | some (_, p) =>
          match accepted p bytes ctx with
          | some parsed => ([p], some (p.name, parsed))
          | none =>
              let rest := selectWinnerCalls bytes ctx fuel (candidates.eraseIdx (bestIndex candidates))
              (p :: rest.1, rest.2)

/-- The loop over claimed candidates, with its calls. -/
def firstAcceptedCalls (bytes : List UInt8) (ctx : ParseCtx) : List LayerPlugin → List LayerPlugin × StepOutcome
  | [] => ([], .stop .pluginError)
  | p :: ps =>
      match accepted p bytes ctx with
      | some parsed => ([p], .layer p.name parsed false)
      | none =>
          let rest := firstAcceptedCalls bytes ctx ps
          (p :: rest.1, rest.2)

namespace Engine

/-- `Engine::heuristic_fallback`, with its calls. -/
def heuristicFallbackCalls (e : Engine) (bytes : List UInt8) (ctx : ParseCtx) :
    List LayerPlugin × Option (ProtocolName × ParsedLayer) :=
  let candidates := (e.scoreFallbackPool bytes ctx).filter fun x => minConfidence ≤ x.1
  selectWinnerCalls bytes ctx candidates.length candidates

/-- The `Candidates` row, with its calls. -/
def resolveCandidatesCalls (e : Engine) (ids : List RouteId) (bytes : List UInt8) (ctx : ParseCtx) :
    List LayerPlugin × StepOutcome :=
  let claimed := ids.filterMap e.pluginForRoute
  if claimed.isEmpty then
    match ids.head? with
    | some first => ([], .stop (.unclaimedRoute first))
    | none => ([], .stop .pluginError)
  else firstAcceptedCalls bytes ctx claimed

/-- `Engine::resolve_next`, with its calls. -/
def resolveNextCalls (e : Engine) (hint : Hint) (bytes : List UInt8) (ctx : ParseCtx) :
    List LayerPlugin × StepOutcome :=
  if bytes.isEmpty then ([], .stop .complete)
  else
    match hint with
    | .terminal => ([], .stop .terminal)
    | .route id =>
        match e.pluginForRoute id with
        | none => ([], .stop (.unclaimedRoute id))
        | some p => ([p], dispatchExplicit p bytes ctx)
    | .candidates ids => e.resolveCandidatesCalls ids bytes ctx
    | .byProtocol name =>
        match e.pluginByName name with
        | none => ([], .stop (.unclaimedRoute (.custom name 0)))
        | some p =>
            match accepted p bytes ctx with
            | some parsed => ([p], .layer p.name parsed false)
            | none => ([p], .stop .pluginError)
    | .unknown =>
        let found := e.heuristicFallbackCalls bytes ctx
        match found.2 with
        | some (protocol, parsed) => (found.1, .layer protocol parsed true)
        | none => (found.1, .stop .unknownHint)

end Engine

section Outcome

variable {bytes : List UInt8} {ctx : ParseCtx}

theorem selectWinnerCalls_snd (fuel : Nat) (candidates : List (Nat × LayerPlugin)) :
    (selectWinnerCalls bytes ctx fuel candidates).2 = selectWinner bytes ctx fuel candidates := by
  induction fuel generalizing candidates with
  | zero => rfl
  | succ fuel ih =>
      rw [selectWinnerCalls, selectWinner]
      cases candidates[bestIndex candidates]? with
      | none => rfl
      | some x =>
          dsimp only
          cases accepted x.2 bytes ctx with
          | some parsed => rfl
          | none => exact ih _

theorem firstAcceptedCalls_snd (ps : List LayerPlugin) :
    (firstAcceptedCalls bytes ctx ps).2 = firstAccepted bytes ctx ps := by
  induction ps with
  | nil => rfl
  | cons p ps ih =>
      rw [firstAcceptedCalls, firstAccepted]
      cases accepted p bytes ctx with
      | some parsed => rfl
      | none => exact ih

theorem resolveCandidatesCalls_snd (e : Engine) (ids : List RouteId) :
    (e.resolveCandidatesCalls ids bytes ctx).2 = e.resolveCandidates ids bytes ctx := by
  unfold Engine.resolveCandidatesCalls Engine.resolveCandidates
  dsimp only
  split
  · cases ids.head? <;> rfl
  · exact firstAcceptedCalls_snd _

/-- The outcome is that of `resolve_next`. -/
theorem resolveNextCalls_snd (e : Engine) (hint : Hint) :
    (e.resolveNextCalls hint bytes ctx).2 = e.resolveNext hint bytes ctx := by
  unfold Engine.resolveNextCalls Engine.resolveNext
  cases bytes.isEmpty with
  | true => rfl
  | false =>
      simp only [Bool.false_eq_true, if_false]
      cases hint with
      | terminal => rfl
      | route id =>
          dsimp only
          cases e.pluginForRoute id <;> rfl
      | candidates ids => exact resolveCandidatesCalls_snd e ids
      | byProtocol name =>
          dsimp only
          rw [Engine.resolveByProtocol]
          cases e.pluginByName name with
          | none => rfl
          | some p =>
              dsimp only
              cases accepted p bytes ctx <;> rfl
      | unknown =>
          have hsnd : (e.heuristicFallbackCalls bytes ctx).2 = e.heuristicFallback bytes ctx :=
            selectWinnerCalls_snd _ _
          dsimp only
          rw [Engine.fallbackOutcome]
          rw [hsnd]
          cases e.heuristicFallback bytes ctx <;> rfl

end Outcome

/-! ## The ranking of the pool -/

/-- The score of a candidate. -/
def scoreAt (candidates : List (Nat × LayerPlugin)) (i : Nat) : Nat := (candidates[i]?.map Prod.fst).getD 0

/-- The best index among the first `k`: no score there is higher, and the earlier ones are lower. -/
def BestOf (candidates : List (Nat × LayerPlugin)) (k best : Nat) : Prop :=
  best ≤ k - 1 ∧ ∀ i < k, scoreAt candidates i ≤ scoreAt candidates best ∧
    (i < best → scoreAt candidates i < scoreAt candidates best)

section Ranking

variable {candidates : List (Nat × LayerPlugin)} {bytes : List UInt8} {ctx : ParseCtx}

theorem bestOf_take {k : Nat} (hk : k ≤ candidates.length) :
    BestOf candidates k ((candidates.zipIdx.take k).foldl
      (fun best x => if scoreAt candidates best < x.1.1 then x.2 else best) 0) := by
  induction k with
  | zero => exact ⟨Nat.le_refl _, fun i hi => absurd hi (Nat.not_lt_zero i)⟩
  | succ k ih =>
      obtain ⟨hle, hbest⟩ := ih (by omega)
      have hk' : k < candidates.zipIdx.length := by
        rw [List.length_zipIdx]
        omega
      have hget : candidates.zipIdx[k] = (candidates[k], k) := by simp
      have hscore : candidates[k].1 = scoreAt candidates k := by
        rw [scoreAt, List.getElem?_eq_getElem (by omega)]
        rfl
      rw [List.take_add_one, List.getElem?_eq_getElem hk', hget, List.foldl_append]
      generalize (candidates.zipIdx.take k).foldl
        (fun best x => if scoreAt candidates best < x.1.1 then x.2 else best) 0 = best at hle hbest ⊢
      simp only [Option.toList_some, List.foldl_cons, List.foldl_nil, hscore]
      by_cases hlt : scoreAt candidates best < scoreAt candidates k
      · -- a higher score takes over
        rw [if_pos hlt]
        refine ⟨by omega, fun i hi => ?_⟩
        rcases Nat.lt_succ_iff_lt_or_eq.1 hi with hi | rfl
        · have := (hbest i hi).1
          omega
        · omega
      · rw [if_neg hlt]
        refine ⟨by omega, fun i hi => ?_⟩
        rcases Nat.lt_succ_iff_lt_or_eq.1 hi with hi | rfl
        · exact hbest i hi
        · omega

theorem bestOf_bestIndex (candidates : List (Nat × LayerPlugin)) :
    BestOf candidates candidates.length (bestIndex candidates) := by
  have htake := bestOf_take (Nat.le_refl candidates.length)
  rw [List.take_of_length_le (by simp)] at htake
  exact htake

/-- The order of the search: by descending score, in registration order on ties. -/
def byScore (x : Nat × LayerPlugin) : ℕᵒᵈ := OrderDual.toDual x.1

/-- The loop takes out the first of the ranking. -/
theorem ranking_bestIndex (hne : candidates ≠ []) :
    ∃ x, candidates[bestIndex candidates]? = some x ∧
      sortByKey byScore candidates = x :: sortByKey byScore (candidates.eraseIdx (bestIndex candidates)) := by
  obtain ⟨hle, hbest⟩ := bestOf_bestIndex candidates
  have hpos : 0 < candidates.length := List.length_pos_iff.2 hne
  have hlt : bestIndex candidates < candidates.length := by omega
  have hscore : ∀ i (hi : i < candidates.length), candidates[i].1 = scoreAt candidates i := by
    intro i hi
    rw [scoreAt, List.getElem?_eq_getElem hi]
    rfl
  refine ⟨candidates[bestIndex candidates], List.getElem?_eq_getElem hlt, ?_⟩
  have hsplit : candidates = candidates.take (bestIndex candidates) ++
      candidates[bestIndex candidates] :: candidates.drop (bestIndex candidates + 1) := by
    rw [List.cons_getElem_drop_succ, List.take_append_drop]
  rw [List.eraseIdx_eq_take_drop_succ]
  conv_lhs => rw [hsplit]
  apply sortByKey_first
  · intro y hy
    obtain ⟨i, hi, rfl⟩ := List.mem_take_iff_getElem.1 hy
    have hib := (hbest i (by omega)).2 (by omega)
    show candidates[i].1 < candidates[bestIndex candidates].1
    rw [hscore i (by omega), hscore _ hlt]
    exact hib
  · intro y hy
    obtain ⟨i, hi, rfl⟩ := List.mem_drop_iff_getElem.1 hy
    have hib := (hbest (i + (bestIndex candidates + 1)) (by omega)).1
    show candidates[bestIndex candidates + 1 + i].1 ≤ candidates[bestIndex candidates].1
    rw [hscore _ hlt, hscore _ (by omega), Nat.add_comm]
    exact hib

/-- The usable parse of a ranked candidate. -/
def winner (bytes : List UInt8) (ctx : ParseCtx) (x : Nat × LayerPlugin) : Option (ProtocolName × ParsedLayer) :=
  (accepted x.2 bytes ctx).map fun parsed => (x.2.name, parsed)

/-- The loop returns the first winner of the ranking, and calls the plugins of the ranking up to it. -/
theorem selectWinnerCalls_ranking (fuel : Nat) (hfuel : candidates.length ≤ fuel) :
    (selectWinnerCalls bytes ctx fuel candidates).2 =
        (sortByKey byScore candidates).findSome? (winner bytes ctx) ∧
      (selectWinnerCalls bytes ctx fuel candidates).1 <+: (sortByKey byScore candidates).map Prod.snd := by
  induction fuel generalizing candidates with
  | zero =>
      obtain rfl := List.eq_nil_of_length_eq_zero (Nat.le_zero.1 hfuel)
      exact ⟨rfl, List.nil_prefix⟩
  | succ fuel ih =>
      by_cases hne : candidates = []
      · subst hne
        exact ⟨rfl, List.nil_prefix⟩
      · obtain ⟨x, hx, hrank⟩ := ranking_bestIndex hne
        have hlt : bestIndex candidates < candidates.length := (List.getElem?_eq_some_iff.1 hx).1
        have hlen : (candidates.eraseIdx (bestIndex candidates)).length ≤ fuel := by
          rw [List.length_eraseIdx_of_lt hlt]
          omega
        obtain ⟨hsnd, hfst⟩ := ih hlen
        rw [selectWinnerCalls, hx, hrank]
        dsimp only
        cases ha : accepted x.2 bytes ctx with
        | some parsed =>
            refine ⟨?_, ?_⟩
            · rw [List.findSome?_cons, winner, ha]
              rfl
            · rw [List.map_cons]
              exact List.prefix_cons_inj x.2 |>.2 List.nil_prefix
        | none =>
            refine ⟨?_, ?_⟩
            · rw [List.findSome?_cons, winner, ha]
              exact hsnd
            · rw [List.map_cons]
              exact List.prefix_cons_inj x.2 |>.2 hfst

end Ranking

/-! ## Plugins are known by their names -/

section Names

variable (e : Engine) {bytes : List UInt8} {ctx : ParseCtx}

theorem filterMap_range {α : Type} (l : List α) : (List.range l.length).filterMap (fun i => l[i]?) = l := by
  induction l using List.reverseRecOn with
  | nil => rfl
  | append_singleton l x ih =>
      have hleft : (List.range l.length).filterMap (fun i => (l ++ [x])[i]?) = l := by
        conv_rhs => rw [← ih]
        apply List.filterMap_congr
        intro j hj
        exact List.getElem?_append_left (by simpa using hj)
      rw [List.length_append, List.length_singleton, List.range_succ, List.filterMap_append, hleft]
      simp

theorem Engine.names_nodup : (e.registry.plugins.map LayerPlugin.name).Nodup := by
  obtain ⟨b, hb⟩ := e.built
  have hnames := ((EngineBuilder.build_ok_iff b).1 ⟨_, hb⟩).names
  obtain ⟨byName, claims, -, -, -, -, -, hr⟩ := EngineBuilder.build_eq_ok.1 hb
  rw [hr]
  exact hnames

theorem Engine.pool_sublist : e.fallbackPool.Sublist e.registry.plugins := by
  obtain ⟨b, hb⟩ := e.built
  obtain ⟨byName, claims, -, -, -, -, -, hr⟩ := EngineBuilder.build_eq_ok.1 hb
  rw [Engine.fallbackPool]
  rw [hr]
  have hsub : (EngineBuilder.probePool b.plugins).Sublist (List.range b.plugins.length) := List.filter_sublist
  replace hsub := hsub.filterMap fun i => b.plugins[i]?
  rw [filterMap_range] at hsub
  exact hsub

theorem Engine.pool_names_nodup : (e.fallbackPool.map LayerPlugin.name).Nodup :=
  (e.pool_sublist.map LayerPlugin.name).nodup e.names_nodup

theorem Engine.scored_sublist : ((e.scoreFallbackPool bytes ctx).map Prod.snd).Sublist e.fallbackPool := by
  rw [Engine.scoreFallbackPool]
  induction e.fallbackPool with
  | nil => exact List.Sublist.slnil
  | cons p ps ih =>
      cases hscore : boostedScore p bytes ctx with
      | none =>
          rw [List.filterMap_cons_none (by rw [hscore]; rfl)]
          exact ih.cons p
      | some score =>
          rw [List.filterMap_cons_some (b := (score, p)) (by rw [hscore]; rfl)]
          exact ih.cons_cons p

end Names

/-! ## The fallback -/

namespace Engine

/-- The scored pool by descending score, in registration order on ties. -/
def ranking (e : Engine) (bytes : List UInt8) (ctx : ParseCtx) : List (Nat × LayerPlugin) :=
  sortByKey byScore (e.scoreFallbackPool bytes ctx)

end Engine

/-- What the fallback selects, what it calls on the way, and what the diagnostics show. -/
structure FallbackSelects (e : Engine) (bytes : List UInt8) (ctx : ParseCtx) : Prop where
  selected : e.heuristicFallback bytes ctx =
    (e.ranking bytes ctx).findSome? fun x => if minConfidence ≤ x.1 then winner bytes ctx x else none
  /-- The calls belong to this outcome, are of pool plugins, and none is of one plugin twice. -/
  outcome : (e.heuristicFallbackCalls bytes ctx).2 = e.heuristicFallback bytes ctx
  pool : ∀ p ∈ (e.heuristicFallbackCalls bytes ctx).1, p ∈ e.fallbackPool
  once : ((e.heuristicFallbackCalls bytes ctx).1.map LayerPlugin.name).Nodup
  nearMisses : ∀ stop d, e.diagnoseUnknown stop bytes ctx = some d →
    d.nearMisses = ((e.ranking bytes ctx).take 5).map fun x => (x.2.name, Confidence.new x.1)

section Fallback

variable (e : Engine) (bytes : List UInt8) (ctx : ParseCtx)

theorem fallbackCalls_ranking :
    (e.heuristicFallbackCalls bytes ctx).2 =
        ((e.ranking bytes ctx).filter fun x => minConfidence ≤ x.1).findSome? (winner bytes ctx) ∧
      (e.heuristicFallbackCalls bytes ctx).1 <+:
        ((e.ranking bytes ctx).filter fun x => minConfidence ≤ x.1).map Prod.snd := by
  rw [Engine.ranking, filter_sortByKey]
  exact selectWinnerCalls_ranking _ (Nat.le_refl _)

/-- The calls are some of the pool, each at most once. -/
theorem fallbackCalls_subperm : (e.heuristicFallbackCalls bytes ctx).1.Subperm e.fallbackPool := by
  have hsub := (fallbackCalls_ranking e bytes ctx).2.sublist.trans (List.filter_sublist.map Prod.snd)
  have hperm := (perm_sortByKey byScore (e.scoreFallbackPool bytes ctx)).map Prod.snd
  exact hsub.subperm.trans (hperm.subperm.trans e.scored_sublist.subperm)

theorem fallbackCalls_nodup : ((e.heuristicFallbackCalls bytes ctx).1.map LayerPlugin.name).Nodup := by
  obtain ⟨l, hperm, hsub⟩ := fallbackCalls_subperm e bytes ctx
  exact (hperm.map LayerPlugin.name).nodup_iff.1 ((hsub.map LayerPlugin.name).nodup e.pool_names_nodup)

/-- **Fallback selection.** -/
theorem fallback_selects : FallbackSelects e bytes ctx := by
  have hsnd : (e.heuristicFallbackCalls bytes ctx).2 = e.heuristicFallback bytes ctx := selectWinnerCalls_snd _ _
  constructor
  case selected =>
    rw [← hsnd, (fallbackCalls_ranking e bytes ctx).1]
    induction e.ranking bytes ctx with
    | nil => rfl
    | cons x l ih =>
        by_cases hx : minConfidence ≤ x.1
        · rw [List.filter_cons_of_pos (by simpa using hx), List.findSome?_cons, List.findSome?_cons, if_pos hx, ih]
        · rw [List.filter_cons_of_neg (by simpa using hx), List.findSome?_cons, if_neg hx, ih]
  case outcome => exact hsnd
  case pool => exact fun p hp => (fallbackCalls_subperm e bytes ctx).subset hp
  case once => exact fallbackCalls_nodup e bytes ctx
  case nearMisses =>
    intro stop d hd
    rw [Engine.diagnoseUnknown] at hd
    obtain ⟨context, -, rfl⟩ := Option.map_eq_some_iff.1 hd
    show e.nearMisses bytes ctx = _
    rw [Engine.nearMisses, Engine.ranking, ← mergeSort_eq_sortByKey]
    rfl

end Fallback

/-! ## Candidates -/

section Candidates

variable {bytes : List UInt8} {ctx : ParseCtx}

/-- Where two plugins of a list are one, a plugin before the second accepts the bytes. -/
def RepeatsAfterAccept (bytes : List UInt8) (ctx : ParseCtx) (claimed : List LayerPlugin) : Prop :=
  ∀ (i j : Nat) (p q : LayerPlugin), i < j → claimed[i]? = some p → claimed[j]? = some q → p.name = q.name →
    ∃ k < j, ∃ r parsed, claimed[k]? = some r ∧ Parses r bytes ctx parsed

/-- The calls end with the first plugin that accepts. -/
theorem firstAcceptedCalls_take (bytes : List UInt8) (ctx : ParseCtx) (ps : List LayerPlugin) :
    ∃ n, (firstAcceptedCalls bytes ctx ps).1 = ps.take n ∧
      (∀ k r, k + 1 < n → ps[k]? = some r → ∀ parsed, ¬Parses r bytes ctx parsed) ∧
      (n < ps.length → ∃ k < n, ∃ r parsed, ps[k]? = some r ∧ Parses r bytes ctx parsed) := by
  induction ps with
  | nil => exact ⟨0, rfl, fun k r hk => absurd hk (Nat.not_lt_zero _), fun h => absurd h (Nat.not_lt_zero _)⟩
  | cons p ps ih =>
      rw [firstAcceptedCalls]
      cases ha : accepted p bytes ctx with
      | some parsed =>
          refine ⟨1, rfl, fun k r hk => by omega, fun _ => ⟨0, by omega, p, parsed, rfl, ?_⟩⟩
          exact accepted_eq_some_iff.1 ha
      | none =>
          obtain ⟨n, htake, hbefore, hstop⟩ := ih
          refine ⟨n + 1, by rw [List.take_succ_cons, ← htake], ?_, fun hlt => ?_⟩
          · intro k r hk hr
            cases k with
            | zero =>
                obtain rfl := Option.some.inj hr
                exact accepted_eq_none_iff.1 ha
            | succ k => exact hbefore k r (by omega) hr
          · obtain ⟨k, hk, r, parsed, hr, hparse⟩ := hstop (by simpa using hlt)
            exact ⟨k + 1, by omega, r, parsed, hr, hparse⟩

theorem firstAcceptedCalls_nodup_iff (ps : List LayerPlugin) :
    ((firstAcceptedCalls bytes ctx ps).1.map LayerPlugin.name).Nodup ↔ RepeatsAfterAccept bytes ctx ps := by
  obtain ⟨n, htake, hbefore, hstop⟩ := firstAcceptedCalls_take bytes ctx ps
  rw [htake, List.nodup_iff_getElem?_ne_getElem?]
  constructor
  · intro hnodup i j p q hij hp hq hname
    have hj := (List.getElem?_eq_some_iff.1 hq).1
    by_cases hjn : j < n
    · -- both are called
      refine absurd ?_ (hnodup i j hij (by simp; omega))
      rw [List.getElem?_map, List.getElem?_map, List.getElem?_take_of_lt (by omega), List.getElem?_take_of_lt hjn,
        hp, hq, Option.map_some, Option.map_some, hname]
    · obtain ⟨k, hk, hparse⟩ := hstop (by omega)
      exact ⟨k, by omega, hparse⟩
  · intro hrepeat i j hij hj heq
    have hjn : j < n ∧ j < ps.length := by simpa using hj
    have hi : i < ps.length := by omega
    rw [List.getElem?_map, List.getElem?_map, List.getElem?_take_of_lt (by omega),
      List.getElem?_take_of_lt hjn.1, List.getElem?_eq_getElem hi, List.getElem?_eq_getElem hjn.2] at heq
    obtain ⟨k, hk, r, parsed, hr, hparse⟩ := hrepeat i j ps[i] ps[j] hij (List.getElem?_eq_getElem hi)
      (List.getElem?_eq_getElem hjn.2) (Option.some.inj heq)
    exact hbefore k r (by omega) hr parsed hparse

end Candidates

/-- **No re-selection.** No plugin is called twice on the bytes, exactly if the plugins that claim the ids of a
`Candidates` hint repeat only behind one that accepts them. -/
theorem tried_once_iff (e : Engine) (hint : Hint) (bytes : List UInt8) (ctx : ParseCtx) :
    ((e.resolveNextCalls hint bytes ctx).1.map LayerPlugin.name).Nodup ↔
      ∀ ids, hint = .candidates ids → bytes ≠ [] →
        RepeatsAfterAccept bytes ctx (ids.filterMap e.pluginForRoute) := by
  -- the rows of the table other than that of candidates call a plugin once at most, or each one once
  have hshort : ∀ {l : List LayerPlugin}, l.length ≤ 1 → (l.map LayerPlugin.name).Nodup := by
    intro l hl
    match l, hl with
    | [], _ => exact List.nodup_nil
    | [p], _ => exact List.nodup_singleton _
  by_cases hbytes : bytes = []
  · subst hbytes
    exact iff_of_true List.nodup_nil fun ids _ hne => absurd rfl hne
  · have hempty : bytes.isEmpty = false := by simpa using hbytes
    unfold Engine.resolveNextCalls
    rw [hempty, if_neg Bool.false_ne_true]
    cases hint with
    | terminal => exact iff_of_true List.nodup_nil fun ids h => (by cases h)
    | route id =>
        refine iff_of_true (hshort ?_) fun ids h => (by cases h)
        dsimp only
        split <;> simp
    | byProtocol name =>
        refine iff_of_true (hshort ?_) fun ids h => (by cases h)
        dsimp only
        split
        · simp
        · split <;> simp
    | unknown =>
        refine iff_of_true ?_ fun ids h => (by cases h)
        have hnodup := fallbackCalls_nodup e bytes ctx
        dsimp only
        split <;> exact hnodup
    | candidates ids =>
        have hrow : ((e.resolveCandidatesCalls ids bytes ctx).1.map LayerPlugin.name).Nodup ↔
            RepeatsAfterAccept bytes ctx (ids.filterMap e.pluginForRoute) := by
          rw [Engine.resolveCandidatesCalls]
          cases hclaimed : ids.filterMap e.pluginForRoute with
          | nil =>
              refine iff_of_true ?_ fun i j p q _ hp => (by cases hp)
              cases ids.head? <;> exact List.nodup_nil
          | cons p ps => exact firstAcceptedCalls_nodup_iff (p :: ps)
        refine hrow.trans ⟨fun h ids' heq _ => ?_, fun h => h ids rfl hbytes⟩
        cases heq
        exact h

/-- A plugin on two ports, as the ports of a datagram name it. -/
def twoPortCalls : List BuilderCall := [.plugin (claimant "dhcp" [.udpPort 67, .udpPort 68])]

/-- A datagram from port 68 to port 67 that `dhcp` declines is given to it twice. -/
theorem tried_twice :
    ∃ e : Engine, (assemble twoPortCalls).build = .ok e.registry ∧
      ∀ ctx : ParseCtx, (e.resolveNextCalls (.candidates [.udpPort 67, .udpPort 68]) [0] ctx).1.map
          LayerPlugin.name = ["dhcp", "dhcp"] ∧
        ¬((e.resolveNextCalls (.candidates [.udpPort 67, .udpPort 68]) [0] ctx).1.map LayerPlugin.name).Nodup := by
  refine ⟨⟨_, assemble twoPortCalls, rfl⟩, rfl, fun ctx => ?_⟩
  have hcalls : (Engine.resolveNextCalls ⟨_, assemble twoPortCalls, rfl⟩
      (.candidates [.udpPort 67, .udpPort 68]) [0] ctx).1.map LayerPlugin.name = ["dhcp", "dhcp"] := rfl
  refine ⟨hcalls, ?_⟩
  rw [hcalls]
  decide

end Pktflow.Core

import Pktflow.Core.Plugin
import Mathlib.Data.List.AList

/-!
# Registry and engine builder

Model of `pktflow-core/src/engine.rs`: `EngineBuilder::build` validates the registered plugins and the
manual routes and produces the immutable engine. A `HashMap` is an association list with unique keys.

The fields of the source's `Engine` are private and `build` is its only constructor; `Engine` is
accordingly a registry together with a builder that produced it. The stream aggregator relies on one
consequence: a plugin found by name that declares condensation has an `EndpointSort` identity that
lists the ephemeral pair (`Engine.condense_valid`).
-/

set_option autoImplicit false

namespace Pktflow.Core

universe u v

/-- `HashMap<K, V>`; no modelled function depends on its iteration order. -/
abbrev HashMap (K : Type u) (V : Type v) := AList fun _ : K => V

section HashMap

variable {K : Type u} {V : Type v} [DecidableEq K] {m : HashMap K V} {k k' : K} {v w : V}

/-- After an insertion: the new value under its key, and the old ones under the others. -/
theorem lookup_insert_eq_some :
    (m.insert k v).lookup k' = some w ↔ k' = k ∧ w = v ∨ k' ≠ k ∧ m.lookup k' = some w := by
  by_cases heq : k' = k
  · subst heq
    rw [AList.lookup_insert, Option.some_inj, eq_comm]
    exact ⟨fun h => .inl ⟨rfl, h⟩, fun h => h.elim And.right fun h => absurd rfl h.1⟩
  · rw [AList.lookup_insert_ne heq]
    exact ⟨fun h => .inr ⟨heq, h⟩, fun h => h.elim (fun h => absurd h.1 heq) And.right⟩

theorem lookup_erase_eq_some : (m.erase k).lookup k' = some w ↔ k' ≠ k ∧ m.lookup k' = some w := by
  by_cases heq : k' = k
  · subst heq
    rw [AList.lookup_erase]
    exact iff_of_false (by simp) fun h => h.1 rfl
  · rw [AList.lookup_erase_ne heq]
    exact (and_iff_right heq).symm

end HashMap

/-- `RegistryError`: a build-time registry failure. -/
inductive RegistryError where
  | duplicateName (name : ProtocolName)
  | claimCollision (id : RouteId) (first second : ProtocolName)
  | danglingOverride (id : RouteId) (name : ProtocolName)
  | invalidIdentity (plugin : ProtocolName) (reason : String)
  deriving DecidableEq, Repr

/-- `EngineBuilder`. -/
structure EngineBuilder where
  plugins : List LayerPlugin := []
  overrides : List (RouteId × ProtocolName) := []
  unroutes : List RouteId := []

namespace EngineBuilder

/-- `EngineBuilder::plugin`. -/
def plugin (b : EngineBuilder) (p : LayerPlugin) : EngineBuilder :=
  { b with plugins := b.plugins ++ [p] }

/-- `EngineBuilder::route`. -/
def route (b : EngineBuilder) (id : RouteId) (protocol : ProtocolName) : EngineBuilder :=
  { b with overrides := b.overrides ++ [(id, protocol)] }

/-- `EngineBuilder::unroute`. -/
def unroute (b : EngineBuilder) (id : RouteId) : EngineBuilder :=
  { b with unroutes := b.unroutes ++ [id] }

end EngineBuilder

/-- The tables of the source's `Engine`. -/
structure Registry where
  plugins : List LayerPlugin
  byName : HashMap ProtocolName Nat
  routes : HashMap RouteId Nat
  fallbackPool : List Nat

namespace EngineBuilder

/-- Step 1 of `build`: the name table, failing on a duplicate. -/
def installNames : List LayerPlugin → Nat → HashMap ProtocolName Nat →
    Except RegistryError (HashMap ProtocolName Nat)
  | [], _, byName => .ok byName
  | p :: ps, idx, byName =>
      if (byName.lookup p.name).isSome then .error (.duplicateName p.name)
      else installNames ps (idx + 1) (byName.insert p.name idx)

/-- The routes installed so far and the collisions recorded. -/
structure Claims where
  routes : HashMap RouteId Nat := ∅
  collisions : List (RouteId × Nat × Nat) := []

/-- Step 2 of `build` for one claimed id: install it, or record a collision. -/
def Claims.claim (idx : Nat) (c : Claims) (id : RouteId) : Claims :=
  match c.routes.lookup id with
  | some first => { c with collisions := c.collisions ++ [(id, first, idx)] }
  | none => { c with routes := c.routes.insert id idx }

/-- Step 2 of `build`: auto-install the claims of all plugins. -/
def installClaims : List LayerPlugin → Nat → Claims → Claims
  | [], _, c => c
  | p :: ps, idx, c => installClaims ps (idx + 1) (p.claims.foldl (Claims.claim idx) c)

/-- Forgets the collisions on one id. -/
def Claims.settle (c : Claims) (id : RouteId) : Claims :=
  { c with collisions := c.collisions.filter fun x => x.1 ≠ id }

/-- One `unroute`: the id is removed. -/
def Claims.applyUnroute (c : Claims) (id : RouteId) : Claims :=
  { c with routes := c.routes.erase id }.settle id

/-- The `route` overrides in call order: each re-targets its id, failing on an unregistered name. -/
def applyOverrides (byName : HashMap ProtocolName Nat) :
    List (RouteId × ProtocolName) → Claims → Except RegistryError Claims
  | [], c => .ok c
  | (id, name) :: rest, c =>
      match byName.lookup name with
      | none => .error (.danglingOverride id name)
      | some idx => applyOverrides byName rest ({ c with routes := c.routes.insert id idx }.settle id)

/-- The name of the plugin at an index of the table. -/
def nameAt (plugins : List LayerPlugin) (idx : Nat) : ProtocolName :=
  (plugins[idx]?.map LayerPlugin.name).getD ""

/-- Step 4 of `build` for one identity: no empty names and no zero series cap. -/
def identityDefect (identity : StreamIdentity) : Option String :=
  if identity.key.any fun kf => kf.a = "" || kf.b = some "" then some "empty key field name"
  else identity.rollups.findSome? fun r =>
    if r.field = "" then some "empty rollup field name"
    else if r.kind = .series 0 then some "Series rollup cap must be nonzero"
    else none

/-- Step 5 of `build` for one condensation declaration. -/
def condenseDefect (identity : Option StreamIdentity) (spec : CondenseSpec) : Option String :=
  match identity with
  | none => some "condense requires a stream identity"
  | some identity =>
      if !identity.canonicalize.isEndpointSort then
        some "condense requires EndpointSort canonicalization"
      else if !(identity.key.any fun kf => kf.a = spec.ephemeral.a && kf.b = spec.ephemeral.b) ||
          spec.ephemeral.b.isNone then
        some "condense ephemeral must be a paired key component"
      else none

/-- The first plugin with a defect, reported as an invalid identity. -/
def checkAll (defect : LayerPlugin → Option String) (plugins : List LayerPlugin) :
    Except RegistryError Unit :=
  match plugins.findSome? fun p => (defect p).map fun reason => (p.name, reason) with
  | some (name, reason) => .error (.invalidIdentity name reason)
  | none => .ok ()

/-- Indices of the probe-capable plugins, in registration order. -/
def probePool (plugins : List LayerPlugin) : List Nat :=
  (List.range plugins.length).filter fun idx => (plugins[idx]?.map LayerPlugin.hasProbe).getD false

/-- `EngineBuilder::build`. -/
def build (b : EngineBuilder) : Except RegistryError Registry := do
  let byName ← installNames b.plugins 0 ∅
  let claims := b.unroutes.foldl Claims.applyUnroute (installClaims b.plugins 0 {})
  let claims ← applyOverrides byName b.overrides claims
  match claims.collisions with
  | (id, first, second) :: _ =>
      .error (.claimCollision id (nameAt b.plugins first) (nameAt b.plugins second))
  | [] =>
      checkAll (fun p => p.streamIdentity.bind identityDefect) b.plugins
      checkAll (fun p => p.condense.bind (condenseDefect p.streamIdentity)) b.plugins
      return ⟨b.plugins, byName, claims.routes, probePool b.plugins⟩

end EngineBuilder

/-- `Engine`: tables that a builder produced. -/
structure Engine where
  registry : Registry
  built : ∃ b : EngineBuilder, b.build = .ok registry

namespace Engine

/-- `Engine::plugin_by_name`. -/
def pluginByName (e : Engine) (name : ProtocolName) : Option LayerPlugin :=
  (e.registry.byName.lookup name).bind fun idx => e.registry.plugins[idx]?

end Engine

/-- What `build` checks of a condensation declaration. -/
structure CondenseValid (p : LayerPlugin) (spec : CondenseSpec) : Prop where
  identity : ∃ identity, p.streamIdentity = some identity ∧
    identity.canonicalize = .endpointSort ∧ spec.ephemeral ∈ identity.key
  paired : ∃ b, spec.ephemeral.b = some b

theorem EngineBuilder.checkAll_ok {defect : LayerPlugin → Option String} {plugins : List LayerPlugin}
    (h : checkAll defect plugins = .ok ()) {p : LayerPlugin} (hp : p ∈ plugins) : defect p = none := by
  rw [checkAll] at h
  split at h
  · cases h
  · rename_i hnone
    simpa using List.findSome?_eq_none_iff.1 hnone p hp

theorem EngineBuilder.condenseValid_of_defect {p : LayerPlugin} {spec : CondenseSpec}
    (h : condenseDefect p.streamIdentity spec = none) : CondenseValid p spec := by
  unfold condenseDefect at h
  cases hi : p.streamIdentity with
  | none => simp [hi] at h
  | some identity =>
      rw [hi] at h
      cases hc : identity.canonicalize with
      | custom f => simp [hc, Canonicalize.isEndpointSort] at h
      | endpointSort =>
          simp only [hc, Canonicalize.isEndpointSort, Bool.not_true, Bool.false_eq_true, if_false,
            ite_eq_right_iff, reduceCtorEq, imp_false, Bool.or_eq_true, not_or] at h
          obtain ⟨hkey, hpair⟩ := h
          simp only [Bool.not_eq_true', Bool.not_eq_false, List.any_eq_true, Bool.and_eq_true,
            decide_eq_true_eq] at hkey
          obtain ⟨kf, hkf, ha, hb⟩ := hkey
          have hkf' : kf = spec.ephemeral := by
            cases kf
            cases hs : spec.ephemeral
            simp_all
          refine ⟨⟨identity, hi, hc, hkf' ▸ hkf⟩, ?_⟩
          cases hb' : spec.ephemeral.b with
          | none => simp [hb'] at hpair
          | some b => exact ⟨b, rfl⟩

theorem EngineBuilder.build_condense {b : EngineBuilder} {r : Registry} (h : b.build = .ok r)
    {p : LayerPlugin} (hp : p ∈ r.plugins) {spec : CondenseSpec} (hs : p.condense = some spec) :
    CondenseValid p spec := by
  rw [build] at h
  simp only [bind, Except.bind] at h
  split at h
  · cases h
  · split at h
    · cases h
    · split at h
      · cases h
      · split at h
        · cases h
        · split at h
          · cases h
          · rename_i hcond
            simp only [pure, Except.pure, Except.ok.injEq] at h
            subst h
            have hd := checkAll_ok hcond hp
            rw [hs] at hd
            exact condenseValid_of_defect hd

/-- A plugin found by name that declares condensation passed the builder's check of it. -/
theorem Engine.condense_valid (e : Engine) {name : ProtocolName} {p : LayerPlugin}
    (hp : e.pluginByName name = some p) {spec : CondenseSpec} (hs : p.condense = some spec) :
    CondenseValid p spec := by
  obtain ⟨b, hb⟩ := e.built
  rw [Engine.pluginByName] at hp
  rw [Option.bind_eq_some_iff] at hp
  obtain ⟨idx, -, hidx⟩ := hp
  exact EngineBuilder.build_condense hb (List.mem_of_getElem? hidx) hs

end Pktflow.Core

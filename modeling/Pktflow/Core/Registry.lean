import Pktflow.Core.Router
import Mathlib.Data.List.Perm.Basic
import Mathlib.Data.List.Perm.Lattice

/-!
# The registry law

When `EngineBuilder::build` succeeds, and what the engine then dispatches.

`Registrable` states the success condition over the multiset of claims, with no mention of the order in
which the builder meets them, and `Dispatches` states the route table. Each phase of `build` gets one
lemma: the names installed (`installNames_ok`), the ids collided and the first claimant of each
(`foldl_claim_collided`, `foldl_claim_lookup`), and what unroutes and overrides leave of both.
-/

set_option autoImplicit false

namespace Pktflow.Core

/-! ## The law -/

/-- What `build` requires of a declared identity. -/
structure IdentityValid (identity : StreamIdentity) : Prop where
  key : ∀ kf ∈ identity.key, kf.a ≠ "" ∧ kf.b ≠ some ""
  rollups : ∀ r ∈ identity.rollups, r.field ≠ "" ∧ r.kind ≠ .series 0

/-- When a registration succeeds. -/
structure Registrable (plugins : List LayerPlugin) (overrides : List (RouteId × ProtocolName))
    (unroutes : List RouteId) : Prop where
  names : (plugins.map LayerPlugin.name).Nodup
  targets : ∀ x ∈ overrides, x.2 ∈ plugins.map LayerPlugin.name
  claims : ∀ id, 1 < (plugins.flatMap LayerPlugin.claims).count id →
    id ∈ overrides.map Prod.fst ∨ id ∈ unroutes
  identities : ∀ p ∈ plugins, ∀ identity, p.streamIdentity = some identity → IdentityValid identity
  condense : ∀ p ∈ plugins, ∀ spec, p.condense = some spec → CondenseValid p spec

/-- The target of the last override of an id. -/
def lastOverride (overrides : List (RouteId × ProtocolName)) (id : RouteId) : Option ProtocolName :=
  (overrides.reverse.find? fun x => x.1 = id).map Prod.snd

/-- What the engine dispatches for an id. -/
structure Dispatches (plugins : List LayerPlugin) (overrides : List (RouteId × ProtocolName))
    (unroutes : List RouteId) (id : RouteId) (found : Option LayerPlugin) : Prop where
  overridden : ∀ name, lastOverride overrides id = some name →
    ∃ p ∈ plugins, p.name = name ∧ found = some p
  unrouted : lastOverride overrides id = none →
    (id ∈ unroutes ∨ ∀ p ∈ plugins, id ∉ p.claims) → found = none
  claimed : lastOverride overrides id = none → id ∉ unroutes → ∀ p ∈ plugins, id ∈ p.claims →
    found = some p ∧ ∀ q ∈ plugins, id ∈ q.claims → q = p

/-! ## Calls on the builder -/

/-- One call on the builder. -/
inductive BuilderCall where
  | plugin (p : LayerPlugin)
  | route (id : RouteId) (protocol : ProtocolName)
  | unroute (id : RouteId)

namespace BuilderCall

/-- The builder after a call. -/
def apply (b : EngineBuilder) : BuilderCall → EngineBuilder
  | .plugin p => b.plugin p
  | .route id protocol => b.route id protocol
  | .unroute id => b.unroute id

/-- The registered plugin of a call. -/
def plugin? : BuilderCall → Option LayerPlugin
  | .plugin p => some p
  | _ => none

/-- The override of a call. -/
def override? : BuilderCall → Option (RouteId × ProtocolName)
  | .route id protocol => some (id, protocol)
  | _ => none

/-- The unrouted id of a call. -/
def unroute? : BuilderCall → Option RouteId
  | .unroute id => some id
  | _ => none

end BuilderCall

/-- The builder after a sequence of calls. -/
def assemble (calls : List BuilderCall) : EngineBuilder :=
  calls.foldl BuilderCall.apply {}

/-- The builder keeps each kind of call in order and forgets how the kinds interleave. -/
theorem assemble_eq (calls : List BuilderCall) :
    assemble calls = ⟨calls.filterMap BuilderCall.plugin?, calls.filterMap BuilderCall.override?,
      calls.filterMap BuilderCall.unroute?⟩ := by
  suffices hgen : ∀ b : EngineBuilder, calls.foldl BuilderCall.apply b =
      ⟨b.plugins ++ calls.filterMap BuilderCall.plugin?,
        b.overrides ++ calls.filterMap BuilderCall.override?,
        b.unroutes ++ calls.filterMap BuilderCall.unroute?⟩ by
    exact hgen {}
  induction calls with
  | nil => simp
  | cons call calls ih =>
      intro b
      rw [List.foldl_cons, ih]
      cases call with
      | plugin p =>
          simp [List.filterMap_cons, BuilderCall.apply, EngineBuilder.plugin, BuilderCall.plugin?,
            BuilderCall.override?, BuilderCall.unroute?]
      | route id protocol =>
          simp [List.filterMap_cons, BuilderCall.apply, EngineBuilder.route, BuilderCall.plugin?,
            BuilderCall.override?, BuilderCall.unroute?]
      | unroute id =>
          simp [List.filterMap_cons, BuilderCall.apply, EngineBuilder.unroute, BuilderCall.plugin?,
            BuilderCall.override?, BuilderCall.unroute?]

namespace EngineBuilder

/-! ## Names -/

/-- The name table installs exactly when no name occurs twice. -/
theorem installNames_ok (ps : List LayerPlugin) (idx : Nat) (m : HashMap ProtocolName Nat) :
    (∃ t, installNames ps idx m = .ok t) ↔
      (ps.map LayerPlugin.name).Nodup ∧ ∀ p ∈ ps, m.lookup p.name = none := by
  induction ps generalizing idx m with
  | nil => simp [installNames]
  | cons p ps ih =>
      rw [installNames]
      cases hm : m.lookup p.name with
      | some i => simp [hm]
      | none =>
          simp only [Option.isSome_none, Bool.false_eq_true, if_false]
          rw [ih, List.map_cons, List.nodup_cons]
          constructor
          · rintro ⟨hnodup, hfresh⟩
            have hnot : p.name ∉ ps.map LayerPlugin.name := by
              intro hmem
              obtain ⟨q, hq, hqn⟩ := List.mem_map.1 hmem
              have hnone := hfresh q hq
              rw [hqn, AList.lookup_insert] at hnone
              cases hnone
            refine ⟨⟨hnot, hnodup⟩, ?_⟩
            intro q hq
            rcases List.mem_cons.1 hq with rfl | hq
            · exact hm
            · have hne : q.name ≠ p.name := fun heq => hnot (heq ▸ List.mem_map_of_mem hq)
              have hnone := hfresh q hq
              rwa [AList.lookup_insert_ne hne] at hnone
          · rintro ⟨⟨hnot, hnodup⟩, hfresh⟩
            refine ⟨hnodup, ?_⟩
            intro q hq
            have hne : q.name ≠ p.name := fun heq => hnot (heq ▸ List.mem_map_of_mem hq)
            rw [AList.lookup_insert_ne hne]
            exact hfresh q (List.mem_cons_of_mem p hq)

/-- The name table sends a name to the place of the plugin it was installed for. -/
theorem installNames_lookup {ps : List LayerPlugin} {idx : Nat} {m t : HashMap ProtocolName Nat}
    (h : installNames ps idx m = .ok t) (name : ProtocolName) :
    t.lookup name =
      ((ps.findIdx? fun p => p.name = name).map fun i => idx + i).or (m.lookup name) := by
  induction ps generalizing idx m with
  | nil =>
      cases h
      simp
  | cons p ps ih =>
      rw [installNames] at h
      cases hm : m.lookup p.name with
      | some i => simp [hm] at h
      | none =>
          simp only [hm, Option.isSome_none, Bool.false_eq_true, if_false] at h
          rw [ih h, List.findIdx?_cons]
          by_cases hname : p.name = name
          · subst hname
            -- a later plugin of the same name would have failed the installation
            have hlater : (ps.findIdx? fun q => decide (q.name = p.name)) = none := by
              rw [List.findIdx?_eq_none_iff]
              intro q hq
              have hfresh := ((installNames_ok ps (idx + 1) (m.insert p.name idx)).1 ⟨t, h⟩).2 q hq
              by_contra heq
              simp only [Bool.not_eq_false, decide_eq_true_eq] at heq
              rw [heq, AList.lookup_insert] at hfresh
              cases hfresh
            simp [hlater, hm]
          · rw [AList.lookup_insert_ne (Ne.symm hname)]
            simp only [hname, decide_false, Bool.false_eq_true, if_false, Option.map_map]
            congr 2
            funext i
            simp only [Function.comp_apply]
            omega

/-! ## Claims -/

/-- The claims of all plugins in the order `build` meets them, each with its plugin's index. -/
def claimPairs (ps : List LayerPlugin) (idx : Nat) : List (RouteId × Nat) :=
  (ps.zipIdx idx).flatMap fun x => x.1.claims.map fun id => (id, x.2)

/-- The ids with a recorded collision. -/
def Claims.collided (c : Claims) : List RouteId :=
  c.collisions.map Prod.fst

theorem installClaims_eq (ps : List LayerPlugin) (idx : Nat) (c : Claims) :
    installClaims ps idx c = (claimPairs ps idx).foldl (fun c x => c.claim x.2 x.1) c := by
  induction ps generalizing idx c with
  | nil => rfl
  | cons p ps ih =>
      have hpairs : claimPairs (p :: ps) idx =
          p.claims.map (fun id => (id, idx)) ++ claimPairs ps (idx + 1) := by
        simp [claimPairs]
      rw [installClaims, ih, hpairs, List.foldl_append, List.foldl_map]

theorem claim_lookup (idx : Nat) (c : Claims) (id id' : RouteId) :
    (Claims.claim idx c id').routes.lookup id =
      (c.routes.lookup id).or (if id' = id then some idx else none) := by
  rw [Claims.claim]
  cases hfirst : c.routes.lookup id' with
  | some first =>
      by_cases hid : id' = id
      · subst hid
        simp [hfirst]
      · simp [hid]
  | none =>
      by_cases hid : id' = id
      · subst hid
        simp [hfirst]
      · simp [hid, AList.lookup_insert_ne (Ne.symm hid)]

theorem claim_collided (idx : Nat) (c : Claims) (id id' : RouteId) :
    id ∈ (Claims.claim idx c id').collided ↔
      id ∈ c.collided ∨ (id' = id ∧ (c.routes.lookup id).isSome) := by
  unfold Claims.claim Claims.collided
  cases hfirst : c.routes.lookup id' with
  | some first =>
      by_cases hid : id' = id
      · subst hid
        simp [hfirst]
      · simp [hid, Ne.symm hid]
  | none =>
      by_cases hid : id' = id
      · subst hid
        simp [hfirst]
      · simp [hid]

/-- An id is routed to the first plugin that claims it. -/
theorem foldl_claim_lookup (pairs : List (RouteId × Nat)) (c : Claims) (id : RouteId) :
    (pairs.foldl (fun c x => c.claim x.2 x.1) c).routes.lookup id =
      (c.routes.lookup id).or ((pairs.find? fun x => x.1 = id).map Prod.snd) := by
  induction pairs generalizing c with
  | nil => simp
  | cons x pairs ih =>
      rw [List.foldl_cons, ih, claim_lookup, List.find?_cons]
      by_cases hid : x.1 = id
      · cases c.routes.lookup id <;> simp [hid]
      · simp [hid]

/-- An id collides from the second claim on. -/
theorem foldl_claim_collided (pairs : List (RouteId × Nat)) (c : Claims) (id : RouteId) :
    id ∈ (pairs.foldl (fun c x => c.claim x.2 x.1) c).collided ↔
      id ∈ c.collided ∨
        (if (c.routes.lookup id).isSome then 0 else 1) < (pairs.map Prod.fst).count id := by
  induction pairs generalizing c with
  | nil => simp
  | cons x pairs ih =>
      rw [List.foldl_cons, ih, claim_collided, claim_lookup, List.map_cons, List.count_cons]
      by_cases hid : x.1 = id
      · cases hlookup : c.routes.lookup id with
        | some first => simp [hid]
        | none => simp [hid]
      · simp [hid]

theorem settle_collided (c : Claims) (id id' : RouteId) :
    id ∈ (c.settle id').collided ↔ id ∈ c.collided ∧ id ≠ id' := by
  simp only [Claims.settle, Claims.collided, List.mem_map, List.mem_filter, decide_eq_true_eq]
  constructor
  · rintro ⟨x, ⟨hx, hne⟩, rfl⟩
    exact ⟨⟨x, hx, rfl⟩, hne⟩
  · rintro ⟨⟨x, hx, rfl⟩, hne⟩
    exact ⟨x, ⟨hx, hne⟩, rfl⟩

/-- Unrouting removes the route of an id and forgives its collisions. -/
theorem foldl_unroute (unroutes : List RouteId) (c : Claims) (id : RouteId) :
    (unroutes.foldl Claims.applyUnroute c).routes.lookup id =
        (if id ∈ unroutes then none else c.routes.lookup id) ∧
      (id ∈ (unroutes.foldl Claims.applyUnroute c).collided ↔ id ∈ c.collided ∧ id ∉ unroutes) := by
  induction unroutes generalizing c with
  | nil => simp
  | cons id' unroutes ih =>
      obtain ⟨hlookup, hcollided⟩ := ih (c.applyUnroute id')
      have hsettle : id ∈ (c.applyUnroute id').collided ↔ id ∈ c.collided ∧ id ≠ id' :=
        settle_collided { c with routes := c.routes.erase id' } id id'
      rw [List.foldl_cons, hlookup, hcollided, hsettle]
      by_cases hid : id = id'
      · subst hid
        simp [Claims.applyUnroute, Claims.settle]
      · simp [Claims.applyUnroute, Claims.settle, hid, AList.lookup_erase_ne hid]

/-- Overrides apply exactly when every target is registered. -/
theorem applyOverrides_ok (byName : HashMap ProtocolName Nat) (overrides : List (RouteId × ProtocolName))
    (c : Claims) :
    (∃ c', applyOverrides byName overrides c = .ok c') ↔
      ∀ x ∈ overrides, (byName.lookup x.2).isSome := by
  induction overrides generalizing c with
  | nil => simp [applyOverrides]
  | cons x overrides ih =>
      obtain ⟨id, name⟩ := x
      rw [applyOverrides]
      cases hname : byName.lookup name with
      | none => simp [hname]
      | some idx => simp [ih, hname]

theorem lastOverride_cons (id id' : RouteId) (name : ProtocolName)
    (overrides : List (RouteId × ProtocolName)) :
    lastOverride ((id', name) :: overrides) id =
      (lastOverride overrides id).or (if id' = id then some name else none) := by
  unfold lastOverride
  rw [List.reverse_cons, List.find?_append, Option.map_or]
  by_cases hid : id' = id
  · simp [hid]
  · simp [hid]

theorem lastOverride_eq_none_iff (overrides : List (RouteId × ProtocolName)) (id : RouteId) :
    lastOverride overrides id = none ↔ id ∉ overrides.map Prod.fst := by
  rw [lastOverride]
  rw [Option.map_eq_none_iff, List.find?_eq_none, List.mem_map]
  constructor
  · rintro h ⟨x, hx, rfl⟩
    exact h x (List.mem_reverse.2 hx) (by simp)
  · intro h x hx hid
    exact h ⟨x, List.mem_reverse.1 hx, by simpa using hid⟩

/-- The last override of an id decides its route and forgives its collisions. -/
theorem applyOverrides_spec {byName : HashMap ProtocolName Nat}
    {overrides : List (RouteId × ProtocolName)} {c c' : Claims}
    (h : applyOverrides byName overrides c = .ok c') (id : RouteId) :
    c'.routes.lookup id =
        ((lastOverride overrides id).bind fun name => byName.lookup name).or
          (if id ∈ overrides.map Prod.fst then none else c.routes.lookup id) ∧
      (id ∈ c'.collided ↔ id ∈ c.collided ∧ id ∉ overrides.map Prod.fst) := by
  induction overrides generalizing c with
  | nil =>
      cases h
      simp [lastOverride]
  | cons x overrides ih =>
      obtain ⟨id', name⟩ := x
      rw [applyOverrides] at h
      cases hname : byName.lookup name with
      | none => simp [hname] at h
      | some idx =>
          simp only [hname] at h
          -- the later overrides are applied to what this one leaves
          obtain ⟨hlookup, hcollided⟩ := ih h
          have hsettle := settle_collided { c with routes := c.routes.insert id' idx } id id'
          have hcollided' : id ∈ ({ c with routes := c.routes.insert id' idx } : Claims).collided ↔
              id ∈ c.collided := Iff.rfl
          rw [hsettle, hcollided'] at hcollided
          rw [hlookup, hcollided, lastOverride_cons]
          by_cases hid : id = id'
          · subst hid
            cases hlast : lastOverride overrides id with
            | none =>
                have hnot := (lastOverride_eq_none_iff overrides id).1 hlast
                simp [Claims.settle, hnot, hname]
            | some last =>
                have hin : id ∈ overrides.map Prod.fst := by
                  by_contra hnot
                  rw [(lastOverride_eq_none_iff overrides id).2 hnot] at hlast
                  cases hlast
                simp [hin]
          · have hmem : id ∈ ((id', name) :: overrides).map Prod.fst ↔ id ∈ overrides.map Prod.fst := by
              rw [List.map_cons, List.mem_cons]
              exact or_iff_right hid
            simp only [hmem]
            simp [Claims.settle, hid, Ne.symm hid, AList.lookup_insert_ne hid]

/-! ## Identities -/

theorem identityDefect_eq_none_iff (identity : StreamIdentity) :
    identityDefect identity = none ↔ IdentityValid identity := by
  rw [identityDefect]
  by_cases hkey : (identity.key.any fun kf => kf.a = "" || kf.b = some "") = true
  · simp only [hkey, if_true, reduceCtorEq, false_iff]
    intro hvalid
    obtain ⟨kf, hkf, hempty⟩ := List.any_eq_true.1 hkey
    obtain ⟨ha, hb⟩ := hvalid.key kf hkf
    simp [ha, hb] at hempty
  · have hkeys : ∀ kf ∈ identity.key, kf.a ≠ "" ∧ kf.b ≠ some "" := by
      simpa [List.any_eq_true, not_or] using hkey
    simp only [hkey, Bool.false_eq_true, if_false, List.findSome?_eq_none_iff]
    constructor
    · intro h
      refine ⟨hkeys, ?_⟩
      intro r hr
      have hr' := h r hr
      by_cases hfield : r.field = ""
      · simp [hfield] at hr'
      · by_cases hkind : r.kind = .series 0
        · simp [hfield, hkind] at hr'
        · exact ⟨hfield, hkind⟩
    · intro hvalid r hr
      obtain ⟨hfield, hkind⟩ := hvalid.rollups r hr
      simp [hfield, hkind]

theorem condenseDefect_eq_none_iff (p : LayerPlugin) (spec : CondenseSpec) :
    condenseDefect p.streamIdentity spec = none ↔ CondenseValid p spec := by
  constructor
  · exact condenseValid_of_defect
  · rintro ⟨⟨identity, hidentity, hsort, hkey⟩, b, hpair⟩
    simp only [condenseDefect, hidentity, hsort, Canonicalize.isEndpointSort, hpair]
    simp
    exact ⟨spec.ephemeral, hkey, rfl, hpair⟩

theorem checkAll_ok_iff (defect : LayerPlugin → Option String) (plugins : List LayerPlugin) :
    checkAll defect plugins = .ok () ↔ ∀ p ∈ plugins, defect p = none := by
  constructor
  · exact fun h p hp => checkAll_ok h hp
  · intro h
    have hnone : (plugins.findSome? fun p => (defect p).map fun reason => (p.name, reason)) = none := by
      rw [List.findSome?_eq_none_iff]
      intro p hp
      rw [h p hp]
      rfl
    simp only [checkAll, hnone]

/-! ## The phases together -/

/-- The claims after the unroutes. -/
def unrouted (b : EngineBuilder) : Claims :=
  b.unroutes.foldl Claims.applyUnroute (installClaims b.plugins 0 {})

/-- `build` succeeds when each of its phases does. -/
theorem build_eq_ok {b : EngineBuilder} {r : Registry} :
    b.build = .ok r ↔ ∃ byName claims, installNames b.plugins 0 ∅ = .ok byName ∧
      applyOverrides byName b.overrides b.unrouted = .ok claims ∧ claims.collisions = [] ∧
      (∀ p ∈ b.plugins, ∀ identity, p.streamIdentity = some identity → IdentityValid identity) ∧
      (∀ p ∈ b.plugins, ∀ spec, p.condense = some spec → CondenseValid p spec) ∧
      r = ⟨b.plugins, byName, claims.routes, probePool b.plugins⟩ := by
  have hidentities : (∀ p ∈ b.plugins, ∀ identity, p.streamIdentity = some identity →
      IdentityValid identity) ↔
      checkAll (fun p => p.streamIdentity.bind identityDefect) b.plugins = .ok () := by
    rw [checkAll_ok_iff]
    simp only [Option.bind_eq_none_iff, identityDefect_eq_none_iff]
  have hcondense : (∀ p ∈ b.plugins, ∀ spec, p.condense = some spec → CondenseValid p spec) ↔
      checkAll (fun p => p.condense.bind (condenseDefect p.streamIdentity)) b.plugins = .ok () := by
    rw [checkAll_ok_iff]
    simp only [Option.bind_eq_none_iff, condenseDefect_eq_none_iff]
  rw [hidentities, hcondense]
  rw [build]
  simp only [bind, Except.bind]
  cases hnames : installNames b.plugins 0 ∅ with
  | error err => simp
  | ok byName =>
      simp only [Except.ok.injEq, exists_and_left, exists_eq_left']
      have hunrouted :
          b.unroutes.foldl Claims.applyUnroute (installClaims b.plugins 0 {}) = b.unrouted := rfl
      rw [hunrouted]
      cases hover : applyOverrides byName b.overrides b.unrouted with
      | error err => simp
      | ok claims =>
          simp only [Except.ok.injEq, exists_eq_left']
          cases hcoll : claims.collisions with
          | cons x rest => simp
          | nil =>
              cases hids : checkAll (fun p => p.streamIdentity.bind identityDefect) b.plugins with
              | error err => simp
              | ok u =>
                  cases hcond : checkAll (fun p => p.condense.bind (condenseDefect p.streamIdentity))
                      b.plugins with
                  | error err => simp
                  | ok u => simp [pure, Except.pure, eq_comm]

theorem claimPairs_fst (ps : List LayerPlugin) (idx : Nat) :
    (claimPairs ps idx).map Prod.fst = ps.flatMap LayerPlugin.claims := by
  induction ps generalizing idx with
  | nil => rfl
  | cons p ps ih =>
      have htail := ih (idx + 1)
      simp only [claimPairs, List.zipIdx_cons, List.flatMap_cons, List.map_append, List.map_map] at htail ⊢
      rw [htail]
      simp [Function.comp_def]

/-- An index of a claim is the place of a plugin that makes it. -/
theorem claimant_of_mem {ps : List LayerPlugin} {id : RouteId} {i : Nat}
    (h : (id, i) ∈ claimPairs ps 0) : ∃ p, ps[i]? = some p ∧ id ∈ p.claims := by
  obtain ⟨x, hx, hid⟩ := List.mem_flatMap.1 h
  obtain ⟨id', hid', heq⟩ := List.mem_map.1 hid
  cases heq
  exact ⟨x.1, List.mem_zipIdx_iff_getElem?.1 hx, hid'⟩

/-- The claims before any override or unroute: the first claimant of each id, and the ids claimed
more than once. -/
theorem installClaims_spec (ps : List LayerPlugin) (id : RouteId) :
    (installClaims ps 0 {}).routes.lookup id =
        ((claimPairs ps 0).find? fun x => x.1 = id).map Prod.snd ∧
      (id ∈ (installClaims ps 0 {}).collided ↔ 1 < (ps.flatMap LayerPlugin.claims).count id) := by
  rw [installClaims_eq, foldl_claim_lookup, foldl_claim_collided, claimPairs_fst]
  simp [Claims.collided]

/-- The name table of a successful build, as a search of the plugins. -/
theorem byName_lookup {ps : List LayerPlugin} {byName : HashMap ProtocolName Nat}
    (h : installNames ps 0 ∅ = .ok byName) (name : ProtocolName) :
    byName.lookup name = ps.findIdx? fun p => p.name = name := by
  rw [installNames_lookup h name, AList.lookup_empty, Option.or_none]
  simp

theorem byName_isSome {ps : List LayerPlugin} {byName : HashMap ProtocolName Nat}
    (h : installNames ps 0 ∅ = .ok byName) (name : ProtocolName) :
    (byName.lookup name).isSome ↔ name ∈ ps.map LayerPlugin.name := by
  rw [byName_lookup h name, List.findIdx?_isSome, List.any_eq_true, List.mem_map]
  simp

/-- The collisions that remain after unroutes and overrides. -/
theorem collided_iff {b : EngineBuilder} {byName : HashMap ProtocolName Nat} {claims : Claims}
    (h : applyOverrides byName b.overrides b.unrouted = .ok claims) (id : RouteId) :
    id ∈ claims.collided ↔ 1 < (b.plugins.flatMap LayerPlugin.claims).count id ∧
      id ∉ b.unroutes ∧ id ∉ b.overrides.map Prod.fst := by
  rw [(applyOverrides_spec h id).2, unrouted, (foldl_unroute b.unroutes _ id).2,
    (installClaims_spec b.plugins id).2, and_assoc]

/-- `build` succeeds exactly on the registrable builders. -/
theorem build_ok_iff (b : EngineBuilder) :
    (∃ r, b.build = .ok r) ↔ Registrable b.plugins b.overrides b.unroutes := by
  constructor
  · rintro ⟨r, h⟩
    obtain ⟨byName, claims, hnames, hover, hcoll, hids, hcond, -⟩ := build_eq_ok.1 h
    constructor
    case names => exact ((installNames_ok b.plugins 0 ∅).1 ⟨byName, hnames⟩).1
    case targets =>
        intro x hx
        rw [← byName_isSome hnames]
        exact (applyOverrides_ok byName b.overrides b.unrouted).1 ⟨claims, hover⟩ x hx
    case claims =>
        intro id hcount
        by_contra hnot
        rw [not_or] at hnot
        have hmem := (collided_iff hover id).2 ⟨hcount, hnot.2, hnot.1⟩
        simp [Claims.collided, hcoll] at hmem
    case identities => exact hids
    case condense => exact hcond
  · intro h
    obtain ⟨byName, hnames⟩ := (installNames_ok b.plugins 0 ∅).2 ⟨h.names, fun p _ => rfl⟩
    have htargets : ∀ x ∈ b.overrides, (byName.lookup x.2).isSome := by
      intro x hx
      rw [byName_isSome hnames]
      exact h.targets x hx
    obtain ⟨claims, hover⟩ := (applyOverrides_ok byName b.overrides b.unrouted).2 htargets
    have hcoll : claims.collisions = [] := by
      apply List.eq_nil_iff_forall_not_mem.2
      intro x hx
      have hmem : x.1 ∈ claims.collided := List.mem_map_of_mem hx
      obtain ⟨hcount, hroute, hoverride⟩ := (collided_iff hover x.1).1 hmem
      rcases h.claims x.1 hcount with hin | hin
      · exact hoverride hin
      · exact hroute hin
    exact ⟨_, build_eq_ok.2 ⟨byName, claims, hnames, hover, hcoll, h.identities, h.condense, rfl⟩⟩

/-- An id claimed at most once has at most one claimant. -/
theorem claimant_unique {ps : List LayerPlugin} {id : RouteId}
    (h : (ps.flatMap LayerPlugin.claims).count id ≤ 1) {p q : LayerPlugin} (hp : p ∈ ps) (hq : q ∈ ps)
    (hpid : id ∈ p.claims) (hqid : id ∈ q.claims) : q = p := by
  induction ps with
  | nil => cases hp
  | cons a ps ih =>
      rw [List.flatMap_cons, List.count_append] at h
      have hrest : ∀ r ∈ ps, id ∈ r.claims → 0 < (ps.flatMap LayerPlugin.claims).count id := by
        intro r hr hid
        exact List.count_pos_iff.2 (List.mem_flatMap.2 ⟨r, hr, hid⟩)
      rcases List.mem_cons.1 hp with rfl | hp'
      · rcases List.mem_cons.1 hq with rfl | hq'
        · rfl
        · have hhead := List.count_pos_iff.2 hpid
          have htail := hrest q hq' hqid
          omega
      · rcases List.mem_cons.1 hq with rfl | hq'
        · have hhead := List.count_pos_iff.2 hqid
          have htail := hrest p hp' hpid
          omega
        · exact ih (by omega) hp' hq'

/-- The route table of a successful build, as a search of the overrides and claims. -/
theorem routes_lookup {b : EngineBuilder} {r : Registry} (h : b.build = .ok r) (id : RouteId) :
    r.plugins = b.plugins ∧ r.routes.lookup id =
      match lastOverride b.overrides id with
      | some name => b.plugins.findIdx? fun p => p.name = name
      | none =>
          if id ∈ b.unroutes then none
          else ((claimPairs b.plugins 0).find? fun x => x.1 = id).map Prod.snd := by
  obtain ⟨byName, claims, hnames, hover, -, -, -, rfl⟩ := build_eq_ok.1 h
  refine ⟨rfl, ?_⟩
  have hlookup := (applyOverrides_spec hover id).1
  rw [unrouted, (foldl_unroute b.unroutes _ id).1, (installClaims_spec b.plugins id).1] at hlookup
  rw [hlookup]
  cases hlast : lastOverride b.overrides id with
  | none =>
      have hnot := (lastOverride_eq_none_iff b.overrides id).1 hlast
      simp only [Option.bind_none, Option.none_or, if_neg hnot]
  | some name =>
      have hin : id ∈ b.overrides.map Prod.fst := by
        by_contra hnot
        rw [(lastOverride_eq_none_iff b.overrides id).2 hnot] at hlast
        cases hlast
      simp only [Option.bind_some, if_pos hin, Option.or_none]
      exact byName_lookup hnames name

/-- The target of an override that a successful build accepted is registered. -/
theorem mem_of_lastOverride {overrides : List (RouteId × ProtocolName)} {id : RouteId}
    {name : ProtocolName} (h : lastOverride overrides id = some name) : (id, name) ∈ overrides := by
  obtain ⟨x, hx, rfl⟩ := Option.map_eq_some_iff.1 h
  have hid : x.1 = id := by simpa using List.find?_some hx
  rw [← hid]
  exact List.mem_reverse.1 (List.mem_of_find?_eq_some hx)

/-- The dispatch table of a successful build. -/
theorem build_dispatches {b : EngineBuilder} {r : Registry} (h : b.build = .ok r) (id : RouteId) :
    Dispatches b.plugins b.overrides b.unroutes id
      ((r.routes.lookup id).bind fun idx => r.plugins[idx]?) := by
  have hreg := (build_ok_iff b).1 ⟨r, h⟩
  obtain ⟨hplugins, hlookup⟩ := routes_lookup h id
  rw [hplugins, hlookup]
  constructor
  case overridden =>
      intro name hlast
      obtain ⟨p, hp, hpname⟩ := List.mem_map.1 (hreg.targets _ (mem_of_lastOverride hlast))
      -- the target of an override is a plugin that was checked to exist
      have hsome : (b.plugins.findIdx? fun p => p.name = name).isSome := by
        rw [List.findIdx?_isSome, List.any_eq_true]
        exact ⟨p, hp, by simpa using hpname⟩
      obtain ⟨i, hi⟩ := Option.isSome_iff_exists.1 hsome
      obtain ⟨hlt, hname, -⟩ := List.findIdx?_eq_some_iff_getElem.1 hi
      refine ⟨b.plugins[i], List.getElem_mem hlt, by simpa using hname, ?_⟩
      simp [hlast, hi]
  case unrouted =>
      intro hlast hnone
      rcases hnone with hun | hnone
      · simp [hlast, hun]
      · have hfind : ((claimPairs b.plugins 0).find? fun x => x.1 = id) = none := by
          rw [List.find?_eq_none]
          rintro ⟨id', i⟩ hx hid
          obtain ⟨p, hp, hclaim⟩ := claimant_of_mem hx
          have heq : id' = id := by simpa using hid
          exact hnone p (List.mem_of_getElem? hp) (heq ▸ hclaim)
        simp [hlast, hfind]
  case claimed =>
      intro hlast hun p hp hclaim
      -- a route claimed twice would be overridden or unrouted
      have hcount : (b.plugins.flatMap LayerPlugin.claims).count id ≤ 1 := by
        by_contra hgt
        rcases hreg.claims id (by omega) with hin | hin
        · exact (lastOverride_eq_none_iff b.overrides id).1 hlast hin
        · exact hun hin
      have hsole : ∀ q ∈ b.plugins, id ∈ q.claims → q = p :=
        fun q hq hqid => claimant_unique hcount hp hq hclaim hqid
      refine ⟨?_, hsole⟩
      have hmem : id ∈ (claimPairs b.plugins 0).map Prod.fst := by
        rw [claimPairs_fst]
        exact List.mem_flatMap.2 ⟨p, hp, hclaim⟩
      obtain ⟨x, hx, hxid⟩ := List.mem_map.1 hmem
      have hsome : ((claimPairs b.plugins 0).find? fun x => x.1 = id).isSome := by
        rw [List.find?_isSome]
        exact ⟨x, hx, by simpa using hxid⟩
      obtain ⟨⟨id', i⟩, hfind⟩ := Option.isSome_iff_exists.1 hsome
      have hid : id' = id := by simpa using List.find?_some hfind
      obtain ⟨q, hq, hqid⟩ := claimant_of_mem (List.mem_of_find?_eq_some hfind)
      have hqp := hsole q (List.mem_of_getElem? hq) (hid ▸ hqid)
      simp [hlast, hun, hfind, hq, hqp]

end EngineBuilder

/-! ## Order of registration -/

/-- Being registrable does not depend on the order of the plugins. -/
theorem Registrable.perm {plugins plugins' : List LayerPlugin} {overrides : List (RouteId × ProtocolName)}
    {unroutes : List RouteId} (hperm : plugins'.Perm plugins)
    (h : Registrable plugins overrides unroutes) : Registrable plugins' overrides unroutes := by
  constructor
  case names => exact (hperm.map LayerPlugin.name).nodup_iff.2 h.names
  case targets =>
      intro x hx
      exact (hperm.map LayerPlugin.name).mem_iff.2 (h.targets x hx)
  case claims =>
      intro id hcount
      rw [(hperm.flatMap_right LayerPlugin.claims).count_eq] at hcount
      exact h.claims id hcount
  case identities => exact fun p hp => h.identities p (hperm.mem_iff.1 hp)
  case condense => exact fun p hp => h.condense p (hperm.mem_iff.1 hp)

/-- Nor does the name dispatched for an id. -/
theorem Dispatches.perm {plugins plugins' : List LayerPlugin} {overrides : List (RouteId × ProtocolName)}
    {unroutes : List RouteId} {id : RouteId} {found found' : Option LayerPlugin}
    (hperm : plugins'.Perm plugins) (h : Dispatches plugins overrides unroutes id found)
    (h' : Dispatches plugins' overrides unroutes id found') :
    found'.map LayerPlugin.name = found.map LayerPlugin.name := by
  cases hlast : lastOverride overrides id with
  | some name =>
      obtain ⟨p, -, hp, rfl⟩ := h.overridden name hlast
      obtain ⟨p', -, hp', rfl⟩ := h'.overridden name hlast
      simp [hp, hp']
  | none =>
      by_cases hun : id ∈ unroutes
      · rw [h.unrouted hlast (Or.inl hun), h'.unrouted hlast (Or.inl hun)]
      · by_cases hclaim : ∃ p ∈ plugins, id ∈ p.claims
        · obtain ⟨p, hp, hpid⟩ := hclaim
          rw [(h.claimed hlast hun p hp hpid).1,
            (h'.claimed hlast hun p (hperm.mem_iff.2 hp) hpid).1]
        · have hnone : ∀ p ∈ plugins, id ∉ p.claims := fun p hp hpid => hclaim ⟨p, hp, hpid⟩
          have hnone' : ∀ p ∈ plugins', id ∉ p.claims := fun p hp => hnone p (hperm.mem_iff.1 hp)
          rw [h.unrouted hlast (Or.inr hnone), h'.unrouted hlast (Or.inr hnone')]

/-- **Registry law.** For every sequence of builder calls: when it builds, what it dispatches, and that
neither depends on the order of the plugin registrations. -/
theorem registry_law (calls : List BuilderCall) :
    ((∃ e : Engine, (assemble calls).build = .ok e.registry) ↔
      Registrable (calls.filterMap BuilderCall.plugin?) (calls.filterMap BuilderCall.override?)
        (calls.filterMap BuilderCall.unroute?)) ∧
    (∀ e : Engine, (assemble calls).build = .ok e.registry → ∀ id,
      Dispatches (calls.filterMap BuilderCall.plugin?) (calls.filterMap BuilderCall.override?)
        (calls.filterMap BuilderCall.unroute?) id (e.pluginForRoute id)) ∧
    (∀ calls' : List BuilderCall,
      (calls'.filterMap BuilderCall.plugin?).Perm (calls.filterMap BuilderCall.plugin?) →
      calls'.filterMap BuilderCall.override? = calls.filterMap BuilderCall.override? →
      calls'.filterMap BuilderCall.unroute? = calls.filterMap BuilderCall.unroute? →
      ((∃ e : Engine, (assemble calls').build = .ok e.registry) ↔
        ∃ e : Engine, (assemble calls).build = .ok e.registry) ∧
      ∀ e e' : Engine, (assemble calls).build = .ok e.registry →
        (assemble calls').build = .ok e'.registry → ∀ id,
          (e'.pluginForRoute id).map LayerPlugin.name = (e.pluginForRoute id).map LayerPlugin.name) := by
  have hsuccess : ∀ calls : List BuilderCall,
      (∃ e : Engine, (assemble calls).build = .ok e.registry) ↔
        Registrable (calls.filterMap BuilderCall.plugin?) (calls.filterMap BuilderCall.override?)
          (calls.filterMap BuilderCall.unroute?) := by
    intro calls
    have hiff := EngineBuilder.build_ok_iff (assemble calls)
    rw [assemble_eq calls] at hiff ⊢
    rw [← hiff]
    constructor
    · rintro ⟨e, he⟩
      exact ⟨e.registry, he⟩
    · rintro ⟨r, hr⟩
      exact ⟨⟨r, _, hr⟩, hr⟩
  -- the three lists are all that a build reads of the calls
  have hdispatch : ∀ (calls : List BuilderCall) (e : Engine), (assemble calls).build = .ok e.registry →
      ∀ id, Dispatches (calls.filterMap BuilderCall.plugin?) (calls.filterMap BuilderCall.override?)
        (calls.filterMap BuilderCall.unroute?) id (e.pluginForRoute id) := by
    intro calls e he id
    rw [assemble_eq calls] at he
    exact EngineBuilder.build_dispatches he id
  refine ⟨hsuccess calls, hdispatch calls, ?_⟩
  intro calls' hperm hover hunroute
  constructor
  · rw [hsuccess calls', hsuccess calls, hover, hunroute]
    exact ⟨Registrable.perm hperm.symm, Registrable.perm hperm⟩
  · intro e e' he he' id
    have hfound' := hdispatch calls' e' he' id
    rw [hover, hunroute] at hfound'
    exact Dispatches.perm hperm (hdispatch calls e he id) hfound'

/-- A plugin that claims ids and declines every payload. -/
def claimant (name : ProtocolName) (ids : List RouteId) : LayerPlugin where
  name := name
  parse := fun _ _ => .error (.malformed "declines")
  claims := ids

/-- Two plugins that collide on a port, settled by an override between their registrations. -/
def contestedCalls : List BuilderCall :=
  [.plugin (claimant "a" [.udpPort 53]), .route (.udpPort 53) "b", .unroute (.tcpPort 80),
    .plugin (claimant "b" [.udpPort 53, .tcpPort 80])]

/-- The contested calls with the plugins registered the other way round. -/
def swappedCalls : List BuilderCall :=
  [.plugin (claimant "b" [.udpPort 53, .tcpPort 80]), .unroute (.tcpPort 80),
    .plugin (claimant "a" [.udpPort 53]), .route (.udpPort 53) "b"]

/-- Both orders build, and dispatch the contested port to the override's target. -/
theorem registry_law_contested :
    ∃ e e' : Engine, (assemble contestedCalls).build = .ok e.registry ∧
      (assemble swappedCalls).build = .ok e'.registry ∧
      (e.pluginForRoute (.udpPort 53)).map LayerPlugin.name = some "b" ∧
      (e'.pluginForRoute (.udpPort 53)).map LayerPlugin.name = some "b" := by
  obtain ⟨-, hdispatch, hperm⟩ := registry_law contestedCalls
  have hswap := hperm swappedCalls (List.Perm.swap _ _ []) rfl rfl
  have hbuilds : ∃ e : Engine, (assemble contestedCalls).build = .ok e.registry :=
    ⟨⟨_, assemble contestedCalls, rfl⟩, rfl⟩
  obtain ⟨e, he⟩ := hbuilds
  obtain ⟨e', he'⟩ := hswap.1.2 ⟨e, he⟩
  obtain ⟨p, -, hname, hfound⟩ := (hdispatch e he (.udpPort 53)).overridden "b" (by decide)
  have hb : (e.pluginForRoute (.udpPort 53)).map LayerPlugin.name = some "b" := by
    rw [hfound, Option.map_some, hname]
  exact ⟨e, e', he, he', hb, (hswap.2 e e' he he' (.udpPort 53)).trans hb⟩

end Pktflow.Core

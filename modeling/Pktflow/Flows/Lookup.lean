import Pktflow.Flows.Hierarchy

/-!
# The lookup tables

The index buckets and the condensation groups agree with the live streams in every state in which a
layer may be resolved (`TableInv`): a bucket holds exactly the live streams filed under its key, a
group's node is the live condensed stream of its anchor, and no two live streams share a parent, a
protocol and a key. The digest is arbitrary throughout.

A condensed node's key starts with a sentinel byte that no encoded value starts with, so it is never a
key that `flow_key` builds: the builder admits condensation for `EndpointSort` identities only.
-/

set_option autoImplicit false

namespace Pktflow.Flows

open Pktflow.Core Pktflow.Lib

/-! ## Built keys and synthesized keys -/

/-- A key that could be built needed every key field. -/
theorem holdsKey_of_gatherSides {f : FieldMap} {key : List KeyField} {acc r : Sides}
    (h : gatherSides f key acc = .ok r) : HoldsKey key f := by
  induction key generalizing acc with
  | nil =>
      intro kf hkf
      cases hkf
  | cons kf key ih =>
      simp only [gatherSides] at h
      cases hva : f.get kf.a with
      -- a missing field stops the gathering with an error
      | none => rw [hva] at h; cases h
      | some va =>
          rw [hva] at h
          cases hb : kf.b with
          | none =>
              rw [hb] at h
              intro x hx
              rcases List.mem_cons.1 hx with rfl | hx
              · refine ⟨⟨va, hva⟩, fun b hb' => ?_⟩
                rw [hb] at hb'
                cases hb'
              · exact ih h x hx
          | some b =>
              simp only [hb] at h
              cases hvb : f.get b with
              | none => rw [hvb] at h; cases h
              | some vb =>
                  rw [hvb] at h
                  intro x hx
                  rcases List.mem_cons.1 hx with rfl | hx
                  · refine ⟨⟨va, hva⟩, fun c hc => ?_⟩
                    rw [hb] at hc
                    obtain rfl := Option.some.inj hc
                    exact ⟨vb, hvb⟩
                  · exact ih h x hx

theorem valueTag_ne_sentinel (v : Value) : valueTag v ≠ condensedKeySentinel := by
  cases v <;> simp only [valueTag] <;> decide

/-- The encoding of a nonempty tuple starts with a value tag. -/
theorem encodeAll_ne_sentinel {vs : List Value} (hvs : vs ≠ []) (anchor : KeyBuf) :
    encodeAll vs ≠ condensedKeySentinel :: anchor := by
  cases vs with
  | nil => exact absurd rfl hvs
  | cons v vs =>
      intro h
      obtain ⟨rest, hrest⟩ := encodeValue_eq_cons v
      simp only [encodeAll, List.flatMap_cons, hrest, List.cons_append, List.cons.injEq] at h
      exact valueTag_ne_sentinel v h.1

/-- `flow_key` builds no key with the sentinel for an `EndpointSort` identity with a paired component. -/
theorem flowKey_ne_sentinel {identity : StreamIdentity} {f : FieldMap} {key : FlowKey}
    {dir : PacketDirection} (hc : identity.canonicalize = .endpointSort) {kf : KeyField}
    (hkf : kf ∈ identity.key) {b : FieldName} (hb : kf.b = some b)
    (h : flowKey identity f = .ok (key, dir)) (anchor : KeyBuf) :
    key ≠ condensedKeySentinel :: anchor := by
  have hholds : HoldsKey identity.key f := by
    simp only [flowKey, hc] at h
    cases hg : gatherSides f identity.key {} with
    | error e => rw [hg] at h; cases h
    | ok r => exact holdsKey_of_gatherSides hg
  rw [flowKey_eq hc hholds] at h
  obtain ⟨rfl, -⟩ := Prod.mk.inj (Except.ok.inj h)
  -- the key encodes a tuple of values, and the paired component contributes one
  have hpaired : 0 < (identity.key.filter fun kf => kf.b.isSome).length :=
    List.length_pos_of_mem (List.mem_filter.2 ⟨hkf, by rw [hb]; rfl⟩)
  have hside : (sortedSides identity.key f).1 ≠ [] := by
    apply List.ne_nil_of_length_pos
    rcases sortedSides_cases identity.key f with ⟨h1, -⟩ | ⟨h1, -⟩
    · rw [h1, length_aValues hholds]
      exact hpaired
    · rw [h1, length_bValues hholds]
      exact hpaired
  have hall : encodeAll (unpairedValues identity.key f) ++
      (encodeAll (sortedSides identity.key f).1 ++ encodeAll (sortedSides identity.key f).2) =
      encodeAll (unpairedValues identity.key f ++
        ((sortedSides identity.key f).1 ++ (sortedSides identity.key f).2)) := by
    simp only [encodeAll, List.flatMap_append]
  rw [hall]
  apply encodeAll_ne_sentinel
  intro hnil
  exact hside (List.append_eq_nil_iff.1 (List.append_eq_nil_iff.1 hnil).2).1

/-- The engine was built, so a declaration of condensation has passed the builder's checks. -/
theorem identityOf_valid {env : Env} {protocol : ProtocolName} {plugin : LayerPlugin}
    {identity : StreamIdentity} {spec : CondenseSpec}
    (hid : Aggregator.identityOf env protocol = some (plugin, identity))
    (hspec : plugin.condense = some spec) :
    identity.canonicalize = .endpointSort ∧ spec.ephemeral ∈ identity.key ∧
      ∃ b, spec.ephemeral.b = some b := by
  simp only [Aggregator.identityOf, Option.bind_eq_bind, Option.bind_eq_some_iff, Option.pure_def,
    Option.some.injEq, Prod.mk.injEq] at hid
  obtain ⟨p, hp, i, hi, rfl, rfl⟩ := hid
  have hvalid := env.engine.condense_valid hp hspec
  obtain ⟨i', hi', hsort, hmem⟩ := hvalid.identity
  rw [hi] at hi'
  obtain rfl := Option.some.inj hi'
  exact ⟨hsort, hmem, hvalid.paired⟩

/-- A built key of a condensable protocol is not a condensed node's key. -/
theorem flowKey_ne_nodeKey {env : Env} {protocol : ProtocolName} {plugin : LayerPlugin}
    {identity : StreamIdentity} {spec : CondenseSpec} {f : FieldMap} {key : FlowKey}
    {dir : PacketDirection} (hid : Aggregator.identityOf env protocol = some (plugin, identity))
    (hspec : plugin.condense = some spec) (h : flowKey identity f = .ok (key, dir))
    (anchor : KeyBuf) : key ≠ condensedKeySentinel :: anchor := by
  obtain ⟨hsort, hmem, b, hb⟩ := identityOf_valid hid hspec
  exact flowKey_ne_sentinel hsort hmem hb h anchor

/-- The index key a stream is filed under. -/
def Frame.indexKey (f : Frame) (env : Env) : IndexKey := (f.parent, f.protocol, env.digest f.key)

namespace Aggregator

/-! ## Buckets -/

theorem bucket_create (env : Env) (a : Aggregator) (n : NewStream) (k : IndexKey) :
    (a.createStreamRaw env n).1.bucket k =
      if k = (n.parent, n.protocol, env.digest n.key) then a.bucket k ++ [a.freshId]
      else a.bucket k := by
  show ((a.index.insert (n.parent, n.protocol, env.digest n.key)
    (a.bucket (n.parent, n.protocol, env.digest n.key) ++ [a.freshId])).lookup k).getD [] = _
  split
  · rename_i hk
    rw [hk, AList.lookup_insert]
    rfl
  · rename_i hk
    rw [AList.lookup_insert_ne hk]
    rfl

theorem bucket_unindex (env : Env) (a : Aggregator) (s : Stream) (id : StreamId) (k : IndexKey) :
    (a.unindex env s id).bucket k =
      if k = (s.parent, s.protocol, env.digest s.key) then (a.bucket k).filter fun c => c ≠ id
      else a.bucket k := by
  unfold unindex bucket
  -- an erased bucket reads as the empty one
  generalize hkey : ((s.parent, s.protocol, env.digest s.key) : IndexKey) = key
  simp only
  cases hids : a.index.lookup key with
  | none =>
      by_cases hk : k = key
      · rw [if_pos hk, hk, hids]
        rfl
      · rw [if_neg hk]
  | some ids =>
      dsimp only
      by_cases hk : k = key
      · subst hk
        rw [if_pos rfl, hids, Option.getD_some]
        split
        · rename_i hrest
          rw [AList.lookup_erase, hrest]
          rfl
        · rw [AList.lookup_insert]
          rfl
      · rw [if_neg hk]
        split
        · rw [AList.lookup_erase_ne hk]
        · rw [AList.lookup_insert_ne hk]

/-! ## Groups -/

/-- `m'` has the condensed nodes of `m`, with their members; its other groups have neither. -/
structure SameNodes (m m' : HashMap CondenseKey CondenseGroup) : Prop where
  keeps : ∀ {ck g id}, m.lookup ck = some g → g.node = some id →
    ∃ g', m'.lookup ck = some g' ∧ g'.node = some id
  only : ∀ {ck g'}, m'.lookup ck = some g' → (g'.node = none ∧ g'.members = ∅) ∨
    ∃ g, m.lookup ck = some g ∧ g.node = g'.node ∧ g.members = g'.members

theorem SameNodes.refl (m : HashMap CondenseKey CondenseGroup) : SameNodes m m :=
  ⟨fun hg hn => ⟨_, hg, hn⟩, fun hg => .inr ⟨_, hg, rfl, rfl⟩⟩

theorem SameNodes.trans {m m' m'' : HashMap CondenseKey CondenseGroup} (h : SameNodes m m')
    (h' : SameNodes m' m'') : SameNodes m m'' := by
  refine ⟨?_, ?_⟩
  · intro ck g id hg hn
    obtain ⟨g', hg', hn'⟩ := h.keeps hg hn
    exact h'.keeps hg' hn'
  · intro ck g'' hg''
    rcases h'.only hg'' with hempty | ⟨g', hg', hn', hm'⟩
    · exact .inl hempty
    · -- a group of the last map is one of the middle map, and that one may be new
      rcases h.only hg' with ⟨hn, hm⟩ | ⟨g, hg, hn, hm⟩
      · exact .inl ⟨hn'.symm.trans hn, hm'.symm.trans hm⟩
      · exact .inr ⟨g, hg, hn.trans hn', hm.trans hm'⟩

/-- A group with another tally of expanded flows. -/
theorem SameNodes.insert {m : HashMap CondenseKey CondenseGroup} (ck : CondenseKey) (n : Nat) :
    SameNodes m (m.insert ck { (m.lookup ck).getD {} with expanded := n }) := by
  refine ⟨?_, ?_⟩
  · intro ck' g id hg hn
    by_cases hck : ck' = ck
    · subst hck
      rw [AList.lookup_insert, hg]
      exact ⟨_, rfl, hn⟩
    · rw [AList.lookup_insert_ne hck]
      exact ⟨g, hg, hn⟩
  · intro ck' g' hg'
    rcases lookup_insert_eq_some.1 hg' with ⟨rfl, rfl⟩ | ⟨-, hg'⟩
    · cases hg : m.lookup ck' with
      | none => exact .inl ⟨rfl, rfl⟩
      | some g => exact .inr ⟨g, rfl, rfl, rfl⟩
    · exact .inr ⟨g', hg', rfl, rfl⟩

theorem SameNodes.tally (parent : Option StreamId) (protocol : ProtocolName)
    (m : HashMap CondenseKey CondenseGroup) (c : CondenseCandidate) :
    SameNodes m (tallyAnchor parent protocol m c) := .insert _ _

theorem SameNodes.untally (parent : Option StreamId) (protocol : ProtocolName)
    (m : HashMap CondenseKey CondenseGroup) (c : CondenseCandidate) :
    SameNodes m (untallyAnchor parent protocol m c) := by
  cases hg : m.lookup (parent, protocol, c.anchor) with
  | none =>
      simp only [untallyAnchor, hg]
      exact .refl m
  | some group =>
      simp only [untallyAnchor, hg]
      split
      · rename_i hempty
        refine ⟨?_, ?_⟩
        · intro ck g id hck hn
          -- the erased group has no node
          have hne : ck ≠ (parent, protocol, c.anchor) := by
            rintro rfl
            rw [hg] at hck
            obtain rfl := Option.some.inj hck
            rw [hempty.2] at hn
            cases hn
          rw [AList.lookup_erase_ne hne]
          exact ⟨g, hck, hn⟩
        · intro ck g' hck
          exact .inr ⟨g', (lookup_erase_eq_some.1 hck).2, rfl, rfl⟩
      · have hins := SameNodes.insert (m := m) (parent, protocol, c.anchor) (group.expanded - 1)
        rw [hg] at hins
        exact hins

/-- Step by step along a list of anchors. -/
theorem SameNodes.foldl {f : HashMap CondenseKey CondenseGroup → CondenseCandidate →
    HashMap CondenseKey CondenseGroup} (hf : ∀ m c, SameNodes m (f m c)) (cs : List CondenseCandidate)
    (m : HashMap CondenseKey CondenseGroup) : SameNodes m (cs.foldl f m) := by
  induction cs generalizing m with
  | nil => exact .refl m
  | cons c cs ih => exact (hf m c).trans (ih (f m c))

/-- The eviction of an expanded stream keeps every node. -/
theorem SameNodes.groupsWithout (env : Env) (m : HashMap CondenseKey CondenseGroup) {s : Stream}
    (hs : s.condensed.isSome = false) : SameNodes m (groupsWithout env m s) := by
  rw [Aggregator.groupsWithout]
  rw [hs]
  split
  · exact .refl m
  · rw [if_neg (by simp)]
    cases env.engine.pluginByName s.protocol with
    | none => exact .refl m
    | some plugin =>
        dsimp only
        split
        · split
          · exact .refl m
          · exact .foldl (SameNodes.untally s.parent s.protocol) _ m
        · exact .refl m

/-! ## The index -/

/-- The index agrees with the live streams, and no two of them have one parent, protocol and key. -/
structure IndexInv (env : Env) (a : Aggregator) : Prop where
  mem_bucket : ∀ {k id}, id ∈ a.bucket k ↔ ∃ f, a.frames id = some f ∧ f.indexKey env = k
  bucket_nodup : ∀ k, (a.bucket k).Nodup
  unique : ∀ {i j f g}, a.frames i = some f → a.frames j = some g → f.parent = g.parent →
    f.protocol = g.protocol → f.key = g.key → i = j

namespace IndexInv

variable {env : Env} {a b : Aggregator}

/-- Nothing but the frames and the index matters. -/
theorem congr (h : IndexInv env a) (hframes : b.frames = a.frames) (hindex : b.index = a.index) :
    IndexInv env b := by
  have hbucket : ∀ k, b.bucket k = a.bucket k := by
    intro k
    unfold bucket
    rw [hindex]
  constructor
  case mem_bucket =>
    intro k id
    rw [hbucket, hframes]
    exact h.mem_bucket
  case bucket_nodup =>
    intro k
    rw [hbucket]
    exact h.bucket_nodup k
  case unique =>
    rw [hframes]
    exact h.unique

theorem new (env : Env) : IndexInv env Aggregator.new where
  mem_bucket := by
    intro k id
    constructor
    · intro h
      cases h
    · rintro ⟨f, hf, -⟩
      cases hf
  bucket_nodup := fun _ => List.nodup_nil
  unique := by intro i j f g hf; cases hf

theorem create (h : IndexInv env a) {n : NewStream} (hlim : a.Fits) (hp : a.Linked n.parent)
    (hfree : ∀ {i f}, a.frames i = some f → f.parent = n.parent → f.protocol = n.protocol →
      f.key ≠ n.key) : IndexInv env (a.createStreamRaw env n).1 := by
  have hcases : ∀ {x f}, (a.createStreamRaw env n).1.frames x = some f ↔
      (x = a.freshId ∧ f = (n.record a.freshId a.nextSeq).frame) ∨ a.frames x = some f :=
    frames_of_create env hlim hp
  have hkey : (n.record a.freshId a.nextSeq).frame.indexKey env =
      (n.parent, n.protocol, env.digest n.key) := rfl
  constructor
  case mem_bucket =>
    intro k x
    rw [bucket_create, ← hkey]
    constructor
    · intro hx
      split at hx
      · rename_i hk
        rcases List.mem_append.1 hx with hx | hx
        · obtain ⟨f, hf, hk'⟩ := h.mem_bucket.1 hx
          exact ⟨f, hcases.2 (.inr hf), hk'⟩
        · obtain rfl := List.mem_singleton.1 hx
          -- the fresh id, filed under the key of its record
          exact ⟨_, hcases.2 (.inl ⟨rfl, rfl⟩), hk.symm⟩
      · obtain ⟨f, hf, hk'⟩ := h.mem_bucket.1 hx
        exact ⟨f, hcases.2 (.inr hf), hk'⟩
    · rintro ⟨f, hf, hk⟩
      rcases hcases.1 hf with ⟨rfl, rfl⟩ | hf
      · rw [if_pos hk.symm]
        exact List.mem_append_right _ List.mem_cons_self
      · have hmem := h.mem_bucket.2 ⟨f, hf, hk⟩
        split
        · exact List.mem_append_left _ hmem
        · exact hmem
  case bucket_nodup =>
    intro k
    rw [bucket_create]
    split
    · refine List.nodup_append'.2 ⟨h.bucket_nodup k, List.nodup_singleton _, ?_⟩
      intro x hx hx'
      obtain rfl := List.mem_singleton.1 hx'
      obtain ⟨f, hf, -⟩ := h.mem_bucket.1 hx
      obtain ⟨s, hs⟩ := live_iff_frames.2 ⟨f, hf⟩
      -- the fresh id names no live stream, so no bucket holds it yet
      exact ne_freshId hlim hs rfl
    · exact h.bucket_nodup k
  case unique =>
    intro i j f g hi hj hpar hpro hkey
    rcases hcases.1 hi with ⟨rfl, rfl⟩ | hi
    · rcases hcases.1 hj with ⟨rfl, -⟩ | hj
      · rfl
      · -- no old stream has the key of the new one
        exact absurd hkey.symm (hfree hj hpar.symm hpro.symm)
    · rcases hcases.1 hj with ⟨rfl, rfl⟩ | hj
      · exact absurd hkey (hfree hi hpar hpro)
      · exact h.unique hi hj hpar hpro hkey

theorem evict (h : IndexInv env a) {id : StreamId} {s : Stream} (reason : CloseReason)
    (hs : a.get id = some s) : IndexInv env (a.evict env id reason) := by
  have hold : ∀ {x f}, (a.evict env id reason).frames x = some f ↔ x ≠ id ∧ a.frames x = some f :=
    frames_of_evict env reason hs
  have hbucket : ∀ k, (a.evict env id reason).bucket k = (a.unindex env s id).bucket k := by
    intro k
    unfold bucket
    rw [(evict_updated env reason hs).2.2.2.2]
  refine ⟨?_, ?_, fun hi hj => h.unique (hold.1 hi).2 (hold.1 hj).2⟩
  · intro k x
    rw [hbucket, bucket_unindex]
    constructor
    · intro hx
      split at hx
      · obtain ⟨hx, hne⟩ := List.mem_filter.1 hx
        obtain ⟨f, hf, hk⟩ := h.mem_bucket.1 hx
        exact ⟨f, hold.2 ⟨of_decide_eq_true hne, hf⟩, hk⟩
      · rename_i hk'
        obtain ⟨f, hf, hk⟩ := h.mem_bucket.1 hx
        refine ⟨f, hold.2 ⟨?_, hf⟩, hk⟩
        -- the evicted stream is filed under another key
        rintro rfl
        rw [frames_of_get hs] at hf
        obtain rfl := Option.some.inj hf
        exact hk' hk.symm
    · rintro ⟨f, hx, hk⟩
      obtain ⟨hne, hx⟩ := hold.1 hx
      have hmem := h.mem_bucket.2 ⟨f, hx, hk⟩
      split
      · exact List.mem_filter.2 ⟨hmem, decide_eq_true hne⟩
      · exact hmem
  · intro k
    rw [hbucket, bucket_unindex]
    split
    · exact (h.bucket_nodup k).filter _
    · exact h.bucket_nodup k

end IndexInv

/-! ## The groups and the keys -/

/-- The groups agree with the live condensed nodes, and every key is of its kind. -/
structure GroupInv (env : Env) (a : Aggregator) : Prop where
  /-- An expanded stream's key was built by `flow_key` for its protocol. -/
  built : ∀ {id f}, a.frames id = some f → f.isNode = false → ∃ plugin identity fields dir,
    identityOf env f.protocol = some (plugin, identity) ∧ flowKey identity fields = .ok (f.key, dir)
  /-- A condensed node's protocol declares condensation. -/
  declared : ∀ {id f}, a.frames id = some f → f.isNode = true → ∃ plugin identity spec,
    identityOf env f.protocol = some (plugin, identity) ∧ plugin.condense = some spec
  /-- The node of a group is the live condensed stream of its anchor. -/
  node_live : ∀ {ck g id}, a.condense.lookup ck = some g → g.node = some id →
    ∃ f, a.frames id = some f ∧ f.isNode = true ∧ f.parent = ck.1 ∧ f.protocol = ck.2.1 ∧
      f.key = condensedKeySentinel :: ck.2.2
  /-- A live condensed stream is the node of the group of its anchor. -/
  node_group : ∀ {id f}, a.frames id = some f → f.isNode = true → ∃ anchor g,
    f.key = condensedKeySentinel :: anchor ∧
      a.condense.lookup (f.parent, f.protocol, anchor) = some g ∧ g.node = some id
  members : ∀ {ck g}, a.condense.lookup ck = some g → g.node = none → g.members = ∅
  off : env.config.condenseThreshold = 0 → ∀ ck, a.condense.lookup ck = none

namespace GroupInv

variable {env : Env} {a b : Aggregator}

/-- Nothing but the frames and the groups matters. -/
theorem congr (h : GroupInv env a) (hframes : b.frames = a.frames)
    (hcondense : b.condense = a.condense) : GroupInv env b := by
  constructor
  case built =>
    rw [hframes]
    exact h.built
  case declared =>
    rw [hframes]
    exact h.declared
  case node_live =>
    rw [hframes, hcondense]
    exact h.node_live
  case node_group =>
    rw [hframes, hcondense]
    exact h.node_group
  case members =>
    rw [hcondense]
    exact h.members
  case off =>
    rw [hcondense]
    exact h.off

theorem new (env : Env) : GroupInv env Aggregator.new where
  built := by intro id f hf; cases hf
  declared := by intro id f hf; cases hf
  node_live := by intro ck g id hg; cases hg
  node_group := by intro id f hf; cases hf
  members := by intro ck g hg; cases hg
  off := fun _ _ => rfl

/-- Other tallies of expanded flows do not matter. -/
theorem sameNodes (h : GroupInv env a) (hframes : b.frames = a.frames)
    (hm : SameNodes a.condense b.condense)
    (hoff : env.config.condenseThreshold = 0 → ∀ ck, b.condense.lookup ck = none) :
    GroupInv env b := by
  constructor
  case built =>
    rw [hframes]
    exact h.built
  case declared =>
    rw [hframes]
    exact h.declared
  case node_live =>
    intro ck g id hg hn
    rw [hframes]
    rcases hm.only hg with ⟨hnone, -⟩ | ⟨g', hg', hn', -⟩
    · rw [hn] at hnone
      cases hnone
    · exact h.node_live hg' (hn'.trans hn)
  case node_group =>
    intro id f hf hnode
    rw [hframes] at hf
    obtain ⟨anchor, g, hkey, hg, hn⟩ := h.node_group hf hnode
    obtain ⟨g', hg', hn'⟩ := hm.keeps hg hn
    exact ⟨anchor, g', hkey, hg', hn'⟩
  case members =>
    intro ck g hg hn
    rcases hm.only hg with ⟨-, hempty⟩ | ⟨g', hg', hn', hm'⟩
    · exact hempty
    · rw [← hm']
      exact h.members hg' (hn'.trans hn)
  case off => exact hoff

/-- A live condensed node means condensation is on, and the group to erase is its own. -/
theorem groupsWithout_node (h : GroupInv env a) {id : StreamId} {s : Stream} (hs : a.get id = some s)
    (hnode : s.condensed.isSome = true) : ∃ anchor g, s.key = condensedKeySentinel :: anchor ∧
      a.condense.lookup (s.parent, s.protocol, anchor) = some g ∧ g.node = some id ∧
      groupsWithout env a.condense s = a.condense.erase (s.parent, s.protocol, anchor) := by
  obtain ⟨anchor, g, hkey, hg, hn⟩ := h.node_group (frames_of_get hs) hnode
  have hkey' : s.key = condensedKeySentinel :: anchor := hkey
  refine ⟨anchor, g, hkey', hg, hn, ?_⟩
  rw [groupsWithout]
  -- a group exists, so condensation is on
  have hon : env.config.condenseThreshold ≠ 0 := by
    intro hoff
    rw [h.off hoff] at hg
    cases hg
  rw [if_neg hon, if_pos hnode, hkey']
  rfl

/-- The eviction of an expanded stream. -/
theorem evict_expanded (h : GroupInv env a) {id : StreamId} {s : Stream} (reason : CloseReason)
    (hs : a.get id = some s) (hnode : s.condensed.isSome = false) :
    GroupInv env (a.evict env id reason) := by
  have hold : ∀ {x f}, (a.evict env id reason).frames x = some f ↔ x ≠ id ∧ a.frames x = some f :=
    frames_of_evict env reason hs
  have hsame := SameNodes.groupsWithout env a.condense hnode
  rw [← (evict_updated env reason hs).2.2.2.1] at hsame
  constructor
  case built => exact fun hx => h.built (hold.1 hx).2
  case declared => exact fun hx => h.declared (hold.1 hx).2
  case node_live =>
    intro ck g x hg hn
    rcases hsame.only hg with ⟨hnone, -⟩ | ⟨g', hg', hn', -⟩
    · rw [hn] at hnone
      cases hnone
    · obtain ⟨f, hfx, hisnode, hrest⟩ := h.node_live hg' (hn'.trans hn)
      refine ⟨f, hold.2 ⟨?_, hfx⟩, hisnode, hrest⟩
      rintro rfl
      rw [frames_of_get hs] at hfx
      obtain rfl := Option.some.inj hfx
      rw [show s.frame.isNode = s.condensed.isSome from rfl, hnode] at hisnode
      cases hisnode
  case node_group =>
    intro x f hx hisnode
    obtain ⟨anchor, g, hkey, hg, hn⟩ := h.node_group (hold.1 hx).2 hisnode
    obtain ⟨g', hg', hn'⟩ := hsame.keeps hg hn
    exact ⟨anchor, g', hkey, hg', hn'⟩
  case members =>
    intro ck g hg hn
    rcases hsame.only hg with ⟨-, hempty⟩ | ⟨g', hg', hn', hm'⟩
    · exact hempty
    · rw [← hm']
      exact h.members hg' (hn'.trans hn)
  case off =>
    intro hoff ck
    rw [(evict_updated env reason hs).2.2.2.1, groupsWithout, if_pos hoff]
    exact h.off hoff ck

/-- The eviction of a condensed node takes its group along. -/
theorem evict_node (h : GroupInv env a) {id : StreamId} {s : Stream} (reason : CloseReason)
    (hs : a.get id = some s) (hnode : s.condensed.isSome = true) :
    GroupInv env (a.evict env id reason) := by
  have hold : ∀ {x f}, (a.evict env id reason).frames x = some f ↔ x ≠ id ∧ a.frames x = some f :=
    frames_of_evict env reason hs
  obtain ⟨anchor, own, hkey, hown, hownnode, hwithout⟩ := h.groupsWithout_node hs hnode
  have hcondense := (evict_updated env reason hs).2.2.2.1
  rw [hwithout] at hcondense
  have hlookup : ∀ {ck g}, (a.evict env id reason).condense.lookup ck = some g →
      ck ≠ (s.parent, s.protocol, anchor) ∧ a.condense.lookup ck = some g := by
    intro ck g hg
    rw [hcondense] at hg
    exact lookup_erase_eq_some.1 hg
  constructor
  case built => exact fun hx => h.built (hold.1 hx).2
  case declared => exact fun hx => h.declared (hold.1 hx).2
  case node_live =>
    intro ck g x hg hn
    obtain ⟨hck, hg⟩ := hlookup hg
    obtain ⟨f, hfx, hisnode, hp, hpr, hk⟩ := h.node_live hg hn
    refine ⟨f, hold.2 ⟨?_, hfx⟩, hisnode, hp, hpr, hk⟩
    -- the evicted stream is the node of the erased group only
    rintro rfl
    rw [frames_of_get hs] at hfx
    obtain rfl := Option.some.inj hfx
    apply hck
    have hanchor : ck.2.2 = anchor := (List.cons.inj (hk.symm.trans hkey)).2
    exact Prod.ext hp.symm (Prod.ext hpr.symm hanchor)
  case node_group =>
    intro x f hx hisnode
    obtain ⟨hne, hx⟩ := hold.1 hx
    obtain ⟨anchor', g, hkey', hg, hn⟩ := h.node_group hx hisnode
    refine ⟨anchor', g, hkey', ?_, hn⟩
    rw [hcondense, AList.lookup_erase_ne, hg]
    -- one group has one node
    intro heq
    rw [heq, hown] at hg
    obtain rfl := Option.some.inj hg
    rw [hownnode] at hn
    exact hne (Option.some.inj hn).symm
  case members =>
    intro ck g hg hn
    exact h.members (hlookup hg).2 hn
  case off =>
    intro hoff ck
    rw [h.off hoff] at hown
    cases hown

theorem evict (h : GroupInv env a) {id : StreamId} {s : Stream} (reason : CloseReason)
    (hs : a.get id = some s) : GroupInv env (a.evict env id reason) := by
  cases hnode : s.condensed.isSome with
  | true => exact h.evict_node reason hs hnode
  | false => exact h.evict_expanded reason hs hnode

/-- The creation of an expanded stream with a built key. -/
theorem create_expanded (h : GroupInv env a) {n : NewStream} (hlim : a.Fits) (hp : a.Linked n.parent)
    (hn : n.condensed = none)
    (hbuilt : ∃ plugin identity fields dir, identityOf env n.protocol = some (plugin, identity) ∧
      flowKey identity fields = .ok (n.key, dir)) : GroupInv env (a.createStreamRaw env n).1 := by
  have hcases : ∀ {x f}, (a.createStreamRaw env n).1.frames x = some f ↔
      (x = a.freshId ∧ f = (n.record a.freshId a.nextSeq).frame) ∨ a.frames x = some f :=
    frames_of_create env hlim hp
  have hexpanded : (n.record a.freshId a.nextSeq).frame.isNode = false := by
    show n.condensed.isSome = false
    rw [hn]
    rfl
  constructor
  case built =>
    intro x f hx hisnode
    rcases hcases.1 hx with ⟨-, rfl⟩ | hx
    · exact hbuilt
    · exact h.built hx hisnode
  case declared =>
    intro x f hx hisnode
    rcases hcases.1 hx with ⟨-, rfl⟩ | hx
    · rw [hexpanded] at hisnode
      cases hisnode
    · exact h.declared hx hisnode
  case node_live =>
    intro ck g x hg hnode
    obtain ⟨f, hf, hrest⟩ := h.node_live hg hnode
    exact ⟨f, hcases.2 (.inr hf), hrest⟩
  case node_group =>
    intro x f hx hisnode
    rcases hcases.1 hx with ⟨-, rfl⟩ | hx
    · rw [hexpanded] at hisnode
      cases hisnode
    · exact h.node_group hx hisnode
  case members => exact h.members
  case off => exact h.off

/-- The creation of the node of a group that has none. -/
theorem create_node (h : GroupInv env a) {ckey : CondenseKey} {group : CondenseGroup}
    (identity : StreamIdentity) (c : CondenseCandidate) (ts : SystemTime) (hlim : a.Fits)
    (hp : a.Linked ckey.1) (hg : a.condense.lookup ckey = some group) (hnone : group.node = none)
    (hdecl : ∃ plugin identity spec, identityOf env ckey.2.1 = some (plugin, identity) ∧
      plugin.condense = some spec) :
    GroupInv env (a.createNode env ckey group identity c ts).1 := by
  have hcases : ∀ {x f}, (a.createNode env ckey group identity c ts).1.frames x = some f ↔
      (x = a.freshId ∧ f = ((nodeStream env ckey identity c ts).record a.freshId a.nextSeq).frame) ∨
        a.frames x = some f :=
    frames_of_create (n := nodeStream env ckey identity c ts) env hlim hp
  have hcondense : (a.createNode env ckey group identity c ts).1.condense =
      a.condense.insert ckey { group with node := some a.freshId } := rfl
  constructor
  case built =>
    intro x f hx hisnode
    rcases hcases.1 hx with ⟨-, rfl⟩ | hx
    · cases hisnode
    · exact h.built hx hisnode
  case declared =>
    intro x f hx hisnode
    rcases hcases.1 hx with ⟨-, rfl⟩ | hx
    · exact hdecl
    · exact h.declared hx hisnode
  case node_live =>
    intro ck g x hck hnode
    rw [hcondense] at hck
    rcases lookup_insert_eq_some.1 hck with ⟨rfl, rfl⟩ | ⟨-, hck⟩
    · obtain rfl := Option.some.inj hnode
      -- the group whose node was just created
      exact ⟨_, hcases.2 (.inl ⟨rfl, rfl⟩), rfl, rfl, rfl, rfl⟩
    · obtain ⟨f, hf, hrest⟩ := h.node_live hck hnode
      exact ⟨f, hcases.2 (.inr hf), hrest⟩
  case node_group =>
    intro x f hx hisnode
    rw [hcondense]
    rcases hcases.1 hx with ⟨rfl, rfl⟩ | hx
    · -- the new node belongs to the group it was created for
      exact ⟨ckey.2.2, _, rfl, AList.lookup_insert _, rfl⟩
    · obtain ⟨anchor, g, hkey, hlook, hnode⟩ := h.node_group hx hisnode
      refine ⟨anchor, g, hkey, ?_, hnode⟩
      rw [AList.lookup_insert_ne, hlook]
      -- the group at hand had no node
      intro heq
      rw [heq, hg] at hlook
      obtain rfl := Option.some.inj hlook
      rw [hnone] at hnode
      cases hnode
  case members =>
    intro ck g hck hnode
    rw [hcondense] at hck
    rcases lookup_insert_eq_some.1 hck with ⟨-, rfl⟩ | ⟨-, hck⟩
    · cases hnode
    · exact h.members hck hnode
  case off =>
    intro hoff ck
    rw [h.off hoff] at hg
    cases hg

/-- A member is counted in a group that has a node. -/
theorem addMember (h : GroupInv env a) {ckey : CondenseKey} {g : CondenseGroup} {id : StreamId}
    (hg : a.condense.lookup ckey = some g) (hnode : g.node = some id) (digest : UInt64) :
    GroupInv env (a.addMember ckey id digest) := by
  have hframes := frames_addMember a ckey id digest
  have hm := addMember_spec a ckey id digest
  generalize a.addMember ckey id digest = b at hframes hm
  cases hm with
  | known => exact h
  | overflow => exact h.congr hframes rfl
  | counted hg' _ =>
      rw [hg] at hg'
      obtain rfl := Option.some.inj hg'
      constructor
      case built =>
        rw [hframes]
        exact h.built
      case declared =>
        rw [hframes]
        exact h.declared
      case node_live =>
        intro ck g' x hck hn
        rw [hframes]
        rcases lookup_insert_eq_some.1 hck with ⟨rfl, rfl⟩ | ⟨-, hck⟩
        · exact h.node_live hg hn
        · exact h.node_live hck hn
      case node_group =>
        intro x f hx hisnode
        rw [hframes] at hx
        obtain ⟨anchor, g', hkey, hlook, hn⟩ := h.node_group hx hisnode
        by_cases heq : (f.parent, f.protocol, anchor) = ckey
        · rw [heq, hg] at hlook
          obtain rfl := Option.some.inj hlook
          refine ⟨anchor, { g with members := insert digest g.members }, hkey, ?_, hn⟩
          show (a.condense.insert ckey _).lookup _ = some _
          rw [heq, AList.lookup_insert]
        · refine ⟨anchor, g', hkey, ?_, hn⟩
          show (a.condense.insert ckey _).lookup _ = some g'
          rw [AList.lookup_insert_ne heq]
          exact hlook
      case members =>
        intro ck g' hck hn
        rcases lookup_insert_eq_some.1 hck with ⟨-, rfl⟩ | ⟨-, hck⟩
        · -- the group at hand has a node, so it says nothing here
          rw [hnode] at hn
          cases hn
        · exact h.members hck hn
      case off =>
        intro hoff ck
        rw [h.off hoff] at hg
        cases hg

end GroupInv

/-! ## The tables along a run -/

/-- The index and the groups agree with the live streams. -/
structure TableInv (env : Env) (a : Aggregator) : Prop where
  index : IndexInv env a
  groups : GroupInv env a

/-- With condensation off nothing is tallied. -/
theorem candidates_off {env : Env} {identity : StreamIdentity} {condense : Option CondenseSpec}
    {fields : FieldMap} (h : env.config.condenseThreshold = 0) :
    candidatesOf env identity condense fields = none := by
  rw [candidatesOf]
  rw [if_neg (by omega)]

namespace TableInv

variable {env : Env} {a b : Aggregator}

/-- Nothing but the frames and the tables matters. -/
theorem congr (h : TableInv env a) (hframes : b.frames = a.frames) (hindex : b.index = a.index)
    (hcondense : b.condense = a.condense) : TableInv env b :=
  ⟨h.index.congr hframes hindex, h.groups.congr hframes hcondense⟩

theorem addMember (h : TableInv env a) {ckey : CondenseKey} {g : CondenseGroup} {id : StreamId}
    (hg : a.condense.lookup ckey = some g) (hnode : g.node = some id) (digest : UInt64) :
    TableInv env (a.addMember ckey id digest) := by
  refine ⟨h.index.congr (frames_addMember a ckey id digest) ?_, h.groups.addMember hg hnode digest⟩
  have hm := addMember_spec a ckey id digest
  generalize a.addMember ckey id digest = b at hm
  cases hm <;> rfl

/-- A group's node that is not live is no node at all. -/
theorem node_none (h : TableInv env a) {ck : CondenseKey} {g : CondenseGroup}
    (hg : a.condense.lookup ck = some g) (hdead : ∀ id, g.node = some id → a.get id = none) :
    g.node = none := by
  cases hn : g.node with
  | none => rfl
  | some id =>
      obtain ⟨f, hf, -⟩ := h.groups.node_live hg hn
      obtain ⟨s, hs⟩ := live_iff_frames.2 ⟨f, hf⟩
      rw [hdead id hn] at hs
      cases hs

/-- The key of a new condensed node is not taken. -/
theorem nodeKey_free (h : TableInv env a) {ck : CondenseKey} {g : CondenseGroup}
    (hg : a.condense.lookup ck = some g) (hnone : g.node = none) {plugin : LayerPlugin}
    {identity : StreamIdentity} {spec : CondenseSpec}
    (hid : identityOf env ck.2.1 = some (plugin, identity)) (hspec : plugin.condense = some spec)
    {i : StreamId} {f : Frame} (hf : a.frames i = some f) (hp : f.parent = ck.1)
    (hpr : f.protocol = ck.2.1) : f.key ≠ condensedKeySentinel :: ck.2.2 := by
  intro hkey
  cases hisnode : f.isNode with
  | true =>
      -- another condensed node of this anchor would be the group's
      obtain ⟨anchor, g', hkey', hg', hn'⟩ := h.groups.node_group hf hisnode
      obtain rfl : ck.2.2 = anchor := (List.cons.inj (hkey.symm.trans hkey')).2
      rw [hp, hpr] at hg'
      rw [hg] at hg'
      obtain rfl := Option.some.inj hg'
      rw [hnone] at hn'
      cases hn'
  | false =>
      -- an expanded stream has a built key, which starts with a value tag
      obtain ⟨plugin', identity', fields, dir, hid', hbuilt⟩ := h.groups.built hf hisnode
      rw [hpr, hid] at hid'
      obtain ⟨rfl, rfl⟩ := Prod.mk.inj (Option.some.inj hid')
      exact flowKey_ne_nodeKey hid hspec hbuilt _ hkey

/-- Resolution keeps the tables, and leads to a stream of the layer under the walk's parent. -/
theorem resolution (h : TableInv env a) {parent : Option StreamId} {key : FlowKey}
    {plugin : LayerPlugin} {identity : StreamIdentity} {layer : LayerRecord}
    {dir dir' : PacketDirection} {ts : SystemTime} {r : Aggregator × StreamId × PacketDirection}
    (hp : a.Linked parent) (hid : identityOf env layer.protocol = some (plugin, identity))
    (hkey : flowKey identity layer.fields = .ok (key, dir'))
    (hr : Resolution env a parent key identity plugin.condense layer dir ts r) (hfits : r.1.Fits) :
    TableInv env r.1 ∧ ∃ f, r.1.frames r.2.1 = some f ∧ f.parent = parent ∧
      f.protocol = layer.protocol := by
  have hlim : a.Fits := hr.fits hfits
  cases hr with
  | hit hmem hs _ =>
      obtain ⟨f, hf, hk⟩ := h.index.mem_bucket.1 hmem
      exact ⟨h, f, hf, congrArg Prod.fst hk, congrArg (fun k => k.2.1) hk⟩
  | member hcs hc hg hnode hs =>
      obtain ⟨f, hf, -, hpar, hpro, -⟩ := h.groups.node_live hg hnode
      refine ⟨h.addMember hg hnode _, f, ?_, hpar, hpro⟩
      rw [frames_addMember]
      exact hf
  | @node cs c group hcs hc hg hdead _ =>
      -- the group has no node, so the synthesized key is free
      have hnone := h.node_none hg hdead
      obtain ⟨spec, hspec, -⟩ := candidatesOf_some hcs
      have hindex := h.index.create (n := nodeStream env (parent, layer.protocol, c.anchor) identity c ts)
        hlim hp fun hf hpar hpro => h.nodeKey_free hg hnone hid hspec hf hpar hpro
      have hgroups := h.groups.create_node identity c ts hlim hp hg hnone
        ⟨plugin, identity, spec, hid, hspec⟩
      have hnode : TableInv env
          (a.createNode env (parent, layer.protocol, c.anchor) group identity c ts).1 :=
        ⟨hindex.congr rfl rfl, hgroups⟩
      refine ⟨hnode.addMember (AList.lookup_insert _) rfl _,
        ((nodeStream env (parent, layer.protocol, c.anchor) identity c ts).record a.freshId
          a.nextSeq).frame, ?_, rfl, rfl⟩
      rw [frames_addMember]
      exact (frames_of_create (n := nodeStream env (parent, layer.protocol, c.anchor) identity c ts) env
        hlim hp).2 (.inl ⟨rfl, rfl⟩)
  | @fresh cs hcs hmiss =>
      -- the bucket was searched in vain, so the key is free
      have hindex := h.index.create (n := layerStream env parent key identity layer dir ts) hlim hp (by
        intro i f hf hpar hpro hk
        obtain ⟨s, hs, rfl⟩ := frames_eq_some.1 hf
        refine hmiss i (h.index.mem_bucket.2 ⟨s.frame, hf, ?_⟩) s hs hk
        exact Prod.ext hpar (Prod.ext hpro (congrArg env.digest hk)))
      have hgroups := h.groups.create_expanded (n := layerStream env parent key identity layer dir ts)
        hlim hp rfl ⟨plugin, identity, layer.fields, dir', hid, hkey⟩
      refine ⟨⟨hindex.congr rfl rfl, hgroups.sameNodes rfl ?_ ?_⟩,
        ((layerStream env parent key identity layer dir ts).record a.freshId a.nextSeq).frame, ?_, rfl,
        rfl⟩
      · exact SameNodes.foldl (SameNodes.tally parent layer.protocol) cs a.condense
      · intro hoff ck
        -- with condensation off there was nothing to tally
        rw [candidates_off hoff] at hcs
        subst hcs
        exact h.groups.off hoff ck
      · exact (frames_of_create (n := layerStream env parent key identity layer dir ts) env hlim hp).2
          (.inl ⟨rfl, rfl⟩)

/-- The tables along every run. -/
theorem runStable (env : Env) : RunStable env (fun _ => True) (TableInv env) where
  close := by
    intro a id h
    obtain ⟨calls, heq⟩ := closeStream_eq env a id
    have hframes := frames_modify a id (f := fun s => s.markClosed .captureEnd) fun _ => rfl
    rw [heq]
    exact h.congr hframes rfl rfl
  evict := fun reason _ hs _ h => ⟨h.index.evict reason hs, h.groups.evict reason hs⟩
  heaps := fun _ _ h => h.congr rfl rfl rfl
  new := ⟨IndexInv.new env, GroupInv.new env⟩
  tick := fun _ h => h.congr rfl rfl rfl
  layer := by
    intro pkt w w' layer hw _ hstep hfits h
    cases hstep with
    | skip _ => exact h
    | keyError _ _ => exact h.congr rfl rfl rfl
    | folded hid hkey hr =>
        have hfits' := fits_of_touch hfits
        obtain ⟨hb, -⟩ := h.resolution hw.linked hid hkey hr hfits'
        exact hb.congr (frames_touch _ _ _ _ _ _ _ _ _) rfl rfl
  tail := fun id n h => h.congr (frames_modify _ id fun _ => rfl) rfl rfl
  unknown := fun _ h => h.congr rfl rfl rfl

end TableInv

/-! ## Lookup is exact -/

/-- What the lookup tables promise. -/
structure LookupExact (env : Env) (a : Aggregator) : Prop where
  /-- No two live streams have the same parent, protocol and key. -/
  unique : ∀ i j s t, a.get i = some s → a.get j = some t → s.parent = t.parent →
    s.protocol = t.protocol → s.key = t.key → i = j
  /-- A bucket holds exactly the live streams, condensed nodes included, of its parent, protocol and
  digest, each once. -/
  mem_bucket : ∀ parent protocol digest id, id ∈ a.bucket (parent, protocol, digest) ↔
    ∃ s, a.get id = some s ∧ s.parent = parent ∧ s.protocol = protocol ∧ env.digest s.key = digest
  bucket_nodup : ∀ k, (a.bucket k).Nodup
  /-- `get_or_insert` for the key of a live stream returns that stream and changes nothing. -/
  hit : ∀ id s, a.get id = some s → ∀ identity condense layer dir ts, layer.protocol = s.protocol →
    a.getOrInsert env s.parent s.key identity condense layer dir ts = (a, id, dir)
  /-- A condensed node's key is not one that `flow_key` builds for its protocol. -/
  nodeKey : ∀ id s, a.get id = some s → s.condensed.isSome = true → ∀ plugin identity fields key dir,
    identityOf env s.protocol = some (plugin, identity) →
    flowKey identity fields = .ok (key, dir) → key ≠ s.key

theorem TableInv.hit {env : Env} {a : Aggregator} (h : TableInv env a) {id : StreamId} {s : Stream}
    (hs : a.get id = some s) (identity : StreamIdentity) (condense : Option CondenseSpec)
    (layer : LayerRecord) (dir : PacketDirection) (ts : SystemTime)
    (hl : layer.protocol = s.protocol) :
    a.getOrInsert env s.parent s.key identity condense layer dir ts = (a, id, dir) := by
  have hmem : id ∈ a.bucket (s.parent, layer.protocol, env.digest s.key) := by
    rw [hl]
    exact h.index.mem_bucket.2 ⟨s.frame, frames_of_get hs, rfl⟩
  rw [getOrInsert]
  cases hfind : (a.bucket (s.parent, layer.protocol, env.digest s.key)).find? fun i =>
      (a.get i).any fun t => t.key = s.key with
  | none =>
      have hno := List.find?_eq_none.1 hfind id hmem
      rw [hs, Option.any_some] at hno
      exact absurd (decide_eq_true rfl) hno
  | some i =>
      -- whatever the collisions, the first match in the bucket has the very key
      have hany := List.find?_some hfind
      rw [Option.any_eq_true] at hany
      obtain ⟨t, ht, hkey⟩ := hany
      obtain ⟨f, hf, hk⟩ := h.index.mem_bucket.1 (List.mem_of_find?_eq_some hfind)
      rw [frames_of_get ht] at hf
      obtain rfl := Option.some.inj hf
      obtain rfl : i = id := h.index.unique (frames_of_get ht) (frames_of_get hs)
        (congrArg Prod.fst hk) ((congrArg (fun k => k.2.1) hk).trans hl) (of_decide_eq_true hkey)
      rfl

/-- **Lookup is exact** in every state in which a layer may be resolved, for every digest. -/
theorem lookupExact_of_visits {env : Env} {a : Aggregator} (h : Visits env a) : LookupExact env a := by
  obtain ⟨-, htab⟩ := (TableInv.runStable env).visits h
  refine ⟨?_, ?_, htab.index.bucket_nodup, ?_, ?_⟩
  · intro i j s t hs ht hp hpr hk
    exact htab.index.unique (frames_of_get hs) (frames_of_get ht) hp hpr hk
  · intro parent protocol digest id
    rw [htab.index.mem_bucket]
    constructor
    · rintro ⟨f, hf, hk⟩
      obtain ⟨s, hs, rfl⟩ := frames_eq_some.1 hf
      exact ⟨s, hs, congrArg Prod.fst hk, congrArg (fun k => k.2.1) hk, congrArg (fun k => k.2.2) hk⟩
    · rintro ⟨s, hs, rfl, rfl, rfl⟩
      exact ⟨s.frame, frames_of_get hs, rfl⟩
  · intro id s hs identity condense layer dir ts hl
    exact htab.hit hs identity condense layer dir ts hl
  · intro id s hs hnode plugin identity fields key dir hid hkey
    -- the node keeps the declaration of its protocol, and its key the sentinel
    obtain ⟨plugin', identity', spec, hid', hspec⟩ := htab.groups.declared (frames_of_get hs) hnode
    have hid'' : identityOf env s.protocol = some (plugin', identity') := hid'
    rw [hid] at hid''
    obtain ⟨rfl, rfl⟩ := Prod.mk.inj (Option.some.inj hid'')
    obtain ⟨anchor, g, hnodeKey, -⟩ := htab.groups.node_group (frames_of_get hs) hnode
    have hnodeKey' : s.key = condensedKeySentinel :: anchor := hnodeKey
    rw [hnodeKey']
    exact flowKey_ne_nodeKey hid hspec hkey anchor

/-- The sample run before its last packet: a condensed node is live, and digests collide. -/
theorem lookupExact_sample :
    LookupExact (sampleEnv (.live 50 10 9) 2) (run (sampleEnv (.live 50 10 9) 2) (sampleOps.take 5)) ∧
      (run (sampleEnv (.live 50 10 9) 2) (sampleOps.take 5)).streams.any fun s => s.condensed.isSome := by
  refine ⟨lookupExact_of_visits (.between (reaches_run _ (sampleOps.take 5) (by decide))), ?_⟩
  decide +kernel

end Aggregator

end Pktflow.Flows

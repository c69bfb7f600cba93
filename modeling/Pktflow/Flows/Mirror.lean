import Pktflow.Flows.Tally

/-!
# Both directions of a conversation

The mirror image of a layer has the `a` and `b` value of every paired key field exchanged. It has the same
flow key, and the other direction unless its two sides are equal (`flowKey_mirror`), so that a flow found
in the index, or stored on the way, is found again from the other side.

A flow that is folded into a condensed node has two candidate anchors, and its mirror image has the same
two in the other order (`candidates_mirror`). The first one whose group condenses takes the packet: with
both groups condensing, the two directions of one conversation land in two nodes. And where the two values
of the ephemeral pair are equal the packet is attributed to one direction whatever the other fields say.
These are all the exceptions (`direction_agnostic_iff`).
-/

set_option autoImplicit false

namespace Pktflow.Flows

open Pktflow.Core Pktflow.Lib

/-! ## Keys and candidates of the mirror image -/

theorem sortedPair_comm (x y : KeyBuf) : sortedPair x y = sortedPair y x := by
  unfold sortedPair
  by_cases h1 : x ≤ y
  · by_cases h2 : y ≤ x
    · rw [List.le_antisymm h1 h2]
    · rw [if_pos h1, if_neg h2]
  · have h2 : y ≤ x := Std.le_of_not_ge h1
    rw [if_neg h1, if_pos h2]

theorem encode_sortedSides (key : List KeyField) (f : FieldMap) :
    encodeAll (sortedSides key f).1 ++ encodeAll (sortedSides key f).2 =
      sortedPair (encodeAll (aValues key f)) (encodeAll (bValues key f)) := by
  rw [sortedSides, sortedPair]
  split
  · rfl
  · rfl

theorem HoldsKey.mirror {key : List KeyField} {f g : FieldMap} (h : HoldsKey key f)
    (hswap : SwappedKey key f g) : HoldsKey key g := by
  intro kf hkf
  obtain ⟨⟨v, hv⟩, hb⟩ := h kf hkf
  have hkf' := hswap kf hkf
  cases hkb : kf.b with
  | none =>
      rw [hkb] at hkf'
      exact ⟨⟨v, hkf'.trans hv⟩, fun b hnone => by cases hnone⟩
  | some b =>
      rw [hkb] at hkf'
      obtain ⟨w, hw⟩ := hb b hkb
      refine ⟨⟨w, hkf'.1.trans hw⟩, ?_⟩
      intro b' hb'
      obtain rfl := Option.some.inj hb'
      exact ⟨v, hkf'.2.trans hv⟩

/-- The two sides of a layer are equal, as `flow_key` compares them. -/
def SelfTalk (key : List KeyField) (f : FieldMap) : Prop :=
  encodeAll (aValues key f) = encodeAll (bValues key f)

/-- The mirror image has the key of the layer, and the other direction unless the sides are equal. -/
theorem flowKey_mirror {identity : StreamIdentity} {f g : FieldMap} {key : FlowKey}
    {dir : PacketDirection} (hc : identity.canonicalize = .endpointSort)
    (hf : HoldsKey identity.key f) (hswap : SwappedKey identity.key f g)
    (hkey : flowKey identity f = .ok (key, dir)) :
    ∃ dir', flowKey identity g = .ok (key, dir') ∧
      (¬SelfTalk identity.key f → dir' = flipDirection dir) := by
  obtain ⟨hu, ha, hb⟩ := swappedKey_values hswap
  rw [flowKey_eq hc hf, encode_sortedSides] at hkey
  obtain ⟨rfl, rfl⟩ := Prod.mk.inj (Except.ok.inj hkey)
  refine ⟨sidesDirection identity.key g, ?_, ?_⟩
  · rw [flowKey_eq hc (hf.mirror hswap), encode_sortedSides, hu, ha, hb, sortedPair_comm]
  · exact sidesDirection_swapped ha hb

/-- The encoding of the other key components is there, and the same for the mirror image. -/
theorem anchorBase_mirror {eph : KeyField} {f g : FieldMap} {key : List KeyField} (hf : HoldsKey key f)
    (hswap : SwappedKey key f g) :
    ∃ base, anchorBase eph f key = some base ∧ anchorBase eph g key = some base := by
  induction key with
  | nil => exact ⟨[], rfl, rfl⟩
  | cons kf rest ih =>
      obtain ⟨base, hbf, hbg⟩ := ih hf.tail fun kf' hkf' => hswap kf' (List.mem_cons_of_mem _ hkf')
      obtain ⟨⟨v, hv⟩, hb⟩ := hf kf List.mem_cons_self
      have hkf' := hswap kf List.mem_cons_self
      unfold anchorBase
      rw [hbf, hbg]
      by_cases hskip : kf.a = eph.a ∧ kf.b = eph.b
      · exact ⟨base, if_pos hskip, if_pos hskip⟩
      · rw [if_neg hskip, if_neg hskip]
        cases hkb : kf.b with
        | none =>
            rw [hkb] at hkf'
            have hg : g.get kf.a = some v := hkf'.trans hv
            refine ⟨encodeValue v ++ base, ?_, ?_⟩
            · simp [hv]
            · simp [hg]
        | some b =>
            rw [hkb] at hkf'
            obtain ⟨w, hw⟩ := hb b hkb
            have hga : g.get kf.a = some w := hkf'.1.trans hw
            have hgb : g.get b = some v := hkf'.2.trans hv
            refine ⟨sortedPair (encodeValue v) (encodeValue w) ++ base, ?_, ?_⟩
            · simp [hv, hw]
            · simp [hga, hgb, sortedPair_comm (encodeValue w)]

/-- The candidate on one side of a flow. -/
def sideCandidate (env : Env) (base : KeyBuf) (field : FieldName) (own other : Value)
    (dir : PacketDirection) : CondenseCandidate :=
  ⟨base ++ encodeValue own, field, own, env.digest (encodeValue other), dir⟩

/-- The candidates of a layer and of its mirror image: the same two sides, in the other order. -/
theorem candidates_mirror (env : Env) {identity : StreamIdentity} {spec : CondenseSpec}
    {f g : FieldMap} {bName : FieldName} (hf : HoldsKey identity.key f)
    (hswap : SwappedKey identity.key f g) (heph : spec.ephemeral ∈ identity.key)
    (hb : spec.ephemeral.b = some bName) :
    ∃ base va vb, f.get spec.ephemeral.a = some va ∧ f.get bName = some vb ∧
      condenseCandidates env identity spec f =
        some (if encodeValue va = encodeValue vb then
            [sideCandidate env base spec.ephemeral.a va vb .aToB]
          else [sideCandidate env base spec.ephemeral.a va vb .aToB,
            sideCandidate env base bName vb va .bToA]) ∧
      condenseCandidates env identity spec g =
        some (if encodeValue va = encodeValue vb then
            [sideCandidate env base spec.ephemeral.a vb va .aToB]
          else [sideCandidate env base spec.ephemeral.a vb va .aToB,
            sideCandidate env base bName va vb .bToA]) := by
  obtain ⟨base, hbf, hbg⟩ := @anchorBase_mirror spec.ephemeral f g identity.key hf hswap
  obtain ⟨⟨va, hva⟩, hvb⟩ := hf spec.ephemeral heph
  obtain ⟨vb, hvb⟩ := hvb bName hb
  have hsw := hswap spec.ephemeral heph
  rw [hb] at hsw
  have hga : g.get spec.ephemeral.a = some vb := hsw.1.trans hvb
  have hgb : g.get bName = some va := hsw.2.trans hva
  refine ⟨base, va, vb, hva, hvb, ?_, ?_⟩
  · simp [condenseCandidates, hb, hva, hvb, hbf, sideCandidate]
  · simp [condenseCandidates, hb, hga, hgb, hbg, sideCandidate, eq_comm]

namespace Aggregator

/-! ## Folding twice -/

/-- A group whose live node is `id` and that will not count the digest again. -/
def Settled (b : Aggregator) (ck : CondenseKey) (id : StreamId) (digest : UInt64) : Prop :=
  ∃ g, b.condense.lookup ck = some g ∧ g.node = some id ∧
    (digest ∈ g.members ∨ condenseMemberCap ≤ g.members.card)

theorem addMember_settled {a : Aggregator} {ck : CondenseKey} {g : CondenseGroup} {id : StreamId}
    (hg : a.condense.lookup ck = some g) (hn : g.node = some id) (digest : UInt64) :
    Settled (a.addMember ck id digest) ck id digest := by
  rw [addMember]
  simp only [hg]
  by_cases hm : digest ∈ g.members
  · simp only [if_pos hm, ite_self]
    exact ⟨g, hg, hn, .inl hm⟩
  · simp only [if_neg hm]
    split
    · refine ⟨{ g with members := insert digest g.members }, ?_, hn, .inl (Finset.mem_insert_self _ _)⟩
      exact AList.lookup_insert _
    · rename_i hfull
      exact ⟨g, hg, hn, .inr (Nat.le_of_not_lt hfull)⟩

theorem addMember_others (a : Aggregator) {ck ck' : CondenseKey} (h : ck' ≠ ck) (id : StreamId)
    (digest : UInt64) : (a.addMember ck id digest).condense.lookup ck' = a.condense.lookup ck' := by
  have hm := addMember_spec a ck id digest
  generalize a.addMember ck id digest = b at hm
  cases hm with
  | known => rfl
  | overflow => rfl
  | counted _ _ => exact AList.lookup_insert_ne h

/-- A settled digest is not counted again. -/
theorem Settled.totals {b : Aggregator} {ck : CondenseKey} {id : StreamId} {digest : UInt64}
    (h : Settled b ck id digest) : (b.addMember ck id digest).totals = b.totals := by
  obtain ⟨g, hg, -, hsettled⟩ := h
  rw [addMember]
  simp only [hg]
  by_cases hm : digest ∈ g.members
  · simp only [if_pos hm, ite_self]
  · have hfull : ¬g.members.card < condenseMemberCap := by
      rcases hsettled with hmem | hfull
      · exact absurd hmem hm
      · omega
    rw [if_neg hfull, if_neg hm]
    rfl

/-- What a fold leaves behind: a settled group, the other groups as they were, and the direction of the
candidate. -/
theorem condenseFold_settled {env : Env} {a : Aggregator} {parent : Option StreamId}
    {protocol : ProtocolName} {identity : StreamIdentity} {c : CondenseCandidate} {ts : SystemTime}
    {r : Aggregator × StreamId × PacketDirection}
    (h : a.condenseFold env parent protocol identity c ts = some r) :
    r.2.2 = c.foldDir ∧ Settled r.1 (parent, protocol, c.anchor) r.2.1 c.varyingDigest ∧
      ∀ ck, ck ≠ (parent, protocol, c.anchor) → r.1.condense.lookup ck = a.condense.lookup ck := by
  obtain ⟨group, hg, ⟨id, s, hnode, -, rfl⟩ | ⟨-, -, rfl⟩⟩ := condenseFold_cases h
  · exact ⟨rfl, addMember_settled hg hnode _, fun ck hck => addMember_others a hck _ _⟩
  · refine ⟨rfl, addMember_settled (AList.lookup_insert _) rfl _, fun ck hck => ?_⟩
    rw [addMember_others _ hck]
    exact AList.lookup_insert_ne hck

/-- A second fold into a settled group of a live node finds that node and counts nothing. -/
theorem Settled.fold {env : Env} {b : Aggregator} {parent : Option StreamId} {protocol : ProtocolName}
    {c : CondenseCandidate} {id : StreamId}
    (h : Settled b (parent, protocol, c.anchor) id c.varyingDigest) {s : Stream}
    (hs : b.get id = some s) (identity : StreamIdentity) (ts : SystemTime) :
    ∃ b', b.condenseFold env parent protocol identity c ts = some (b', id, c.foldDir) ∧
      b'.totals = b.totals := by
  refine ⟨b.addMember (parent, protocol, c.anchor) id c.varyingDigest, ?_, h.totals⟩
  obtain ⟨g, hg, hn, -⟩ := h
  rw [condenseFold]
  simp only [hg, hn, Option.isSome_some, true_or, if_true]
  rw [Option.filter_some, hs]
  rfl

/-! ## Resolution and the index -/

/-- No live stream has the key under the parent. -/
def Missing (a : Aggregator) (parent : Option StreamId) (protocol : ProtocolName) (key : FlowKey) :
    Prop :=
  ∀ id f, a.frames id = some f → f.parent = parent → f.protocol = protocol → f.key ≠ key

section Resolve

variable {env : Env} {a : Aggregator} {parent : Option StreamId} {key : FlowKey}
  {identity : StreamIdentity} {condense : Option CondenseSpec} {layer : LayerRecord}
  {dir : PacketDirection} {ts : SystemTime}

/-- A missing key is not found in its bucket. -/
theorem find?_of_missing (htab : TableInv env a) (hmiss : Missing a parent layer.protocol key) :
    ((a.bucket (parent, layer.protocol, env.digest key)).find? fun id =>
      (a.get id).any fun s => s.key = key) = none := by
  rw [List.find?_eq_none]
  intro id hid hany
  rw [Option.any_eq_true] at hany
  obtain ⟨s, hs, hkey⟩ := hany
  obtain ⟨f, hf, hk⟩ := htab.index.mem_bucket.1 hid
  rw [frames_of_get hs] at hf
  obtain rfl := Option.some.inj hf
  exact hmiss id s.frame (frames_of_get hs) (congrArg Prod.fst hk) (congrArg (fun k => k.2.1) hk)
    (of_decide_eq_true hkey)

/-- On a miss the first candidate whose group condenses takes the packet. -/
theorem getOrInsert_folds (htab : TableInv env a) (hmiss : Missing a parent layer.protocol key)
    {cs : List CondenseCandidate} (hcs : candidatesOf env identity condense layer.fields = some cs)
    {r : Aggregator × StreamId × PacketDirection}
    (hfold : (cs.findSome? fun c => a.condenseFold env parent layer.protocol identity c ts) = some r) :
    a.getOrInsert env parent key identity condense layer dir ts = r := by
  rw [getOrInsert]
  simp only [find?_of_missing htab hmiss, candidates_eq, hcs, hfold]

/-- On a miss that no group takes a stream with the key is stored. -/
theorem getOrInsert_stores (htab : TableInv env a) (hmiss : Missing a parent layer.protocol key)
    {cs : List CondenseCandidate} (hcs : candidatesOf env identity condense layer.fields = some cs)
    (hfold : (cs.findSome? fun c => a.condenseFold env parent layer.protocol identity c ts) = none) :
    a.getOrInsert env parent key identity condense layer dir ts =
      ({ (a.createStream env parent key identity layer dir ts).1 with
          condense := cs.foldl (tallyAnchor parent layer.protocol) a.condense }, a.freshId, dir) := by
  rw [getOrInsert]
  simp only [find?_of_missing htab hmiss, candidates_eq, hcs, hfold]
  rfl

/-- A live stream with the key is what the layer is resolved to. -/
theorem getOrInsert_found (htab : TableInv env a) {id : StreamId} {f : Frame} (hf : a.frames id = some f)
    (hparent : f.parent = parent) (hprotocol : f.protocol = layer.protocol) (hkey : f.key = key) :
    a.getOrInsert env parent key identity condense layer dir ts = (a, id, dir) := by
  obtain ⟨s, hs, rfl⟩ := frames_eq_some.1 hf
  subst hparent hkey
  exact htab.hit hs identity condense layer dir ts hprotocol.symm

/-- A fold keeps the frames of the streams there are. -/
theorem frames_fold {protocol : ProtocolName} {c : CondenseCandidate}
    {r : Aggregator × StreamId × PacketDirection} (hlim : a.Fits) (hp : a.Linked parent)
    (h : a.condenseFold env parent protocol identity c ts = some r) {x : StreamId} {f : Frame}
    (hf : a.frames x = some f) : r.1.frames x = some f := by
  obtain ⟨group, -, ⟨id, s, -, -, rfl⟩ | ⟨-, -, rfl⟩⟩ := condenseFold_cases h
  · rw [frames_addMember]
    exact hf
  · rw [frames_addMember]
    exact (frames_of_create (n := nodeStream env (parent, protocol, c.anchor) identity c ts) env hlim
      hp).2 (.inr hf)

/-- A fold stores no stream with a key of `flow_key`. -/
theorem Missing.fold {protocol : ProtocolName} {c : CondenseCandidate}
    {r : Aggregator × StreamId × PacketDirection} (hmiss : Missing a parent protocol key)
    (hsentinel : ∀ anchor, key ≠ condensedKeySentinel :: anchor) (hlim : a.Fits)
    (hp : a.Linked parent) (h : a.condenseFold env parent protocol identity c ts = some r) :
    Missing r.1 parent protocol key := by
  obtain ⟨group, -, ⟨id, s, -, -, rfl⟩ | ⟨-, -, rfl⟩⟩ := condenseFold_cases h
  · intro i f hf
    rw [frames_addMember] at hf
    exact hmiss i f hf
  · intro i f hf hparent hprotocol
    rw [frames_addMember] at hf
    have hcases := (frames_of_create (n := nodeStream env (parent, protocol, c.anchor) identity c ts)
      env hlim hp).1 hf
    rcases hcases with ⟨-, rfl⟩ | hf
    · exact (hsentinel c.anchor).symm
    · exact hmiss i f hf hparent hprotocol

end Resolve

/-! ## A layer and its mirror image -/

/-- The resolution of a layer under a parent: the store after it, the stream and the direction the packet
is attributed with. -/
def resolve (env : Env) (a : Aggregator) (parent : Option StreamId) (layer : LayerRecord)
    (ts : SystemTime) : Option (Aggregator × StreamId × PacketDirection) :=
  match identityOf env layer.protocol with
  | none => none
  | some (plugin, identity) =>
      match flowKey identity layer.fields with
      | .error _ => none
      | .ok (key, dir) =>
          some (a.getOrInsert env parent key identity plugin.condense layer dir ts)

theorem resolve_eq {env : Env} {layer : LayerRecord} {plugin : LayerPlugin} {identity : StreamIdentity}
    {key : FlowKey} {dir : PacketDirection}
    (hid : identityOf env layer.protocol = some (plugin, identity))
    (hkey : flowKey identity layer.fields = .ok (key, dir)) (a : Aggregator)
    (parent : Option StreamId) (ts : SystemTime) :
    resolve env a parent layer ts =
      some (a.getOrInsert env parent key identity plugin.condense layer dir ts) := by
  rw [resolve]
  simp only [hid, hkey]

/-- What a resolved layer leaves for the next packet: the tables of its resolution. -/
theorem ingestLayer_tables {env : Env} {pkt : DissectedPacket} {w : Walk} {layer : LayerRecord}
    {b : Aggregator} {id : StreamId} {dir : PacketDirection}
    (h : resolve env w.agg w.parent layer pkt.meta_.timestamp = some (b, id, dir)) :
    (ingestLayer env pkt w layer).agg.frames = b.frames ∧
      (ingestLayer env pkt w layer).agg.index = b.index ∧
      (ingestLayer env pkt w layer).agg.condense = b.condense ∧
      (ingestLayer env pkt w layer).agg.totals = b.totals ∧
      (ingestLayer env pkt w layer).agg.arena.slots.length = b.arena.slots.length := by
  rw [resolve] at h
  rw [ingestLayer]
  cases hid : identityOf env layer.protocol with
  | none =>
      simp only [hid] at h
      cases h
  | some pair =>
      obtain ⟨plugin, identity⟩ := pair
      simp only [hid] at h ⊢
      cases hkey : flowKey identity layer.fields with
      | error e =>
          simp only [hkey] at h
          cases h
      | ok built =>
          obtain ⟨key, dir'⟩ := built
          simp only [hkey, Option.some.injEq] at h ⊢
          simp only [h]
          exact ⟨frames_touch env b id identity layer key dir _ _, rfl, rfl, rfl,
            Arena.length_modify _ _ _⟩

/-- `mirror` is the mirror image of `layer`, a layer of a condensing protocol whose key can be built. -/
structure MirrorImage (env : Env) (identity : StreamIdentity) (spec : CondenseSpec)
    (layer mirror : LayerRecord) : Prop where
  declared : ∃ plugin, identityOf env layer.protocol = some (plugin, identity) ∧
    plugin.condense = some spec
  built : ∃ key dir, flowKey identity layer.fields = .ok (key, dir)
  protocol : mirror.protocol = layer.protocol
  swapped : SwappedKey identity.key layer.fields mirror.fields

/-- The layer and then its mirror image, with no eviction in between, are resolved to one stream, are
attributed with opposite directions unless the sides are equal, and count as one flow. -/
def DirectionAgnostic (env : Env) (identity : StreamIdentity) (pkt pkt' : DissectedPacket) (w : Walk)
    (layer mirror : LayerRecord) : Prop :=
  ∃ b id dir c dir',
    resolve env w.agg w.parent layer pkt.meta_.timestamp = some (b, id, dir) ∧
      resolve env (ingestLayer env pkt w layer).agg w.parent mirror pkt'.meta_.timestamp =
        some (c, id, dir') ∧
      (¬SelfTalk identity.key layer.fields → dir' = flipDirection dir) ∧
      c.totals.streamsCreated = b.totals.streamsCreated

/-- The flow is not stored, and the group of each of its anchors condenses: there are two, or one although
the sides differ. -/
def Split (env : Env) (identity : StreamIdentity) (spec : CondenseSpec) (w : Walk)
    (layer : LayerRecord) : Prop :=
  (∀ key dir, flowKey identity layer.fields = .ok (key, dir) →
      Missing w.agg w.parent layer.protocol key) ∧
    ∃ cs, condenseCandidates env identity spec layer.fields = some cs ∧
      (∀ c ∈ cs, Condensing env w.agg (w.parent, layer.protocol, c.anchor)) ∧
      (cs.length = 2 ∨ ¬SelfTalk identity.key layer.fields)

/-- The keys and candidates of a layer and its mirror image. -/
structure MirrorData (env : Env) (identity : StreamIdentity) (spec : CondenseSpec)
    (layer mirror : LayerRecord) (plugin : LayerPlugin) (key : FlowKey) (dir dir' : PacketDirection)
    (base : KeyBuf) (bName : FieldName) (va vb : Value) : Prop where
  identity_eq : identityOf env layer.protocol = some (plugin, identity)
  declared : plugin.condense = some spec
  key_eq : flowKey identity layer.fields = .ok (key, dir)
  key_mirror : flowKey identity mirror.fields = .ok (key, dir')
  flips : ¬SelfTalk identity.key layer.fields → dir' = flipDirection dir
  candidates : condenseCandidates env identity spec layer.fields =
    some (if encodeValue va = encodeValue vb then
        [sideCandidate env base spec.ephemeral.a va vb .aToB]
      else [sideCandidate env base spec.ephemeral.a va vb .aToB,
        sideCandidate env base bName vb va .bToA])
  candidates_mirror : condenseCandidates env identity spec mirror.fields =
    some (if encodeValue va = encodeValue vb then
        [sideCandidate env base spec.ephemeral.a vb va .aToB]
      else [sideCandidate env base spec.ephemeral.a vb va .aToB,
        sideCandidate env base bName va vb .bToA])

theorem MirrorImage.data {env : Env} {identity : StreamIdentity} {spec : CondenseSpec}
    {layer mirror : LayerRecord} (h : MirrorImage env identity spec layer mirror) :
    ∃ plugin key dir dir' base bName va vb,
      MirrorData env identity spec layer mirror plugin key dir dir' base bName va vb := by
  obtain ⟨plugin, hid, hspec⟩ := h.declared
  obtain ⟨key, dir, hkey⟩ := h.built
  obtain ⟨hsort, heph, bName, hb⟩ := identityOf_valid hid hspec
  have hholds : HoldsKey identity.key layer.fields := by
    simp only [flowKey, hsort] at hkey
    split at hkey
    · cases hkey
    · rename_i hgather
      exact holdsKey_of_gatherSides hgather
  obtain ⟨dir', hkey', hflip⟩ := flowKey_mirror hsort hholds h.swapped hkey
  obtain ⟨base, va, vb, -, -, hcs, hcs'⟩ := candidates_mirror env hholds h.swapped heph hb
  exact ⟨plugin, key, dir, dir', base, bName, va, vb, hid, hspec, hkey, hkey', hflip, hcs, hcs'⟩

section Mirror

variable {env : Env} {identity : StreamIdentity} {spec : CondenseSpec} {pkt pkt' : DissectedPacket}
  {w : Walk} {layer mirror : LayerRecord} {plugin : LayerPlugin} {key : FlowKey}
  {dir dir' : PacketDirection} {base : KeyBuf} {bName : FieldName} {va vb : Value}

/-- With condensation on, the candidates of a declared protocol are those of its declaration. -/
theorem candidatesOf_declared (hon : 0 < env.config.condenseThreshold)
    (hspec : plugin.condense = some spec) (fields : FieldMap) :
    candidatesOf env identity plugin.condense fields = condenseCandidates env identity spec fields := by
  rw [candidatesOf]
  rw [if_pos hon, hspec]
  rfl

/-- The candidates the layer is tried with. -/
theorem MirrorData.tried (hd : MirrorData env identity spec layer mirror plugin key dir dir' base bName va vb)
    (hon : 0 < env.config.condenseThreshold) :
    candidatesOf env identity plugin.condense layer.fields =
      some (if encodeValue va = encodeValue vb then
          [sideCandidate env base spec.ephemeral.a va vb .aToB]
        else [sideCandidate env base spec.ephemeral.a va vb .aToB,
          sideCandidate env base bName vb va .bToA]) :=
  (candidatesOf_declared hon hd.declared layer.fields).trans hd.candidates

/-- Those of the mirror image. -/
theorem MirrorData.tried_mirror
    (hd : MirrorData env identity spec layer mirror plugin key dir dir' base bName va vb)
    (hon : 0 < env.config.condenseThreshold) :
    candidatesOf env identity plugin.condense mirror.fields =
      some (if encodeValue va = encodeValue vb then
          [sideCandidate env base spec.ephemeral.a vb va .aToB]
        else [sideCandidate env base spec.ephemeral.a vb va .aToB,
          sideCandidate env base bName va vb .bToA]) :=
  (candidatesOf_declared hon hd.declared mirror.fields).trans hd.candidates_mirror

/-- A stream that has the key after the first resolution is found by the second. -/
theorem agnostic_of_stored
    (hd : MirrorData env identity spec layer mirror plugin key dir dir' base bName va vb)
    (hproto : mirror.protocol = layer.protocol) {b : Aggregator} {id : StreamId} {f : Frame}
    (hfirst : w.agg.getOrInsert env w.parent key identity plugin.condense layer dir
      pkt.meta_.timestamp = (b, id, dir)) (htab : TableInv env b) (hf : b.frames id = some f)
    (hparent : f.parent = w.parent) (hprotocol : f.protocol = layer.protocol) (hkey : f.key = key) :
    DirectionAgnostic env identity pkt pkt' w layer mirror := by
  have hresolved : resolve env w.agg w.parent layer pkt.meta_.timestamp = some (b, id, dir) := by
    rw [resolve_eq hd.identity_eq hd.key_eq, hfirst]
  obtain ⟨hframes, hindex, hcondense, htotals, -⟩ := ingestLayer_tables hresolved
  refine ⟨b, id, dir, (ingestLayer env pkt w layer).agg, dir', hresolved, ?_, hd.flips, ?_⟩
  · rw [resolve_eq (by rw [hproto]; exact hd.identity_eq) hd.key_mirror]
    rw [← hframes] at hf
    rw [← hproto] at hprotocol
    rw [getOrInsert_found (htab.congr hframes hindex hcondense) hf hparent hprotocol hkey]
  · rw [htotals]

/-- The store after a flow with the key was folded into the group of an anchor. -/
structure AfterFold (env : Env) (a b : Aggregator) (parent : Option StreamId) (protocol : ProtocolName)
    (key : FlowKey) (c : CondenseCandidate) (id : StreamId) : Prop where
  forest : ForestInv b
  linked : b.Linked parent
  tables : TableInv env b
  missing : Missing b parent protocol key
  settled : Settled b (parent, protocol, c.anchor) id c.varyingDigest
  live : ∃ s, b.get id = some s
  others : ∀ ck, ck ≠ (parent, protocol, c.anchor) → b.condense.lookup ck = a.condense.lookup ck

/-- A candidate that takes the packet. -/
theorem resolve_fold (hid : identityOf env layer.protocol = some (plugin, identity))
    (hspec : plugin.condense = some spec) (hkey : flowKey identity layer.fields = .ok (key, dir))
    (hf : ForestInv w.agg) (htab : TableInv env w.agg) (hlinked : w.agg.Linked w.parent)
    (hmiss : Missing w.agg w.parent layer.protocol key)
    (hfits : (ingestLayer env pkt w layer).agg.Fits) {cs : List CondenseCandidate}
    {c : CondenseCandidate} {r : Aggregator × StreamId × PacketDirection}
    (hcs : candidatesOf env identity plugin.condense layer.fields = some cs)
    (hpick : (cs.findSome? fun c => w.agg.condenseFold env w.parent layer.protocol identity c
      pkt.meta_.timestamp) = some r)
    (hfold : w.agg.condenseFold env w.parent layer.protocol identity c pkt.meta_.timestamp = some r) :
    resolve env w.agg w.parent layer pkt.meta_.timestamp = some (r.1, r.2.1, c.foldDir) ∧
      AfterFold env w.agg (ingestLayer env pkt w layer).agg w.parent layer.protocol key c r.2.1 ∧
      (ingestLayer env pkt w layer).agg.totals = r.1.totals := by
  -- with no flow of the key stored, the candidate decides
  have hfirst : w.agg.getOrInsert env w.parent key identity plugin.condense layer dir
      pkt.meta_.timestamp = r := getOrInsert_folds htab hmiss hcs hpick
  obtain ⟨b, id, d⟩ := r
  obtain ⟨hdir, hsettled, hothers⟩ := condenseFold_settled hfold
  have hresolved : resolve env w.agg w.parent layer pkt.meta_.timestamp = some (b, id, d) := by
    rw [resolve_eq hid hkey, hfirst]
  obtain ⟨hframes, hindex, hcondense, htotals, hslots⟩ := ingestLayer_tables hresolved
  have hspecr := getOrInsert_spec env w.agg w.parent key identity plugin.condense layer dir
    pkt.meta_.timestamp
  rw [hfirst] at hspecr
  have hfitsb : b.Fits := lt_of_eq_of_lt hslots.symm hfits
  have hlim : w.agg.Fits := hspecr.fits hfitsb
  refine ⟨hdir ▸ hresolved, ?_, htotals⟩
  constructor
  case forest =>
    exact (WalkInv.layerStep ⟨hf, hlinked⟩ (ingestLayer_spec env pkt w layer) hfits).forest
  case linked =>
    intro p hp
    obtain ⟨f, hfp⟩ := live_iff_frames.1 (hlinked p hp)
    rw [live_iff_frames, hframes]
    exact ⟨f, frames_fold hlim hlinked hfold hfp⟩
  case tables =>
    exact (htab.resolution hlinked hid hkey hspecr hfitsb).1.congr hframes hindex hcondense
  case missing =>
    rw [Missing]
    rw [hframes]
    exact hmiss.fold (flowKey_ne_nodeKey hid hspec hkey) hlim hlinked hfold
  case settled =>
    rw [Settled]
    rw [hcondense]
    exact hsettled
  case live =>
    obtain ⟨-, s, hs⟩ := hf.resolution hlinked hspecr hfitsb
    rw [live_iff_frames, hframes]
    exact ⟨s.frame, frames_of_get hs⟩
  case others =>
    rw [hcondense]
    exact hothers

/-- The mirror image of a folded flow goes to the same node if the candidate on that side takes it. -/
theorem resolve_mirror
    (hd : MirrorData env identity spec layer mirror plugin key dir dir' base bName va vb)
    (hproto : mirror.protocol = layer.protocol) {a b : Aggregator} {parent : Option StreamId}
    {c : CondenseCandidate} {id : StreamId} (hafter : AfterFold env a b parent layer.protocol key c id)
    {cs : List CondenseCandidate}
    (hcs : candidatesOf env identity plugin.condense mirror.fields = some cs) (c' : CondenseCandidate)
    (hanchor : c'.anchor = c.anchor) (hdigest : c'.varyingDigest = c.varyingDigest) (ts : SystemTime)
    (hpick : (cs.findSome? fun c => b.condenseFold env parent layer.protocol identity c ts) =
      b.condenseFold env parent layer.protocol identity c' ts) :
    ∃ b', resolve env b parent mirror ts = some (b', id, c'.foldDir) ∧ b'.totals = b.totals := by
  have hsettled := hafter.settled
  rw [← hanchor, ← hdigest] at hsettled
  obtain ⟨s, hs⟩ := hafter.live
  obtain ⟨b', hfold, htotals⟩ := @Settled.fold env b parent layer.protocol c' id hsettled s hs identity ts
  refine ⟨b', ?_, htotals⟩
  rw [resolve_eq (by rw [hproto]; exact hd.identity_eq) hd.key_mirror]
  congr 1
  apply getOrInsert_folds hafter.tables (by rw [hproto]; exact hafter.missing) hcs
  rw [hproto, hpick, hfold]

theorem findSome?_pair {α β : Type} (F : α → Option β) (x y : α) :
    [x, y].findSome? F = (F x).or (F y) := by
  cases hx : F x with
  | none => cases hy : F y <;> simp [hx, hy]
  | some r => simp [hx]

/-- What resolves to a stream is unique, so a statement about one resolution is one about all. -/
theorem DirectionAgnostic.unique {b c : Aggregator} {id id' : StreamId} {d d' : PacketDirection}
    (h : DirectionAgnostic env identity pkt pkt' w layer mirror)
    (hfirst : resolve env w.agg w.parent layer pkt.meta_.timestamp = some (b, id, d))
    (hsecond : resolve env (ingestLayer env pkt w layer).agg w.parent mirror pkt'.meta_.timestamp =
      some (c, id', d')) :
    id' = id ∧ (¬SelfTalk identity.key layer.fields → d' = flipDirection d) := by
  obtain ⟨b₁, id₁, d₁, c₁, d₁', h1, h2, hflip, -⟩ := h
  rw [hfirst] at h1
  rw [hsecond] at h2
  simp only [Option.some.injEq, Prod.mk.injEq] at h1 h2
  obtain ⟨rfl, rfl, rfl⟩ := h1
  obtain ⟨rfl, rfl, rfl⟩ := h2
  exact ⟨rfl, hflip⟩

/-- A flow that no group takes is stored and found again. -/
theorem agnostic_of_declined
    (hd : MirrorData env identity spec layer mirror plugin key dir dir' base bName va vb)
    (hproto : mirror.protocol = layer.protocol) (htab : TableInv env w.agg)
    (hlinked : w.agg.Linked w.parent) (hmiss : Missing w.agg w.parent layer.protocol key)
    (hfits : (ingestLayer env pkt w layer).agg.Fits) {cs : List CondenseCandidate}
    (hcs : candidatesOf env identity plugin.condense layer.fields = some cs)
    (hnone : ∀ c ∈ cs, ¬Condensing env w.agg (w.parent, layer.protocol, c.anchor)) :
    DirectionAgnostic env identity pkt pkt' w layer mirror := by
  have hpick : (cs.findSome? fun c => w.agg.condenseFold env w.parent layer.protocol identity c
      pkt.meta_.timestamp) = none :=
    List.findSome?_eq_none_iff.2 fun c hc => condenseFold_none_iff.2 (hnone c hc)
  have hfirst : w.agg.getOrInsert env w.parent key identity plugin.condense layer dir
      pkt.meta_.timestamp = _ := getOrInsert_stores htab hmiss hcs hpick
  have hresolved : resolve env w.agg w.parent layer pkt.meta_.timestamp = some _ :=
    (resolve_eq hd.identity_eq hd.key_eq _ _ _).trans (congrArg some hfirst)
  obtain ⟨-, -, -, -, hslots⟩ := ingestLayer_tables hresolved
  have hspecr := getOrInsert_spec env w.agg w.parent key identity plugin.condense layer dir
    pkt.meta_.timestamp
  rw [hfirst] at hspecr
  have hfitsb := lt_of_eq_of_lt hslots.symm hfits
  have hlim : w.agg.Fits := hspecr.fits hfitsb
  have htabb := (htab.resolution hlinked hd.identity_eq hd.key_eq hspecr hfitsb).1
  apply agnostic_of_stored hd hproto hfirst htabb (f := ((layerStream env w.parent key identity layer dir
    pkt.meta_.timestamp).record w.agg.freshId w.agg.nextSeq).frame) _ rfl rfl rfl
  exact (frames_of_create (n := layerStream env w.parent key identity layer dir pkt.meta_.timestamp) env
    hlim hlinked).2 (.inl ⟨rfl, rfl⟩)

/-- With one anchor for both sides the packets of both directions go one way. -/
theorem agnostic_of_single (hon : 0 < env.config.condenseThreshold)
    (hd : MirrorData env identity spec layer mirror plugin key dir dir' base bName va vb)
    (hproto : mirror.protocol = layer.protocol) (hf : ForestInv w.agg) (htab : TableInv env w.agg)
    (hlinked : w.agg.Linked w.parent) (hmiss : Missing w.agg w.parent layer.protocol key)
    (hfits : (ingestLayer env pkt w layer).agg.Fits) (henc : encodeValue va = encodeValue vb)
    (hcond : Condensing env w.agg (w.parent, layer.protocol, base ++ encodeValue va)) :
    DirectionAgnostic env identity pkt pkt' w layer mirror ↔ SelfTalk identity.key layer.fields := by
  have hcs := hd.tried hon
  have hcs' := hd.tried_mirror hon
  rw [if_pos henc] at hcs hcs'
  obtain ⟨r, hfold⟩ := Option.ne_none_iff_exists'.1 fun hnone =>
    (@condenseFold_none_iff env w.agg w.parent layer.protocol identity
      (sideCandidate env base spec.ephemeral.a va vb .aToB) pkt.meta_.timestamp).1 hnone hcond
  obtain ⟨hfirst, hafter, htotals⟩ := resolve_fold hd.identity_eq hd.declared hd.key_eq hf htab hlinked hmiss
    hfits hcs (by simp [hfold]) hfold
  obtain ⟨b', hsecond, htotals'⟩ := resolve_mirror hd hproto hafter hcs'
    (sideCandidate env base spec.ephemeral.a vb va .aToB) (by simp only [sideCandidate, henc])
    (by simp only [sideCandidate, henc]) pkt'.meta_.timestamp (by simp)
  constructor
  · intro h
    by_contra hne
    have hflip := (h.unique hfirst hsecond).2 hne
    cases hflip
  · intro hself
    refine ⟨_, _, _, _, _, hfirst, hsecond, fun hne => absurd hself hne, ?_⟩
    rw [htotals', htotals]

/-- The candidate of a condensing group takes the packet. -/
theorem condenseFold_of_condensing {a : Aggregator} {parent : Option StreamId}
    {protocol : ProtocolName} {c : CondenseCandidate} {ts : SystemTime}
    (h : Condensing env a (parent, protocol, c.anchor)) :
    ∃ r, a.condenseFold env parent protocol identity c ts = some r :=
  Option.ne_none_iff_exists'.1 fun hnone => condenseFold_none_iff.1 hnone h

/-- Another group is as it was before the fold. -/
theorem AfterFold.condensing_iff {a b : Aggregator} {parent : Option StreamId}
    {protocol : ProtocolName} {c : CondenseCandidate} {id : StreamId}
    (h : AfterFold env a b parent protocol key c id) {ck : CondenseKey}
    (hck : ck ≠ (parent, protocol, c.anchor)) : Condensing env b ck ↔ Condensing env a ck := by
  unfold Condensing
  rw [h.others ck hck]

/-- The group keys of two sides that differ. -/
theorem groupKey_ne (henc : encodeValue va ≠ encodeValue vb) (parent : Option StreamId)
    (protocol : ProtocolName) (base : KeyBuf) :
    ((parent, protocol, base ++ encodeValue va) : CondenseKey) ≠
      (parent, protocol, base ++ encodeValue vb) := by
  intro heq
  exact henc (List.append_cancel_left (congrArg (fun k : CondenseKey => k.2.2) heq))

section Sides

variable (hon : 0 < env.config.condenseThreshold)
  (hd : MirrorData env identity spec layer mirror plugin key dir dir' base bName va vb)
  (hproto : mirror.protocol = layer.protocol) (hf : ForestInv w.agg) (htab : TableInv env w.agg)
  (hlinked : w.agg.Linked w.parent) (hmiss : Missing w.agg w.parent layer.protocol key)
  (hfits : (ingestLayer env pkt w layer).agg.Fits) (henc : encodeValue va ≠ encodeValue vb)

include hon hd hproto hf htab hlinked hmiss hfits henc

/-- If the group of the source side alone condenses, both directions fold into its node. -/
theorem agnostic_of_source
    (hA : Condensing env w.agg (w.parent, layer.protocol, base ++ encodeValue va))
    (hB : ¬Condensing env w.agg (w.parent, layer.protocol, base ++ encodeValue vb)) :
    DirectionAgnostic env identity pkt pkt' w layer mirror := by
  have hcs := hd.tried hon
  have hcs' := hd.tried_mirror hon
  rw [if_neg henc] at hcs hcs'
  obtain ⟨r, hfold⟩ := @condenseFold_of_condensing env identity w.agg w.parent layer.protocol
    (sideCandidate env base spec.ephemeral.a va vb .aToB) pkt.meta_.timestamp hA
  obtain ⟨hfirst, hafter, htotals⟩ := resolve_fold hd.identity_eq hd.declared hd.key_eq hf htab hlinked hmiss
    hfits hcs (by rw [findSome?_pair, hfold, Option.some_or]) hfold
  -- the mirror image asks the other side first, which declines as before
  have hB' : ¬Condensing env (ingestLayer env pkt w layer).agg
      (w.parent, layer.protocol, base ++ encodeValue vb) := by
    rw [hafter.condensing_iff (groupKey_ne henc.symm _ _ _)]
    exact hB
  have hdecline : (ingestLayer env pkt w layer).agg.condenseFold env w.parent layer.protocol identity
      (sideCandidate env base spec.ephemeral.a vb va .aToB) pkt'.meta_.timestamp = none :=
    condenseFold_none_iff.2 hB'
  obtain ⟨b', hsecond, htotals'⟩ := resolve_mirror hd hproto hafter hcs'
    (sideCandidate env base bName va vb .bToA) rfl rfl pkt'.meta_.timestamp
    (by rw [findSome?_pair, hdecline, Option.none_or])
  refine ⟨_, _, _, _, _, hfirst, hsecond, fun _ => rfl, ?_⟩
  rw [htotals', htotals]

/-- If the group of the destination side alone condenses, likewise. -/
theorem agnostic_of_destination
    (hA : ¬Condensing env w.agg (w.parent, layer.protocol, base ++ encodeValue va))
    (hB : Condensing env w.agg (w.parent, layer.protocol, base ++ encodeValue vb)) :
    DirectionAgnostic env identity pkt pkt' w layer mirror := by
  have hcs := hd.tried hon
  have hcs' := hd.tried_mirror hon
  rw [if_neg henc] at hcs hcs'
  have hdecline : w.agg.condenseFold env w.parent layer.protocol identity
      (sideCandidate env base spec.ephemeral.a va vb .aToB) pkt.meta_.timestamp = none :=
    condenseFold_none_iff.2 hA
  obtain ⟨r, hfold⟩ := @condenseFold_of_condensing env identity w.agg w.parent layer.protocol
    (sideCandidate env base bName vb va .bToA) pkt.meta_.timestamp hB
  obtain ⟨hfirst, hafter, htotals⟩ := resolve_fold hd.identity_eq hd.declared hd.key_eq hf htab hlinked hmiss
    hfits hcs (by rw [findSome?_pair, hdecline, Option.none_or, hfold]) hfold
  -- the mirror image asks this side first, and its group has the node
  have hB' : Condensing env (ingestLayer env pkt w layer).agg
      (w.parent, layer.protocol, base ++ encodeValue vb) := by
    obtain ⟨g, hg, hn, -⟩ := hafter.settled
    exact ⟨g, hg, .inl (by rw [hn]; rfl)⟩
  obtain ⟨r', hfold'⟩ := @condenseFold_of_condensing env identity (ingestLayer env pkt w layer).agg
    w.parent layer.protocol (sideCandidate env base spec.ephemeral.a vb va .aToB) pkt'.meta_.timestamp hB'
  obtain ⟨b', hsecond, htotals'⟩ := resolve_mirror hd hproto hafter hcs'
    (sideCandidate env base spec.ephemeral.a vb va .aToB) rfl rfl pkt'.meta_.timestamp
    (by rw [findSome?_pair, hfold', Option.some_or])
  refine ⟨_, _, _, _, _, hfirst, hsecond, fun _ => rfl, ?_⟩
  rw [htotals', htotals]

/-- If both groups condense, the two directions fold into two nodes. -/
theorem not_agnostic_of_both
    (hfits' : (ingestLayer env pkt' { w with agg := (ingestLayer env pkt w layer).agg } mirror).agg.Fits)
    (hA : Condensing env w.agg (w.parent, layer.protocol, base ++ encodeValue va))
    (hB : Condensing env w.agg (w.parent, layer.protocol, base ++ encodeValue vb)) :
    ¬DirectionAgnostic env identity pkt pkt' w layer mirror := by
  have hcs := hd.tried hon
  have hcs' := hd.tried_mirror hon
  rw [if_neg henc] at hcs hcs'
  obtain ⟨r, hfold⟩ := @condenseFold_of_condensing env identity w.agg w.parent layer.protocol
    (sideCandidate env base spec.ephemeral.a va vb .aToB) pkt.meta_.timestamp hA
  obtain ⟨hfirst, hafter, -⟩ := resolve_fold hd.identity_eq hd.declared hd.key_eq hf htab hlinked hmiss
    hfits hcs (by rw [findSome?_pair, hfold, Option.some_or]) hfold
  have hB' : Condensing env (ingestLayer env pkt w layer).agg
      (w.parent, layer.protocol, base ++ encodeValue vb) := by
    rw [hafter.condensing_iff (groupKey_ne henc.symm _ _ _)]
    exact hB
  obtain ⟨r', hfold'⟩ := @condenseFold_of_condensing env identity (ingestLayer env pkt w layer).agg
    w.parent layer.protocol (sideCandidate env base spec.ephemeral.a vb va .aToB) pkt'.meta_.timestamp hB'
  have hmirror : identityOf env mirror.protocol = some (plugin, identity) := by
    rw [hproto]
    exact hd.identity_eq
  rw [← hproto] at hfold'
  obtain ⟨hsecond, hafter', -⟩ := @resolve_fold env identity spec pkt'
    { w with agg := (ingestLayer env pkt w layer).agg } mirror plugin key dir' hmirror hd.declared
    hd.key_mirror hafter.forest hafter.tables hafter.linked (by rw [hproto]; exact hafter.missing) hfits'
    _ (sideCandidate env base spec.ephemeral.a vb va .aToB) r' hcs'
    (by rw [findSome?_pair, hfold', Option.some_or]) hfold'
  intro hagree
  obtain ⟨hsame, -⟩ := hagree.unique hfirst hsecond
  -- one stream would be the node of both groups, and carry the keys of both
  obtain ⟨g, hg, hn, -⟩ := hafter.settled
  obtain ⟨g', hg', hn', -⟩ := hafter'.settled
  rw [← hafter'.others _ (by rw [hproto]; exact groupKey_ne henc _ _ _)] at hg
  obtain ⟨f, hframe, -, -, -, hkey⟩ := hafter'.tables.groups.node_live hg hn
  obtain ⟨f', hframe', -, -, -, hkey'⟩ := hafter'.tables.groups.node_live hg' hn'
  rw [hsame, hframe] at hframe'
  obtain rfl := Option.some.inj hframe'
  rw [hkey] at hkey'
  exact henc (List.append_cancel_left (List.cons.inj hkey').2)

end Sides

/-- Whether a missing flow is split can be read off the groups of its anchors. -/
theorem split_iff (hd : MirrorData env identity spec layer mirror plugin key dir dir' base bName va vb)
    (hmiss : Missing w.agg w.parent layer.protocol key) :
    Split env identity spec w layer ↔
      Condensing env w.agg (w.parent, layer.protocol, base ++ encodeValue va) ∧
        Condensing env w.agg (w.parent, layer.protocol, base ++ encodeValue vb) ∧
        (encodeValue va = encodeValue vb → ¬SelfTalk identity.key layer.fields) := by
  -- the key of the layer is the one that is missing
  have hmissing : ∀ key' dir', flowKey identity layer.fields = .ok (key', dir') →
      Missing w.agg w.parent layer.protocol key' := by
    intro key' dir' hkey'
    rw [hd.key_eq] at hkey'
    obtain ⟨rfl, -⟩ := Prod.mk.inj (Except.ok.inj hkey')
    exact hmiss
  -- a flow with equal sides has one candidate, another one has two
  by_cases henc : encodeValue va = encodeValue vb
  · have hcs := hd.candidates
    rw [if_pos henc] at hcs
    constructor
    · rintro ⟨-, cs, hcs', hall, hwhy⟩
      rw [hcs] at hcs'
      obtain rfl := Option.some.inj hcs'
      have hA := hall _ List.mem_cons_self
      refine ⟨hA, henc ▸ hA, fun _ => ?_⟩
      rcases hwhy with htwo | hne
      · cases htwo
      · exact hne
    · rintro ⟨hA, -, hne⟩
      refine ⟨hmissing, _, hcs, ?_, .inr (hne henc)⟩
      intro c hc
      obtain rfl := List.mem_singleton.1 hc
      exact hA
  · have hcs := hd.candidates
    rw [if_neg henc] at hcs
    constructor
    · rintro ⟨-, cs, hcs', hall, -⟩
      rw [hcs] at hcs'
      obtain rfl := Option.some.inj hcs'
      exact ⟨hall _ List.mem_cons_self, hall _ (List.mem_cons_of_mem _ List.mem_cons_self),
        fun h => absurd h henc⟩
    · rintro ⟨hA, hB, -⟩
      refine ⟨hmissing, _, hcs, ?_, .inl rfl⟩
      intro c hc
      rcases List.mem_cons.1 hc with rfl | hc
      · exact hA
      · obtain rfl := List.mem_singleton.1 hc
        exact hB

end Mirror

end Aggregator

/-- **Both directions of a conversation.** In every state in which a layer may be resolved, a layer of a
condensing protocol and its mirror image lead to one stream, in opposite directions unless the sides are
equal, and count as one flow, exactly if the flow is not split. -/
theorem direction_agnostic_iff {env : Env} {identity : StreamIdentity} {spec : CondenseSpec}
    {pkt pkt' : DissectedPacket} {w : Aggregator.Walk} {layer mirror : LayerRecord}
    (hv : Aggregator.Visits env w.agg) (hlinked : w.agg.Linked w.parent)
    (hon : 0 < env.config.condenseThreshold)
    (hm : Aggregator.MirrorImage env identity spec layer mirror)
    (hfits : (Aggregator.ingestLayer env pkt' { w with agg := (Aggregator.ingestLayer env pkt w layer).agg }
      mirror).agg.Fits) :
    Aggregator.DirectionAgnostic env identity pkt pkt' w layer mirror ↔
      ¬Aggregator.Split env identity spec w layer := by
  obtain ⟨hf, htab⟩ := (Aggregator.TableInv.runStable env).visits hv
  obtain ⟨plugin, key, dir, dir', base, bName, va, vb, hd⟩ := hm.data
  have hfirst : (Aggregator.ingestLayer env pkt w layer).agg.Fits :=
    (Aggregator.ingestLayer_spec env pkt' { w with agg := (Aggregator.ingestLayer env pkt w layer).agg }
      mirror).fits hfits
  -- a missing flow is tried on both anchors, and the two directions try them in opposite order
  by_cases hmiss : w.agg.Missing w.parent layer.protocol key
  · rw [Aggregator.split_iff hd hmiss]
    by_cases hA : Aggregator.Condensing env w.agg (w.parent, layer.protocol, base ++ encodeValue va)
    · by_cases henc : encodeValue va = encodeValue vb
      · rw [Aggregator.agnostic_of_single hon hd hm.protocol hf htab hlinked hmiss hfirst henc hA]
        have hB := hA
        rw [henc] at hB
        constructor
        · exact fun hself hsplit => hsplit.2.2 henc hself
        · exact fun hnot => by_contra fun hne => hnot ⟨hA, hB, fun _ => hne⟩
      · by_cases hB : Aggregator.Condensing env w.agg (w.parent, layer.protocol, base ++ encodeValue vb)
        · have hnot := Aggregator.not_agnostic_of_both hon hd hm.protocol hf htab hlinked hmiss hfirst henc
            hfits hA hB
          exact ⟨fun h => absurd h hnot, fun h => absurd ⟨hA, hB, fun he => absurd he henc⟩ h⟩
        · have hagree := @Aggregator.agnostic_of_source env identity spec pkt pkt' w layer mirror plugin key
            dir dir' base bName va vb hon hd hm.protocol hf htab hlinked hmiss hfirst henc hA hB
          exact ⟨fun _ hsplit => hB hsplit.2.1, fun _ => hagree⟩
    · refine ⟨fun _ hsplit => hA hsplit.1, fun _ => ?_⟩
      have hcs := hd.tried hon
      by_cases henc : encodeValue va = encodeValue vb
      · rw [if_pos henc] at hcs
        apply Aggregator.agnostic_of_declined hd hm.protocol htab hlinked hmiss hfirst hcs
        intro c hc
        obtain rfl := List.mem_singleton.1 hc
        exact hA
      · by_cases hB : Aggregator.Condensing env w.agg (w.parent, layer.protocol, base ++ encodeValue vb)
        · exact Aggregator.agnostic_of_destination hon hd hm.protocol hf htab hlinked hmiss hfirst henc hA hB
        · rw [if_neg henc] at hcs
          apply Aggregator.agnostic_of_declined hd hm.protocol htab hlinked hmiss hfirst hcs
          intro c hc
          rcases List.mem_cons.1 hc with rfl | hc
          · exact hA
          · obtain rfl := List.mem_singleton.1 hc
            exact hB
  · -- the flow is stored: both directions find it
    have hstored := hmiss
    rw [Aggregator.Missing] at hstored
    push Not at hstored
    obtain ⟨id, f, hframe, hparent, hprotocol, hkey⟩ := hstored
    have hagree : Aggregator.DirectionAgnostic env identity pkt pkt' w layer mirror :=
      Aggregator.agnostic_of_stored hd hm.protocol
        (Aggregator.getOrInsert_found htab hframe hparent hprotocol hkey) htab hframe hparent hprotocol hkey
    exact ⟨fun _ hsplit => hmiss (hsplit.1 key dir hd.key_eq), fun _ => hagree⟩

/-! ## Two samples -/

/-- A packet whose layers are given apart. -/
def samplePayload : DissectedPacket := ⟨⟨0, 60, 60, 1⟩, [], .complete, 0, none⟩

/-- The place of a parentless layer in the state after a run. -/
def sampleWalk (env : Env) (ops : List Op) : Aggregator.Walk := { agg := run env ops, parent := none }

theorem sampleLayer_mirror (eviction : EvictionPolicy) (threshold : Nat) (src dst : UInt64) :
    Aggregator.MirrorImage (sampleEnv eviction threshold) pairIdentity ⟨⟨"src", some "dst"⟩⟩
      (sampleLayer "udp" src dst) (sampleLayer "udp" dst src) where
  declared := ⟨_, rfl, rfl⟩
  built := ⟨_, _, flowKey_eq rfl (pairFields_holdsKey src dst)⟩
  protocol := rfl
  swapped := by
    intro kf hkf
    obtain rfl := List.mem_singleton.1 hkf
    exact ⟨rfl, rfl⟩

/-- The group of endpoint 9 is full and that of endpoint 8 empty: both directions go to the node of 9. -/
theorem direction_agnostic_sample :
    ¬Aggregator.Split (sampleEnv .none 1) pairIdentity ⟨⟨"src", some "dst"⟩⟩
        (sampleWalk (sampleEnv .none 1) [samplePacket 0 [sampleLayer "udp" 9 5]])
        (sampleLayer "udp" 8 9) ∧
      Aggregator.DirectionAgnostic (sampleEnv .none 1) pairIdentity samplePayload samplePayload
        (sampleWalk (sampleEnv .none 1) [samplePacket 0 [sampleLayer "udp" 9 5]])
        (sampleLayer "udp" 8 9) (sampleLayer "udp" 9 8) := by
  have hwhole : ¬Aggregator.Split (sampleEnv .none 1) pairIdentity ⟨⟨"src", some "dst"⟩⟩
      (sampleWalk (sampleEnv .none 1) [samplePacket 0 [sampleLayer "udp" 9 5]])
      (sampleLayer "udp" 8 9) := by
    rintro ⟨-, cs, hcs, hall, -⟩
    obtain rfl := Option.some.inj hcs
    obtain ⟨g, hg, -⟩ := hall _ List.mem_cons_self
    have hnone : (run (sampleEnv .none 1) [samplePacket 0 [sampleLayer "udp" 9 5]]).condense.lookup
        (udpGroup 8) = none := by decide +kernel
    exact absurd (hnone.symm.trans hg) nofun
  have hlinked : (run (sampleEnv .none 1) [samplePacket 0 [sampleLayer "udp" 9 5]]).Linked none := by
    intro p hp
    cases hp
  have hfits : (Aggregator.ingestLayer (sampleEnv .none 1) samplePayload
      { sampleWalk (sampleEnv .none 1) [samplePacket 0 [sampleLayer "udp" 9 5]] with
        agg := (Aggregator.ingestLayer (sampleEnv .none 1) samplePayload
          (sampleWalk (sampleEnv .none 1) [samplePacket 0 [sampleLayer "udp" 9 5]])
          (sampleLayer "udp" 8 9)).agg } (sampleLayer "udp" 9 8)).agg.arena.slots.length < idLimit := by
    decide +kernel
  exact ⟨hwhole, (direction_agnostic_iff (.between (reaches_run _ _ (by decide))) hlinked (by decide)
    (sampleLayer_mirror _ _ 8 9) hfits).2 hwhole⟩

/-- The groups of the endpoints 9 and 8 are both full: the two directions of the conversation between them
go to two nodes and count as two flows. -/
theorem direction_agnostic_split :
    Aggregator.Visits (sampleEnv .none 1) (sampleWalk (sampleEnv .none 1)
        [samplePacket 0 [sampleLayer "udp" 9 5], samplePacket 0 [sampleLayer "udp" 8 7]]).agg ∧
      Aggregator.MirrorImage (sampleEnv .none 1) pairIdentity ⟨⟨"src", some "dst"⟩⟩
        (sampleLayer "udp" 9 8) (sampleLayer "udp" 8 9) ∧
      ¬Aggregator.DirectionAgnostic (sampleEnv .none 1) pairIdentity samplePayload samplePayload
        (sampleWalk (sampleEnv .none 1)
          [samplePacket 0 [sampleLayer "udp" 9 5], samplePacket 0 [sampleLayer "udp" 8 7]])
        (sampleLayer "udp" 9 8) (sampleLayer "udp" 8 9) := by
  refine ⟨.between (reaches_run _ _ (by decide)), sampleLayer_mirror _ _ 9 8, ?_⟩
  rintro ⟨b, id, dir, c, dir', hfirst, hsecond, -, -⟩
  have hids : (Aggregator.resolve (sampleEnv .none 1) (run (sampleEnv .none 1)
        [samplePacket 0 [sampleLayer "udp" 9 5], samplePacket 0 [sampleLayer "udp" 8 7]]) none
        (sampleLayer "udp" 9 8) 0).map (fun r => r.2.1) ≠
      (Aggregator.resolve (sampleEnv .none 1) (Aggregator.ingestLayer (sampleEnv .none 1) samplePayload
        (sampleWalk (sampleEnv .none 1)
          [samplePacket 0 [sampleLayer "udp" 9 5], samplePacket 0 [sampleLayer "udp" 8 7]])
        (sampleLayer "udp" 9 8)).agg none (sampleLayer "udp" 8 9) 0).map fun r => r.2.1 := by
    decide +kernel
  exact hids ((congrArg (Option.map fun r => r.2.1) hfirst).trans
    (congrArg (Option.map fun r => r.2.1) hsecond).symm)

end Pktflow.Flows

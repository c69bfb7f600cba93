import Pktflow.Flows.Accounting

/-!
# Groups and the flows they count

A condensation group counts expanded flows by their anchors. The anchors of a live expanded flow are read
off the key fields it was stored with, and these give the anchors it was tallied with when it was created
(`condenseCandidates_keyFieldsOf`). A layer changes the count of a group and the number of live flows on
its anchor by the same amount (`groupCount_layer`); the eviction of an expanded flow takes one off both;
only the eviction of a condensed node resets a count. Hence no group counts more flows than there are
(`countInv_runStable`).
-/

set_option autoImplicit false

namespace Pktflow.Flows

open Pktflow.Core Pktflow.Lib

/-! ## Candidates from key fields -/

/-- A fold that copies named fields out of a map. -/
theorem get_foldl_copy {fields : FieldMap} {copy : FieldMap → FieldName → FieldMap}
    (hcopy : ∀ m name k, (copy m name).get k = if k = name then (fields.get k).or (m.get k) else m.get k)
    (names : List FieldName) (m : FieldMap) (k : FieldName) :
    (names.foldl copy m).get k = if k ∈ names then (fields.get k).or (m.get k) else m.get k := by
  induction names generalizing m with
  | nil => simp
  | cons name names ih =>
      rw [List.foldl_cons, ih, hcopy]
      by_cases hk : k = name
      · subst hk
        cases fields.get k <;> simp
      · simp [hk]

/-- The fields a key names are among the key fields. -/
theorem get_keyFieldsOf {identity : StreamIdentity} {kf : KeyField} {name : FieldName}
    (fields : FieldMap) (hkf : kf ∈ identity.key) (hname : name = kf.a ∨ kf.b = some name) :
    (Aggregator.keyFieldsOf identity fields).get name = fields.get name := by
  rw [Aggregator.keyFieldsOf]
  rw [@get_foldl_copy fields _ ?_, if_pos]
  · cases fields.get name <;> rfl
  · rw [List.mem_flatMap]
    refine ⟨kf, hkf, ?_⟩
    rcases hname with rfl | hb
    · exact List.mem_cons_self
    · rw [hb]
      exact List.mem_cons_of_mem _ (List.mem_singleton.2 rfl)
  · intro m name k
    by_cases hk : k = name
    · subst hk
      cases hv : fields.get k with
      | none => simp
      | some v => simp [FieldMap.get_insert]
    · cases hv : fields.get name with
      | none => simp [hk]
      | some v => simp [FieldMap.get_insert, hk]

/-- The encoding of an anchor reads no field but those of the key. -/
theorem anchorBase_congr {eph : KeyField} {f g : FieldMap} {key : List KeyField}
    (h : ∀ kf ∈ key, ∀ name, name = kf.a ∨ kf.b = some name → g.get name = f.get name) :
    anchorBase eph g key = anchorBase eph f key := by
  induction key with
  | nil => rfl
  | cons kf rest ih =>
      have htail := ih fun kf' hkf' => h kf' (List.mem_cons_of_mem _ hkf')
      have ha : g.get kf.a = f.get kf.a := h kf List.mem_cons_self kf.a (.inl rfl)
      unfold anchorBase
      rw [htail, ha]
      cases hb : kf.b with
      | none => rfl
      | some b => simp only [h kf List.mem_cons_self b (.inr hb)]

/-- The anchors of a flow are those of its stored key fields. -/
theorem condenseCandidates_keyFieldsOf (env : Env) {identity : StreamIdentity} {spec : CondenseSpec}
    (fields : FieldMap) (heph : spec.ephemeral ∈ identity.key) :
    condenseCandidates env identity spec (Aggregator.keyFieldsOf identity fields) =
      condenseCandidates env identity spec fields := by
  have hbase : anchorBase spec.ephemeral (Aggregator.keyFieldsOf identity fields) identity.key =
      anchorBase spec.ephemeral fields identity.key :=
    anchorBase_congr fun kf hkf name hname => get_keyFieldsOf fields hkf hname
  have ha : (Aggregator.keyFieldsOf identity fields).get spec.ephemeral.a =
      fields.get spec.ephemeral.a := get_keyFieldsOf fields heph (.inl rfl)
  unfold condenseCandidates
  simp only [hbase, ha]
  cases hb : spec.ephemeral.b with
  | none => rfl
  | some b => simp only [Option.bind_eq_bind, Option.bind_some, get_keyFieldsOf fields heph (.inr hb)]

/-- The two anchors of a flow differ. -/
theorem condenseCandidates_nodup {env : Env} {identity : StreamIdentity} {spec : CondenseSpec}
    {fields : FieldMap} {cs : List CondenseCandidate}
    (h : condenseCandidates env identity spec fields = some cs) :
    (cs.map CondenseCandidate.anchor).Nodup := by
  unfold condenseCandidates at h
  simp only [Option.bind_eq_bind, Option.bind_eq_some_iff] at h
  obtain ⟨bName, -, va, -, vb, -, base, -, hcs⟩ := h
  obtain rfl := Option.some.inj hcs
  split
  · exact List.nodup_singleton _
  · rename_i hne
    simp only [List.map_cons, List.map_nil, List.nodup_cons, List.mem_singleton, List.not_mem_nil,
      not_false_eq_true, List.nodup_nil, and_true]
    exact fun heq => hne (List.append_cancel_left heq)

/-! ## The sides of a stream -/

/-- The group keys of a list of candidates. -/
def groupKeys (parent : Option StreamId) (protocol : ProtocolName) (cs : List CondenseCandidate) :
    List CondenseKey :=
  cs.map fun c => (parent, protocol, c.anchor)

theorem count_groupKeys_cons (parent : Option StreamId) (protocol : ProtocolName)
    (c : CondenseCandidate) (cs : List CondenseCandidate) (ck : CondenseKey) :
    (groupKeys parent protocol (c :: cs)).count ck =
      (groupKeys parent protocol cs).count ck + if ck = (parent, protocol, c.anchor) then 1 else 0 := by
  simp only [groupKeys, List.map_cons, List.count_cons, beq_iff_eq]
  congr 1
  simp only [eq_comm]

/-- Distinct anchors give distinct group keys. -/
theorem groupKeys_nodup {env : Env} {identity : StreamIdentity} {spec : CondenseSpec}
    {fields : FieldMap} {cs : List CondenseCandidate}
    (h : condenseCandidates env identity spec fields = some cs) (parent : Option StreamId)
    (protocol : ProtocolName) : (groupKeys parent protocol cs).Nodup := by
  have hnodup := (condenseCandidates_nodup h).map
    (f := fun anchor => ((parent, protocol, anchor) : CondenseKey))
    fun x y hxy => congrArg (fun k : CondenseKey => k.2.2) hxy
  rw [List.map_map] at hnodup
  exact hnodup

/-- The groups an expanded flow counts toward: one for each of its anchors. A condensed node counts
toward none. -/
def Stream.sides (s : Stream) (env : Env) : List CondenseKey :=
  if s.condensed.isSome then []
  else
    match Aggregator.identityOf env s.protocol with
    | none => []
    | some (plugin, identity) =>
        match plugin.condense with
        | none => []
        | some spec =>
            groupKeys s.parent s.protocol
              ((condenseCandidates env identity spec s.keyFields).getD [])

theorem Stream.sides_node {s : Stream} (h : s.condensed.isSome = true) (env : Env) : s.sides env = [] :=
  if_pos h

theorem Stream.sides_nodup (s : Stream) (env : Env) : (s.sides env).Nodup := by
  rw [Stream.sides]
  split
  · exact List.nodup_nil
  · cases Aggregator.identityOf env s.protocol with
    | none => exact List.nodup_nil
    | some pair =>
        obtain ⟨plugin, identity⟩ := pair
        dsimp only
        cases plugin.condense with
        | none => exact List.nodup_nil
        | some spec =>
            dsimp only
            cases hcs : condenseCandidates env identity spec s.keyFields with
            | none => exact List.nodup_nil
            | some cs => exact groupKeys_nodup hcs s.parent s.protocol

/-- The sides are the same as long as the stream lives. -/
theorem Stream.sides_frame {s t : Stream} (h : s.frame = t.frame) (env : Env) :
    s.sides env = t.sides env := by
  have hproto : s.protocol = t.protocol := congrArg Frame.protocol h
  have hparent : s.parent = t.parent := congrArg Frame.parent h
  have hfields : s.keyFields = t.keyFields := congrArg Frame.keyFields h
  have hnode : s.condensed.isSome = t.condensed.isSome := congrArg Frame.isNode h
  unfold Stream.sides
  rw [hproto, hparent, hfields, hnode]

namespace Aggregator

/-- A new expanded stream has the sides its layer's candidates give. -/
theorem sides_layerStream {env : Env} {layer : LayerRecord} {plugin : LayerPlugin}
    {identity : StreamIdentity} (hid : identityOf env layer.protocol = some (plugin, identity))
    (hon : 0 < env.config.condenseThreshold) (parent : Option StreamId) (key : FlowKey)
    (dir : PacketDirection) (ts : SystemTime) (id : StreamId) (seq : Nat) :
    ((layerStream env parent key identity layer dir ts).record id seq).sides env =
      groupKeys parent layer.protocol
        ((candidatesOf env identity plugin.condense layer.fields).getD []) := by
  rw [Stream.sides, candidatesOf]
  rw [if_pos hon]
  simp only [layerStream, NewStream.record, Option.isSome_none, Bool.false_eq_true, if_false, hid]
  cases hspec : plugin.condense with
  | none => rfl
  | some spec =>
      obtain ⟨-, hmem, -⟩ := identityOf_valid hid hspec
      simp only [Option.bind_some, condenseCandidates_keyFieldsOf env layer.fields hmem]

/-! ## The count of a group -/

/-- The `expanded` tally of a group, zero when there is none. -/
def groupCount (m : HashMap CondenseKey CondenseGroup) (ck : CondenseKey) : Nat :=
  ((m.lookup ck).map CondenseGroup.expanded).getD 0

theorem groupCount_of_lookup {m : HashMap CondenseKey CondenseGroup} {ck : CondenseKey}
    {g : CondenseGroup} (h : m.lookup ck = some g) : groupCount m ck = g.expanded := by
  simp only [groupCount, h, Option.map_some, Option.getD_some]

theorem groupCount_insert (m : HashMap CondenseKey CondenseGroup) (k ck : CondenseKey)
    (g : CondenseGroup) :
    groupCount (m.insert k g) ck = if ck = k then g.expanded else groupCount m ck := by
  unfold groupCount
  by_cases h : ck = k
  · subst h
    simp
  · rw [AList.lookup_insert_ne h, if_neg h]

theorem groupCount_erase (m : HashMap CondenseKey CondenseGroup) (k ck : CondenseKey) :
    groupCount (m.erase k) ck = if ck = k then 0 else groupCount m ck := by
  unfold groupCount
  by_cases h : ck = k
  · subst h
    simp
  · rw [AList.lookup_erase_ne h, if_neg h]

theorem groupCount_tallyAnchor (parent : Option StreamId) (protocol : ProtocolName)
    (m : HashMap CondenseKey CondenseGroup) (c : CondenseCandidate) (ck : CondenseKey) :
    groupCount (tallyAnchor parent protocol m c) ck =
      groupCount m ck + if ck = (parent, protocol, c.anchor) then 1 else 0 := by
  rw [tallyAnchor]
  rw [groupCount_insert]
  by_cases h : ck = (parent, protocol, c.anchor)
  · subst h
    rw [if_pos rfl, if_pos rfl]
    rw [groupCount]
    cases m.lookup (parent, protocol, c.anchor) <;> rfl
  · rw [if_neg h, if_neg h, Nat.add_zero]

theorem groupCount_untallyAnchor (parent : Option StreamId) (protocol : ProtocolName)
    (m : HashMap CondenseKey CondenseGroup) (c : CondenseCandidate) (ck : CondenseKey) :
    groupCount (untallyAnchor parent protocol m c) ck =
      groupCount m ck - if ck = (parent, protocol, c.anchor) then 1 else 0 := by
  cases hg : m.lookup (parent, protocol, c.anchor) with
  | none =>
      simp only [untallyAnchor, hg]
      by_cases h : ck = (parent, protocol, c.anchor)
      · subst h
        simp [groupCount, hg]
      · rw [if_neg h, Nat.sub_zero]
  | some group =>
      simp only [untallyAnchor, hg]
      split
      · rename_i hempty
        rw [groupCount_erase]
        by_cases h : ck = (parent, protocol, c.anchor)
        · subst h
          rw [if_pos rfl, if_pos rfl, groupCount_of_lookup hg, hempty.1]
        · rw [if_neg h, if_neg h, Nat.sub_zero]
      · rw [groupCount_insert]
        by_cases h : ck = (parent, protocol, c.anchor)
        · subst h
          rw [if_pos rfl, if_pos rfl, groupCount_of_lookup hg]
        · rw [if_neg h, if_neg h, Nat.sub_zero]

theorem groupCount_tallies (parent : Option StreamId) (protocol : ProtocolName)
    (cs : List CondenseCandidate) (m : HashMap CondenseKey CondenseGroup) (ck : CondenseKey) :
    groupCount (cs.foldl (tallyAnchor parent protocol) m) ck =
      groupCount m ck + (groupKeys parent protocol cs).count ck := by
  induction cs generalizing m with
  | nil => rfl
  | cons c cs ih =>
      rw [List.foldl_cons, ih, groupCount_tallyAnchor, count_groupKeys_cons]
      omega

theorem groupCount_untallies (parent : Option StreamId) (protocol : ProtocolName)
    (cs : List CondenseCandidate) (m : HashMap CondenseKey CondenseGroup) (ck : CondenseKey) :
    groupCount (cs.foldl (untallyAnchor parent protocol) m) ck =
      groupCount m ck - (groupKeys parent protocol cs).count ck := by
  induction cs generalizing m with
  | nil => rfl
  | cons c cs ih =>
      rw [List.foldl_cons, ih, groupCount_untallyAnchor, count_groupKeys_cons]
      omega

/-! ## What the steps do to the counts -/

/-- How often a stream counts toward a group. -/
def sideCount (env : Env) (ck : CondenseKey) (s : Stream) : Nat := (s.sides env).count ck

theorem sideCount_factual (env : Env) (ck : CondenseKey) : Factual (sideCount env ck) := fun _ => rfl

theorem sideCount_frame (env : Env) (ck : CondenseKey) {s t : Stream} (h : s.frame = t.frame) :
    sideCount env ck s = sideCount env ck t := by
  unfold sideCount
  rw [Stream.sides_frame h]

/-- The live expanded flows that have an anchor as one of their sides. -/
def liveOn (env : Env) (ck : CondenseKey) (a : Aggregator) : Nat := liveSum (sideCount env ck) a

theorem liveOn_eq_filter (env : Env) (ck : CondenseKey) (a : Aggregator) :
    liveOn env ck a = (a.streams.filter fun s => ck ∈ s.sides env).length := by
  rw [liveOn, liveSum]
  induction a.streams with
  | nil => rfl
  | cons s l ih =>
      rw [List.map_cons, List.sum_cons, ih, List.filter_cons, sideCount]
      by_cases h : ck ∈ s.sides env
      · rw [List.count_eq_one_of_mem (s.sides_nodup env) h]
        simp [h, Nat.add_comm]
      · rw [List.count_eq_zero_of_not_mem h]
        simp [h]

/-- The membership part of `condense_fold` leaves the counts alone. -/
theorem groupCount_addMember (a : Aggregator) (ckey : CondenseKey) (id : StreamId) (digest : UInt64)
    (ck : CondenseKey) :
    groupCount (a.addMember ckey id digest).condense ck = groupCount a.condense ck := by
  have hm := addMember_spec a ckey id digest
  generalize a.addMember ckey id digest = b at hm
  cases hm with
  | known => rfl
  | overflow => rfl
  | @counted group hg _ =>
      have hinsert := groupCount_insert a.condense ckey ck { group with members := insert digest group.members }
      apply hinsert.trans
      split
      · rename_i h
        rw [h, groupCount_of_lookup hg]
      · rfl

theorem liveOn_modify (env : Env) (ck : CondenseKey) (a : Aggregator) (id : StreamId) {f : Stream → Stream}
    (hf : ∀ s, (f s).frame = s.frame) : liveOn env ck (a.modify id f) = liveOn env ck a :=
  liveSum_modify_eq (sideCount_factual env ck) a id fun s => sideCount_frame env ck (hf s)

theorem liveOn_addMember (env : Env) (a : Aggregator) (ckey : CondenseKey) (id : StreamId) (digest : UInt64)
    (ck : CondenseKey) : liveOn env ck (a.addMember ckey id digest) = liveOn env ck a := by
  have hm := addMember_spec a ckey id digest
  generalize a.addMember ckey id digest = b at hm
  cases hm with
  | known => rfl
  | overflow => exact liveOn_modify env ck a id Stream.markOverflow_frame
  | counted _ _ => exact liveOn_modify env ck _ id Stream.countMember_frame

section Counts

variable {env : Env} (hon : 0 < env.config.condenseThreshold) {a b : Aggregator}

include hon

/-- The eviction of an expanded flow takes one off the count of each of its anchors. -/
theorem groupCount_expanded {s : Stream} (hs : s.condensed.isSome = false)
    (m : HashMap CondenseKey CondenseGroup) (ck : CondenseKey) :
    groupCount (groupsWithout env m s) ck = groupCount m ck - sideCount env ck s := by
  have hoff : env.config.condenseThreshold ≠ 0 := Nat.ne_of_gt hon
  rw [groupsWithout, sideCount, Stream.sides, identityOf]
  rw [if_neg hoff, hs]
  simp only [Bool.false_eq_true, if_false]
  cases env.engine.pluginByName s.protocol with
  | none => rfl
  | some plugin =>
      cases hi : plugin.streamIdentity with
      | none => cases hc : plugin.condense <;> simp [hi]
      | some identity =>
          cases hc : plugin.condense with
          | none => simp [hi, hc]
          | some spec =>
              simp only [hi, hc, Option.bind_eq_bind, Option.bind_some, Option.pure_def]
              cases condenseCandidates env identity spec s.keyFields with
              | none => rfl
              | some cs => exact groupCount_untallies s.parent s.protocol cs m ck

/-- The eviction of a condensed node forgets the count of its anchor. -/
theorem groupCount_node {s : Stream} (hs : s.condensed.isSome = true)
    (m : HashMap CondenseKey CondenseGroup) (ck : CondenseKey) :
    groupCount (groupsWithout env m s) ck =
      if ck = (s.parent, s.protocol, s.key.drop 1) then 0 else groupCount m ck := by
  rw [groupsWithout]
  rw [if_neg (Nat.ne_of_gt hon), if_pos hs, groupCount_erase]

omit hon in
/-- The creation of a condensed node leaves the counts alone. -/
theorem groupCount_createNode {ckey : CondenseKey} {group : CondenseGroup}
    (hg : a.condense.lookup ckey = some group) (identity : StreamIdentity) (c : CondenseCandidate)
    (ts : SystemTime) (ck : CondenseKey) :
    groupCount (a.createNode env ckey group identity c ts).1.condense ck = groupCount a.condense ck := by
  apply (groupCount_insert a.condense ckey ck { group with node := some a.freshId }).trans
  split
  · rename_i h
    rw [h, groupCount_of_lookup hg]
  · rfl

/-- Resolution adds to the count of a group what it adds to the live flows on its anchor. -/
theorem groupCount_resolution {parent : Option StreamId} {key : FlowKey} {plugin : LayerPlugin}
    {identity : StreamIdentity} {layer : LayerRecord} {dir : PacketDirection} {ts : SystemTime}
    {r : Aggregator × StreamId × PacketDirection} (hp : a.Linked parent)
    (hid : identityOf env layer.protocol = some (plugin, identity))
    (hr : Resolution env a parent key identity plugin.condense layer dir ts r) (hfits : r.1.Fits)
    (ck : CondenseKey) :
    ∃ d, groupCount r.1.condense ck = groupCount a.condense ck + d ∧
      liveOn env ck r.1 = liveOn env ck a + d := by
  have hlim : a.Fits := hr.fits hfits
  cases hr with
  | hit _ _ _ => exact ⟨0, rfl, rfl⟩
  | member _ _ _ _ _ => exact ⟨0, groupCount_addMember _ _ _ _ _, liveOn_addMember _ _ _ _ _ _⟩
  | @node cs c group _ _ hg _ _ =>
      refine ⟨0, ?_, ?_⟩
      · rw [groupCount_addMember, groupCount_createNode hg, Nat.add_zero]
      · rw [liveOn_addMember]
        have hcreate := liveSum_create (sideCount_factual env ck) env
          (n := nodeStream env (parent, layer.protocol, c.anchor) identity c ts) hlim hp
        apply hcreate.trans
        -- a condensed node is nobody's flow
        have hnode : sideCount env ck ((nodeStream env (parent, layer.protocol, c.anchor) identity c
            ts).record a.freshId a.nextSeq) = 0 := rfl
        rw [hnode, Nat.zero_add]
        rfl
  | @fresh cs hcs _ =>
      refine ⟨(groupKeys parent layer.protocol cs).count ck, ?_, ?_⟩
      · exact groupCount_tallies parent layer.protocol cs a.condense ck
      · have hcreate := liveSum_create (sideCount_factual env ck) env
          (n := layerStream env parent key identity layer dir ts) hlim hp
        apply hcreate.trans
        rw [sideCount, sides_layerStream hid hon, ← hcs, Nat.add_comm]
        rfl

/-- A layer of the walk, likewise. -/
theorem groupCount_layer {pkt : DissectedPacket} {w w' : Walk} {layer : LayerRecord} (hw : WalkInv w)
    (hstep : LayerStep env pkt w layer w') (hfits : w'.agg.Fits) (ck : CondenseKey) :
    ∃ d, groupCount w'.agg.condense ck = groupCount w.agg.condense ck + d ∧
      liveOn env ck w'.agg = liveOn env ck w.agg + d := by
  cases hstep with
  | skip _ => exact ⟨0, rfl, rfl⟩
  | keyError _ _ => exact ⟨0, rfl, rfl⟩
  | @folded plugin identity key dir foldDir b id hid hkey hr =>
      have hfits' : b.Fits := fits_of_touch hfits
      obtain ⟨d, hcount, hlive⟩ := groupCount_resolution hon hw.linked hid hr hfits' ck
      refine ⟨d, hcount, ?_⟩
      have htouch := liveOn_modify env ck b id fun s =>
        s.absorb_frame identity layer key foldDir pkt.meta_.timestamp pkt.meta_.origlen
      exact htouch.trans hlive

/-- What an eviction does: an expanded flow leaves the count and the live flows of each of its anchors,
a condensed node resets the count of its own. -/
theorem groupCount_evict {id : StreamId} {s : Stream} (reason : CloseReason) (hf : ForestInv a)
    (hs : a.get id = some s) (ck : CondenseKey) :
    (s.condensed.isSome = false ∧
        groupCount (a.evict env id reason).condense ck = groupCount a.condense ck - sideCount env ck s ∧
        liveOn env ck a = sideCount env ck s + liveOn env ck (a.evict env id reason)) ∨
      (s.condensed.isSome = true ∧
        groupCount (a.evict env id reason).condense ck =
          (if ck = (s.parent, s.protocol, s.key.drop 1) then 0 else groupCount a.condense ck) ∧
        liveOn env ck (a.evict env id reason) = liveOn env ck a) := by
  have hlive : liveOn env ck a = sideCount env ck s + liveOn env ck (a.evict env id reason) :=
    liveSum_evict (sideCount_factual env ck) env reason hf hs
  have hcondense := (evict_updated env reason hs).2.2.2.1
  cases hnode : s.condensed.isSome with
  | false =>
      refine .inl ⟨rfl, ?_, hlive⟩
      rw [hcondense, groupCount_expanded hon hnode]
  | true =>
      have hzero : sideCount env ck s = 0 := by
        rw [sideCount]
        rw [Stream.sides_node hnode, List.count_nil]
      refine .inr ⟨rfl, ?_, by omega⟩
      rw [hcondense, groupCount_node hon hnode]

/-- No group counts more flows than are live on its anchor. -/
theorem countInv_runStable :
    RunStable env (fun _ => True) fun a => ∀ ck, groupCount a.condense ck ≤ liveOn env ck a where
  close := by
    intro a id h ck
    obtain ⟨calls, heq⟩ := closeStream_eq env a id
    rw [heq]
    have hlive := liveOn_modify (f := fun s => s.markClosed .captureEnd) env ck a id fun _ => rfl
    exact (h ck).trans_eq hlive.symm
  evict := by
    intro a id s reason hf hs _ h ck
    have hck := h ck
    rcases groupCount_evict hon reason hf hs ck with ⟨-, hcount, hlive⟩ | ⟨-, hcount, hlive⟩
    · omega
    · rw [hcount, hlive]
      split
      · exact Nat.zero_le _
      · exact hck
  heaps := fun _ _ h => h
  new := fun _ => Nat.zero_le _
  tick := fun _ h => h
  layer := by
    intro pkt w w' layer hw _ hstep hfits h ck
    obtain ⟨d, hcount, hlive⟩ := groupCount_layer hon hw hstep hfits ck
    rw [hcount, hlive]
    exact Nat.add_le_add_right (h ck) d
  tail := by
    intro a id n h ck
    have hlive := liveOn_modify (f := fun s => s.addOpaqueBytes n) env ck a id fun _ => rfl
    exact (h ck).trans_eq hlive.symm
  unknown := fun _ h => h

end Counts

end Aggregator

end Pktflow.Flows

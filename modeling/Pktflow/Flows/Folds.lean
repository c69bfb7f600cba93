import Pktflow.Flows.Streams

/-!
# Which packets a stream takes

`get_or_insert` hands a layer to a record that was filed under its flow key, or to the condensed node of
one of its anchors, and tells the direction to count the packet in (`Takes`). A record begins as
`create_stream` or `condense_fold` fills it in (`Fresh`). `FoldRule` is the induction rule over the two:
a property that fresh records have and that folding keeps holds of every stream ever stored.
-/

set_option autoImplicit false

namespace Pktflow.Flows

open Pktflow.Core Pktflow.Lib

namespace Aggregator

/-- The layer a packet is resolved by: its identity, condensation, key and direction. -/
structure Keyed (env : Env) (layer : LayerRecord) (identity : StreamIdentity)
    (condense : Option CondenseSpec) (key : FlowKey) (dir : PacketDirection) : Prop where
  registered : ∃ plugin, identityOf env layer.protocol = some (plugin, identity) ∧
    plugin.condense = condense
  built : flowKey identity layer.fields = .ok (key, dir)

/-- The records `get_or_insert` creates for a layer: an expanded stream, or the condensed node of one
of its anchors. -/
inductive Fresh (env : Env) (layer : LayerRecord) (identity : StreamIdentity)
    (condense : Option CondenseSpec) (key : FlowKey) (dir : PacketDirection) (ts : SystemTime) :
    Stream → Prop
  | flow (parent : Option StreamId) (id : StreamId) (seq : Nat) :
      Fresh env layer identity condense key dir ts
        ((layerStream env parent key identity layer dir ts).record id seq)
  | node {cs : List CondenseCandidate} {c : CondenseCandidate} (parent : Option StreamId)
      (id : StreamId) (seq : Nat) :
      candidatesOf env identity condense layer.fields = some cs → c ∈ cs →
      Fresh env layer identity condense key dir ts
        ((nodeStream env (parent, layer.protocol, c.anchor) identity c ts).record id seq)

/-- `Takes … s d`: the layer may be handed to the record `s` and counted in the direction `d`. -/
inductive Takes (env : Env) (layer : LayerRecord) (identity : StreamIdentity)
    (condense : Option CondenseSpec) (key : FlowKey) (dir : PacketDirection) :
    Stream → PacketDirection → Prop
  | flow {s : Stream} : s.protocol = layer.protocol → s.condensed = none → s.key = key →
      Takes env layer identity condense key dir s dir
  | node {s : Stream} {cs : List CondenseCandidate} {c : CondenseCandidate} :
      s.protocol = layer.protocol → s.condensed.isSome = true →
      candidatesOf env identity condense layer.fields = some cs → c ∈ cs →
      s.key = condensedKeySentinel :: c.anchor →
      Takes env layer identity condense key dir s c.foldDir

/-- A property of streams that their creation establishes and every change of them keeps. -/
structure FoldRule (env : Env) (P : Stream → Prop) : Prop where
  facts : ∀ s, P (Stream.facts s) ↔ P s
  tail : ∀ s n, P s → P (Stream.addOpaqueBytes s n)
  count : ∀ s, P s → P (Stream.countMember s)
  overflow : ∀ s, P s → P (Stream.markOverflow s)
  fresh : ∀ {layer identity condense key dir ts s}, Keyed env layer identity condense key dir →
    Fresh env layer identity condense key dir ts s → P s
  absorb : ∀ {layer identity condense key dir d s} ts origlen,
    Keyed env layer identity condense key dir → Takes env layer identity condense key dir s d → P s →
    P (s.absorb identity layer key d ts origlen).1

section Rule

variable {env : Env} {P : Stream → Prop} {a : Aggregator}

theorem Everywhere.create (env : Env) (hfacts : ∀ s, P (Stream.facts s) ↔ P s) {n : NewStream}
    (hlim : a.Fits) (hp : a.Linked n.parent) (h : Everywhere P a)
    (hnew : P (n.record a.freshId a.nextSeq)) :
    Everywhere P (a.createStreamRaw env n).1 := by
  refine everywhere_iff.2 ?_
  rw [tally_create (factual_lacking hfacts) env hlim hp, everywhere_iff.1 h, lacking_eq_zero.2 hnew]

theorem Everywhere.modify (hfacts : ∀ s, P (Stream.facts s) ↔ P s) {f : Stream → Stream}
    (hf : ∀ s, P s → P (f s)) (id : StreamId) (h : Everywhere P a) :
    Everywhere P (a.modify id f) := by
  cases hs : a.get id with
  | none =>
      have harena : (a.modify id f).arena = a.arena := Arena.modify_of_get_none hs _
      refine everywhere_iff.2 ?_
      rw [tally_congr harena rfl, everywhere_iff.1 h]
  | some s =>
      have hmod := tally_modify (factual_lacking hfacts) f hs
      rw [everywhere_iff.1 h, lacking_eq_zero.2 (h.live hs), lacking_eq_zero.2 (hf s (h.live hs))] at hmod
      exact everywhere_iff.2 hmod

theorem Everywhere.congr {b : Aggregator} (h : Everywhere P a) (harena : b.arena = a.arena)
    (hremoved : b.removed = a.removed) : Everywhere P b := by
  refine everywhere_iff.2 ?_
  rw [tally_congr harena hremoved, everywhere_iff.1 h]

theorem FoldRule.addMember (hrule : FoldRule env P) (ckey : CondenseKey) (id : StreamId)
    (digest : UInt64) (h : Everywhere P a) : Everywhere P (a.addMember ckey id digest) := by
  have hm := addMember_spec a ckey id digest
  generalize a.addMember ckey id digest = b at hm
  cases hm with
  | known => exact h
  | counted _ _ =>
      apply Everywhere.modify hrule.facts hrule.count id
      exact h.congr rfl rfl
  | overflow => exact h.modify hrule.facts hrule.overflow id

/-- The record that resolution leads to takes the layer. -/
theorem TableInv.takes (htab : TableInv env a) {parent : Option StreamId} {key : FlowKey}
    {plugin : LayerPlugin} {identity : StreamIdentity} {layer : LayerRecord}
    {dir d : PacketDirection} {ts : SystemTime} {b : Aggregator} {id : StreamId} {s : Stream}
    (hp : a.Linked parent) (hid : identityOf env layer.protocol = some (plugin, identity))
    (hkey : flowKey identity layer.fields = .ok (key, dir))
    (hr : Resolution env a parent key identity plugin.condense layer dir ts (b, id, d)) (hfits : b.Fits)
    (hs : b.get id = some s) : Takes env layer identity plugin.condense key dir s d := by
  have hlim : a.Fits := hr.fits hfits
  have hframe := frames_of_get hs
  obtain ⟨-, f, hf, -, hpro⟩ := htab.resolution hp hid hkey hr hfits
  have hf' : b.frames id = some f := hf
  obtain rfl := Option.some.inj (hframe.symm.trans hf')
  cases hr with
  | @hit _ s' hmem hs' hk =>
      obtain rfl := Option.some.inj (hs.symm.trans hs')
      refine .flow hpro ?_ hk
      -- the key of a condensed node is none that `flow_key` builds
      cases hn : s.condensed with
      | none => rfl
      | some info =>
          obtain ⟨anchor, -, hnode, -⟩ := htab.groups.node_group hframe (by simp [Stream.frame, hn])
          obtain ⟨plugin', identity', spec, hid', hspec⟩ :=
            htab.groups.declared hframe (by simp [Stream.frame, hn])
          have hprotocol : s.protocol = layer.protocol := hpro
          have hid'' : identityOf env s.protocol = some (plugin', identity') := hid'
          rw [hprotocol, hid] at hid''
          obtain ⟨rfl, rfl⟩ := Prod.mk.inj (Option.some.inj hid'')
          have hkeyNode : s.key = condensedKeySentinel :: anchor := hnode
          exact absurd (hk.symm.trans hkeyNode) (flowKey_ne_nodeKey hid hspec hkey anchor)
  | @member cs c group _ s' hcs hc hg hnode hs' =>
      obtain ⟨f, hf, hisnode, -, -, hk⟩ := htab.groups.node_live hg hnode
      rw [frames_addMember, hf] at hframe
      obtain rfl := Option.some.inj hframe
      exact .node hpro hisnode hcs hc hk
  | @node cs c group hcs hc hg hdead _ =>
      rw [frames_addMember] at hframe
      have hcreate := (frames_of_create (n := nodeStream env (parent, layer.protocol, c.anchor) identity c ts)
        env hlim hp).2 (.inl ⟨rfl, rfl⟩)
      have hsame : s.frame = _ := Option.some.inj (hframe.symm.trans hcreate)
      refine .node hpro ?_ hcs hc ?_
      · exact congrArg Frame.isNode hsame
      · exact congrArg Frame.key hsame
  | @fresh cs hcs hmiss =>
      have hcreate := (frames_of_create (n := layerStream env parent key identity layer dir ts) env hlim
        hp).2 (.inl ⟨rfl, rfl⟩)
      have hsame : s.frame = _ := Option.some.inj (hframe.symm.trans hcreate)
      refine .flow hpro ?_ ?_
      · have hnone : s.condensed.isSome = false := congrArg Frame.isNode hsame
        simpa using hnone
      · exact congrArg Frame.key hsame

/-- Resolution creates records of the two kinds only. -/
theorem FoldRule.resolution (hrule : FoldRule env P) {parent : Option StreamId} {key : FlowKey}
    {identity : StreamIdentity} {condense : Option CondenseSpec} {layer : LayerRecord}
    {dir : PacketDirection} {ts : SystemTime} {r : Aggregator × StreamId × PacketDirection}
    (hp : a.Linked parent) (hk : Keyed env layer identity condense key dir)
    (hr : Resolution env a parent key identity condense layer dir ts r) (hfits : r.1.Fits)
    (h : Everywhere P a) : Everywhere P r.1 := by
  have hlim : a.Fits := hr.fits hfits
  cases hr with
  | hit _ _ _ => exact h
  | member _ _ _ _ _ => exact hrule.addMember _ _ _ h
  | @node cs c group hcs hc _ _ _ =>
      have hcreate := h.create env (n := nodeStream env (parent, layer.protocol, c.anchor) identity c ts)
        hrule.facts hlim hp
        (hrule.fresh hk (.node parent _ _ hcs hc))
      apply hrule.addMember _ _ _
      exact hcreate.congr rfl rfl
  | fresh _ _ =>
      have hcreate := h.create env (n := layerStream env parent key identity layer dir ts)
        hrule.facts hlim hp (hrule.fresh hk (.flow parent _ _))
      exact hcreate.congr rfl rfl

/-- The run rule for properties of single streams. -/
theorem FoldRule.runStable (hrule : FoldRule env P) : RunStable env (TableInv env) (Everywhere P) where
  toHeapFree := everywhere_heapFree env hrule.facts
  new := fun s hs => (by cases hs)
  tick := fun _ h => h
  layer := by
    intro pkt w w' layer hw htab hstep hfits h
    cases hstep with
    | skip _ => exact h
    | keyError _ _ => exact h
    | @folded plugin identity key dir foldDir b id hid hkey hr _ =>
        have hfits' : b.Fits := fits_of_touch hfits
        have hk : Keyed env layer identity plugin.condense key dir := ⟨⟨plugin, hid, rfl⟩, hkey⟩
        have hb : Everywhere P b := hrule.resolution hw.linked hk hr hfits' h
        obtain ⟨-, hlive⟩ := hw.forest.resolution hw.linked hr hfits'
        obtain ⟨s, hs⟩ := hlive
        have htakes := htab.takes hw.linked hid hkey hr hfits' hs
        have hafter := hrule.absorb pkt.meta_.timestamp pkt.meta_.origlen hk htakes (hb.live hs)
        have hadd := tally_touch (factual_lacking hrule.facts) env hs identity layer key foldDir
          pkt.meta_.timestamp pkt.meta_.origlen
        rw [lacking_eq_zero.2 hafter, lacking_eq_zero.2 (hb.live hs), everywhere_iff.1 hb] at hadd
        refine everywhere_iff.2 ?_
        show tally (lacking P) (b.touch env id identity layer key foldDir pkt.meta_.timestamp
          pkt.meta_.origlen) = 0
        omega
  tail := fun id n h => h.tail hrule.facts hrule.tail id n
  unknown := fun _ h => h

/-- The property holds of every stream ever stored in a run. -/
theorem FoldRule.reaches (hrule : FoldRule env P) {ops : List Op} (h : Reaches env ops a) :
    Everywhere P a :=
  (((TableInv.runStable env).and hrule.runStable).reaches h).2.2

end Rule

/-! ## The record of a stream -/

/-- The packets and bytes of folded packets. -/
def folded (l : List Fold) : DirStats := ⟨l.length, (l.map Fold.origlen).sum⟩

theorem folded_append (l : List Fold) (f : Fold) :
    folded (l ++ [f]) = ⟨(folded l).packets + 1, (folded l).bytes + f.origlen⟩ := by
  simp [folded]

/-- How a stream's record began: with the key fields and the direction of a packet of its key, or with
the anchor of a packet whose group had condensed. -/
inductive Born (env : Env) (s : Stream) : Prop
  | flow {layer : LayerRecord} {identity : StreamIdentity} {condense : Option CondenseSpec}
      {key : FlowKey} {dir : PacketDirection} : Keyed env layer identity condense key dir →
      s.protocol = layer.protocol → s.condensed = none → s.key = key →
      s.keyFields = keyFieldsOf identity layer.fields → s.initiator = dir → Born env s
  | node {layer : LayerRecord} {identity : StreamIdentity} {condense : Option CondenseSpec}
      {key : FlowKey} {dir : PacketDirection} {cs : List CondenseCandidate} {c : CondenseCandidate} :
      Keyed env layer identity condense key dir → s.protocol = layer.protocol →
      candidatesOf env identity condense layer.fields = some cs → c ∈ cs →
      s.condensed.map CondensedInfo.ephemeralField = some c.anchorField →
      s.key = condensedKeySentinel :: c.anchor →
      s.keyFields = FieldMap.new.insert c.anchorField c.anchorValue → Born env s

/-- The counters and the history of a stream agree, and the history has only packets that the stream
takes. -/
structure Recorded (env : Env) (s : Stream) : Prop where
  born : Born env s
  aToB : s.stats.aToB = folded (s.history.filter fun f => f.dir = .aToB)
  bToA : s.stats.bToA = folded (s.history.filter fun f => f.dir = .bToA)
  taken : ∀ f ∈ s.history, ∃ identity condense key dir, Keyed env f.layer identity condense key dir ∧
    Takes env f.layer identity condense key dir s f.dir

section Recorded

variable {env : Env} {s s' : Stream}

theorem Takes.congr {layer : LayerRecord} {identity : StreamIdentity} {condense : Option CondenseSpec}
    {key : FlowKey} {dir d : PacketDirection} (h : Takes env layer identity condense key dir s d)
    (hprotocol : s'.protocol = s.protocol) (hkey : s'.key = s.key)
    (hcondensed : s'.condensed.isSome = s.condensed.isSome) :
    Takes env layer identity condense key dir s' d := by
  cases h with
  | flow hp hc hk =>
      refine .flow (hprotocol.trans hp) ?_ (hkey.trans hk)
      rw [hc] at hcondensed
      simpa using hcondensed
  | node hp hc hcs hmem hk =>
      exact .node (hprotocol.trans hp) (hcondensed.trans hc) hcs hmem (hkey.trans hk)

theorem Born.congr (h : Born env s) (hframe : s'.frame = s.frame) (hinitiator : s'.initiator = s.initiator)
    (hfield : s'.condensed.map CondensedInfo.ephemeralField =
      s.condensed.map CondensedInfo.ephemeralField) : Born env s' := by
  have hprotocol : s'.protocol = s.protocol := congrArg Frame.protocol hframe
  have hkey : s'.key = s.key := congrArg Frame.key hframe
  have hfields : s'.keyFields = s.keyFields := congrArg Frame.keyFields hframe
  cases h with
  | flow hk hp hc hs hf hi =>
      refine .flow hk (hprotocol.trans hp) ?_ (hkey.trans hs) (hfields.trans hf) (hinitiator.trans hi)
      rw [hc] at hfield
      simpa using hfield
  | node hk hp hcs hmem hc hs hf =>
      exact .node hk (hprotocol.trans hp) hcs hmem (hfield.trans hc) (hkey.trans hs) (hfields.trans hf)

/-- A change that keeps frame, direction, counters and history. -/
theorem Recorded.congr (h : Recorded env s) (hframe : s'.frame = s.frame)
    (hinitiator : s'.initiator = s.initiator)
    (hfield : s'.condensed.map CondensedInfo.ephemeralField =
      s.condensed.map CondensedInfo.ephemeralField)
    (hstats : s'.stats = s.stats) (hhistory : s'.history = s.history) : Recorded env s' where
  born := h.born.congr hframe hinitiator hfield
  aToB := by rw [hstats, hhistory, h.aToB]
  bToA := by rw [hstats, hhistory, h.bToA]
  taken := by
    intro f hf
    rw [hhistory] at hf
    obtain ⟨identity, condense, key, dir, hk, htakes⟩ := h.taken f hf
    exact ⟨identity, condense, key, dir, hk, htakes.congr (congrArg Frame.protocol hframe)
      (congrArg Frame.key hframe) (congrArg Frame.isNode hframe)⟩

theorem recorded_fresh {layer : LayerRecord} {identity : StreamIdentity}
    {condense : Option CondenseSpec} {key : FlowKey} {dir : PacketDirection} {ts : SystemTime}
    (hk : Keyed env layer identity condense key dir)
    (hs : Fresh env layer identity condense key dir ts s) : Recorded env s := by
  cases hs with
  | flow _ _ _ =>
      refine ⟨.flow hk rfl rfl rfl rfl rfl, rfl, rfl, ?_⟩
      intro f hf
      cases hf
  | node _ _ _ hcs hc =>
      refine ⟨.node hk rfl hcs hc rfl rfl rfl, rfl, rfl, ?_⟩
      intro f hf
      cases hf

/-- A folded packet goes to the counter of its direction and to the end of the history. -/
theorem Recorded.absorb {layer : LayerRecord} {identity : StreamIdentity}
    {condense : Option CondenseSpec} {key : FlowKey} {dir d : PacketDirection} (ts : SystemTime)
    (origlen : Nat) (hk : Keyed env layer identity condense key dir)
    (htakes : Takes env layer identity condense key dir s d) (h : Recorded env s) :
    Recorded env (s.absorb identity layer key d ts origlen).1 := by
  have hframe := Stream.absorb_frame s identity layer key d ts origlen
  rw [Stream.absorb_eq] at hframe ⊢
  refine ⟨h.born.congr hframe rfl rfl, ?_, ?_, ?_⟩
  · rw [List.filter_append]
    cases d with
    | aToB =>
        simp only [StatsPair.record, List.filter_cons, decide_true, if_true, List.filter_nil]
        rw [folded_append, h.aToB]
    | bToA => simpa [StatsPair.record] using h.aToB
  · rw [List.filter_append]
    cases d with
    | aToB => simpa [StatsPair.record] using h.bToA
    | bToA =>
        simp only [StatsPair.record, List.filter_cons, decide_true, if_true, List.filter_nil]
        rw [folded_append, h.bToA]
  · intro f hf
    rcases List.mem_append.1 hf with hf | hf
    · obtain ⟨identity', condense', key', dir', hk', htakes'⟩ := h.taken f hf
      exact ⟨identity', condense', key', dir', hk', htakes'.congr rfl rfl rfl⟩
    · obtain rfl := List.mem_singleton.1 hf
      exact ⟨identity, condense, key, dir, hk, htakes.congr rfl rfl rfl⟩

theorem recorded_rule (env : Env) : FoldRule env (Recorded env) where
  facts := fun _ => ⟨fun h => h.congr rfl rfl rfl rfl rfl, fun h => h.congr rfl rfl rfl rfl rfl⟩
  tail := fun _ _ h => h.congr rfl rfl rfl rfl rfl
  count := fun s h => h.congr s.countMember_frame rfl (by simp [Stream.countMember, Function.comp_def])
    rfl rfl
  overflow := fun s h => h.congr s.markOverflow_frame rfl
    (by simp [Stream.markOverflow, Function.comp_def]) rfl rfl
  fresh := fun hk hs => recorded_fresh hk hs
  absorb := fun ts origlen hk htakes h => h.absorb ts origlen hk htakes

end Recorded

end Aggregator

end Pktflow.Flows

import Pktflow.Flows.KeyLaw
import Pktflow.Flows.Offline
import Pktflow.Plugins.Transport

/-!
# The 5-tuple as a tree path

A transport stream is keyed by its ports below a network stream keyed by its addresses, and each layer sorts
its own endpoints. The path tells two conversations apart exactly if the pair of addresses or the pair of
ports does, so a packet with one of the two pairs exchanged and the other not goes to the same stream.
-/

set_option autoImplicit false

namespace Pktflow.Plugins

open Pktflow.Core Pktflow.Core.ByteReader Pktflow.Flows Pktflow.Flows.Aggregator

/-! ## What the plugins read -/

theorem get_foldl_insert {level : List (FieldName × Value)} {name : FieldName} (h : name ∉ level.map Prod.fst)
    (fields : FieldMap) : (level.foldl (fun m e => m.insert e.1 e.2) fields).get name = fields.get name := by
  induction level generalizing fields with
  | nil => rfl
  | cons e level ih =>
      rw [List.map_cons, List.mem_cons, not_or] at h
      rw [List.foldl_cons, ih h.2, FieldMap.get_insert, if_neg h.1]

/-- A field that a level of detail does not name. -/
theorem get_insertAt {ctx : ParseCtx} {depth : Depth} {level : List (FieldName × Value)} {name : FieldName}
    (h : name ∉ level.map Prod.fst) (fields : FieldMap) :
    (insertAt ctx depth level fields).get name = fields.get name := by
  rw [insertAt]
  split
  · exact get_foldl_insert h fields
  · rfl

/-- A session that aggregates asks for the key fields. -/
theorem atDepth_keys {opts : ParseOpts} (hopts : opts.aggregation = true) {ctx : ParseCtx}
    (hctx : ctx.depth = opts.effectiveDepth) : atDepth ctx .keys = true := by
  rw [atDepth]
  rw [hctx, ParseOpts.effectiveDepth, if_pos hopts]
  cases opts.depth <;> rfl

/-- A field that may be there is not in the way of another. -/
theorem get_insertAt_option {α : Type} {ctx : ParseCtx} {depth : Depth} (o : Option α) (f : α → Value)
    {key name : FieldName} (h : name ≠ key) (fields : FieldMap) :
    (insertAt ctx depth (o.toList.map fun v => (key, f v)) fields).get name = fields.get name := by
  refine get_insertAt ?_ fields
  cases o with
  | none => exact List.not_mem_nil
  | some v => exact fun hmem => h (List.mem_singleton.1 hmem)

theorem atDepth_of_full {ctx : ParseCtx} (h : atDepth ctx .full = true) (depth : Depth) : atDepth ctx depth = true := by
  rw [atDepth, decide_eq_true_eq] at h ⊢
  refine Nat.le_trans ?_ h
  cases depth <;> decide

theorem atDepth_of_depth {ctx : ParseCtx} (h : ctx.depth = .full) (depth : Depth) : atDepth ctx depth = true := by
  refine atDepth_of_full ?_ depth
  rw [atDepth, h]
  rfl

/-- A field of a level whose names differ. -/
theorem get_insertAt_of_mem {ctx : ParseCtx} {depth : Depth} {level : List (FieldName × Value)}
    (hctx : atDepth ctx depth = true) (hnodup : (level.map Prod.fst).Nodup) {e : FieldName × Value} (he : e ∈ level)
    (fields : FieldMap) : (insertAt ctx depth level fields).get e.1 = some e.2 := by
  rw [insertAt, if_pos hctx]
  induction level generalizing fields with
  | nil => exact absurd he List.not_mem_nil
  | cons d level ih =>
      rw [List.map_cons, List.nodup_cons] at hnodup
      rw [List.foldl_cons]
      rcases List.mem_cons.1 he with rfl | he
      · rw [get_foldl_insert hnodup.1, FieldMap.get_insert, if_pos rfl]
      · exact ih hnodup.2 he _

/-- A field of a level that the session asks for is there if and only if the plugin has a value for it. -/
theorem get_insertAt_field {ctx : ParseCtx} {depth : Depth} {front back : List (FieldName × Value)} {name : FieldName}
    {fields : FieldMap} (hctx : atDepth ctx depth = true) (v : Option Value) (hfront : name ∉ front.map Prod.fst)
    (hback : name ∉ back.map Prod.fst) (hfields : fields.get name = none) :
    (insertAt ctx depth (front ++ v.toList.map (fun v => (name, v)) ++ back) fields).get name = v := by
  rw [insertAt, if_pos hctx, List.foldl_append, get_foldl_insert hback, List.foldl_append]
  cases v with
  | none => rw [Option.toList_none, List.map_nil, List.foldl_nil, get_foldl_insert hfront, hfields]
  | some v =>
      rw [Option.toList_some, List.map_singleton, List.foldl_cons, List.foldl_nil, FieldMap.get_insert, if_pos rfl]

theorem insertAt_keys {ctx : ParseCtx} (hctx : atDepth ctx .keys = true)
    (level : List (FieldName × Value)) (fields : FieldMap) :
    insertAt ctx .keys level fields = level.foldl (fun m e => m.insert e.1 e.2) fields :=
  if_pos hctx

theorem notMem_optionsField {name : FieldName} (h : name ≠ "options") (options : List UInt8) :
    name ∉ (optionsField options).map Prod.fst := by
  rw [optionsField]
  split
  · exact List.not_mem_nil
  · simpa using h

/-- Two short byte strings under the names of the address fields. -/
def HasAddresses (fields : FieldMap) : Prop :=
  ∃ src dst, fields.get "src_addr" = some (.bytes src) ∧ fields.get "dst_addr" = some (.bytes dst) ∧
    src.length < 2 ^ 16 ∧ dst.length < 2 ^ 16

section Parse

variable {ctx : ParseCtx}

theorem ensures_parseIpv4 (hctx : atDepth ctx .keys = true) :
    Ensures (parseIpv4 ctx) fun l => HasAddresses l.fields := by
  rw [parseIpv4]
  refine .skip fun _ => .guard (.guard ?_)
  refine .skip fun _ => .skip fun _ => .skip fun _ => .skip fun _ => .skip fun _ => .skip fun _ =>
    .skip fun _ => ?_
  refine (ensures_take 4).bind fun src hsrc => (ensures_take 4).bind fun dst hdst => .skip fun options => ?_
  refine ensures_pure ⟨src, dst, ?_, ?_, by omega, by omega⟩
  · rw [get_insertAt, get_insertAt (by simp), insertAt_keys hctx]
    · rfl
    · simpa using notMem_optionsField (by decide) options
  · rw [get_insertAt, get_insertAt (by simp), insertAt_keys hctx]
    · rfl
    · simpa using notMem_optionsField (by decide) options

theorem ensures_parseIpv6 (hctx : atDepth ctx .keys = true) :
    Ensures (parseIpv6 ctx) fun l => HasAddresses l.fields := by
  rw [parseIpv6]
  refine .skip fun _ => .guard ?_
  refine .skip fun _ => .skip fun _ => .skip fun _ => ?_
  refine (ensures_take 16).bind fun src hsrc => (ensures_take 16).bind fun dst hdst => .skip fun _ => ?_
  refine ensures_pure ⟨src, dst, ?_, ?_, by omega, by omega⟩
  · rw [get_insertAt (by simp), get_insertAt (by simp), insertAt_keys hctx]
    rfl
  · rw [get_insertAt (by simp), get_insertAt (by simp), insertAt_keys hctx]
    rfl

end Parse

/-- The layer is what a session that aggregates gets from the plugin. -/
structure IsLayerOf (plugin : LayerPlugin) (layer : LayerRecord) : Prop where
  protocol : layer.protocol = plugin.name
  parsed : ∃ opts bytes ctx l, ParseOpts.aggregation opts = true ∧
    ParseCtx.depth ctx = ParseOpts.effectiveDepth opts ∧ plugin.parse bytes ctx = .ok l ∧
    layer.fields = l.fields

theorem IsLayerOf.addresses {network : LayerPlugin} (hnetwork : network = ipv4 ∨ network = ipv6)
    {layer : LayerRecord} (h : IsLayerOf network layer) : HasAddresses layer.fields := by
  obtain ⟨opts, bytes, ctx, l, hopts, hctx, hparse, hfields⟩ := h.parsed
  have hkeys := atDepth_keys hopts hctx
  rw [hfields]
  rcases hnetwork with rfl | rfl
  · exact (ensures_parseIpv4 hkeys).parse hparse
  · exact (ensures_parseIpv6 hkeys).parse hparse

/-! ## Tuples -/

/-- The addresses and ports of a packet. -/
structure FourTuple where
  srcAddr : List UInt8
  srcPort : UInt16
  dstAddr : List UInt8
  dstPort : UInt16
  deriving DecidableEq

/-- Source and destination exchanged. -/
def FourTuple.swap (t : FourTuple) : FourTuple := ⟨t.dstAddr, t.dstPort, t.srcAddr, t.srcPort⟩

/-- The two packets differ in which of their two pairs is exchanged: the addresses alone, whatever the
ports, or the ports alone. -/
def Crossed (t u : FourTuple) : Prop :=
  t.srcAddr ≠ t.dstAddr ∧
    (u = ⟨t.dstAddr, t.srcPort, t.srcAddr, t.dstPort⟩ ∨
      t.srcPort ≠ t.dstPort ∧ u = ⟨t.srcAddr, t.dstPort, t.dstAddr, t.srcPort⟩)

/-- Two packets go to one stream if their tuples are equal up to exchange, and to one direction slot of it
if they are equal in order. -/
structure FiveTupleLaw (t u : FourTuple) (x y : StreamId × PacketDirection) : Prop where
  stream : x.1 = y.1 ↔ t = u ∨ t = u.swap
  slot : x.1 = y.1 → (x.2 = y.2 ↔ t = u)

/-- An unordered pair in both orders. -/
def SamePair {α : Type} (a b c d : α) : Prop := a = c ∧ b = d ∨ a = d ∧ b = c

/-- The law and what the tree path tells apart. -/
theorem law_iff_not_crossed {t u : FourTuple} {x y : StreamId × PacketDirection}
    (hstream : x.1 = y.1 ↔ SamePair t.srcAddr t.dstAddr u.srcAddr u.dstAddr ∧
      SamePair t.srcPort t.dstPort u.srcPort u.dstPort)
    (hslot : x.1 = y.1 → (x.2 = y.2 ↔ t.srcPort = u.srcPort ∧ t.dstPort = u.dstPort)) :
    FiveTupleLaw t u x y ↔ ¬Crossed t u := by
  obtain ⟨ta, tp, tb, tq⟩ := t
  obtain ⟨ua, up, ub, uq⟩ := u
  simp only [SamePair] at hstream hslot
  constructor
  · rintro ⟨hlaw, hdir⟩ ⟨hne, hcrossed⟩
    simp only [FourTuple.swap, FourTuple.mk.injEq] at hlaw hdir hne hcrossed
    grind
  · intro hcrossed
    simp only [Crossed, FourTuple.mk.injEq] at hcrossed
    refine ⟨?_, ?_⟩
    · rw [hstream]
      simp only [FourTuple.swap, FourTuple.mk.injEq]
      grind
    · intro hsame
      rw [hslot hsame]
      have hpairs := hstream.1 hsame
      simp only [FourTuple.mk.injEq]
      grind

/-! ## The path of a packet -/

/-- The identity is keyed by one pair of fields. -/
structure KeyedByPair (identity : StreamIdentity) (src dst : FieldName) : Prop where
  key : identity.key = [⟨src, some dst⟩]
  canonicalize : identity.canonicalize = .endpointSort

/-- Keys and directions of two layers with short values under the two fields. -/
theorem KeyedByPair.canonical {identity : StreamIdentity} {src dst : FieldName}
    (h : KeyedByPair identity src dst) {f g : FieldMap} {a b c d : Value} (ha : f.get src = some a)
    (hb : f.get dst = some b) (hc : g.get src = some c) (hd : g.get dst = some d) (hsa : Short a)
    (hsb : Short b) (hsc : Short c) (hsd : Short d) :
    ∃ kf df kg dg, flowKey identity f = .ok (kf, df) ∧ flowKey identity g = .ok (kg, dg) ∧
      (kf = kg ↔ SamePair a b c d) ∧ (kf = kg → (df = dg ↔ a = c ∧ b = d)) := by
  have hholds : ∀ {m : FieldMap} {v w : Value}, m.get src = some v → m.get dst = some w →
      HoldsKey identity.key m := by
    intro m v w hv hw kf hkf
    rw [h.key, List.mem_singleton] at hkf
    subst hkf
    refine ⟨by simp [hv], ?_⟩
    intro name hname
    obtain rfl := Option.some.inj hname
    simp [hw]
  have hshort : ∀ {m : FieldMap} {v w : Value}, m.get src = some v → m.get dst = some w → Short v →
      Short w → ShortKey identity.key m := by
    intro m v w hv hw hsv hsw kf hkf
    rw [h.key, List.mem_singleton] at hkf
    subst hkf
    refine ⟨?_, ?_⟩
    · intro x hx
      obtain rfl := Option.some.inj (hv.symm.trans hx)
      exact hsv
    · intro name hname x hx
      obtain rfl := Option.some.inj hname
      obtain rfl := Option.some.inj (hw.symm.trans hx)
      exact hsw
  obtain ⟨kf, df, kg, dg, hf, hg, -, hkeys, hdirs⟩ := flowKey_canonical identity h.canonicalize f g
    (hholds ha hb) (hholds hc hd) (hshort ha hb hsa hsb) (hshort hc hd hsc hsd)
  rw [h.key] at hkeys hdirs
  simp only [unpairedValues, aValues, bValues, List.filterMap_cons, List.filterMap_nil, ha, hb, hc, hd,
    true_and, Sym2.eq_iff, List.cons.injEq, and_true, Prod.mk.injEq] at hkeys hdirs
  exact ⟨kf, df, kg, dg, hf, hg, hkeys, hdirs⟩

/-- A network layer directly followed by a transport layer, in the layers of a packet. -/
structure Carried (network transport : LayerPlugin) (pkt : DissectedPacket) where
  before : List LayerRecord
  ip : LayerRecord
  tp : LayerRecord
  rest : List LayerRecord
  layers : pkt.layers = before ++ ip :: tp :: rest
  ipLayer : IsLayerOf network ip
  tpLayer : IsLayerOf transport tp

namespace Carried

variable {network transport : LayerPlugin} {pkt : DissectedPacket}

/-- The addresses and ports that the two layers carry. -/
structure Holds (c : Carried network transport pkt) (t : FourTuple) : Prop where
  srcAddr : c.ip.fields.get "src_addr" = some (.bytes t.srcAddr)
  dstAddr : c.ip.fields.get "dst_addr" = some (.bytes t.dstAddr)
  srcPort : c.tp.fields.get "src_port" = some (.u64 t.srcPort.toUInt64)
  dstPort : c.tp.fields.get "dst_port" = some (.u64 t.dstPort.toUInt64)

/-- The stream the layers before the network layer lead to, in the ingest of the packet from `a`. -/
def above (c : Carried network transport pkt) (env : Env) (a : Aggregator) : Option StreamId :=
  (a.walkLayers env pkt c.before).parent

/-- Where the transport layer is folded, in the ingest of the packet from `a`. -/
def slot (c : Carried network transport pkt) (env : Env) (a : Aggregator) :
    Option (StreamId × PacketDirection) :=
  foldSlot env pkt (a.walkLayers env pkt (c.before ++ [c.ip])) c.tp

/-- The state after the two layers. -/
def below (c : Carried network transport pkt) (env : Env) (a : Aggregator) : Aggregator :=
  (a.walkLayers env pkt (c.before ++ [c.ip] ++ [c.tp])).agg

/-- The two streams of the path, by the keys of the layers. -/
structure Placed (c : Carried network transport pkt) (env : Env) (a : Aggregator) (ipKey tpKey : FlowKey)
    (dir : PacketDirection) (i s : StreamId) : Prop where
  slot : c.slot env a = some (s, dir)
  network : ∃ f, (c.below env a).frames i = some f ∧ f.parent = c.above env a ∧
    f.protocol = network.name ∧ f.key = ipKey
  transport : ∃ f, (c.below env a).frames s = some f ∧ f.parent = some i ∧
    f.protocol = transport.name ∧ f.key = tpKey

theorem layers_eq (c : Carried network transport pkt) :
    pkt.layers = (c.before ++ [c.ip] ++ [c.tp]) ++ c.rest := by
  rw [c.layers]
  simp

theorem below_fits (c : Carried network transport pkt) {env : Env} {a : Aggregator}
    (hfits : (a.ingest env pkt).Fits) : (c.below env a).Fits := by
  have hwalk := fits_walk hfits
  rw [c.layers_eq] at hwalk
  exact fits_of_append _ _ hwalk

theorem placed (c : Carried network transport pkt) {env : Env} (hoff : env.config.condenseThreshold = 0)
    {ops : List Op} {a : Aggregator} (ha : Reaches env ops a) (hfits : (a.ingest env pkt).Fits)
    {ipIdentity tpIdentity : StreamIdentity} {ipKey tpKey : FlowKey} {ipDir tpDir : PacketDirection}
    (hip : identityOf env network.name = some (network, ipIdentity))
    (htp : identityOf env transport.name = some (transport, tpIdentity))
    (hipKey : flowKey ipIdentity c.ip.fields = .ok (ipKey, ipDir))
    (htpKey : flowKey tpIdentity c.tp.fields = .ok (tpKey, tpDir)) :
    ∃ i s, c.Placed env a ipKey tpKey tpDir i s := by
  obtain ⟨hf, htab⟩ := (TableInv.runStable env).reaches ha
  have hbelow := c.below_fits hfits
  rw [below] at hbelow
  have hmid := fits_of_append _ _ hbelow
  obtain ⟨hw, htabw⟩ := (TableInv.runStable env).walk hf htab (fits_of_append _ _ hmid)
  obtain ⟨hw', htabw'⟩ := (TableInv.runStable env).walk hf htab hmid
  have hkeeps := keeps_walk hf _ _ hbelow
  rw [walkLayers_append] at hbelow
  rw [← c.tpLayer.protocol] at htp
  obtain ⟨s, hs⟩ := lands_of_off hoff hw' htabw' htp htpKey hbelow
  rw [walkLayers_append] at hmid
  rw [← c.ipLayer.protocol] at hip
  obtain ⟨i, hi⟩ := lands_of_off hoff hw htabw hip hipKey hmid
  obtain ⟨f, hframe, hparent, hprotocol, hk⟩ := hi.frame
  obtain ⟨g, hgframe, hgparent, hgprotocol, hgk⟩ := hs.frame
  refine ⟨i, s, hs.slot, ⟨f, ?_, hparent, hprotocol.trans c.ipLayer.protocol, hk⟩, g, ?_, ?_,
    hgprotocol.trans c.tpLayer.protocol, hgk⟩
  · -- the transport layer leaves the network stream as it is
    apply hkeeps i f
    rw [walkLayers_append]
    exact hframe
  · rw [below]
    rw [walkLayers_append]
    exact hgframe
  · rw [hgparent, walkLayers_append, hi.parent]

end Carried

/-! ## Two packets -/

section Law

variable {env : Env} {network transport : LayerPlugin} {p q : DissectedPacket} {ops more : List Op}
  {a b : Aggregator}

/-- The call of the earlier packet. -/
theorem ingest_of_reaches (ha : Reaches env ops a) (hb : Reaches env (ops ++ .ingest p :: more) b) :
    (a.ingest env p).Fits ∧ Reaches env (ops ++ [.ingest p]) (a.ingest env p) := by
  rw [List.append_cons] at hb
  have hp := hb.of_append (ops ++ [.ingest p]) more
  have hfits := hp.of_append_singleton.2
  rw [← ha.eq_run] at hfits
  rw [run_append, ← ha.eq_run] at hp
  exact ⟨hfits, hp⟩

/-- The path of an earlier packet is there when a later one is walked. -/
theorem keeps_below (hev : env.config.eviction = .none) (c : Carried network transport p)
    (d : Carried network transport q) (ha : Reaches env ops a)
    (hb : Reaches env (ops ++ .ingest p :: more) b) (hfits : (b.ingest env q).Fits) :
    Keeps (c.below env a) (d.below env b) := by
  obtain ⟨hpfits, hp⟩ := ingest_of_reaches ha hb
  rw [List.append_cons] at hb
  have hearlier : Keeps (c.below env a) (a.ingest env p) :=
    keeps_ingest_of_walk hev (forestInv_of_reaches ha) hpfits c.layers_eq
  have hbetween : Keeps (a.ingest env p) b := keeps_reaches hev hp hb
  have hlater : Keeps b (d.below env b) :=
    keeps_to_walk hev (forestInv_of_reaches hb) (d.below_fits hfits)
  exact (hearlier.trans hbetween).trans hlater

/-- Two paths below one stream lead to one transport stream exactly if both keys agree. -/
theorem stream_eq_iff (hev : env.config.eviction = .none) {c : Carried network transport p}
    {d : Carried network transport q} (ha : Reaches env ops a)
    (hb : Reaches env (ops ++ .ingest p :: more) b) (hfits : (b.ingest env q).Fits)
    (habove : c.above env a = d.above env b) {ipKey tpKey ipKey' tpKey' : FlowKey}
    {dir dir' : PacketDirection} {i s i' s' : StreamId} (hc : c.Placed env a ipKey tpKey dir i s)
    (hd : d.Placed env b ipKey' tpKey' dir' i' s') : s = s' ↔ ipKey = ipKey' ∧ tpKey = tpKey' := by
  have hkeeps := keeps_below hev c d ha hb hfits
  obtain ⟨hf, htab⟩ := (TableInv.runStable env).reaches hb
  obtain ⟨-, htabw⟩ := (TableInv.runStable env).walk hf htab (d.below_fits hfits)
  obtain ⟨fi, hfi, hfiParent, hfiProtocol, rfl⟩ := hc.network
  obtain ⟨fs, hfs, hfsParent, hfsProtocol, rfl⟩ := hc.transport
  obtain ⟨gi, hgi, hgiParent, hgiProtocol, rfl⟩ := hd.network
  obtain ⟨gs, hgs, hgsParent, hgsProtocol, rfl⟩ := hd.transport
  have hfi' := hkeeps i fi hfi
  have hfs' := hkeeps s fs hfs
  constructor
  · rintro rfl
    obtain rfl := Option.some.inj (hfs'.symm.trans hgs)
    obtain rfl := Option.some.inj (hfsParent.symm.trans hgsParent)
    obtain rfl := Option.some.inj (hfi'.symm.trans hgi)
    exact ⟨rfl, rfl⟩
  · rintro ⟨hipKey, htpKey⟩
    have hi : i = i' := htabw.index.unique hfi' hgi (by rw [hfiParent, hgiParent, habove])
      (hfiProtocol.trans hgiProtocol.symm) hipKey
    subst hi
    exact htabw.index.unique hfs' hgs (hfsParent.trans hgsParent.symm)
      (hfsProtocol.trans hgsProtocol.symm) htpKey

theorem keyedByPair_network (hnetwork : network = ipv4 ∨ network = ipv6) :
    ∃ identity, network.streamIdentity = some identity ∧ KeyedByPair identity "src_addr" "dst_addr" := by
  rcases hnetwork with rfl | rfl
  · exact ⟨_, rfl, rfl, rfl⟩
  · exact ⟨_, rfl, rfl, rfl⟩

theorem keyedByPair_transport (htransport : transport = tcp ∨ transport = udp) :
    ∃ identity, transport.streamIdentity = some identity ∧ KeyedByPair identity "src_port" "dst_port" := by
  rcases htransport with rfl | rfl
  · exact ⟨_, rfl, rfl, rfl⟩
  · exact ⟨_, rfl, rfl, rfl⟩

theorem identityOf_registered {plugin : LayerPlugin} {identity : StreamIdentity}
    (hplugin : env.engine.pluginByName plugin.name = some plugin)
    (hidentity : plugin.streamIdentity = some identity) :
    identityOf env plugin.name = some (plugin, identity) := by
  rw [identityOf]
  rw [hplugin, Option.bind_eq_bind, Option.bind_some, hidentity]
  rfl

theorem short_addresses (hnetwork : network = ipv4 ∨ network = ipv6) (c : Carried network transport p)
    {t : FourTuple} (ht : c.Holds t) : Short (.bytes t.srcAddr) ∧ Short (.bytes t.dstAddr) := by
  obtain ⟨src, dst, hsrc, hdst, hsrcShort, hdstShort⟩ := c.ipLayer.addresses hnetwork
  rw [ht.srcAddr, Option.some.injEq, Value.bytes.injEq] at hsrc
  rw [ht.dstAddr, Option.some.injEq, Value.bytes.injEq] at hdst
  rw [hsrc, hdst]
  exact ⟨.bytes _ hsrcShort, .bytes _ hdstShort⟩

/-- **The 5-tuple law.** Without condensation and eviction, in every run of every engine with the plugins:
take two packets with a network layer directly followed by a transport layer, of the same two protocols,
below one stream. Their transport layers are folded according to their tuples, up to exchange into one
stream and in order into one direction slot, exactly if the packets are not crossed. -/
theorem five_tuple_law (hoff : env.config.condenseThreshold = 0) (hev : env.config.eviction = .none)
    (hnetwork : network = ipv4 ∨ network = ipv6) (htransport : transport = tcp ∨ transport = udp)
    (hnetworkPlugin : env.engine.pluginByName network.name = some network)
    (htransportPlugin : env.engine.pluginByName transport.name = some transport)
    (ha : Reaches env ops a) (hb : Reaches env (ops ++ .ingest p :: more) b)
    (hfits : (b.ingest env q).Fits) (c : Carried network transport p) (d : Carried network transport q)
    {t u : FourTuple} (ht : c.Holds t) (hu : d.Holds u) (habove : c.above env a = d.above env b) :
    ∃ x y, c.slot env a = some x ∧ d.slot env b = some y ∧ (FiveTupleLaw t u x y ↔ ¬Crossed t u) := by
  obtain ⟨ipIdentity, hipIdentity, hipPair⟩ := keyedByPair_network hnetwork
  obtain ⟨tpIdentity, htpIdentity, htpPair⟩ := keyedByPair_transport htransport
  have hip := identityOf_registered hnetworkPlugin hipIdentity
  have htp := identityOf_registered htransportPlugin htpIdentity
  -- each layer's key tells its own pair, whatever the other layer says
  obtain ⟨htSrc, htDst⟩ := short_addresses hnetwork c ht
  obtain ⟨huSrc, huDst⟩ := short_addresses hnetwork d hu
  obtain ⟨ipKey, ipDir, ipKey', ipDir', hipKey, hipKey', hips, -⟩ := hipPair.canonical ht.srcAddr
    ht.dstAddr hu.srcAddr hu.dstAddr htSrc htDst huSrc huDst
  obtain ⟨tpKey, tpDir, tpKey', tpDir', htpKey, htpKey', htps, hdirs⟩ := htpPair.canonical ht.srcPort
    ht.dstPort hu.srcPort hu.dstPort (.u64 _) (.u64 _) (.u64 _) (.u64 _)
  obtain ⟨i, s, hc⟩ := c.placed hoff ha (ingest_of_reaches ha hb).1 hip htp hipKey htpKey
  obtain ⟨i', s', hd⟩ := d.placed hoff hb hfits hip htp hipKey' htpKey'
  have hstream := stream_eq_iff hev ha hb hfits habove hc hd
  refine ⟨(s, tpDir), (s', tpDir'), hc.slot, hd.slot, law_iff_not_crossed ?_ ?_⟩
  · rw [hstream, hips, htps]
    simp only [SamePair, Value.bytes.injEq, Value.u64.injEq, UInt16.toUInt64_inj]
  · intro hsame
    rw [hdirs (hstream.1 hsame).2]
    simp only [Value.u64.injEq, UInt16.toUInt64_inj]

end Law

/-! ## Datagrams -/

/-- The context of a session that asks for the keys. -/
def keysCtx : ParseCtx := ⟨[], .keys, ⟨0, 60, 60, 101⟩⟩

/-- An IPv4 header between two hosts of a network, with UDP to follow. -/
def ipBytes (src dst : UInt8) : List UInt8 :=
  [0x45, 0, 0, 28, 0, 0, 0, 0, 64, 17, 0, 0, 10, 0, 0, src, 10, 0, 0, dst]

/-- A UDP header without payload. -/
def udpBytes (srcPort dstPort : UInt8) : List UInt8 := [0, srcPort, 0, dstPort, 0, 8, 0, 0]

/-- The fields a plugin gets from a header. -/
def parsedFields (plugin : LayerPlugin) (bytes : List UInt8) : FieldMap :=
  match plugin.parse bytes keysCtx with
  | .ok l => l.fields
  | .error _ => .new

/-- A datagram over IPv4. -/
def datagram (src srcPort dst dstPort : UInt8) : DissectedPacket where
  meta_ := ⟨0, 60, 60, 101⟩
  layers := [⟨"ipv4", 0, 20, parsedFields ipv4 (ipBytes src dst)⟩,
    ⟨"udp", 20, 8, parsedFields udp (udpBytes srcPort dstPort)⟩]
  stop := .complete
  opaqueLen := 0
  unknown := none

theorem isLayerOf_parsed {plugin : LayerPlugin} {bytes : List UInt8}
    (h : (plugin.parse bytes keysCtx).isOk = true) (offset headerLen : Nat) :
    IsLayerOf plugin ⟨plugin.name, offset, headerLen, parsedFields plugin bytes⟩ := by
  cases hparse : plugin.parse bytes keysCtx with
  | error e =>
      rw [hparse] at h
      cases h
  | ok l =>
      refine ⟨rfl, { depth := .keys }, bytes, keysCtx, l, rfl, rfl, hparse, ?_⟩
      simp only [parsedFields, hparse]

/-- The two layers of a datagram. -/
def datagramLayers (src srcPort dst dstPort : UInt8)
    (hip : (ipv4.parse (ipBytes src dst) keysCtx).isOk = true)
    (htp : (udp.parse (udpBytes srcPort dstPort) keysCtx).isOk = true) :
    Carried ipv4 udp (datagram src srcPort dst dstPort) where
  before := []
  ip := ⟨"ipv4", 0, 20, parsedFields ipv4 (ipBytes src dst)⟩
  tp := ⟨"udp", 20, 8, parsedFields udp (udpBytes srcPort dstPort)⟩
  rest := []
  layers := rfl
  ipLayer := isLayerOf_parsed hip 0 20
  tpLayer := isLayerOf_parsed htp 20 8

/-- The tuple of a datagram. -/
def datagramTuple (src srcPort dst dstPort : UInt8) : FourTuple :=
  ⟨[10, 0, 0, src], srcPort.toUInt16, [10, 0, 0, dst], dstPort.toUInt16⟩

/-- Host 1, port 5 to host 2, port 6. -/
def request : Carried ipv4 udp (datagram 1 5 2 6) :=
  datagramLayers 1 5 2 6 (by decide +kernel) (by decide +kernel)

/-- The answer to `request`. -/
def reply : Carried ipv4 udp (datagram 2 6 1 5) :=
  datagramLayers 2 6 1 5 (by decide +kernel) (by decide +kernel)

/-- A datagram of another conversation: host 1, port 6 to host 2, port 5. -/
def stranger : Carried ipv4 udp (datagram 1 6 2 5) :=
  datagramLayers 1 6 2 5 (by decide +kernel) (by decide +kernel)

/-- Both ports are 5. -/
def evenRequest : Carried ipv4 udp (datagram 1 5 2 5) :=
  datagramLayers 1 5 2 5 (by decide +kernel) (by decide +kernel)

/-- The answer to `evenRequest`. -/
def evenReply : Carried ipv4 udp (datagram 2 5 1 5) :=
  datagramLayers 2 5 1 5 (by decide +kernel) (by decide +kernel)

/-- A reply goes to the stream of the request, in the other direction. -/
theorem five_tuple_law_reply :
    ∃ x y, request.slot transportEnv Aggregator.new = some x ∧
      reply.slot transportEnv (run transportEnv [.ingest (datagram 1 5 2 6)]) = some y ∧
      x.1 = y.1 ∧ x.2 ≠ y.2 := by
  have hreach := reaches_run transportEnv ([] ++ .ingest (datagram 1 5 2 6) :: []) (by decide)
  have hfits : ((run transportEnv [.ingest (datagram 1 5 2 6)]).ingest transportEnv
      (datagram 2 6 1 5)).Fits := by
    rw [Fits]
    decide +kernel
  obtain ⟨x, y, hx, hy, hlaw⟩ := five_tuple_law rfl rfl (.inl rfl) (.inr rfl) rfl rfl Reaches.new hreach
    hfits request reply (t := datagramTuple 1 5 2 6) (u := datagramTuple 2 6 1 5)
    (by constructor <;> decide +kernel) (by constructor <;> decide +kernel) rfl
  have hnot : ¬Crossed (datagramTuple 1 5 2 6) (datagramTuple 2 6 1 5) := by
    rw [Crossed]
    decide
  obtain ⟨hstream, hslot⟩ := hlaw.2 hnot
  have hsame := hstream.2 (.inr rfl)
  refine ⟨x, y, hx, hy, hsame, fun hdir => ?_⟩
  exact absurd ((hslot hsame).1 hdir) (by decide)

/-- A packet of another conversation goes to the stream of the request; and with equal ports the reply
goes to the direction slot of the request. -/
theorem five_tuple_crossed :
    (∃ x y, request.slot transportEnv Aggregator.new = some x ∧
      stranger.slot transportEnv (run transportEnv [.ingest (datagram 1 5 2 6)]) = some y ∧
      ¬FiveTupleLaw (datagramTuple 1 5 2 6) (datagramTuple 1 6 2 5) x y) ∧
    ∃ x y, evenRequest.slot transportEnv Aggregator.new = some x ∧
      evenReply.slot transportEnv (run transportEnv [.ingest (datagram 1 5 2 5)]) = some y ∧
      ¬FiveTupleLaw (datagramTuple 1 5 2 5) (datagramTuple 2 5 1 5) x y := by
  have hstranger : ∃ x y, request.slot transportEnv Aggregator.new = some x ∧
      stranger.slot transportEnv (run transportEnv [.ingest (datagram 1 5 2 6)]) = some y ∧
      x.1 = y.1 := ⟨(⟨1, 0⟩, .aToB), (⟨1, 0⟩, .bToA), by decide +kernel, by decide +kernel, rfl⟩
  have heven : ∃ x y, evenRequest.slot transportEnv Aggregator.new = some x ∧
      evenReply.slot transportEnv (run transportEnv [.ingest (datagram 1 5 2 5)]) = some y ∧
      x.1 = y.1 ∧ x.2 = y.2 :=
    ⟨(⟨1, 0⟩, .aToB), (⟨1, 0⟩, .aToB), by decide +kernel, by decide +kernel, rfl, rfl⟩
  constructor
  · obtain ⟨x, y, hx, hy, hsame⟩ := hstranger
    refine ⟨x, y, hx, hy, fun hlaw => ?_⟩
    exact absurd (hlaw.stream.1 hsame) (by decide)
  · obtain ⟨x, y, hx, hy, hsame, hdir⟩ := heven
    refine ⟨x, y, hx, hy, fun hlaw => ?_⟩
    exact absurd ((hlaw.slot hsame).1 hdir) (by decide)

end Pktflow.Plugins

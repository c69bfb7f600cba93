import Pktflow.Plugins.Cdp
import Pktflow.Plugins.ExtHeaders
import Pktflow.Plugins.Icmpv6
import Pktflow.Plugins.Keyed
import Pktflow.Plugins.Llc
import Pktflow.Plugins.Ospf

/-!
# Layers without a key

Two plugins accept bytes that carry no key for their identity: a QUIC packet with the short header has no connection id
of its own length, and most 802.11 control frames have one address. `keyless` tells such a layer by its first byte.

A layer is a key error exactly if it is keyless (`keyMissing_eq`), so that the key errors of a store can be counted in
the bytes of the packets (`countP_keyMissing`).
-/

set_option autoImplicit false

namespace Pktflow.Plugins

open Pktflow.Core Pktflow.Core.ByteReader Pktflow.Flows Pktflow.Lib

/-! ## QUIC -/

/-- `HEADER_FORM_BIT`. -/
def headerFormBit : UInt8 := 0x80

/-- `FIXED_BIT_MASK`. -/
def fixedBitMask : UInt8 := 0x40

/-- `VERSION_1`. -/
def quicVersion1 : UInt32 := 0x00000001

/-- `VERSION_2`. -/
def quicVersion2 : UInt32 := 0x6B3343CF

/-- `VERSION_NEGOTIATION`. -/
def versionNegotiation : UInt32 := 0

/-- `packet_type_v1`. -/
def packetTypeV1 (bits : UInt8) : String :=
  if bits = 0 then "initial" else if bits = 1 then "0-rtt" else if bits = 2 then "handshake" else "retry"

/-- `packet_type_v2`: the same meanings in another order. -/
def packetTypeV2 (bits : UInt8) : String :=
  if bits = 1 then "initial" else if bits = 2 then "0-rtt" else if bits = 3 then "handshake" else "retry"

/-- `is_reserved_negotiation_pattern`. -/
def isReservedNegotiationPattern (version : UInt32) : Bool := version &&& 0x0F0F0F0F == 0x0A0A0A0A

/-- `is_recognized_version`. -/
def isRecognizedVersion (version : UInt32) : Bool :=
  version == quicVersion1 || version == quicVersion2 || version == versionNegotiation

/-- The packet type of a long header, for the two versions that define it. -/
def quicPacketType (byte0 : UInt8) (version : UInt32) : Option String :=
  let bits := (byte0 &&& 0x30) >>> 4
  if version = quicVersion1 then some (packetTypeV1 bits)
  else if version = quicVersion2 then some (packetTypeV2 bits)
  else none

/-- The long header behind its first byte. -/
def quicLong (ctx : ParseCtx) (byte0 : UInt8) : ByteReader ParsedLayer := do
  let version ← u32Be
  let dcidLen ← u8
  let dcid ← take dcidLen.toNat
  let scidLen ← u8
  let scid ← take scidLen.toNat
  let fields := insertAt ctx .full
    ([("version", .u64 version.toUInt64), ("scid", .bytes scid)] ++
      ((quicPacketType byte0 version).map fun pt => ("packet_type", Value.str pt)).toList)
    (insertAt ctx .structural [("header_form", .bool true), ("fixed_bit", .bool (byte0 &&& fixedBitMask != 0))]
      (insertAt ctx .keys [("dcid", .bytes dcid)] FieldMap.new))
  return ⟨1 + 4 + 1 + dcidLen.toNat + 1 + scidLen.toNat, fields, .terminal⟩

/-- `Quic::parse` behind the first byte. -/
def quicHeader (ctx : ParseCtx) (byte0 : UInt8) : ByteReader ParsedLayer :=
  if byte0 &&& headerFormBit = 0 then
    -- a short header tells no connection id: only its owner knows its length
    return ⟨1, insertAt ctx .structural
      [("header_form", .bool false), ("fixed_bit", .bool (byte0 &&& fixedBitMask != 0))] FieldMap.new, .terminal⟩
  else quicLong ctx byte0

/-- `Quic::parse`. -/
def parseQuic (ctx : ParseCtx) : ByteReader ParsedLayer := do
  let byte0 ← u8
  quicHeader ctx byte0

/-- `Quic::probe`. -/
def probeQuic (bytes : List UInt8) : Option Confidence :=
  let head : ByteReader UInt32 := do
    let byte0 ← u8
    if byte0 &&& headerFormBit = 0 ∨ byte0 &&& fixedBitMask = 0 then throw (.malformed "not QUIC")
    u32Be
  (head.parse bytes).toOption.bind fun version =>
    if isRecognizedVersion version || isReservedNegotiationPattern version then some (Confidence.new 50) else none

/-- `Quic`. -/
def quic : LayerPlugin where
  name := "quic"
  parse := fun bytes ctx => (parseQuic ctx).parse bytes
  claims := [.udpPort 443]
  hasProbe := true
  probe := fun bytes _ => probeQuic bytes
  streamIdentity := some
    { key := [⟨"dcid", none⟩], canonicalize := .endpointSort, lifecycle := none,
      rollups := [⟨"packet_type", .accumulate⟩] }

/-! ## 802.11 -/

/-- `CONTROL_SUBTYPES_WITH_ADDR2`. -/
def controlSubtypesWithAddr2 : List UInt8 := [0x8, 0x9, 0xA, 0xB]

/-- The type of a frame, in its first byte. -/
def frameType (fc0 : UInt8) : UInt8 := (fc0 >>> 2) &&& 0x03

/-- The subtype of a frame, in its first byte. -/
def frameSubtype (fc0 : UInt8) : UInt8 := (fc0 >>> 4) &&& 0x0F

/-- A field that may be missing. -/
def optional {α : Type} (c : Bool) (r : ByteReader α) : ByteReader (Option α) :=
  if c then return some (← r) else return none

/-- The element of the SSID: beacons and probe responses have fixed fields in front of it. -/
def ssidElement (subtype : UInt8) : ByteReader (Option String) := do
  let _ ← optional (subtype == 0x8 || subtype == 0x5) (take 12)
  let elId ← u8
  let elLen ← u8
  let value ← take elLen.toNat
  return if elId = 0 then some (decodeText value) else none

/-- The first fields of a frame. -/
def dot11Base (ctx : ParseCtx) (fc0 fc1 : UInt8) (duration : UInt16) (addr1 : List UInt8) : FieldMap :=
  insertAt ctx .keys [("addr1", .bytes addr1)]
    (insertAt ctx .structural
      [("frame_type", .u64 (frameType fc0).toUInt64), ("frame_subtype", .u64 (frameSubtype fc0).toUInt64),
        ("flags", .u64 fc1.toUInt64), ("duration", .u64 duration.toUInt64)] FieldMap.new)

/-- A control frame. -/
def dot11Control (len : Nat) (ctx : ParseCtx) (subtype : UInt8) (base : FieldMap) : ByteReader ParsedLayer := do
  let addr2 ← optional (controlSubtypesWithAddr2.contains subtype) (take 6)
  let left ← remaining
  return ⟨len - left, insertAt ctx .keys (addr2.map fun a => ("addr2", Value.bytes a)).toList base, .terminal⟩

/-- The fields of a frame with three addresses. -/
def dot11Addressed (ctx : ParseCtx) (addr2 addr3 : List UInt8) (seqCtrl : UInt16) (base : FieldMap) : FieldMap :=
  insertAt ctx .structural [("addr3", .bytes addr3), ("seq_num", .u64 (seqCtrl >>> 4).toUInt64)]
    (insertAt ctx .keys [("addr2", .bytes addr2)] base)

/-- A management frame. -/
def dot11Management (len : Nat) (ctx : ParseCtx) (subtype : UInt8) (base : FieldMap) : ByteReader ParsedLayer := do
  let addr2 ← take 6
  let addr3 ← take 6
  let seqCtrl ← u16Le
  let ssid ← optional (subtype == 0x8 || subtype == 0x4 || subtype == 0x5) (ssidElement subtype)
  let left ← remaining
  return ⟨len - left, insertAt ctx .full (ssid.join.map fun s => ("ssid", Value.str s)).toList
    (dot11Addressed ctx addr2 addr3 seqCtrl base), .terminal⟩

/-- A data frame: its body is that of LLC, unless it is encrypted or there is none. -/
def dot11Data (len : Nat) (ctx : ParseCtx) (fc1 subtype : UInt8) (base : FieldMap) : ByteReader ParsedLayer := do
  let addr2 ← take 6
  let addr3 ← take 6
  let seqCtrl ← u16Le
  let addr4 ← optional (fc1 &&& 0x01 != 0 && fc1 &&& 0x02 != 0) (take 6)
  let qosControl ← optional (subtype &&& 0x08 != 0) u16Le
  let left ← remaining
  return ⟨len - left, insertAt ctx .full
    ((addr4.map fun a => ("addr4", Value.bytes a)).toList ++
      (qosControl.map fun qc => ("qos_control", Value.u64 qc.toUInt64)).toList)
    (dot11Addressed ctx addr2 addr3 seqCtrl base),
    if fc1 &&& 0x40 != 0 || subtype &&& 0x04 != 0 then .terminal else .byProtocol "llc"⟩

/-- `Dot11::parse` behind the first byte. -/
def dot11Frame (len : Nat) (ctx : ParseCtx) (fc0 : UInt8) : ByteReader ParsedLayer := do
  let fc1 ← u8
  let duration ← u16Le
  let addr1 ← take 6
  let base := dot11Base ctx fc0 fc1 duration addr1
  if frameType fc0 = 1 then dot11Control len ctx (frameSubtype fc0) base
  else if frameType fc0 = 0 then dot11Management len ctx (frameSubtype fc0) base
  else if frameType fc0 = 2 then dot11Data len ctx fc1 (frameSubtype fc0) base
  else throw (.malformed "dot11: unsupported frame type (Extension/reserved)")

/-- `Dot11::parse`, of `len` bytes. -/
def parseDot11 (len : Nat) (ctx : ParseCtx) : ByteReader ParsedLayer := do
  let fc0 ← u8
  dot11Frame len ctx fc0

/-- `Dot11`. -/
def dot11 : LayerPlugin where
  name := "dot11"
  parse := fun bytes ctx => (parseDot11 bytes.length ctx).parse bytes
  claims := [.linkType 105]
  streamIdentity := some
    { key := [⟨"addr1", some "addr2"⟩], canonicalize := .endpointSort, lifecycle := none,
      rollups := [⟨"frame_subtype", .accumulate⟩] }

/-! ## Which layers have no key -/

/-- The QUIC packet of this first byte has the short header. -/
def quicKeyless (byte0 : UInt8) : Bool := byte0 &&& headerFormBit == 0

/-- The 802.11 frame of this first byte is a control frame of one address. -/
def dot11Keyless (fc0 : UInt8) : Bool := frameType fc0 == 1 && !controlSubtypesWithAddr2.contains (frameSubtype fc0)

/-- A layer of the protocol that begins with these bytes has an identity and no key. -/
def keyless (protocol : ProtocolName) (bytes : List UInt8) : Bool :=
  if protocol = "quic" then bytes.head?.any quicKeyless
  else if protocol = "dot11" then bytes.head?.any dot11Keyless
  else false

/-- In a session that keeps the keys, a layer of the plugin has its stream key exactly if it is not keyless. -/
def KeyedBut (p : LayerPlugin) (without : List UInt8 → Bool) : Prop :=
  ∀ identity, p.streamIdentity = some identity → ∀ bytes ctx l, atDepth ctx .keys = true →
    p.parse bytes ctx = .ok l → ((∃ key, flowKey identity l.fields = .ok key) ↔ without bytes = false)

theorem SuppliesKey.keyedBut {p : LayerPlugin} (h : SuppliesKey p) : KeyedBut p fun _ => false := by
  intro identity hidentity bytes ctx l hctx hparse
  exact iff_of_true (h identity hidentity bytes ctx l hctx hparse) rfl

/-- For a plugin that reads the first byte, it is enough to tell which first bytes lead to no key. -/
theorem keyedBut_of_head {p : LayerPlugin} {identity : StreamIdentity} (hidentity : p.streamIdentity = some identity)
    (hsort : identity.canonicalize = .endpointSort) {body : List UInt8 → ParseCtx → UInt8 → ByteReader ParsedLayer}
    (hbody : ∀ bytes ctx, p.parse bytes ctx = (u8 >>= body bytes ctx).parse bytes) {without : UInt8 → Bool}
    (h : ∀ bytes ctx b, atDepth ctx .keys = true →
      Ensures (body bytes ctx b) fun l => (∀ name ∈ keyNames identity.key, Has name l.fields) ↔ without b = false) :
    KeyedBut p fun bytes => bytes.head?.any without := by
  intro identity' hidentity' bytes ctx l hctx hparse
  obtain rfl := Option.some.inj (hidentity.symm.trans hidentity')
  rw [flowKey_ok_iff hsort]
  rw [hbody] at hparse
  obtain ⟨rest, hread⟩ := parse_eq_ok.1 hparse
  obtain ⟨b, behind, hfirst, hlayer⟩ := bind_eq_ok.1 hread
  obtain rfl := u8_eq_ok.1 hfirst
  exact h _ ctx b hctx behind rest l hlayer

section Members

variable {ctx : ParseCtx} {name : FieldName} {fields : FieldMap}

/-- A level that does not have the field does not add it. -/
theorem not_has_level (h : ¬Has name fields) (depth : Depth) {level : List (FieldName × Value)}
    (hlevel : name ∉ level.map Prod.fst) : ¬Has name (insertAt ctx depth level fields) := by
  rw [insertAt]
  split
  · induction level generalizing fields with
    | nil => exact h
    | cons e level ih =>
        rw [List.map_cons, List.mem_cons, not_or] at hlevel
        apply ih _ hlevel.2
        rw [Has, FieldMap.get_insert, if_neg hlevel.1]
        exact h
  · exact h

theorem not_has_new (name : FieldName) : ¬Has name FieldMap.new := Bool.false_ne_true

/-- What an optional field ensures. -/
theorem ensures_optional {α : Type} {c : Bool} {r : ByteReader α} :
    Ensures (optional c r) fun found => found.isSome = c := by
  rw [optional]
  split
  · rename_i hc
    exact .skip fun _ => ensures_pure hc.symm
  · rename_i hc
    exact ensures_pure (Bool.eq_false_iff.2 hc).symm

theorem quic_keyedBut : KeyedBut quic fun bytes => bytes.head?.any quicKeyless := by
  refine @keyedBut_of_head _ _ rfl rfl (fun _ ctx b => quicHeader ctx b) (fun _ _ => rfl) _ ?_
  intro bytes ctx b hctx
  rw [quicHeader]
  split
  · rename_i hshort
    apply ensures_pure
    have hlacks : ¬Has "dcid" (insertAt ctx .structural
        [("header_form", .bool false), ("fixed_bit", .bool (b &&& fixedBitMask != 0))] FieldMap.new) :=
      not_has_level (not_has_new _) _ (by simp)
    refine iff_of_false (fun h => hlacks (h "dcid" (by simp [keyNames]))) ?_
    simp [quicKeyless, hshort]
  · rename_i hlong
    rw [quicLong]
    refine .skip fun _ => .skip fun _ => .skip fun _ => .skip fun _ => .skip fun _ => ensures_pure ?_
    refine iff_of_true (fun name hname => has_keys_below hctx (by simpa [keyNames] using hname)) ?_
    simp [quicKeyless, hlong]

theorem dot11Base_has (hctx : atDepth ctx .keys = true) (fc0 fc1 : UInt8) (duration : UInt16) (addr1 : List UInt8) :
    Has "addr1" (dot11Base ctx fc0 fc1 duration addr1) := has_keys hctx (by simp)

/-- A frame with three addresses has its key, whatever is found behind them. -/
theorem dot11Addressed_has (hctx : atDepth ctx .keys = true) (fc0 fc1 : UInt8) (duration : UInt16)
    (addr1 addr2 addr3 : List UInt8) (seqCtrl : UInt16) (more : List (FieldName × Value)) :
    ∀ name ∈ keyNames [⟨"addr1", some "addr2"⟩],
      Has name (insertAt ctx .full more
        (dot11Addressed ctx addr2 addr3 seqCtrl (dot11Base ctx fc0 fc1 duration addr1))) := by
  intro name hname
  simp only [keyNames, List.flatMap_cons, List.flatMap_nil, Option.toList_some, List.append_nil, List.mem_cons,
    List.not_mem_nil, or_false] at hname
  rcases hname with rfl | rfl
  · exact (((dot11Base_has hctx ..).level .keys _).level .structural _).level .full _
  · exact ((has_keys hctx (by simp)).level .structural _).level .full _

theorem dot11_keyedBut : KeyedBut dot11 fun bytes => bytes.head?.any dot11Keyless := by
  refine @keyedBut_of_head _ _ rfl rfl (fun bytes ctx b => dot11Frame bytes.length ctx b) (fun _ _ => rfl) _ ?_
  intro bytes ctx b hctx
  rw [dot11Frame]
  refine .skip fun fc1 => .skip fun duration => .skip fun addr1 => ?_
  dsimp only
  split
  · -- a control frame has the second address of its subtype, or none
    rename_i hcontrol
    rw [dot11Control]
    refine ensures_optional.bind fun addr2 haddr2 => .skip fun left => ensures_pure ?_
    cases addr2 with
    | some a =>
        have hin : controlSubtypesWithAddr2.contains (frameSubtype b) = true := haddr2.symm
        refine iff_of_true ?_ (by rw [dot11Keyless, hin, Bool.not_true, Bool.and_false])
        intro name hname
        simp only [keyNames, List.flatMap_cons, List.flatMap_nil, Option.toList_some, List.append_nil,
          List.mem_cons, List.not_mem_nil, or_false] at hname
        rcases hname with rfl | rfl
        · exact (dot11Base_has hctx ..).level .keys _
        · exact has_keys hctx (by simp)
    | none =>
        have hlacks : ¬Has "addr2" (insertAt ctx .keys [] (dot11Base ctx b fc1 duration addr1)) := by
          apply not_has_level _ _ List.not_mem_nil
          exact not_has_level (not_has_level (not_has_new _) _ (by simp)) _ (by simp)
        have hout : controlSubtypesWithAddr2.contains (frameSubtype b) = false := haddr2.symm
        refine iff_of_false (fun h => hlacks (h "addr2" (by simp [keyNames]))) ?_
        rw [dot11Keyless, hcontrol, hout]
        exact Bool.noConfusion
  · rename_i hcontrol
    have hkeyed : dot11Keyless b = false := by simp [dot11Keyless, hcontrol]
    split
    · rw [dot11Management]
      refine .skip fun addr2 => .skip fun addr3 => .skip fun seqCtrl => .skip fun ssid => .skip fun left => ?_
      exact ensures_pure (iff_of_true (fun name => dot11Addressed_has hctx _ _ _ _ _ _ _ _ name) hkeyed)
    · split
      · rw [dot11Data]
        refine .skip fun addr2 => .skip fun addr3 => .skip fun seqCtrl => .skip fun addr4 => .skip fun qos => ?_
        refine .skip fun left => ensures_pure (iff_of_true ?_ hkeyed)
        exact fun name => dot11Addressed_has hctx _ _ _ _ _ _ _ _ name
      · exact ensures_throw _ _

end Members

/-! ## The plugins together -/

/-- Plugins that have a stream identity and always supply its key. -/
def keyedPlugins : List LayerPlugin :=
  [ethernet, ipv4, ipv6, tcp, udp, gre, vxlan, mpls, gtpU, gtpC, bgp, ipfix, mqtt, bacnetIp, dhcpv6, snmp, ldap,
    kerberos, tls, stun, http, dns]

/-- Plugins without an identity. -/
def plainPlugins : List LayerPlugin := [vlan, llc, lldp, cdp, radiotap, icmpv6, ndp, ospf]

/-- The plugins that are modelled. -/
def builtins : List LayerPlugin := keyedPlugins ++ plainPlugins ++ [quic, dot11]

theorem keyedPlugins_supply {p : LayerPlugin} (h : p ∈ keyedPlugins) : SuppliesKey p := by
  revert p
  simp only [keyedPlugins, List.forall_mem_cons]
  exact ⟨ethernet_supplies, ipv4_supplies, ipv6_supplies, tcp_supplies, udp_supplies, gre_supplies, vxlan_supplies,
    mpls_supplies, gtpU_supplies, gtpC_supplies, bgp_supplies, ipfix_supplies, mqtt_supplies, bacnetIp_supplies,
    dhcpv6_supplies, snmp_supplies, ldap_supplies, kerberos_supplies, tls_supplies, stun_supplies, http_supplies,
    dns_supplies, fun _ h => nomatch h⟩

/-- Only two names can be those of keyless layers. -/
theorem keyless_of_ne {protocol : ProtocolName} (hquic : protocol ≠ "quic") (hdot11 : protocol ≠ "dot11") :
    keyless protocol = fun _ => false := by
  funext bytes
  rw [keyless, if_neg hquic, if_neg hdot11]

theorem ordinary_names : ∀ p ∈ keyedPlugins ++ plainPlugins, p.name ≠ "quic" ∧ p.name ≠ "dot11" := by decide

theorem plainPlugins_identity : ∀ p ∈ plainPlugins, p.streamIdentity = none := by
  simp only [plainPlugins, List.forall_mem_cons]
  exact ⟨rfl, rfl, rfl, rfl, rfl, rfl, rfl, rfl, fun _ h => nomatch h⟩

/-- Each plugin has the keys that it does not miss, and one without an identity misses none. -/
theorem builtins_keyedBut {p : LayerPlugin} (h : p ∈ builtins) :
    KeyedBut p (keyless p.name) ∧ (p.streamIdentity = none → ∀ bytes, keyless p.name bytes = false) := by
  rcases List.mem_append.1 h with hordinary | hspecial
  · obtain ⟨hquic, hdot11⟩ := ordinary_names p hordinary
    have hsupplies : SuppliesKey p := by
      rcases List.mem_append.1 hordinary with hkeyed | hplain
      · exact keyedPlugins_supply hkeyed
      · exact suppliesKey_of_none (plainPlugins_identity p hplain)
    rw [keyless_of_ne hquic hdot11]
    exact ⟨hsupplies.keyedBut, fun _ _ => rfl⟩
  · rcases List.mem_cons.1 hspecial with rfl | hspecial
    · exact ⟨quic_keyedBut, fun hnone => nomatch hnone⟩
    · obtain rfl := List.mem_singleton.1 hspecial
      exact ⟨dot11_keyedBut, fun hnone => nomatch hnone⟩

/-- The key of the plugin's identity, if it has one, is the sorted pair of its endpoints. -/
def sortsEndpoints (p : LayerPlugin) : Bool :=
  match p.streamIdentity with
  | some ⟨_, .endpointSort, _, _⟩ => true
  | some _ => false
  | none => true

theorem builtins_sortEndpoints : builtins.all sortsEndpoints = true := rfl

theorem builtins_endpointSort {p : LayerPlugin} (h : p ∈ builtins) {identity : StreamIdentity}
    (hidentity : p.streamIdentity = some identity) : identity.canonicalize = .endpointSort := by
  have hsorts := List.all_eq_true.1 builtins_sortEndpoints p h
  obtain ⟨key, canonicalize, lifecycle, rollups⟩ := identity
  rw [sortsEndpoints, hidentity] at hsorts
  cases canonicalize with
  | endpointSort => rfl
  | custom f => cases hsorts

/-! ## The layers of a dissection -/

section Layers

variable {e : Engine} {bytes : List UInt8} {meta_ : PacketMeta} {opts : ParseOpts}

/-- The layer is what a registered plugin made of the bytes from its offset, at the session's depth. -/
structure ParsedBy (e : Engine) (opts : ParseOpts) (bytes : List UInt8) (layer : LayerRecord) (p : LayerPlugin) :
    Prop where
  registered : p ∈ e.registry.plugins
  name : layer.protocol = p.name
  parses : ∃ ctx l, ctx.depth = opts.effectiveDepth ∧ p.parse (bytes.drop layer.offset) ctx = .ok l ∧
    l.fields = layer.fields

theorem emitted_parsedBy {walk : List (LayerStep × Hint)} (h : Emitted e bytes meta_ opts walk) :
    ∀ x ∈ walk, ∃ p, ParsedBy e opts bytes x.1.record p := by
  induction h with
  | start => exact fun x hx => nomatch hx
  | entry registered licence =>
      intro x hx
      obtain rfl := List.mem_singleton.1 hx
      exact ⟨_, registered, rfl, _, _, rfl, licence.parses.parse, rfl⟩
  | next before registered licence ih =>
      intro x hx
      rcases List.mem_append.1 hx with hx | hx
      · exact ih x hx
      · obtain rfl := List.mem_singleton.1 hx
        exact ⟨_, registered, rfl, _, _, rfl, licence.parses.parse, rfl⟩

theorem dissect_parsedBy {packet : DissectedPacket} (h : e.dissect bytes meta_ opts = some packet) :
    ∀ layer ∈ packet.layers, ∃ p, ParsedBy e opts bytes layer p := by
  obtain ⟨it, hit, rfl⟩ := Option.map_eq_some_iff.1 h
  obtain ⟨walk, htraced, -⟩ := (traced_of_layers hit).pull (consistent_of_layers hit) (it.opts.maxLayers + 1)
  rw [List.nil_append, ← LayerIter.drain_eq_pull (consistent_of_layers hit) (by omega)] at htraced
  obtain ⟨hengine, hbytes, -, hopts⟩ := LayerIter.drain_frame it
  have hfresh := layers_eq_some hit
  intro layer hlayer
  have hrecord : layer ∈ walk.map fun x => x.1.record := htraced.records ▸ hlayer
  obtain ⟨x, hx, rfl⟩ := List.mem_map.1 hrecord
  have hparsed := emitted_parsedBy htraced.emitted x hx
  rw [hengine, hbytes, hopts, hfresh] at hparsed
  exact hparsed

end Layers

/-! ## The store -/

section Store

variable {env : Env} {opts : ParseOpts}

/-- How many layers of the packet are keyless. -/
def keylessLayers (bytes : List UInt8) (packet : DissectedPacket) : Nat :=
  packet.layers.countP fun layer => keyless layer.protocol (bytes.drop layer.offset)

/-- The layers of a packet that have a stream identity carry all fields of its key, but for the keyless ones, which miss
one. -/
def KeysTold (env : Env) (bytes : List UInt8) (packet : DissectedPacket) : Prop :=
  ∀ layer ∈ packet.layers, ∀ plugin identity, Aggregator.identityOf env layer.protocol = some (plugin, identity) →
    ((∀ name ∈ keyNames identity.key, Has name layer.fields) ↔
      keyless layer.protocol (bytes.drop layer.offset) = false)

/-- A layer of a registered plugin has the identity of the plugin. -/
theorem identityOf_of_parsedBy {bytes : List UInt8} {layer : LayerRecord} {p : LayerPlugin}
    (h : ParsedBy env.engine opts bytes layer p) :
    Aggregator.identityOf env layer.protocol = p.streamIdentity.map fun identity => (p, identity) := by
  rw [Aggregator.identityOf, h.name, pluginByName_of_registered h.registered]
  cases hidentity : p.streamIdentity <;> simp [hidentity]

theorem keysTold (hplugins : ∀ p ∈ env.engine.registry.plugins, p ∈ builtins) (hagg : opts.aggregation = true)
    {bytes : List UInt8} {meta_ : PacketMeta} {packet : DissectedPacket}
    (h : env.engine.dissect bytes meta_ opts = some packet) : KeysTold env bytes packet := by
  intro layer hlayer plugin identity hof
  obtain ⟨p, hp⟩ := dissect_parsedBy h layer hlayer
  obtain ⟨ctx, l, hctx, hparse, hfields⟩ := hp.parses
  rw [identityOf_of_parsedBy hp] at hof
  obtain ⟨identity', hidentity, heq⟩ := Option.map_eq_some_iff.1 hof
  obtain rfl : identity' = identity := congrArg Prod.snd heq
  have hbuiltin := hplugins p hp.registered
  have hkeyed := (builtins_keyedBut hbuiltin).1 identity' hidentity _ ctx l (atDepth_keys hagg hctx) hparse
  rw [flowKey_ok_iff (builtins_endpointSort hbuiltin hidentity), hfields, ← hp.name] at hkeyed
  exact hkeyed

/-- The store misses the key of a layer exactly if it is keyless. -/
theorem keyMissing_eq (hplugins : ∀ p ∈ env.engine.registry.plugins, p ∈ builtins) (hagg : opts.aggregation = true)
    {bytes : List UInt8} {layer : LayerRecord} {p : LayerPlugin} (h : ParsedBy env.engine opts bytes layer p) :
    keyMissing env layer = keyless layer.protocol (bytes.drop layer.offset) := by
  obtain ⟨ctx, l, hctx, hparse, hfields⟩ := h.parses
  have hof := identityOf_of_parsedBy h
  obtain ⟨hkeyed, hplain⟩ := builtins_keyedBut (hplugins p h.registered)
  cases hidentity : p.streamIdentity with
  | none =>
      rw [hidentity, Option.map_none] at hof
      rw [keyMissing, hof, h.name, hplain hidentity]
  | some identity =>
      rw [hidentity, Option.map_some] at hof
      have hiff := hkeyed identity hidentity _ ctx l (atDepth_keys hagg hctx) hparse
      rw [hfields, ← h.name] at hiff
      rw [keyMissing, hof]
      dsimp only
      cases hkey : flowKey identity layer.fields with
      | ok key => exact (hiff.1 ⟨key, hkey⟩).symm
      | error e =>
          refine (Bool.eq_true_of_not_eq_false fun hwith => ?_).symm
          obtain ⟨key, hok⟩ := hiff.2 hwith
          rw [hkey] at hok
          cases hok

theorem countP_keyMissing (hplugins : ∀ p ∈ env.engine.registry.plugins, p ∈ builtins) (hagg : opts.aggregation = true)
    {bytes : List UInt8} {meta_ : PacketMeta} {packet : DissectedPacket}
    (h : env.engine.dissect bytes meta_ opts = some packet) :
    packet.layers.countP (keyMissing env) = keylessLayers bytes packet := by
  apply List.countP_congr
  intro layer hlayer
  obtain ⟨p, hp⟩ := dissect_parsedBy h layer hlayer
  rw [keyMissing_eq hplugins hagg hp]

end Store

end Pktflow.Plugins

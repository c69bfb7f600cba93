import Pktflow.Core.Bytes
import Pktflow.Flows.Store
import Pktflow.Plugins.Checksum

/-!
# Network and transport plugins

Model of `pktflow-plugins/src/{ipv4,ipv6,tcp,udp}.rs`: the identities the plugins declare and what they
parse. A transport key holds the ports only; the addresses are in the key of the network stream above it.
-/

set_option autoImplicit false

namespace Pktflow.Plugins

open Pktflow.Core Pktflow.Core.ByteReader Pktflow.Flows

/-- `ctx.depth() >= depth`. -/
def atDepth (ctx : ParseCtx) (depth : Depth) : Bool := depth.rank ≤ ctx.depth.rank

/-- The fields of a level of detail, inserted if the session asks for it. -/
def insertAt (ctx : ParseCtx) (depth : Depth) (level : List (FieldName × Value)) (fields : FieldMap) :
    FieldMap :=
  if atDepth ctx depth then level.foldl (fun m e => m.insert e.1 e.2) fields else fields

/-- The `options` field, absent if there are none. -/
def optionsField (options : List UInt8) : List (FieldName × Value) :=
  if options.isEmpty then [] else [("options", .bytes options)]

/-! ## IPv4 -/

/-- The identity the two IP plugins declare: one pair of addresses, and a set of next protocols. -/
def addressIdentity (protocolField : FieldName) : StreamIdentity where
  key := [⟨"src_addr", some "dst_addr"⟩]
  canonicalize := .endpointSort
  lifecycle := none
  rollups := [⟨protocolField, .accumulate⟩]

/-- `Ipv4::parse`. -/
def parseIpv4 (ctx : ParseCtx) : ByteReader ParsedLayer := do
  let verIhl ← u8
  if verIhl >>> 4 ≠ 4 then throw (.malformed "version nibble is not 4")
  let ihl := (verIhl &&& 0x0F).toNat
  if ihl < 5 then throw (.malformed "IHL below 5")
  let headerLen := ihl * 4
  let dscpEcn ← u8
  let totalLen ← u16Be
  let id ← u16Be
  let flagsFrag ← u16Be
  let ttl ← u8
  let protocol ← u8
  let checksum ← u16Be
  let src ← take 4
  let dst ← take 4
  let options ← take (headerLen - 20)
  let fragOffset := flagsFrag &&& 0x1FFF
  let fields := insertAt ctx .full
    ([("dscp", .u64 (dscpEcn >>> 2).toUInt64), ("ecn", .u64 (dscpEcn &&& 0x03).toUInt64),
      ("id", .u64 id.toUInt64), ("checksum", .u64 checksum.toUInt64)] ++ optionsField options)
    (insertAt ctx .structural
      [("protocol", .u64 protocol.toUInt64), ("ttl", .u64 ttl.toUInt64),
        ("total_len", .u64 totalLen.toUInt64), ("flags", .u64 (flagsFrag >>> 13).toUInt64),
        ("frag_offset", .u64 fragOffset.toUInt64), ("ihl", .u64 (UInt64.ofNat ihl))]
      (insertAt ctx .keys [("src_addr", .bytes src), ("dst_addr", .bytes dst)] FieldMap.new))
  -- a non-first fragment carries no transport header
  let hint := if 0 < fragOffset then Hint.terminal else .route (.ipProtocol protocol)
  return ⟨headerLen, fields, hint⟩

/-- `Ipv4::probe`. -/
def probeIpv4 (bytes : List UInt8) : Option Confidence := do
  let first ← bytes.head?
  if first >>> 4 ≠ 4 ∨ first &&& 0x0F < 5 then none
  else
    let headerLen := (first &&& 0x0F).toNat * 4
    let header ← if headerLen ≤ bytes.length then some (bytes.take headerLen) else none
    let totalLen := fromBeBytes ((bytes.drop 2).take 2)
    if bytes.length < totalLen ∨ totalLen < headerLen then none
    else if Checksum.internetChecksum header = some 0 then some (Confidence.new 90) else none

/-- `Ipv4`. -/
def ipv4 : LayerPlugin where
  name := "ipv4"
  parse := fun bytes ctx => (parseIpv4 ctx).parse bytes
  claims := [.etherType 0x0800, .ipProtocol 4]
  hasProbe := true
  probe := fun bytes _ => probeIpv4 bytes
  streamIdentity := some (addressIdentity "protocol")

/-! ## IPv6 -/

/-- `MAX_EXT_HEADERS`. -/
def maxExtHeaders : Nat := 8

/-- The chain of extension headers: the next header, the header length and the fragment offset. -/
structure ExtChain where
  nextHeader : UInt8
  headerLen : Nat
  fragmentOffset : UInt16

/-- The loop over the extension headers, with `left` of them still allowed. -/
def walkExtHeaders : Nat → ExtChain → ByteReader ExtChain
  | left, c =>
    if c.nextHeader ∈ [0, 43, 44, 60] then
      match left with
      | 0 => throw (.malformed "extension header chain too long")
      | left + 1 => do
          if c.nextHeader = 44 then
            -- a fragment header has a fixed length
            let innerNext ← u8
            let _ ← u8
            let offsetFlags ← u16Be
            let _ ← u32Be
            walkExtHeaders left ⟨innerNext, c.headerLen + 8, offsetFlags >>> 3⟩
          else
            let innerNext ← u8
            let hdrExtLen ← u8
            let extLen := (hdrExtLen.toNat + 1) * 8
            let _ ← take (extLen - 2)
            walkExtHeaders left ⟨innerNext, c.headerLen + extLen, c.fragmentOffset⟩
    else return c

/-- `Ipv6::parse`. -/
def parseIpv6 (ctx : ParseCtx) : ByteReader ParsedLayer := do
  let verTcFl ← u32Be
  if verTcFl >>> 28 ≠ 6 then throw (.malformed "version nibble is not 6")
  let payloadLen ← u16Be
  let nextHeader ← u8
  let hopLimit ← u8
  let src ← take 16
  let dst ← take 16
  let chain ← walkExtHeaders maxExtHeaders ⟨nextHeader, 40, 0⟩
  let fields := insertAt ctx .full
    [("traffic_class", .u64 ((verTcFl >>> 20) &&& 0xFF).toUInt64),
      ("flow_label", .u64 (verTcFl &&& 0xFFFFF).toUInt64)]
    (insertAt ctx .structural
      [("next_header", .u64 chain.nextHeader.toUInt64), ("hop_limit", .u64 hopLimit.toUInt64),
        ("payload_len", .u64 payloadLen.toUInt64)]
      (insertAt ctx .keys [("src_addr", .bytes src), ("dst_addr", .bytes dst)] FieldMap.new))
  let hint := if 0 < chain.fragmentOffset then Hint.terminal else .route (.ipProtocol chain.nextHeader)
  return ⟨chain.headerLen, fields, hint⟩

/-- `Ipv6::probe`. -/
def probeIpv6 (bytes : List UInt8) : Option Confidence := do
  let first ← bytes.head?
  if first >>> 4 ≠ 6 ∨ bytes.length < 40 then none
  else if 40 + fromBeBytes ((bytes.drop 4).take 2) ≤ bytes.length then some (Confidence.new 75)
  else none

/-- `Ipv6`. -/
def ipv6 : LayerPlugin where
  name := "ipv6"
  parse := fun bytes ctx => (parseIpv6 ctx).parse bytes
  claims := [.etherType 0x86DD, .ipProtocol 41]
  hasProbe := true
  probe := fun bytes _ => probeIpv6 bytes
  streamIdentity := some (addressIdentity "next_header")

/-! ## TCP -/

/-- The pair of ports that keys both transport protocols. -/
def portPair : KeyField := ⟨"src_port", some "dst_port"⟩

/-- The two port fields. -/
def portFields (srcPort dstPort : UInt16) : List (FieldName × Value) :=
  [("src_port", .u64 srcPort.toUInt64), ("dst_port", .u64 dstPort.toUInt64)]

def finFlag : UInt64 := 0x01
def synFlag : UInt64 := 0x02
def rstFlag : UInt64 := 0x04
def ackFlag : UInt64 := 0x10

/-- `advance`: the session states. -/
def advance (fields : FieldMap) (state : StateName) (_ : PacketDirection) : StateName :=
  match fields.get "flags" with
  | some (.u64 flags) =>
      let syn := flags &&& synFlag ≠ 0
      let ack := flags &&& ackFlag ≠ 0
      let fin := flags &&& finFlag ≠ 0
      if flags &&& rstFlag ≠ 0 then "reset"
      else if state = "new" ∧ syn ∧ ¬ack then "syn_sent"
      -- the capture began in the middle of the session
      else if state = "new" ∧ ¬syn then "established_midstream"
      else if state = "syn_sent" ∧ syn ∧ ack then "syn_received"
      else if state = "syn_received" ∧ ack ∧ ¬syn ∧ ¬fin then "established"
      else if (state = "established" ∨ state = "established_midstream") ∧ fin then "closing"
      else if state = "closing" ∧ fin ∧ ack then "closed"
      else state
  | _ => state

/-- `LifecycleSpec` of `Tcp`. -/
def tcpLifecycle : LifecycleSpec := ⟨"new", advance, ["closed", "reset"]⟩

/-- The identity of `Tcp`: ports only, with two rollups of the flags. -/
def tcpIdentity : StreamIdentity where
  key := [portPair]
  canonicalize := .endpointSort
  lifecycle := some tcpLifecycle
  rollups := [⟨"flags", .accumulate⟩, ⟨"flags", .series 1024⟩]

/-- `Tcp::parse`. -/
def parseTcp (len : Nat) (ctx : ParseCtx) : ByteReader ParsedLayer := do
  let srcPort ← u16Be
  let dstPort ← u16Be
  let seq ← u32Be
  let ack ← u32Be
  let offsetFlags ← u16Be
  let dataOffset := (offsetFlags >>> 12).toNat
  if dataOffset < 5 then throw (.malformed "data offset below 5")
  let window ← u16Be
  let checksum ← u16Be
  let urgent ← u16Be
  let headerLen := dataOffset * 4
  let options ← take (headerLen - 20)
  let fields := insertAt ctx .full
    ([("checksum", .u64 checksum.toUInt64), ("urgent", .u64 urgent.toUInt64)] ++ optionsField options)
    (insertAt ctx .structural
      [("flags", .u64 (offsetFlags &&& 0x01FF).toUInt64), ("seq", .u64 seq.toUInt64),
        ("ack", .u64 ack.toUInt64), ("window", .u64 window.toUInt64),
        ("data_offset", .u64 (UInt64.ofNat dataOffset))]
      (insertAt ctx .keys (portFields srcPort dstPort) FieldMap.new))
  let hint := if len = headerLen then Hint.terminal
    else .candidates [.tcpPort dstPort, .tcpPort srcPort]
  return ⟨headerLen, fields, hint⟩

/-- `Tcp::probe`. -/
def probeTcp (bytes : List UInt8) : Option Confidence :=
  if bytes.length < 20 then none
  else
    let offsetFlags := UInt16.ofNat (fromBeBytes ((bytes.drop 12).take 2))
    let dataOffset := (offsetFlags >>> 12).toNat
    let f := (offsetFlags &&& 0xFF).toUInt64
    let syn := f &&& synFlag ≠ 0
    let rst := f &&& rstFlag ≠ 0
    let fin := f &&& finFlag ≠ 0
    let urgent := fromBeBytes ((bytes.drop 18).take 2)
    if ¬(5 ≤ dataOffset ∧ dataOffset ≤ 15) ∨ bytes.length < dataOffset * 4 then none
    else if offsetFlags &&& 0x0F00 ≠ 0 then none
    else if f = 0 ∨ (syn ∧ fin) ∨ (syn ∧ rst) ∨ (fin ∧ rst) then none
    else if urgent ≠ 0 ∧ f &&& 0x20 = 0 then none
    else some (Confidence.new 60)

/-- `Tcp`. -/
def tcp : LayerPlugin where
  name := "tcp"
  parse := fun bytes ctx => (parseTcp bytes.length ctx).parse bytes
  claims := [.ipProtocol 6]
  expectedPredecessors := ["ipv4", "ipv6"]
  hasProbe := true
  probe := fun bytes _ => probeTcp bytes
  streamIdentity := some tcpIdentity
  condense := some ⟨portPair⟩

/-! ## UDP -/

/-- The identity of `Udp`. -/
def udpIdentity : StreamIdentity where
  key := [portPair]
  canonicalize := .endpointSort
  lifecycle := none
  rollups := [⟨"length", .sample⟩]

/-- `Udp::parse`. -/
def parseUdp (ctx : ParseCtx) : ByteReader ParsedLayer := do
  let srcPort ← u16Be
  let dstPort ← u16Be
  let length ← u16Be
  let checksum ← u16Be
  let fields := insertAt ctx .full [("checksum", .u64 checksum.toUInt64)]
    (insertAt ctx .structural [("length", .u64 length.toUInt64)]
      (insertAt ctx .keys (portFields srcPort dstPort) FieldMap.new))
  return ⟨8, fields, .candidates [.udpPort dstPort, .udpPort srcPort]⟩

/-- `Udp`. -/
def udp : LayerPlugin where
  name := "udp"
  parse := fun bytes ctx => (parseUdp ctx).parse bytes
  claims := [.ipProtocol 17]
  streamIdentity := some udpIdentity
  condense := some ⟨portPair⟩

/-! ## An engine -/

/-- The four plugins. -/
def transportBuilder : EngineBuilder where
  plugins := [ipv4, ipv6, tcp, udp]

/-- The registry of `transportBuilder`. -/
def transportRegistry : Registry :=
  match transportBuilder.build with
  | .ok registry => registry
  | .error _ => ⟨[], ∅, ∅, []⟩

/-- The engine of `transportBuilder`. -/
def transportEngine : Engine := ⟨transportRegistry, transportBuilder, rfl⟩

/-- An environment of that engine with neither eviction nor condensation. -/
def transportEnv : Env where
  engine := transportEngine
  config := { condenseThreshold := 0 }
  digest := fun bytes => UInt64.ofNat (bytes.length % 4)

end Pktflow.Plugins

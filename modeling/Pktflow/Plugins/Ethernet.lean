import Pktflow.Core.Trailer
import Pktflow.Flows.Ingest
import Pktflow.Plugins.Tagging

/-!
# Ethernet frames

Model of `pktflow-plugins/src/ethernet.rs`, and what becomes of the bytes after the packet of a frame.
Ethernet pads a short frame; the total length of an IPv4 header says where the packet ends, but no
dissector above it is told. A frame whose walk stays inside the packet is dissected the same with any
trailer; a frame whose packet is read to its end never is.
-/

set_option autoImplicit false

namespace Pktflow.Plugins

open Pktflow.Core Pktflow.Core.ByteReader Pktflow.Flows

/-! ## Ethernet -/

/-- `MIN_ETHERTYPE`: lower values are 802.3 lengths. -/
def minEthertype : UInt16 := 0x0600

/-- The identity of `Ethernet`. -/
def ethernetIdentity : StreamIdentity where
  key := [⟨"src_mac", some "dst_mac"⟩]
  canonicalize := .endpointSort
  lifecycle := none
  rollups := [⟨"ethertype", .accumulate⟩]

/-- `Ethernet::parse`. -/
def parseEthernet (ctx : ParseCtx) : ByteReader ParsedLayer := do
  let dst ← take 6
  let src ← take 6
  let ethertype ← u16Be
  let fields := insertAt ctx .structural [("ethertype", .u64 ethertype.toUInt64)]
    (insertAt ctx .keys [("src_mac", .bytes src), ("dst_mac", .bytes dst)] FieldMap.new)
  -- an 802.3 length announces an LLC frame
  let hint := if minEthertype ≤ ethertype then Hint.route (.etherType ethertype)
    else .route (.custom "eth_llc_frame" 0)
  return ⟨14, fields, hint⟩

/-- `Ethernet`. -/
def ethernet : LayerPlugin where
  name := "ethernet"
  parse := fun bytes ctx => (parseEthernet ctx).parse bytes
  claims := [.linkType 1]
  streamIdentity := some ethernetIdentity

/-! ## Plugins that read their own header -/

/-- The header length of an IPv4 packet. -/
def ipHeaderLen (packet : List UInt8) : Nat := (packet.headD 0 &&& 0x0F).toNat * 4

/-- The total length of an IPv4 packet. -/
def ipTotalLen (packet : List UInt8) : Nat := fromBeBytes ((packet.drop 2).take 2)

/-- An Ethernet frame that carries an IPv4 packet and ends with it: the total length of the packet covers
its header and is the length of what follows the Ethernet header. -/
structure Ipv4Frame where
  macs : List UInt8
  packet : List UInt8
  macs_length : macs.length = 12
  version : packet.headD 0 >>> 4 = 4
  header : 20 ≤ ipHeaderLen packet
  fits : ipHeaderLen packet ≤ ipTotalLen packet
  total : ipTotalLen packet = packet.length

namespace Ipv4Frame

/-- The bytes of the frame. -/
def bytes (f : Ipv4Frame) : List UInt8 := f.macs ++ ([0x08, 0x00] ++ f.packet)

/-- What the packet carries. -/
def payload (f : Ipv4Frame) : List UInt8 := f.packet.drop (ipHeaderLen f.packet)

end Ipv4Frame

end Pktflow.Plugins

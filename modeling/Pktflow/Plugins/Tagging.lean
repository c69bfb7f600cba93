import Pktflow.Plugins.Transport

/-!
# Tags and overlays

Model of `pktflow-plugins/src/vlan.rs` and `pktflow-plugins/src/vxlan.rs`: an 802.1Q or 802.1ad tag, which is
transparent to streams, and the header that wraps an inner Ethernet frame.
-/

set_option autoImplicit false

namespace Pktflow.Plugins

open Pktflow.Core Pktflow.Core.ByteReader Pktflow.Flows

/-- `Vlan::parse`. -/
def parseVlan (ctx : ParseCtx) : ByteReader ParsedLayer := do
  let tci ← u16Be
  let innerEthertype ← u16Be
  let fields := insertAt ctx .structural
    [("pcp", .u64 (tci >>> 13).toUInt64), ("dei", .bool ((tci >>> 12) &&& 1 == 1)),
      ("ethertype", .u64 innerEthertype.toUInt64)]
    (insertAt ctx .keys [("vlan_id", .u64 (tci &&& 0x0FFF).toUInt64)] FieldMap.new)
  return ⟨4, fields, .route (.etherType innerEthertype)⟩

/-- `Vlan`. -/
def vlan : LayerPlugin where
  name := "vlan"
  parse := fun bytes ctx => (parseVlan ctx).parse bytes
  -- the second is the S-tag of a stack
  claims := [.etherType 0x8100, .etherType 0x88A8]

/-- `I_BIT`. -/
def vxlanIBit : UInt8 := 0x08

/-- `Vxlan::parse`. -/
def parseVxlan (ctx : ParseCtx) : ByteReader ParsedLayer := do
  let flags ← u8
  if flags &&& vxlanIBit = 0 then throw (.malformed "VXLAN I flag not set")
  let _ ← take 3
  let vniBytes ← take 3
  let _ ← u8
  let vni := UInt64.ofNat (fromBeBytes vniBytes)
  let fields := insertAt ctx .structural [("flags", .u64 flags.toUInt64)]
    (insertAt ctx .keys [("vni", .u64 vni)] FieldMap.new)
  return ⟨8, fields, .byProtocol "ethernet"⟩

/-- `Vxlan`. -/
def vxlan : LayerPlugin where
  name := "vxlan"
  parse := fun bytes ctx => (parseVxlan ctx).parse bytes
  claims := [.udpPort 4789]
  streamIdentity := some
    { key := [⟨"vni", none⟩], canonicalize := .endpointSort, lifecycle := none, rollups := [] }

end Pktflow.Plugins

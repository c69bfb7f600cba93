import Pktflow.Core.Stream

/-!
# Packets and the plugin contract

Model of the data types of `pktflow-core/src/{route,error,context,depth,packet,diagnostics,plugin}.rs`:
route identifiers, stop reasons, layer records and dissected packets, and the plugin contract. A plugin
is the record of the functions it declares; `parse` and `probe` are arbitrary.
-/

set_option autoImplicit false

namespace Pktflow.Core

/-- `RouteId`: a namespaced protocol identifier. -/
inductive RouteId where
  | linkType (id : UInt16)
  | etherType (id : UInt16)
  | ipProtocol (id : UInt8)
  | udpPort (id : UInt16)
  | tcpPort (id : UInt16)
  | custom (space : String) (id : UInt64)
  deriving DecidableEq, Repr

/-- `StopReason`: why a packet's dissection ended. -/
inductive StopReason where
  | complete
  | terminal
  | unclaimedRoute (route : RouteId)
  | unknownHint
  | truncated (needed : UInt16) (have_ : UInt16)
  | pluginError
  | depthCap
  deriving DecidableEq, Repr

/-- `StopClass`: semantic grouping of stop reasons. -/
inductive StopClass where
  | clean
  | unknownPayload
  | malformed
  | suspicious
  deriving DecidableEq, Repr

/-- `StopReason::class`. -/
def StopReason.toClass : StopReason → StopClass
  | .complete | .terminal => .clean
  | .unclaimedRoute _ | .unknownHint => .unknownPayload
  | .truncated _ _ | .pluginError => .malformed
  | .depthCap => .suspicious

/-- `PacketMeta`: capture-provided facts about one packet. -/
structure PacketMeta where
  timestamp : SystemTime
  caplen : Nat
  origlen : Nat
  linkType : UInt16
  deriving DecidableEq, Repr

/-- `LayerRecord`: one parsed protocol header. -/
structure LayerRecord where
  protocol : ProtocolName
  offset : Nat
  headerLen : Nat
  fields : FieldMap
  deriving DecidableEq

/-- `Confidence`: a probe score of at most 100. -/
structure Confidence where
  score : Nat
  le_hundred : score ≤ 100
  deriving DecidableEq, Repr

/-- `Confidence::new` clamps. -/
def Confidence.new (score : Nat) : Confidence := ⟨min score 100, Nat.min_le_right score 100⟩

/-- `UnknownContext`: why dissection stopped on the unknown. -/
inductive UnknownContext where
  | unclaimedRoute (predecessor : ProtocolName) (route : RouteId)
  | noHeuristicWinner (predecessor : ProtocolName)
  deriving DecidableEq, Repr

/-- `UnknownDiagnostics`: evidence captured at an unknown stop. -/
structure UnknownDiagnostics where
  context : UnknownContext
  nearMisses : List (ProtocolName × Confidence)
  sample : List UInt8
  deriving DecidableEq, Repr

/-- `DissectedPacket`: the stack of parsed layers, outermost first, and why parsing stopped. -/
structure DissectedPacket where
  meta_ : PacketMeta
  layers : List LayerRecord
  stop : StopReason
  opaqueLen : Nat
  unknown : Option UnknownDiagnostics

/-- `Depth`: how much metadata a plugin extracts for one layer. -/
inductive Depth where
  | none
  | keys
  | structural
  | full
  deriving DecidableEq, Repr

/-- `ParseCtx`: what a plugin sees while parsing. -/
structure ParseCtx where
  layers : List LayerRecord
  depth : Depth
  meta_ : PacketMeta

/-- `ParseError`: a plugin declined the bytes it was offered. -/
inductive ParseError where
  | truncated (needed : Nat) (have_ : Nat)
  | malformed (reason : String)
  deriving DecidableEq, Repr

/-- `Hint`: a plugin's declaration of what follows its header. -/
inductive Hint where
  | route (id : RouteId)
  | candidates (ids : List RouteId)
  | byProtocol (name : ProtocolName)
  | unknown
  | terminal
  deriving DecidableEq, Repr

/-- `ParsedLayer`: a successful parse of exactly one header. -/
structure ParsedLayer where
  headerLen : Nat
  fields : FieldMap
  hint : Hint
  deriving DecidableEq

/-- `LayerPlugin`: one protocol dissector, with the trait's defaults. -/
structure LayerPlugin where
  name : ProtocolName
  parse : List UInt8 → ParseCtx → Except ParseError ParsedLayer
  claims : List RouteId := []
  expectedPredecessors : List ProtocolName := []
  hasProbe : Bool := false
  probe : List UInt8 → ParseCtx → Option Confidence := fun _ _ => none
  streamIdentity : Option StreamIdentity := none
  condense : Option CondenseSpec := none

end Pktflow.Core

import Pktflow.Core.Value

/-!
# Stream identity declarations

Model of `pktflow-core/src/stream.rs`: the flow-key vocabulary, and the declaration by which a plugin
makes its layers conversation sources. `SystemTime` and `Duration` are counts of nanoseconds, the
first from the Unix epoch and of either sign.
-/

set_option autoImplicit false

namespace Pktflow.Core

/-- `std::time::SystemTime`, in nanoseconds from `UNIX_EPOCH`. -/
abbrev SystemTime := Int

/-- `SystemTime::UNIX_EPOCH`. -/
def unixEpoch : SystemTime := 0

/-- `std::time::Duration`, in nanoseconds. -/
abbrev Duration := Nat

/-- `ProtocolName`: a plugin's declared name. -/
abbrev ProtocolName := String

/-- `FlowKey`: a canonical flow-key byte encoding. -/
abbrev FlowKey := List UInt8

/-- `PacketDirection`: which way a packet travels relative to the canonical endpoints. -/
inductive PacketDirection where
  | aToB
  | bToA
  deriving DecidableEq, Repr

/-- `KeyError`: the identity names a field the parse output does not carry. -/
inductive KeyError where
  | missingField (name : FieldName)
  deriving DecidableEq, Repr

/-- `StateName`: a plugin-owned lifecycle state label. -/
abbrev StateName := String

/-- `KeyField`: one component of a stream's endpoint identity; `b` is absent for a component that
belongs to the stream and not to an endpoint. -/
structure KeyField where
  a : FieldName
  b : Option FieldName
  deriving DecidableEq, Repr

/-- `Canonicalize`: the direction rule of one protocol's streams. -/
inductive Canonicalize where
  | endpointSort
  | custom (f : FieldMap → Except KeyError (FlowKey × PacketDirection))

/-- Whether the rule is `EndpointSort`. -/
def Canonicalize.isEndpointSort : Canonicalize → Bool
  | .endpointSort => true
  | .custom _ => false

/-- `LifecycleSpec`: how per-packet fields advance a session state machine. -/
structure LifecycleSpec where
  initial : StateName
  advance : FieldMap → StateName → PacketDirection → StateName
  closedStates : List StateName

/-- `RollupKind`. -/
inductive RollupKind where
  | accumulate
  | sample
  | series (cap : Nat)
  deriving DecidableEq, Repr

/-- `RollupSpec`: per-field retention beyond baseline stats. -/
structure RollupSpec where
  field : FieldName
  kind : RollupKind
  deriving DecidableEq, Repr

/-- `CondenseSpec`: the paired key component whose values vary within a condensed group. -/
structure CondenseSpec where
  ephemeral : KeyField
  deriving DecidableEq, Repr

/-- `StreamIdentity`: the declaration that makes a dissector a conversation source. -/
structure StreamIdentity where
  key : List KeyField
  canonicalize : Canonicalize
  lifecycle : Option LifecycleSpec
  rollups : List RollupSpec

end Pktflow.Core

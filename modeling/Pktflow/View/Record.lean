import Pktflow.Flows.Ingest
import Pktflow.Lib.SortedMap
import Pktflow.View.Fmt
import Mathlib.Data.String.Basic

/-!
# Stream records

Model of `pktflow-view/src/stream_view.rs` and `pktflow-view/src/json.rs`: the totals and the A and B
sides of a stream, and its JSON record. A `serde_json` object keeps its entries sorted by key, a later
value for a key replacing an earlier one.
-/

set_option autoImplicit false

namespace Pktflow.View

open Pktflow.Core Pktflow.Flows Pktflow.Lib

/-- `total_packets`. -/
def totalPackets (s : Stream) : Nat := s.stats.packets

/-- `total_bytes`. -/
def totalBytes (s : Stream) : Nat := s.stats.bytes

/-- `last_seen.duration_since(first_seen)`, zero if the clock ran backwards. -/
def duration (s : Stream) : Nat := (s.lastSeen - s.firstSeen).toNat

/-- `name.strip_prefix(prefix)`. -/
def stripPrefix (pre name : String) : Option String :=
  if pre.toList <+: name.toList then some (String.ofList (name.toList.drop pre.toList.length)) else none

/-! ## Endpoint sides -/

/-- The two rendered endpoint sides and the other key fields. -/
structure EndpointSides where
  a : String
  b : String
  extras : List String
  deriving DecidableEq

/-- A value as a side shows it; ports take a colon. -/
def sideStr (name suffix : String) (v : Value) : String :=
  if endsWith suffix "port" then ":" ++ valueStr name v else valueStr name v

/-- What the loop of `endpoint_sides` makes of one key field: the two sides of a pair in A, B order, a
qualifier, or nothing. -/
inductive SidePart where
  | pair (a b : String)
  | extra (text : String)
  | skip

/-- The part of one key field of a stream. -/
def sidePart (keyFields : FieldMap) (initiator : PacketDirection) (name : FieldName) (v : Value) :
    SidePart :=
  let rest : SidePart :=
    -- consumed with its `src_` partner
    if (stripPrefix "dst_" name).any fun suffix => (keyFields.get ("src_" ++ suffix)).isSome then .skip
    else if name ≠ "app" then .extra (name ++ "=" ++ valueStr name v)
    else .skip
  match stripPrefix "src_" name with
  | none => rest
  | some suffix =>
      match keyFields.get ("dst_" ++ suffix) with
      | none => rest
      | some dst =>
          match initiator with
          | .aToB => .pair (sideStr name suffix v) (sideStr ("dst_" ++ suffix) suffix dst)
          | .bToA => .pair (sideStr ("dst_" ++ suffix) suffix dst) (sideStr name suffix v)

/-- The sides, collected over the key fields in order. -/
def collectSides (parts : List SidePart) : EndpointSides where
  a := join "," (parts.filterMap fun p => match p with | .pair a _ => some a | _ => none)
  b := join "," (parts.filterMap fun p => match p with | .pair _ b => some b | _ => none)
  extras := parts.filterMap fun p => match p with | .extra text => some text | _ => none

/-- `endpoint_sides`: the rendered sides, canonical A first; a condensed node shows its anchor. -/
def endpointSides (s : Stream) : EndpointSides :=
  match s.condensed with
  | some info =>
      let anchor := match s.keyFields.get info.ephemeralField with
        | some v => sideStr info.ephemeralField info.ephemeralField v
        | none => ""
      ⟨anchor, if endsWith info.ephemeralField "port" then ":*" else "*", []⟩
  | none => collectSides (s.keyFields.entries.map fun e => sidePart s.keyFields s.initiator e.1 e.2)

/-! ## JSON -/

/-- `serde_json::Value`. -/
inductive Json where
  | null
  | bool (b : Bool)
  | num (n : Int)
  | str (s : String)
  | arr (items : List Json)
  | obj (entries : List (String × Json))

/-- `serde_json::Map`. -/
abbrev JsonMap := SortedMap String Json

/-- `direction_json`. -/
def directionJson : PacketDirection → String
  | .aToB => "a_to_b"
  | .bToA => "b_to_a"

/-- `close_reason_json`. -/
def closeReasonJson : CloseReason → String
  | .protocolClose => "protocol_close"
  | .idleTimeout => "idle_timeout"
  | .lruEvicted => "lru_evicted"
  | .captureEnd => "capture_end"

mutual

/-- `field_value_json`: numbers, flags and texts as they are, byte shapes rendered. -/
def fieldValueJson (fmt : Formats) (protocol : ProtocolName) (name : FieldName) : Value → Json
  | .u64 n => .num n.toNat
  | .i64 n => .num n.toInt
  | .bool b => .bool b
  | .str s => .str s
  | .bytes b => .str (fieldValueStr fmt protocol name (.bytes b))
  | .list vs => .arr (fieldValueJsons fmt protocol name vs)

/-- `field_value_json` of every element. -/
def fieldValueJsons (fmt : Formats) (protocol : ProtocolName) (name : FieldName) : List Value → List Json
  | [] => []
  | v :: vs => fieldValueJson fmt protocol name v :: fieldValueJsons fmt protocol name vs

end

/-- The three objects of `endpoint_json`. -/
structure EndpointJson where
  a : JsonMap
  b : JsonMap
  key : JsonMap

/-- What the loop of `endpoint_json` does with one key field. -/
def endpointJsonStep (fmt : Formats) (s : Stream) (acc : EndpointJson) (e : FieldName × Value) :
    EndpointJson :=
  let value := fieldValueJson fmt s.protocol
  let rest : EndpointJson :=
    -- consumed with its `src_` partner
    if (stripPrefix "dst_" e.1).any fun suffix => (s.keyFields.get ("src_" ++ suffix)).isSome then acc
    else if e.1 ≠ "app" then { acc with key := acc.key.insert e.1 (value e.1 e.2) }
    else acc
  match stripPrefix "src_" e.1 with
  | none => rest
  | some suffix =>
      let dstName := "dst_" ++ suffix
      match s.keyFields.get dstName with
      | none => rest
      | some dst =>
          match s.initiator with
          | .aToB => { acc with a := acc.a.insert e.1 (value e.1 e.2), b := acc.b.insert dstName (value dstName dst) }
          | .bToA => { acc with a := acc.a.insert dstName (value dstName dst), b := acc.b.insert e.1 (value e.1 e.2) }

/-- `endpoint_json`: the A and B objects and the qualifier fields. -/
def endpointJson (fmt : Formats) (s : Stream) : EndpointJson :=
  match s.condensed with
  | some info =>
      match s.keyFields.get info.ephemeralField with
      | some v =>
          ⟨SortedMap.insert [] info.ephemeralField (fieldValueJson fmt s.protocol info.ephemeralField v),
            SortedMap.insert [] info.ephemeralField (.str "*"), []⟩
      | none => ⟨[], [], []⟩
  | none => s.keyFields.entries.foldl (endpointJsonStep fmt s) ⟨[], [], []⟩

/-- `rollup_json`: one rollup with its kind and contents. -/
def rollupJson (fmt : Formats) (base : SystemTime) (protocol : ProtocolName) (field : FieldName) :
    Rollup → Json
  | .accumulate values count overflow =>
      .obj (SortedMap.ofList [("kind", .str "accumulate"),
        ("values", .arr (values.map fun v => .str (fieldValueStr fmt protocol field v))),
        ("distinct", .num values.length), ("observations", .num count), ("overflow", .bool overflow)])
  | .sample first last =>
      let render : Option Value → Json := fun v =>
        match v with
        | none => .null
        | some v => .str (fieldValueStr fmt protocol field v)
      .obj (SortedMap.ofList [("kind", .str "sample"), ("first", render first), ("last", render last)])
  | .series ring _ truncated =>
      let point : SeriesPoint → Json := fun p =>
        .obj (SortedMap.ofList [("ts", .str (fmt.rfc3339 (p.ts base))), ("dir", .str (directionJson p.dir)),
          ("value", .str (fieldValueStr fmt protocol field p.value))])
      .obj (SortedMap.ofList [("kind", .str "series"), ("points", .arr (ring.map point)),
        ("truncated", .bool truncated)])

/-- The object `stream_record` files under `rollups`. -/
def rollupsJson (fmt : Formats) (s : Stream) : JsonMap :=
  SortedMap.ofList (s.rollups.entries.map fun e => (e.1, rollupJson fmt s.firstSeen s.protocol e.1 e.2))

/-- The object `stream_record` returns, one field for each of its keys. -/
structure StreamRecord where
  id : Nat
  protocol : ProtocolName
  parent : Option Nat
  children : List Nat
  endpointA : JsonMap
  endpointB : JsonMap
  key : JsonMap
  initiator : String
  state : Option StateName
  closed : Option String
  firstSeen : String
  lastSeen : String
  packets : Nat × Nat
  bytes : Nat × Nat
  opaqueBytes : Nat
  rollups : JsonMap
  condensed : Option CondensedInfo

/-- `stream_record`; `seqOf` resolves a stream's id to its display id. -/
def streamRecord (fmt : Formats) (s : Stream) (seqOf : StreamId → Option Nat) : StreamRecord :=
  let sides := endpointJson fmt s
  { id := s.createdSeq
    protocol := s.protocol
    parent := s.parent.bind seqOf
    children := s.children.filterMap seqOf
    endpointA := sides.a
    endpointB := sides.b
    key := sides.key
    initiator := directionJson s.initiator
    state := s.state
    closed := s.closed.map closeReasonJson
    firstSeen := fmt.rfc3339 s.firstSeen
    lastSeen := fmt.rfc3339 s.lastSeen
    packets := (s.stats.aToB.packets, s.stats.bToA.packets)
    bytes := (s.stats.aToB.bytes, s.stats.bToA.bytes)
    opaqueBytes := s.opaqueBytes
    rollups := rollupsJson fmt s
    condensed := s.condensed }

@[simp] theorem streamRecord_id (fmt : Formats) (s : Stream) (seqOf : StreamId → Option Nat) :
    (streamRecord fmt s seqOf).id = s.createdSeq := rfl

@[simp] theorem streamRecord_parent (fmt : Formats) (s : Stream) (seqOf : StreamId → Option Nat) :
    (streamRecord fmt s seqOf).parent = s.parent.bind seqOf := rfl

end Pktflow.View

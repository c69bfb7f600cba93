import Pktflow.Core.Plugin
import Mathlib.Algebra.Ring.Nat

/-!
# Value rendering

Model of the rendering functions of `pktflow-view/src/fmt.rs` the other views use: `value_str` with its
byte shapes, and the protocol-aware `field_value_str`. Time stamps, the registered route names and the
upper-casing of a text are arbitrary functions.
-/

set_option autoImplicit false

namespace Pktflow.View

open Pktflow.Core

/-- `name.ends_with(suffix)`. -/
def endsWith (name suffix : String) : Bool := suffix.toList <:+ name.toList

/-- `parts.join(sep)`. -/
def join (sep : String) : List String → String
  | [] => ""
  | [part] => part
  | part :: rest => part ++ sep ++ join sep rest

/-- `format!("{n:0width$x}")`. -/
def hexStr (width n : Nat) : String :=
  let digits := Nat.toDigits 16 n
  String.ofList (List.replicate (width - digits.length) '0' ++ digits)

/-! ## Shapes -/

/-- The eight groups of an IPv6 address. -/
def ipv6Groups (b : List UInt8) : List Nat :=
  (List.range 8).map fun i => (b.getD (2 * i) 0).toNat * 256 + (b.getD (2 * i + 1) 0).toNat

/-- The runs of zero groups, as start and length, from left to right. -/
def zeroRuns : List Nat → Nat → List (Nat × Nat)
  | [], _ => []
  | g :: rest, i =>
      match g, zeroRuns rest (i + 1) with
      | 0, (start, len) :: runs =>
          -- a run that starts behind this group is taken over
          if start = i + 1 then (i, len + 1) :: runs else (i, 1) :: (start, len) :: runs
      | 0, [] => [(i, 1)]
      | _, runs => runs

/-- The longest run of at least two zero groups, the leftmost of equals. -/
def bestRun (runs : List (Nat × Nat)) : Option (Nat × Nat) :=
  runs.foldl (fun best run =>
    if 2 ≤ run.2 then
      match best with
      | none => some run
      | some b => if b.2 < run.2 then some run else some b
    else best) none

/-- `ipv6_compressed_str`: the RFC 5952 text form. -/
def ipv6CompressedStr (b : List UInt8) : String :=
  let groups := ipv6Groups b
  -- IPv4-mapped addresses end in a dotted quad
  if groups.take 5 = [0, 0, 0, 0, 0] ∧ groups.getD 5 0 = 0xffff then
    "::ffff:" ++ join "." ((b.drop 12).map fun x => toString x.toNat)
  else
    match bestRun (zeroRuns groups 0) with
    | some (start, len) =>
        join ":" ((groups.take start).map (hexStr 1)) ++ "::" ++
          join ":" ((groups.drop (start + len)).map (hexStr 1))
    | none => join ":" (groups.map (hexStr 1))

/-- `bytes_str`. -/
def bytesStr (name : FieldName) (b : List UInt8) : String :=
  let macLike := endsWith name "_mac" || b.length == 6
  let addrLike := endsWith name "_addr" || endsWith name "_ip"
  if b.length = 4 ∧ addrLike then join "." (b.map fun x => toString x.toNat)
  else if b.length = 16 ∧ addrLike then ipv6CompressedStr b
  else if b.length = 6 ∧ macLike then join ":" (b.map fun x => hexStr 2 x.toNat)
  else
    let hex := String.join ((b.take 32).map fun x => hexStr 2 x.toNat)
    if 32 < b.length then hex ++ "…" else hex

mutual

/-- `value_str`: rendering by shape and field name. -/
def valueStr (name : FieldName) : Value → String
  | .bytes b => bytesStr name b
  | .u64 n => toString n.toNat
  | .i64 n => toString n.toInt
  | .bool b => if b then "true" else "false"
  | .str s => s
  | .list vs => join "," (valueStrs name vs)

/-- `value_str` of every element. -/
def valueStrs (name : FieldName) : List Value → List String
  | [] => []
  | v :: vs => valueStr name v :: valueStrs name vs

end

/-! ## Protocol-aware rendering -/

/-- The functions from outside: RFC 3339 time stamps, the registered route resolver, and
`str::to_uppercase`. -/
structure Formats where
  rfc3339 : SystemTime → String
  resolveRouteName : RouteId → Option String
  toUppercase : String → String

/-- `get_u64`. -/
def getU64 : Value → Option Nat
  | .u64 n => some n.toNat
  | .i64 n => if 0 ≤ n.toInt then some n.toInt.toNat else none
  | _ => none

/-- `format_protocol_display_name`. -/
def formatProtocolDisplayName (fmt : Formats) (name : String) : String :=
  match name with
  | "ipv4" => "IPv4"
  | "ipv6" => "IPv6"
  | "icmpv4" => "ICMPv4"
  | "icmpv6" => "ICMPv6"
  | "dhcpv6" => "DHCPv6"
  | "bacnet_ip" => "BACnet/IP"
  | "pvst_plus" => "PVST+"
  | "netflow9" => "NetFlow 9"
  | other => fmt.toUppercase other

/-- `resolve_field_route_id`: the first rule of the table that applies to the field and fits the value. -/
def resolveFieldRouteId (protocol name : String) (val : Nat) : Option RouteId :=
  let isPort := name == "src_port" || name == "dst_port" || name == "port"
  if (name == "ethertype" || (protocol == "gre" && name == "protocol") ||
      (protocol == "llc" && name == "pid")) && val < 2 ^ 16 then
    some (.etherType (UInt16.ofNat val))
  else if (name == "next_header" || (protocol == "ipv4" && name == "protocol")) && val < 2 ^ 8 then
    some (.ipProtocol (UInt8.ofNat val))
  else if protocol == "udp" && isPort && val < 2 ^ 16 then some (.udpPort (UInt16.ofNat val))
  else if protocol == "tcp" && isPort && val < 2 ^ 16 then some (.tcpPort (UInt16.ofNat val))
  else if protocol == "llc" && (name == "dsap" || name == "ssap") then
    some (.custom "llc_dsap" (UInt64.ofNat val))
  else if protocol == "icmpv6" && name == "type" then some (.custom "icmpv6_type" (UInt64.ofNat val))
  else none

/-- `format_unresolved_value`. -/
def formatUnresolvedValue : RouteId → String
  | .etherType val => "0x" ++ hexStr 4 val.toNat
  | .custom space id =>
      if space = "snap_pid" then "0x" ++ hexStr 4 id.toNat
      else if space = "llc_dsap" then "0x" ++ hexStr 2 id.toNat
      else toString id.toNat
  | .ipProtocol val => toString val.toNat
  | .udpPort val | .tcpPort val | .linkType val => toString val.toNat

/-- `format_resolved_value`. -/
def formatResolvedValue (fmt : Formats) (route : RouteId) (name : String) : String :=
  formatProtocolDisplayName fmt name ++ " (" ++ formatUnresolvedValue route ++ ")"

/-- `tcp_flags_str`: symbolic TCP flags. -/
def tcpFlagsStr (bits : Nat) : String :=
  let names : List (Nat × String) := [(0x02, "SYN"), (0x01, "FIN"), (0x04, "RST"), (0x08, "PSH"),
    (0x20, "URG"), (0x40, "ECE"), (0x80, "CWR"), (0x10, "ACK")]
  let parts := (names.filter fun n => bits &&& n.1 ≠ 0).map Prod.snd
  if parts = [] then "none" else join "+" parts

/-- `field_value_str`: the `(protocol, field)` table, then the shape. -/
def fieldValueStr (fmt : Formats) (protocol : ProtocolName) (name : FieldName) (value : Value) : String :=
  match protocol, name, value with
  | "tcp", "flags", .u64 bits => tcpFlagsStr bits.toNat
  | _, _, _ =>
      match (getU64 value).bind (resolveFieldRouteId protocol name) with
      | some route =>
          match fmt.resolveRouteName route with
          | some resolved => formatResolvedValue fmt route resolved
          | none => formatUnresolvedValue route
      | none => valueStr name value

end Pktflow.View

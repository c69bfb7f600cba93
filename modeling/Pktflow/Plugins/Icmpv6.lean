import Pktflow.Core.Depths
import Pktflow.Plugins.FiveTuple

/-!
# ICMPv6 and Neighbor Discovery

Model of `pktflow-plugins/src/{icmpv6,ndp}.rs` and of the lookups of `ParseCtx` they use. `ndp` reads the
message type back from the fields of `icmpv6`, which are there from `Structural` on; without it, it takes
the rest of the message for one header. So its header ends elsewhere at a lesser depth.
-/

set_option autoImplicit false

namespace Pktflow.Plugins

open Pktflow.Core Pktflow.Core.ByteReader Pktflow.Flows

/-! ## ICMPv6 -/

/-- `ICMPV6_TYPE_SPACE`. -/
def icmpv6TypeSpace : String := "icmpv6_type"

def mldQuery : UInt8 := 130
def mldV1Report : UInt8 := 131
def mldDone : UInt8 := 132
def mldV2Report : UInt8 := 143
def routerSolicitation : UInt8 := 133
def routerAdvertisement : UInt8 := 134
def neighborSolicitation : UInt8 := 135
def neighborAdvertisement : UInt8 := 136
def redirect : UInt8 := 137

/-- The types that are protocols of their own. -/
def routedTypes : List UInt8 :=
  [routerSolicitation, routerAdvertisement, neighborSolicitation, neighborAdvertisement, redirect, mldQuery,
    mldV1Report, mldDone, mldV2Report]

/-- `Icmpv6::parse`. -/
def parseIcmpv6 (ctx : ParseCtx) : ByteReader ParsedLayer := do
  let icmpType ← u8
  let code ← u8
  let _checksum ← u16Be
  let rest ← take 4
  let fields := insertAt ctx .structural
    [("type", .u64 icmpType.toUInt64), ("code", .u64 code.toUInt64), ("rest_of_header", .bytes rest)] FieldMap.new
  -- errors and echoes, and whatever is not listed, end here
  let hint := if icmpType ∈ routedTypes then Hint.route (.custom icmpv6TypeSpace icmpType.toUInt64) else .terminal
  return ⟨8, fields, hint⟩

/-- `Icmpv6`. -/
def icmpv6 : LayerPlugin where
  name := "icmpv6"
  parse := fun bytes ctx => (parseIcmpv6 ctx).parse bytes
  claims := [.ipProtocol 58]

/-! ## Neighbor Discovery -/

/-- `icmpv6_rest`. -/
def icmpv6Rest (ctx : ParseCtx) : Option (List UInt8) :=
  match ctx.field "icmpv6" "rest_of_header" with
  | some (.bytes b) => if b.length = 4 then some b else none
  | _ => none

/-- `icmpv6_msg_type`. -/
def icmpv6MsgType (ctx : ParseCtx) : Option UInt8 :=
  match ctx.field "icmpv6" "type" with
  | some (.u64 t) => if t < 256 then some t.toUInt8 else none
  | _ => none

/-- The options that are extracted, the first of each type. -/
structure NdpOptions where
  sourceLinkAddr : Option (List UInt8) := none
  targetLinkAddr : Option (List UInt8) := none
  prefixInfo : Option (List UInt8) := none

/-- One option. -/
def NdpOptions.record (o : NdpOptions) (optType : UInt8) (value : List UInt8) : NdpOptions :=
  if optType = 1 ∧ o.sourceLinkAddr.isNone then { o with sourceLinkAddr := some value }
  else if optType = 2 ∧ o.targetLinkAddr.isNone then { o with targetLinkAddr := some value }
  else if optType = 3 ∧ o.prefixInfo.isNone then { o with prefixInfo := some value }
  else o

/-- The loop over the options of a message of `len` bytes: where the last of them ends, and what they
hold. An option takes at least eight bytes, so that `len` is fuel enough. -/
def walkOptions (len : Nat) : Nat → Nat → NdpOptions → ByteReader (Nat × NdpOptions)
  | 0, headerLen, o => return (headerLen, o)
  | fuel + 1, headerLen, o => do
      let before := (← get).length
      if before < 2 then return (headerLen, o)
      else
        let optType ← u8
        let optLen ← u8
        -- padding of the frame
        if optType = 0 ∧ optLen = 0 then return (len - before, o)
        else
          if optLen = 0 then throw (.malformed "NDP: option length is zero (RFC 4861 §4.6)")
          let value ← take (optLen.toNat * 8 - 2)
          let after := (← get).length
          walkOptions len fuel (len - after) (o.record optType value)

/-- One turn of the loop, after the type and the length of the option. -/
theorem walkOptions_start (len fuel headerLen : Nat) (o : NdpOptions) (optType optLen : UInt8)
    (rest : List UInt8) :
    walkOptions len (fuel + 1) headerLen o (optType :: optLen :: rest) =
      (if optType = 0 ∧ optLen = 0 then pure (len - (rest.length + 2), o)
        else do
          if optLen = 0 then throw (ParseError.malformed "NDP: option length is zero (RFC 4861 §4.6)")
          let value ← take (optLen.toNat * 8 - 2)
          let after := (← get).length
          walkOptions len fuel (len - after) (o.record optType value)) rest := by
  have hlong : ¬ (optType :: optLen :: rest).length < 2 := by
    simp only [List.length_cons]
    omega
  rw [walkOptions, bind_of_ok (x := get) rfl, if_neg hlong, bind_of_ok (u8_cons _ _), bind_of_ok (u8_cons _ _)]
  rfl

/-- More fuel than bytes changes nothing. -/
theorem walkOptions_fuel (len : Nat) {fuel more headerLen : Nat} {o : NdpOptions} {buf : List UInt8}
    (hfuel : buf.length ≤ fuel) :
    walkOptions len (fuel + more) headerLen o buf = walkOptions len fuel headerLen o buf := by
  induction fuel generalizing headerLen o buf with
  | zero =>
      obtain rfl := List.eq_nil_of_length_eq_zero (Nat.le_zero.1 hfuel)
      cases more with
      | zero => rfl
      | succ more => rfl
  | succ fuel ih =>
      rw [Nat.succ_add]
      match buf, hfuel with
      | [], _ => rfl
      | [b], _ => rfl
      | optType :: optLen :: rest, hfuel =>
          by_cases hpad : optType = 0 ∧ optLen = 0
          · obtain ⟨rfl, rfl⟩ := hpad
            rfl
          · by_cases hlen : optLen = 0
            · subst hlen
              rw [walkOptions_start, walkOptions_start, if_neg hpad, if_neg hpad, if_pos rfl, if_pos rfl]
              rfl
            · rw [walkOptions_start, walkOptions_start, if_neg hpad, if_neg hpad, if_neg hlen, if_neg hlen]
              dsimp only
              cases htake : take (optLen.toNat * 8 - 2) rest with
              | error err => rw [bind_of_error htake, bind_of_error htake]
              | ok p =>
                  obtain ⟨value, mid⟩ := p
                  obtain ⟨hrest, -⟩ := take_eq_ok.1 htake
                  rw [bind_of_ok htake, bind_of_ok htake]
                  apply ih
                  have hsum := congrArg List.length hrest
                  simp only [List.length_append, List.length_cons] at hsum hfuel
                  omega

/-- A field that may be absent. -/
def optionalField (name : FieldName) (v : Option Value) : List (FieldName × Value) := v.toList.map (name, ·)

/-- `Ndp::parse`, once the message type is known. -/
def parseNdp (len : Nat) (ctx : ParseCtx) (msgType : UInt8) : ByteReader ParsedLayer := do
  let targetAddress ←
    if msgType ∈ [neighborSolicitation, neighborAdvertisement, redirect] then some <$> take 16 else pure none
  if msgType = redirect then let _ ← take 16
  let raTimers ←
    if msgType = routerAdvertisement then (do
      let reachable ← u32Be
      let retrans ← u32Be
      return some (reachable, retrans))
    else pure none
  let left := (← get).length
  let (headerLen, options) ← walkOptions len len (len - left) {}
  let rest := icmpv6Rest ctx
  let flags :=
    if msgType = routerAdvertisement then rest.map fun w => w.getD 1 0
    else if msgType = neighborAdvertisement then rest.map fun w => w.getD 0 0
    else none
  let routerLifetime :=
    if msgType = routerAdvertisement then rest.map fun w => UInt64.ofNat (fromBeBytes (w.drop 2)) else none
  let fields := insertAt ctx .full
    (optionalField "source_link_addr" (options.sourceLinkAddr.map .bytes) ++
      optionalField "target_link_addr" (options.targetLinkAddr.map .bytes) ++
      optionalField "prefix_info" (options.prefixInfo.map .bytes) ++
      optionalField "router_lifetime" (routerLifetime.map .u64) ++
      optionalField "reachable_time" (raTimers.map fun t => .u64 t.1.toUInt64) ++
      optionalField "retrans_timer" (raTimers.map fun t => .u64 t.2.toUInt64))
    (insertAt ctx .structural
      ([("msg_type", .u64 msgType.toUInt64)] ++ optionalField "flags" (flags.map fun b => .u64 b.toUInt64) ++
        optionalField "target_address" (targetAddress.map .bytes)) FieldMap.new)
  return ⟨headerLen, fields, .terminal⟩

/-- `Ndp`. -/
def ndp : LayerPlugin where
  name := "ndp"
  parse := fun bytes ctx =>
    match icmpv6MsgType ctx with
    -- the layouts cannot be told apart: the rest of the message is one header
    | none => .ok ⟨bytes.length, FieldMap.new, .terminal⟩
    | some msgType => (parseNdp bytes.length ctx msgType).parse bytes
  claims := [routerSolicitation, routerAdvertisement, neighborSolicitation, neighborAdvertisement, redirect].map
    fun t => .custom icmpv6TypeSpace t.toUInt64

/-! ## At two depths -/

end Pktflow.Plugins

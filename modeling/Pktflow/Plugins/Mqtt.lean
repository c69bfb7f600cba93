import Pktflow.Core.Looping
import Pktflow.Lib.Utf8Decode
import Pktflow.Plugins.ExtHeaders
import Pktflow.Plugins.FiveTuple
import Pktflow.Plugins.Names

/-!
# MQTT

Model of `mqtt.rs`. A control packet is a byte of type and flags, the length of what remains as a variable byte
integer, and a body of that length. The integer is read in `u32` without overflow (`variableByteInt_eq`), the
header is the whole packet whatever its body holds, and the bodies that are decoded give back what was encoded
(`mqtt_codec`).
-/

set_option autoImplicit false

namespace Pktflow.Plugins

open Pktflow.Core Pktflow.Core.ByteReader Pktflow.Flows Pktflow.Lib

/-! ## The plugin -/

/-- A sum in `u32`; one that leaves it panics. -/
def checkedAddU32 (a b : UInt32) : Except Abort UInt32 :=
  if a.toNat + b.toNat < 2 ^ 32 then .ok (a + b) else .error .panic

/-- A product in `u32`; one that leaves it panics. -/
def checkedMulU32 (a b : UInt32) : Except Abort UInt32 :=
  if a.toNat * b.toNat < 2 ^ 32 then .ok (a * b) else .error .panic

/-- The turns of `variable_byte_int` that are left, with the bytes behind the integer. -/
def variableByteTurns : Nat → UInt32 → UInt32 → List UInt8 → Except Abort (Nat × List UInt8)
  | 0, _, _, _ => malformed "variable byte integer exceeds 4 bytes"
  | k + 1, value, multiplier, buf => do
      let (byte, rest) ← (u8 buf).mapError Abort.declined
      let digit ← checkedMulU32 (byte &&& 0x7F).toUInt32 multiplier
      let value ← checkedAddU32 value digit
      if byte &&& 0x80 = 0 then return (value.toNat, rest)
      else
        let multiplier ← checkedMulU32 multiplier 128
        variableByteTurns k value multiplier rest

/-- `variable_byte_int`, which does not panic (`variableByteTurns_eq`). -/
def variableByteInt : ByteReader Nat := fun buf =>
  match variableByteTurns 4 0 1 buf with
  | .ok read => .ok read
  | .error (.declined e) => .error e
  | .error _ => .error (.malformed "")

/-- `utf8_string`. -/
def utf8String : ByteReader Text := do
  let len ← u16Be
  let bytes ← take len.toNat
  match Text.fromUtf8 bytes with
  | some s => return s
  | none => throw (.malformed "invalid UTF-8 encoded string")

/-- `connect_fields`. -/
def connectFields : ByteReader (Text × UInt16) := do
  let _protocolName ← utf8String
  let protocolVersion ← u8
  let _connectFlags ← u8
  let keepAlive ← u16Be
  if protocolVersion = 5 then
    let propertyLen ← variableByteInt
    let _properties ← take propertyLen
    let clientId ← utf8String
    return (clientId, keepAlive)
  else
    let clientId ← utf8String
    return (clientId, keepAlive)

/-- `publish_topic`. -/
def publishTopic : ByteReader Text := utf8String

/-- `MAX_TOPICS`. -/
def maxTopics : Nat := 128

/-- One turn of the walk of `subscribe_topics`. -/
def topicTurn (topics : List Text) : ByteReader (List Text ⊕ List Text) := do
  let left ← remaining
  if 0 < left ∧ topics.length < maxTopics then
    let topicFilter ← utf8String
    let _subscriptionOptions ← u8
    return .inl (topics ++ [topicFilter])
  else return .inr topics

/-- `subscribe_topics`. -/
def subscribeTopics : ByteReader (List Text) := do
  let _packetIdentifier ← u16Be
  loop topicTurn []

/-- The text of a field. -/
def textValue (t : Text) : Value := .str (String.ofList t)

/-- The fields of the body, by the type of the packet. -/
def bodyFields (messageType flags : UInt8) (qos : UInt64) (body : List UInt8) : List (FieldName × Value) :=
  if messageType = 1 then
    match connectFields.parse body with
    | .ok (clientId, keepAlive) => [("client_id", textValue clientId), ("keep_alive", .u64 keepAlive.toUInt64)]
    | .error _ => []
  else if messageType = 3 then
    ((publishTopic.parse body).toOption.map textValue).toList.map (fun v => ("topic", v)) ++
      [("qos", .u64 qos), ("retain", .bool (flags &&& 0x01 ≠ 0))]
  else if messageType = 8 then
    match subscribeTopics.parse body with
    | .ok topics => [("topics", .list (topics.map textValue))]
    | .error _ => []
  else []

/-- The bytes of a control packet: its type, its flags, the length of its body and the body. -/
def controlPacket : ByteReader (UInt8 × UInt8 × Nat × List UInt8) := do
  let first ← u8
  let messageType := first >>> 4
  if messageType = 0 then throw (.malformed "reserved MQTT control packet type")
  let flags := first &&& 0x0F
  let remainingLength ← variableByteInt
  let body ← take remainingLength
  if messageType = 3 ∧ (flags &&& 0x06) >>> 1 = 3 then throw (.malformed "PUBLISH QoS value 3 is reserved")
  return (messageType, flags, remainingLength, body)

/-- `Mqtt::parse`. -/
def parseMqtt (ctx : ParseCtx) : ByteReader ParsedLayer := do
  let ((messageType, flags, remainingLength, body), headerLen) ← measured controlPacket
  let qos := ((flags &&& 0x06) >>> 1).toUInt64
  let fields := insertAt ctx .full (bodyFields messageType flags qos body)
    (insertAt ctx .structural
      [("message_type", .u64 messageType.toUInt64), ("remaining_length", .u64 (UInt64.ofNat remainingLength))]
      (insertAt ctx .keys [("app", .str "mqtt")] FieldMap.new))
  return ⟨headerLen, fields, .terminal⟩

/-- `Mqtt`. -/
def mqtt : LayerPlugin where
  name := "mqtt"
  parse := fun bytes ctx => (parseMqtt ctx).parse bytes
  claims := [.tcpPort 1883]
  streamIdentity := some
    { key := [⟨"app", none⟩], canonicalize := .endpointSort, lifecycle := none,
      rollups := [⟨"message_type", .accumulate⟩, ⟨"topic", .accumulate⟩] }

/-! ## Packets -/

/-- A number in base 128, the lowest digit first, each digit but the last with its high bit set. -/
def variableBytes (n : Nat) : List UInt8 :=
  if n < 128 then [UInt8.ofNat n] else UInt8.ofNat (n % 128 + 128) :: variableBytes (n / 128)
termination_by n

/-- A text behind its length. -/
def stringBytes (t : Text) : List UInt8 := beBytes 2 (Text.size t) ++ Text.encode t

/-- A control packet with any body that its length can count. -/
structure ControlPacket where
  messageType : UInt8
  flags : UInt8
  body : List UInt8
  type_pos : 1 ≤ messageType.toNat
  type_lt : messageType.toNat < 16
  flags_lt : flags.toNat < 16
  qos_valid : messageType = 3 → (flags &&& 0x06) >>> 1 ≠ 3
  fits : body.length < 2 ^ 28

/-- The packet as it is sent. -/
def ControlPacket.bytes (p : ControlPacket) : List UInt8 :=
  UInt8.ofNat (16 * p.messageType.toNat + p.flags.toNat) :: (variableBytes p.body.length ++ p.body)

/-- The body of a CONNECT of any version; version 5 has properties, and behind the client identifier may come
more. -/
structure Connect where
  protocolName : Text
  version : UInt8
  flags : UInt8
  keepAlive : UInt16
  properties : List UInt8
  clientId : Text
  more : List UInt8
  protocolName_fits : Text.size protocolName < 65536
  properties_fit : properties.length < 2 ^ 28
  clientId_fits : Text.size clientId < 65536

/-- The properties as they are sent. -/
def Connect.propertyBytes (c : Connect) : List UInt8 :=
  if c.version = 5 then variableBytes c.properties.length ++ c.properties else []

/-- The body as it is sent. -/
def Connect.bytes (c : Connect) : List UInt8 :=
  stringBytes c.protocolName ++ (c.version :: c.flags :: (beBytes 2 c.keepAlive.toNat ++
    (c.propertyBytes ++ (stringBytes c.clientId ++ c.more))))

/-- A topic filter and its options. -/
structure Subscription where
  topicFilter : Text
  options : UInt8
  fits : Text.size topicFilter < 65536

/-- The subscription as it is sent. -/
def Subscription.bytes (s : Subscription) : List UInt8 := stringBytes s.topicFilter ++ [s.options]

/-- The fields that the body of a packet of this type encodes. -/
inductive Encodes : UInt8 → List UInt8 → List (FieldName × Value) → Prop where
  | connect (c : Connect) :
      Encodes 1 c.bytes [("client_id", textValue c.clientId), ("keep_alive", .u64 c.keepAlive.toUInt64)]
  | publish (topic : Text) (more : List UInt8) (hfits : Text.size topic < 65536) :
      Encodes 3 (stringBytes topic ++ more) [("topic", textValue topic)]
  | subscribe (packetIdentifier : UInt16) (subscriptions : List Subscription) (hlen : subscriptions.length ≤ 128) :
      Encodes 8 (beBytes 2 packetIdentifier.toNat ++ subscriptions.flatMap Subscription.bytes)
        [("topics", .list (subscriptions.map fun s => textValue s.topicFilter))]

section Packets

variable {n : Nat} {buf rest : List UInt8} {ctx : ParseCtx}

/-! ### Variable byte integers -/

/-- The turns over unbounded numbers. -/
def digitTurns : Nat → Nat → Nat → ByteReader Nat
  | 0, _, _ => throw (.malformed "variable byte integer exceeds 4 bytes")
  | k + 1, value, multiplier => do
      let byte ← u8
      if byte.toNat < 128 then return value + byte.toNat % 128 * multiplier
      else digitTurns k (value + byte.toNat % 128 * multiplier) (128 * multiplier)

theorem checkedAddU32_eq {a b : UInt32} (h : a.toNat + b.toNat < 2 ^ 32) : checkedAddU32 a b = pure (a + b) := if_pos h

theorem checkedMulU32_eq {a b : UInt32} (h : a.toNat * b.toNat < 2 ^ 32) : checkedMulU32 a b = pure (a * b) := if_pos h

/-- While the value is below the multiplier, and the multiplier leaves room for the turns to come, no operation
overflows. -/
theorem variableByteTurns_eq (k : Nat) {value multiplier : UInt32} (hlt : value.toNat < multiplier.toNat)
    (hroom : multiplier.toNat * 128 ^ k ≤ 2 ^ 28) (buf : List UInt8) :
    variableByteTurns k value multiplier buf =
      (digitTurns k value.toNat multiplier.toNat buf).mapError Abort.declined := by
  -- On `k`, the turns left: `value` stays below the multiplier, and the multiplier has room for `k` more.
  induction k generalizing value multiplier buf with
  | zero => rfl
  | succ k ih =>
      have hpow : 1 ≤ 128 ^ k := Nat.one_le_two_pow.trans (Nat.pow_le_pow_left (by decide) k)
      rw [pow_succ, ← Nat.mul_assoc, Nat.mul_right_comm] at hroom
      have hmul : multiplier.toNat * 128 ≤ 2 ^ 28 := (Nat.le_mul_of_pos_right _ hpow).trans hroom
      cases buf with
      | nil => rfl
      | cons byte buf =>
          rw [variableByteTurns, digitTurns, bind_of_ok (u8_cons byte buf), u8_cons]
          have hdigit : ((byte &&& 0x7F).toUInt32).toNat = byte.toNat % 128 := toNat_low_bits byte
          have hmod : byte.toNat % 128 ≤ 127 := Nat.le_of_lt_succ (Nat.mod_lt _ (by decide))
          have hprod : byte.toNat % 128 * multiplier.toNat ≤ 127 * multiplier.toNat := Nat.mul_le_mul_right _ hmod
          have htimes : ((byte &&& 0x7F).toUInt32 * multiplier).toNat = byte.toNat % 128 * multiplier.toNat := by
            rw [UInt32.toNat_mul, hdigit, Nat.mod_eq_of_lt (by omega)]
          have hplus : (value + (byte &&& 0x7F).toUInt32 * multiplier).toNat =
              value.toNat + byte.toNat % 128 * multiplier.toNat := by
            rw [UInt32.toNat_add, htimes, Nat.mod_eq_of_lt (by omega)]
          show (do
            let digit ← checkedMulU32 (byte &&& 0x7F).toUInt32 multiplier
            let value ← checkedAddU32 value digit
            if byte &&& 0x80 = 0 then return (value.toNat, buf)
            else
              let multiplier ← checkedMulU32 multiplier 128
              variableByteTurns k value multiplier buf) = _
          rw [checkedMulU32_eq (by rw [hdigit]; omega), pure_bind,
            checkedAddU32_eq (by rw [htimes]; omega), pure_bind]
          by_cases hlast : byte.toNat < 128
          · rw [if_pos (high_bit_eq_zero.2 hlast), if_pos hlast, hplus]
            rfl
          · have hnext : (multiplier * 128).toNat = 128 * multiplier.toNat := by
              rw [UInt32.toNat_mul, show (128 : UInt32).toNat = 128 from rfl, Nat.mod_eq_of_lt (by omega),
                Nat.mul_comm]
            rw [if_neg (mt high_bit_eq_zero.1 hlast), if_neg hlast,
              checkedMulU32_eq (show multiplier.toNat * 128 < 2 ^ 32 by omega), pure_bind,
              ih (by rw [hplus, hnext]; omega) (by rwa [hnext, Nat.mul_comm 128]), hplus, hnext]

/-- The integer is read as over unbounded numbers. -/
theorem variableByteInt_eq : variableByteInt = digitTurns 4 0 1 := by
  funext buf
  rw [variableByteInt, variableByteTurns_eq 4 (by decide) (by decide)]
  show _ = digitTurns 4 (0 : UInt32).toNat (1 : UInt32).toNat buf
  cases digitTurns 4 (0 : UInt32).toNat (1 : UInt32).toNat buf <;> rfl

/-- No operation overflows, whatever the bytes. -/
theorem variableByteTurns_ne_panic (buf : List UInt8) : variableByteTurns 4 0 1 buf ≠ .error .panic := by
  rw [variableByteTurns_eq 4 (by decide) (by decide)]
  cases digitTurns 4 (0 : UInt32).toNat (1 : UInt32).toNat buf with
  | ok read => exact fun h => by cases h
  | error e => exact fun h => by cases h

theorem reads_digitTurns {k : Nat} (hn : n < 128 ^ (k + 1)) (value multiplier : Nat) :
    Reads (digitTurns (k + 1) value multiplier) (variableBytes n) (value + n * multiplier) := by
  -- Seven bits a turn, least significant first: the digits left are those of `n / 128`.
  induction k generalizing n value multiplier with
  | zero =>
      have hbyte : (UInt8.ofNat n).toNat = n := toNat_byte (by omega)
      have hlow : n < 128 := by omega
      rw [variableBytes, if_pos hlow, digitTurns]
      refine (reads_u8 _).bind (.ite_pos (by rwa [hbyte]) ?_)
      rw [hbyte, Nat.mod_eq_of_lt hlow]
      exact reads_pure _
  | succ k ih =>
      rw [variableBytes, digitTurns]
      split
      case isTrue hlow =>
        have hbyte : (UInt8.ofNat n).toNat = n := toNat_byte (by omega)
        refine (reads_u8 _).bind (.ite_pos (by rwa [hbyte]) ?_)
        rw [hbyte, Nat.mod_eq_of_lt hlow]
        exact reads_pure _
      case isFalse hhigh =>
        have hbyte : (UInt8.ofNat (n % 128 + 128)).toNat = n % 128 + 128 := toNat_byte (by omega)
        have hrest : n / 128 < 128 ^ (k + 1) := Nat.div_lt_of_lt_mul (by rwa [← pow_succ'])
        have hsum : value + n % 128 * multiplier + n / 128 * (128 * multiplier) = value + n * multiplier := by
          conv => rhs; rw [← Nat.mod_add_div n 128]
          ring
        refine (reads_u8 _).bind (.ite_neg (by omega) ?_)
        rw [hbyte, Nat.add_mod_right, Nat.mod_mod, ← hsum]
        exact ih hrest _ _

/-- The integer is read back from its encoding. -/
theorem reads_variableByteInt (hn : n < 2 ^ 28) : Reads variableByteInt (variableBytes n) n := by
  have h := reads_digitTurns (k := 3) hn 0 1
  rwa [← variableByteInt_eq, Nat.mul_one, Nat.zero_add] at h

theorem digitTurns_continued {used : List UInt8} (h : ∀ b ∈ used, 128 ≤ b.toNat) (value multiplier : Nat) :
    ∃ e, digitTurns used.length value multiplier (used ++ rest) = .error e := by
  induction used generalizing value multiplier with
  | nil => exact ⟨_, rfl⟩
  | cons b used ih =>
      rw [List.length_cons, digitTurns, List.cons_append, bind_of_ok (u8_cons b _),
        if_neg (Nat.not_lt.2 (h b (List.mem_cons_self ..)))]
      exact ih (fun c hc => h c (List.mem_cons_of_mem b hc)) _ _

/-- Four bytes that all continue the integer are refused. -/
theorem variableByteInt_continued {used : List UInt8} (hlen : used.length = 4) (h : ∀ b ∈ used, 128 ≤ b.toNat) :
    ∃ e, variableByteInt (used ++ rest) = .error e := by
  have herr : ∃ e, digitTurns used.length 0 1 (used ++ rest) = .error e := digitTurns_continued h 0 1
  rwa [hlen, ← variableByteInt_eq] at herr

theorem exact_digitTurns (k value multiplier : Nat) : Exact (digitTurns k value multiplier) := by
  induction k generalizing value multiplier with
  | zero => exact exact_throw _
  | succ k ih =>
      rw [digitTurns]
      exact exact_u8.bind fun _ => .ite (fun _ => exact_pure _) fun _ => ih _ _

theorem exact_variableByteInt : Exact variableByteInt := by
  rw [variableByteInt_eq]
  exact exact_digitTurns 4 0 1

/-! ### Strings -/

theorem exact_utf8String : Exact utf8String := by
  refine exact_u16Be.bind fun _ => (exact_take _).bind fun _ => ?_
  split
  · exact exact_pure _
  · exact exact_throw _

theorem reads_utf8String {t : Text} (h : Text.size t < 65536) : Reads utf8String (stringBytes t) t := by
  apply (reads_u16Be _).bind
  rw [UInt16.toNat_ofNat_of_lt' h, ← List.append_nil (Text.encode t)]
  apply (reads_take (Text.encode t)).bind
  rw [Text.fromUtf8_encode]
  exact reads_pure t

/-! ### Bodies -/

theorem reads_connectFields (c : Connect) :
    connectFields.parse c.bytes = .ok (c.clientId, c.keepAlive) := by
  have hclient : Reads (utf8String >>= fun clientId => pure (clientId, c.keepAlive)) (stringBytes c.clientId)
      (c.clientId, c.keepAlive) := reads_map (reads_utf8String c.clientId_fits) _
  refine parse_eq_ok.2 ⟨c.more, ?_⟩
  rw [connectFields, Connect.bytes, bind_of_ok (reads_utf8String c.protocolName_fits _), bind_of_ok (u8_cons _ _),
    bind_of_ok (u8_cons _ _), bind_of_ok (reads_u16Be_toNat c.keepAlive _), Connect.propertyBytes]
  split
  · rw [List.append_assoc, bind_of_ok (reads_variableByteInt c.properties_fit _), bind_of_ok (reads_take _ _)]
    exact hclient c.more
  · exact hclient c.more

theorem progresses_topicTurn : Progresses topicTurn := by
  intro topics buf topics' rest h
  obtain ⟨left, mid, hleft, hturn⟩ := bind_eq_ok.1 h
  obtain ⟨-, rfl⟩ := Prod.mk.inj (Except.ok.inj hleft)
  split at hturn
  · obtain ⟨topic, mid', htopic, hmore⟩ := bind_eq_ok.1 hturn
    have hle := exact_utf8String.length_le htopic
    have hlt := takes_u8.bind_lt Nat.zero_lt_one (fun _ => exact_pure _) hmore
    omega
  · cases hturn

/-- Each subscription adds its topic filter, up to the last. -/
theorem loop_topicTurn (subscriptions : List Subscription) {topics : List Text}
    (hlen : topics.length + subscriptions.length ≤ maxTopics) :
    loop topicTurn topics (subscriptions.flatMap Subscription.bytes) =
      .ok (topics ++ subscriptions.map Subscription.topicFilter, []) := by
  -- On the subscriptions left; the bound on their number keeps the cap from ending the loop early.
  induction subscriptions generalizing topics with
  | nil =>
      rw [List.map_nil, List.append_nil]
      exact loop_of_inr rfl
  | cons s subscriptions ih =>
      rw [List.length_cons] at hlen
      have hturn : topicTurn topics ((s :: subscriptions).flatMap Subscription.bytes) =
          .ok (.inl (topics ++ [s.topicFilter]), subscriptions.flatMap Subscription.bytes) := by
        rw [List.flatMap_cons, Subscription.bytes, List.append_assoc, topicTurn]
        have hmore : 0 < (stringBytes s.topicFilter ++ ([s.options] ++ subscriptions.flatMap Subscription.bytes)).length ∧
            topics.length < maxTopics := by
          simp only [List.length_append, List.length_singleton]
          omega
        apply (bind_of_ok rfl).trans
        rw [if_pos hmore, bind_of_ok (reads_utf8String s.fits _), List.singleton_append, bind_of_ok (u8_cons _ _)]
        rfl
      rw [loop_of_inl progresses_topicTurn hturn, ih (by rw [List.length_append]; simpa using by omega)]
      simp

theorem reads_subscribeTopics (packetIdentifier : UInt16) {subscriptions : List Subscription}
    (hlen : subscriptions.length ≤ 128) :
    subscribeTopics.parse (beBytes 2 packetIdentifier.toNat ++ subscriptions.flatMap Subscription.bytes) =
      .ok (subscriptions.map Subscription.topicFilter) := by
  refine parse_eq_ok.2 ⟨[], ?_⟩
  rw [subscribeTopics, bind_of_ok (reads_u16Be _ _), loop_topicTurn subscriptions (by simpa [maxTopics] using hlen)]
  rfl

/-! ### The packet -/

theorem exact_controlPacket : Exact controlPacket :=
  exact_u8.bind fun _ => .guard <| exact_variableByteInt.bind fun _ => (exact_take _).bind fun _ =>
    .guard (exact_pure _)

theorem exact_parseMqtt : Exact (parseMqtt ctx) := (exact_measured exact_controlPacket).bind fun _ => exact_pure _

theorem reads_controlPacket (p : ControlPacket) :
    Reads controlPacket p.bytes (p.messageType, p.flags, p.body.length, p.body) := by
  have hpos := p.type_pos
  have htype := p.type_lt
  have hflags := p.flags_lt
  have hfirst : (UInt8.ofNat (16 * p.messageType.toNat + p.flags.toNat)).toNat =
      16 * p.messageType.toNat + p.flags.toNat := toNat_byte (by omega)
  -- The first octet is split back into the type, its high half, and the flags, its low half.
  have hhigh : UInt8.ofNat (16 * p.messageType.toNat + p.flags.toNat) >>> 4 = p.messageType := by
    apply UInt8.toNat_inj.1
    rw [UInt8.toNat_shiftRight, hfirst, show (4 : UInt8).toNat % 8 = 4 from rfl, Nat.shiftRight_eq_div_pow]
    omega
  have hlow : UInt8.ofNat (16 * p.messageType.toNat + p.flags.toNat) &&& 0x0F = p.flags := by
    apply UInt8.toNat_inj.1
    rw [UInt8.toNat_and, hfirst, show (0x0F : UInt8).toNat = 2 ^ 4 - 1 from rfl, Nat.and_two_pow_sub_one_eq_mod]
    omega
  have hne : ¬p.messageType = 0 := by
    intro hzero
    rw [hzero] at hpos
    exact absurd hpos (by decide)
  intro more
  rw [controlPacket, ControlPacket.bytes, List.cons_append, List.append_assoc, bind_of_ok (u8_cons _ _)]
  dsimp only
  rw [hhigh, hlow, if_neg hne, bind_of_ok (reads_variableByteInt p.fits _), bind_of_ok (reads_take _ _),
    if_neg fun h => p.qos_valid h.1 h.2]
  rfl

/-- The fields of a packet. -/
def packetFields (ctx : ParseCtx) (p : ControlPacket) : FieldMap :=
  insertAt ctx .full (bodyFields p.messageType p.flags ((p.flags &&& 0x06) >>> 1).toUInt64 p.body)
    (insertAt ctx .structural
      [("message_type", .u64 p.messageType.toUInt64), ("remaining_length", .u64 (UInt64.ofNat p.body.length))]
      (insertAt ctx .keys [("app", .str "mqtt")] FieldMap.new))

theorem reads_parseMqtt (p : ControlPacket) :
    Reads (parseMqtt ctx) p.bytes ⟨p.bytes.length, packetFields ctx p, .terminal⟩ :=
  reads_map (reads_controlPacket p).measured _

theorem nodup_bodyFields (messageType flags : UInt8) (qos : UInt64) (body : List UInt8) :
    ((bodyFields messageType flags qos body).map Prod.fst).Nodup := by
  rw [bodyFields]
  split
  · split <;> simp
  · split
    · cases publishTopic.parse body <;> simp [Except.toOption]
    · split
      · split <;> simp
      · simp

/-- What the body encodes is among its fields. -/
theorem Encodes.mem_bodyFields {messageType : UInt8} {body : List UInt8} {fields : List (FieldName × Value)}
    (h : Encodes messageType body fields) (flags : UInt8) (qos : UInt64) {e : FieldName × Value} (he : e ∈ fields) :
    e ∈ bodyFields messageType flags qos body := by
  cases h with
  | connect c =>
      rw [bodyFields, if_pos rfl, reads_connectFields]
      exact he
  | publish topic more hfits =>
      have hread : publishTopic.parse (stringBytes topic ++ more) = .ok topic := (reads_utf8String hfits).parse more
      rw [bodyFields, if_neg (by decide), if_pos rfl, hread]
      exact List.mem_append_left _ he
  | subscribe packetIdentifier subscriptions hlen =>
      rw [bodyFields, if_neg (by decide), if_neg (by decide), if_pos rfl, reads_subscribeTopics packetIdentifier hlen]
      dsimp only
      rw [List.map_map]
      exact he

/-- The codec of MQTT: the integer is read back from its encoding, never overflows and is at most four bytes long;
the header is the whole packet at every depth, and no part of it is enough; the fields are what the body encodes. -/
theorem mqtt_codec :
    (∀ n, n < 2 ^ 28 → Reads variableByteInt (variableBytes n) n) ∧
    (∀ buf, variableByteTurns 4 0 1 buf ≠ .error .panic) ∧
    (∀ used rest : List UInt8, used.length = 4 → (∀ b ∈ used, 128 ≤ b.toNat) →
      ∃ e, variableByteInt (used ++ rest) = .error e) ∧
    (∀ (p : ControlPacket) (ctx : ParseCtx) (more : List UInt8),
      ∃ layer, mqtt.parse (p.bytes ++ more) ctx = .ok layer ∧ layer.headerLen = p.bytes.length ∧
        ∀ fields, atDepth ctx .full = true → Encodes p.messageType p.body fields →
          ∀ e ∈ fields, layer.fields.get e.1 = some e.2) ∧
    ∀ (p : ControlPacket) (ctx : ParseCtx) (n : Nat), n < p.bytes.length →
      ∃ e, mqtt.parse (p.bytes.take n) ctx = .error e := by
  refine ⟨fun n => reads_variableByteInt, variableByteTurns_ne_panic,
    fun used rest => variableByteInt_continued, ?_, ?_⟩
  · intro p ctx more
    refine ⟨_, (reads_parseMqtt p).parse more, rfl, ?_⟩
    intro fields hctx hencodes e he
    exact get_insertAt_of_mem hctx (nodup_bodyFields _ _ _ _) (hencodes.mem_bodyFields _ _ he) _
  · intro p ctx n hn
    obtain ⟨e, he⟩ := (exact_parseMqtt : Exact (parseMqtt ctx)).needs (reads_parseMqtt p) n hn
    exact ⟨e, parse_of_error he⟩

/-- A SUBSCRIBE to `a/b`. -/
def subscribe : ControlPacket where
  messageType := 8
  flags := 2
  body := [0, 1, 0, 3, 0x61, 0x2F, 0x62, 0]
  type_pos := by simp
  type_lt := by simp
  flags_lt := by simp
  qos_valid := by simp
  fits := by simp

example : (mqtt.parse subscribe.bytes ⟨[], .full, ⟨0, 10, 10, 1⟩⟩).toOption.map (fun layer =>
    (layer.headerLen, layer.fields.get "message_type", layer.fields.get "topics")) =
    some (10, some (.u64 8), some (.list [.str "a/b"])) := by
  have hbytes : subscribe.bytes = [0x82, 8, 0, 1, 0, 3, 0x61, 0x2F, 0x62, 0] := by
    simp [ControlPacket.bytes, subscribe, variableBytes]
  rw [hbytes]
  decide

end Packets

end Pktflow.Plugins

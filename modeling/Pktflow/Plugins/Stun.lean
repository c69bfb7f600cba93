import Pktflow.Core.Looping
import Pktflow.Lib.Utf8Decode
import Pktflow.Plugins.ExtHeaders
import Pktflow.Plugins.FiveTuple

/-!
# STUN

Model of `stun.rs`. A message is a header, with class and method interleaved in its type, and attributes, each
padded to four bytes. The walk over the attributes ends at the first that is not complete; of each kind that is
known the last well-formed one is reported (`parse_stun_bytes`).
-/

set_option autoImplicit false

namespace Pktflow.Plugins

open Pktflow.Core Pktflow.Core.ByteReader Pktflow.Flows Pktflow.Lib

/-! ## The plugin -/

/-- `MAGIC_COOKIE`. -/
def magicCookie : UInt32 := 0x2112A442

/-- The bytes of the magic cookie. -/
def cookieBytes : List UInt8 := [0x21, 0x12, 0xA4, 0x42]

/-- `message_class_name`. -/
def messageClassName (c : UInt8) : String :=
  if c = 0 then "request" else if c = 1 then "indication" else if c = 2 then "success_response" else "error_response"

/-- `decode_message_type`. -/
def decodeMessageType (msgType : UInt16) : UInt8 × UInt16 :=
  let c0 : UInt16 := (msgType >>> 4) &&& 0x1
  let c1 : UInt16 := (msgType >>> 8) &&& 0x1
  -- the three runs of the method
  let low : UInt16 := msgType &&& 0xF
  let mid : UInt16 := (msgType >>> 5) &&& 0x7
  let high : UInt16 := (msgType >>> 9) &&& 0x1F
  let method := low ||| (mid <<< 4) ||| (high <<< 7)
  (((c1 <<< 1) ||| c0).toUInt8, method)

/-- The bytes of `decode_xor_address`. -/
def xorAddressReader (transactionId : List UInt8) : ByteReader (List UInt8) := do
  let _ ← u8
  let family ← u8
  let _ ← u16Be
  if family = 1 then
    let addr ← take 4
    return List.zipWith (· ^^^ ·) addr cookieBytes
  else if family = 2 then
    let addr ← take 16
    return List.zipWith (· ^^^ ·) addr (cookieBytes ++ transactionId)
  else throw (.malformed "unknown address family")

/-- `decode_xor_address`. -/
def decodeXorAddress (value transactionId : List UInt8) : Option (List UInt8) :=
  ((xorAddressReader transactionId).parse value).toOption

/-- The bytes of `decode_error_code`. -/
def errorCodeReader : ByteReader UInt64 := do
  let _ ← u16Be
  let classAndReserved ← u8
  let number ← u8
  return (classAndReserved &&& 0x07).toUInt64 * 100 + number.toUInt64

/-- `decode_error_code`. -/
def decodeErrorCode (value : List UInt8) : Option UInt64 := (errorCodeReader.parse value).toOption

/-- The field that an attribute is inserted as. -/
def stunField (transactionId : List UInt8) (attrType : UInt16) (value : List UInt8) : Option (FieldName × Value) :=
  if attrType = 0x0020 then (decodeXorAddress value transactionId).map fun addr => ("xor_mapped_address", .bytes addr)
  else if attrType = 0x0016 then (decodeXorAddress value transactionId).map fun addr => ("relayed_address", .bytes addr)
  else if attrType = 0x0006 then (Text.fromUtf8 value).map fun s => ("username", .str (String.ofList s))
  else if attrType = 0x0009 then (decodeErrorCode value).map fun code => ("error_code", .u64 code)
  else if attrType = 0x000D ∧ value.length = 4 then
    some ("lifetime", .u64 (UInt32.ofNat (fromBeBytes value)).toUInt64)
  else if attrType = 0x000C ∧ 2 ≤ value.length then
    some ("channel_number", .u64 (UInt16.ofNat (fromBeBytes (value.take 2))).toUInt64)
  else none

/-- The header, the value and the padding of one attribute. -/
def stunAttribute : ByteReader (UInt16 × List UInt8) := do
  let attrType ← u16Be
  let attrLen ← u16Be
  let value ← take attrLen.toNat
  let _ ← take ((4 - attrLen.toNat % 4) % 4)
  return (attrType, value)

/-- The fields after one more attribute. -/
def recordAttribute (transactionId : List UInt8) (fields : FieldMap) (attr : UInt16 × List UInt8) : FieldMap :=
  match stunField transactionId attr.1 attr.2 with
  | some e => fields.insert e.1 e.2
  | none => fields

/-- `Stun::parse`. -/
def parseStun (ctx : ParseCtx) : ByteReader ParsedLayer := do
  let msgType ← u16Be
  if msgType &&& 0xC000 ≠ 0 then throw (.malformed "STUN message type's top two bits must be zero")
  let messageLength ← u16Be
  if messageLength % 4 ≠ 0 then throw (.malformed "STUN message length is not a multiple of 4")
  let cookie ← u32Be
  if cookie ≠ magicCookie then throw (.malformed "STUN magic cookie mismatch")
  let transactionId ← take 12
  let attrs ← take messageLength.toNat
  let (messageClass, method) := decodeMessageType msgType
  let base := insertAt ctx .structural
    [("message_class", .str (messageClassName messageClass)), ("message_method", .u64 method.toUInt64),
      ("message_length", .u64 messageLength.toUInt64)]
    (insertAt ctx .keys [("app", .str "stun")] FieldMap.new)
  let fields ← if atDepth ctx .full then
      liftM ((whileGood 4 stunAttribute (recordAttribute transactionId) base).parse attrs)
    else pure base
  return ⟨20 + messageLength.toNat, fields, .terminal⟩

/-- `Stun::probe`. -/
def probeStun (bytes : List UInt8) : Option Confidence :=
  let head : ByteReader (UInt16 × UInt32) := do
    let msgType ← u16Be
    if msgType &&& 0xC000 ≠ 0 then throw (.malformed "not STUN")
    let _ ← u16Be
    let cookie ← u32Be
    return (msgType, cookie)
  (head.parse bytes).toOption.bind fun h => if h.2 = magicCookie then some (Confidence.new 95) else none

/-- `Stun`. -/
def stun : LayerPlugin where
  name := "stun"
  parse := fun bytes ctx => (parseStun ctx).parse bytes
  claims := [.udpPort 3478, .tcpPort 3478]
  hasProbe := true
  probe := fun bytes _ => probeStun bytes
  streamIdentity := some
    { key := [⟨"app", none⟩], canonicalize := .endpointSort, lifecycle := none,
      rollups := [⟨"message_class", .accumulate⟩, ⟨"xor_mapped_address", .sample⟩] }

/-! ## Messages -/

/-- The kinds of attribute that are known. -/
inductive StunKind where
  | xorMappedAddress
  | xorRelayedAddress
  | username
  | errorCode
  | lifetime
  | channelNumber
  deriving DecidableEq

namespace StunKind

/-- The type of the attribute. -/
def code : StunKind → UInt16
  | xorMappedAddress => 0x0020
  | xorRelayedAddress => 0x0016
  | username => 0x0006
  | errorCode => 0x0009
  | lifetime => 0x000D
  | channelNumber => 0x000C

/-- The field that reports it. -/
def field : StunKind → FieldName
  | xorMappedAddress => "xor_mapped_address"
  | xorRelayedAddress => "relayed_address"
  | username => "username"
  | errorCode => "error_code"
  | lifetime => "lifetime"
  | channelNumber => "channel_number"

end StunKind

/-- An address as it is sent: combined with the cookie, an address of 16 bytes with the transaction id too. -/
def xorAddress (transactionId addr : List UInt8) : List UInt8 :=
  List.zipWith (· ^^^ ·) addr (cookieBytes ++ transactionId)

/-- A well-formed value of an attribute that carries an address. -/
inductive HoldsAddress (transactionId : List UInt8) : List UInt8 → List UInt8 → Prop where
  | v4 (reserved port₁ port₂ : UInt8) {addr : List UInt8} (more : List UInt8) (hlen : addr.length = 4) :
      HoldsAddress transactionId (reserved :: 1 :: port₁ :: port₂ :: xorAddress transactionId addr ++ more) addr
  | v6 (reserved port₁ port₂ : UInt8) {addr : List UInt8} (more : List UInt8) (hlen : addr.length = 16) :
      HoldsAddress transactionId (reserved :: 2 :: port₁ :: port₂ :: xorAddress transactionId addr ++ more) addr

/-- A well-formed value of a kind, and what it says. -/
inductive HoldsValue (transactionId : List UInt8) : StunKind → List UInt8 → Value → Prop where
  | mapped {value addr : List UInt8} (h : HoldsAddress transactionId value addr) :
      HoldsValue transactionId .xorMappedAddress value (.bytes addr)
  | relayed {value addr : List UInt8} (h : HoldsAddress transactionId value addr) :
      HoldsValue transactionId .xorRelayedAddress value (.bytes addr)
  | username (t : Text) : HoldsValue transactionId .username (Text.encode t) (.str (String.ofList t))
  | errorCode (r₁ r₂ cls number : UInt8) (reason : List UInt8) :
      HoldsValue transactionId .errorCode (r₁ :: r₂ :: cls :: number :: reason)
        (.u64 ((cls &&& 0x07).toUInt64 * 100 + number.toUInt64))
  | lifetime {value : List UInt8} (hlen : value.length = 4) :
      HoldsValue transactionId .lifetime value (.u64 (UInt32.ofNat (fromBeBytes value)).toUInt64)
  | channelNumber (n₁ n₂ : UInt8) (more : List UInt8) :
      HoldsValue transactionId .channelNumber (n₁ :: n₂ :: more) (.u64 (UInt16.ofNat (fromBeBytes [n₁, n₂])).toUInt64)

/-- An attribute, padded to a multiple of four bytes. -/
structure StunAttr where
  attrType : UInt16
  value : List UInt8
  padding : List UInt8
  fits : value.length < 65536
  padded : padding.length = (4 - value.length % 4) % 4

/-- The attribute as it is sent. -/
def StunAttr.bytes (a : StunAttr) : List UInt8 :=
  Lib.beBytes 2 a.attrType.toNat ++ (Lib.beBytes 2 a.value.length ++ (a.value ++ a.padding))

/-- The value of a kind in a list of attributes: that of the last well-formed one. -/
inductive LastHeld (transactionId : List UInt8) (kind : StunKind) (attrs : List StunAttr) : Option Value → Prop where
  | found {pre post : List StunAttr} {a : StunAttr} {v : Value} (hattrs : attrs = pre ++ a :: post)
      (htype : a.attrType = kind.code) (hv : HoldsValue transactionId kind a.value v)
      (hlast : ∀ b ∈ post, b.attrType = kind.code → ∀ w, ¬HoldsValue transactionId kind b.value w) :
      LastHeld transactionId kind attrs (some v)
  | none (hnone : ∀ a ∈ attrs, a.attrType = kind.code → ∀ w, ¬HoldsValue transactionId kind a.value w) :
      LastHeld transactionId kind attrs none

/-- The type of a message: the bits of the class stand between those of the method. -/
def typeWord (messageClass method : Nat) : Nat :=
  method % 16 + 16 * (messageClass % 2) + 32 * (method / 16 % 8) + 256 * (messageClass / 2) + 512 * (method / 128)

/-- A message with any attribute area that its length can count. -/
structure StunMessage where
  messageClass : Nat
  method : Nat
  transactionId : List UInt8
  area : List UInt8
  class_lt : messageClass < 4
  method_lt : method < 4096
  transactionId_length : transactionId.length = 12
  fits : area.length < 65536
  aligned : area.length % 4 = 0

/-- The message as it is sent. -/
def StunMessage.bytes (m : StunMessage) : List UInt8 :=
  Lib.beBytes 2 (typeWord m.messageClass m.method) ++ (Lib.beBytes 2 m.area.length ++
    (cookieBytes ++ (m.transactionId ++ m.area)))

/-- The names of the fields. -/
def stunFields : List FieldName :=
  ["app", "message_class", "message_method", "message_length", "xor_mapped_address", "relayed_address", "username",
    "error_code", "lifetime", "channel_number"]

/-- The area is these attributes, up to bytes that begin with none. -/
def HoldsAttrs (area : List UInt8) (attrs : List StunAttr) : Prop :=
  ∃ broken, area = attrs.flatMap StunAttr.bytes ++ broken ∧ NoEntry 4 stunAttribute broken

/-- A layer tells what a message says: class, method, and the attributes up to the first that is not complete. -/
structure ReadsStun (m : StunMessage) (ctx : ParseCtx) (layer : ParsedLayer) : Prop where
  headerLen : layer.headerLen = 20 + m.area.length
  messageClass : atDepth ctx .structural = true →
    layer.fields.get "message_class" = some (.str (messageClassName (UInt8.ofNat m.messageClass)))
  method : atDepth ctx .structural = true → layer.fields.get "message_method" = some (.u64 (UInt64.ofNat m.method))
  splits : ∃ attrs, HoldsAttrs m.area attrs
  attrs : ∀ attrs, HoldsAttrs m.area attrs → atDepth ctx .full = true →
    ∀ kind : StunKind, LastHeld m.transactionId kind attrs (layer.fields.get kind.field)
  others : ∀ name, name ∉ stunFields → layer.fields.get name = none

section Messages

variable {buf rest : List UInt8} {ctx : ParseCtx} {transactionId : List UInt8} {kind : StunKind}

theorem typeWord_lt {c m : Nat} (hc : c < 4) (hm : m < 4096) : typeWord c m < 16384 := by
  rw [typeWord]
  omega

/-- A run of bits of a word. -/
theorem toNat_run {w mask shift : UInt16} {k b : Nat} (hshift : shift.toNat = k) (hk : k < 16)
    (hmask : mask.toNat = 2 ^ b - 1) : ((w >>> shift) &&& mask).toNat = w.toNat / 2 ^ k % 2 ^ b := by
  rw [UInt16.toNat_and, UInt16.toNat_shiftRight, hshift, Nat.mod_eq_of_lt hk, hmask, Nat.shiftRight_eq_div_pow,
    Nat.and_two_pow_sub_one_eq_mod]

/-- Runs of bits side by side. -/
theorem toNat_join {hi lo shift : UInt16} {k : Nat} (hshift : shift.toNat = k) (hk : k < 16) (hlo : lo.toNat < 2 ^ k)
    (hhi : hi.toNat * 2 ^ k < 65536) : (lo ||| (hi <<< shift)).toNat = 2 ^ k * hi.toNat + lo.toNat := by
  rw [UInt16.toNat_or, UInt16.toNat_shiftLeft, hshift, Nat.mod_eq_of_lt hk, Nat.shiftLeft_eq, Nat.mod_eq_of_lt hhi,
    Nat.or_comm, Nat.mul_comm, ← Nat.two_pow_add_eq_or_of_lt hlo]

/-- Class and method are read back from the type of a message. -/
theorem decodeMessageType_typeWord {c m : Nat} (hc : c < 4) (hm : m < 4096) :
    decodeMessageType (UInt16.ofNat (typeWord c m)) = (UInt8.ofNat c, UInt16.ofNat m) := by
  have hlt := typeWord_lt hc hm
  generalize hword : UInt16.ofNat (typeWord c m) = w
  have hw : w.toNat = typeWord c m := by
    rw [← hword]
    exact UInt16.toNat_ofNat_of_lt' (Nat.lt_trans hlt (by decide))
  have h0 : (w &&& 0xF).toNat = m % 16 := by
    rw [UInt16.toNat_and, show (0xF : UInt16).toNat = 2 ^ 4 - 1 from rfl, Nat.and_two_pow_sub_one_eq_mod, hw, typeWord]
    omega
  have h4 : ((w >>> 4) &&& 0x1).toNat = c % 2 := by
    rw [toNat_run (k := 4) (b := 1) rfl (by decide) rfl, hw, typeWord]
    omega
  have h5 : ((w >>> 5) &&& 0x7).toNat = m / 16 % 8 := by
    rw [toNat_run (k := 5) (b := 3) rfl (by decide) rfl, hw, typeWord]
    omega
  have h8 : ((w >>> 8) &&& 0x1).toNat = c / 2 := by
    rw [toNat_run (k := 8) (b := 1) rfl (by decide) rfl, hw, typeWord]
    omega
  have h9 : ((w >>> 9) &&& 0x1F).toNat = m / 128 := by
    rw [toNat_run (k := 9) (b := 5) rfl (by decide) rfl, hw, typeWord]
    -- the bits below the last run
    generalize hbelow : m % 16 + 16 * (c % 2) + 32 * (m / 16 % 8) + 256 * (c / 2) = below
    have hlt : below < 512 := by omega
    have hdiv : (below + 512 * (m / 128)) / 2 ^ 9 = m / 128 := by omega
    rw [hdiv]
    omega
  have hclass : ∀ hi lo : UInt16, hi.toNat = c / 2 → lo.toNat = c % 2 → ((hi <<< 1) ||| lo).toNat = c := by
    intro hi lo hhi hlo
    rw [UInt16.or_comm, toNat_join (k := 1) rfl (by decide) (by omega) (by omega), hhi, hlo]
    omega
  have hmethod : ∀ low mid high : UInt16, low.toNat = m % 16 → mid.toNat = m / 16 % 8 → high.toNat = m / 128 →
      (low ||| (mid <<< 4) ||| (high <<< 7)).toNat = m := by
    intro low mid high hlow hmid hhigh
    have htwo : (low ||| (mid <<< 4)).toNat = m % 128 := by
      rw [toNat_join (k := 4) rfl (by decide) (by omega) (by omega), hmid, hlow]
      omega
    rw [toNat_join (k := 7) rfl (by decide) (by omega) (by omega), hhigh, htwo]
    omega
  rw [decodeMessageType]
  refine Prod.ext ?_ ?_
  · apply UInt8.toNat_inj.1
    rw [UInt16.toNat_toUInt8, hclass _ _ h8 h4, UInt8.toNat_ofNat']
  · apply UInt16.toNat_inj.1
    rw [hmethod _ _ _ h0 h5 h9, UInt16.toNat_ofNat_of_lt' (Nat.lt_trans hm (by decide))]

/-! ### Values -/

theorem xorAddress_xorAddress {addr key : List UInt8} (h : addr.length ≤ key.length) :
    List.zipWith (· ^^^ ·) (List.zipWith (· ^^^ ·) addr key) key = addr := by
  induction addr generalizing key with
  | nil => rfl
  | cons b addr ih =>
      cases key with
      | nil => simp at h
      | cons k key =>
          rw [List.zipWith_cons_cons, List.zipWith_cons_cons, ih (by simpa using h), UInt8.xor_assoc, UInt8.xor_self,
            UInt8.xor_zero]

theorem zipWith_take_left {key more : List UInt8} {addr : List UInt8} (h : addr.length ≤ key.length) :
    List.zipWith (· ^^^ ·) addr (key ++ more) = List.zipWith (· ^^^ ·) addr key := by
  induction addr generalizing key with
  | nil => rfl
  | cons b addr ih =>
      cases key with
      | nil => simp at h
      | cons k key =>
          rw [List.cons_append, List.zipWith_cons_cons, List.zipWith_cons_cons, ih (by simpa using h)]

/-- An address is decoded exactly from a well-formed value. -/
theorem decodeXorAddress_eq_some (hid : transactionId.length = 12) {value addr : List UInt8} :
    decodeXorAddress value transactionId = some addr ↔ HoldsAddress transactionId value addr := by
  have hkey : (cookieBytes ++ transactionId).length = 16 := by simp [cookieBytes, hid]
  rw [decodeXorAddress, toOption_parse_eq_some]
  constructor
  · rintro ⟨rest, h⟩
    obtain ⟨reserved, buf₁, hreserved, hread⟩ := bind_eq_ok.1 h
    obtain ⟨family, buf₂, hfamily, hread⟩ := bind_eq_ok.1 hread
    obtain ⟨port, buf₃, hport, hfamilies⟩ := bind_eq_ok.1 hread
    obtain rfl := u8_eq_ok.1 hreserved
    obtain rfl := u8_eq_ok.1 hfamily
    obtain ⟨bs, rfl, hbs, -⟩ := u16Be_eq_ok.1 hport
    obtain ⟨port₁, port₂, rfl⟩ := List.length_eq_two.1 hbs
    split at hfamilies
    · rename_i hone
      obtain ⟨sent, buf₄, hsent, hpure⟩ := bind_eq_ok.1 hfamilies
      obtain ⟨rfl, hlen⟩ := take_eq_ok.1 hsent
      obtain ⟨rfl, rfl⟩ := pure_eq_ok.1 hpure
      -- The exclusive or undoes itself, so the address read is the one that was hidden.
      have hback : xorAddress transactionId (List.zipWith (· ^^^ ·) sent cookieBytes) = sent := by
        rw [xorAddress, zipWith_take_left (by simp [cookieBytes])]
        exact xorAddress_xorAddress (by simp [cookieBytes, hlen])
      have hholds := @HoldsAddress.v4 transactionId reserved port₁ port₂ (List.zipWith (· ^^^ ·) sent cookieBytes) rest
        (by simp [cookieBytes, hlen])
      rw [hback] at hholds
      rw [hone]
      exact hholds
    · split at hfamilies
      · rename_i htwo
        obtain ⟨sent, buf₄, hsent, hpure⟩ := bind_eq_ok.1 hfamilies
        obtain ⟨rfl, hlen⟩ := take_eq_ok.1 hsent
        obtain ⟨rfl, rfl⟩ := pure_eq_ok.1 hpure
        have hback : xorAddress transactionId (List.zipWith (· ^^^ ·) sent (cookieBytes ++ transactionId)) = sent :=
          xorAddress_xorAddress (by omega)
        have hholds := @HoldsAddress.v6 transactionId reserved port₁ port₂
          (List.zipWith (· ^^^ ·) sent (cookieBytes ++ transactionId)) rest (by simp [hlen, cookieBytes, hid])
        rw [hback] at hholds
        rw [htwo]
        exact hholds
      · cases hfamilies
  · intro h
    cases h with
    | v4 reserved port₁ port₂ more hlen =>
        have hsent : (xorAddress transactionId addr).length = 4 := by simp [xorAddress, hlen, cookieBytes]
        refine ⟨more, ?_⟩
        rw [xorAddressReader, List.cons_append, bind_of_ok (u8_cons ..), List.cons_append, bind_of_ok (u8_cons ..),
          List.cons_append, List.cons_append, bind_of_ok (u16Be_cons ..), if_pos rfl,
          bind_of_ok (take_eq_ok.2 ⟨rfl, hsent⟩), xorAddress, zipWith_take_left (by simp [cookieBytes, hlen]),
          xorAddress_xorAddress (by simp [cookieBytes, hlen])]
        rfl
    | v6 reserved port₁ port₂ more hlen =>
        have hsent : (xorAddress transactionId addr).length = 16 := by simp [xorAddress, hlen, cookieBytes, hid]
        refine ⟨more, ?_⟩
        rw [xorAddressReader, List.cons_append, bind_of_ok (u8_cons ..), List.cons_append, bind_of_ok (u8_cons ..),
          List.cons_append, List.cons_append, bind_of_ok (u16Be_cons ..), if_neg (by decide), if_pos rfl,
          bind_of_ok (take_eq_ok.2 ⟨rfl, hsent⟩), xorAddress, xorAddress_xorAddress (by omega)]
        rfl

theorem decodeErrorCode_eq_some {value : List UInt8} {n : UInt64} :
    decodeErrorCode value = some n ↔ ∃ r₁ r₂ cls number reason, value = r₁ :: r₂ :: cls :: number :: reason ∧
      n = (cls &&& 0x07).toUInt64 * 100 + number.toUInt64 := by
  rw [decodeErrorCode, toOption_parse_eq_some]
  constructor
  · rintro ⟨rest, h⟩
    obtain ⟨reserved, buf₁, hreserved, hread⟩ := bind_eq_ok.1 h
    obtain ⟨cls, buf₂, hcls, hread⟩ := bind_eq_ok.1 hread
    obtain ⟨number, buf₃, hnumber, hpure⟩ := bind_eq_ok.1 hread
    obtain ⟨bs, rfl, hbs, -⟩ := u16Be_eq_ok.1 hreserved
    obtain rfl := u8_eq_ok.1 hcls
    obtain rfl := u8_eq_ok.1 hnumber
    obtain ⟨rfl, rfl⟩ := pure_eq_ok.1 hpure
    obtain ⟨r₁, r₂, rfl⟩ := List.length_eq_two.1 hbs
    exact ⟨r₁, r₂, cls, number, _, rfl, rfl⟩
  · rintro ⟨r₁, r₂, cls, number, reason, rfl, rfl⟩
    refine ⟨reason, ?_⟩
    rw [errorCodeReader, bind_of_ok (u16Be_cons ..), bind_of_ok (u8_cons ..), bind_of_ok (u8_cons ..)]
    rfl

/-- A field is inserted for what its value is decoded to. -/
theorem map_field_eq_some {β : Type} {o : Option β} {f : β → Value} {field : FieldName} {v : Value} :
    (o.map fun x => (field, f x)) = some (field, v) ↔ ∃ x, o = some x ∧ f x = v := by
  simp only [Option.map_eq_some_iff, Prod.mk.injEq, true_and]

/-- The field of a kind is inserted for its well-formed values. -/
theorem stunField_code (hid : transactionId.length = 12) {value : List UInt8} {v : Value} :
    stunField transactionId kind.code value = some (kind.field, v) ↔ HoldsValue transactionId kind value v := by
  -- The codes are tried in the order of the source, so each kind passes by the ones before it.
  cases kind with
  | xorMappedAddress =>
      rw [stunField, StunKind.code, StunKind.field, if_pos rfl, map_field_eq_some]
      constructor
      · rintro ⟨addr, haddr, rfl⟩
        exact .mapped ((decodeXorAddress_eq_some hid).1 haddr)
      · intro h
        cases h with
        | mapped h => exact ⟨_, (decodeXorAddress_eq_some hid).2 h, rfl⟩
  | xorRelayedAddress =>
      rw [stunField, StunKind.code, StunKind.field, if_neg (by decide), if_pos rfl, map_field_eq_some]
      constructor
      · rintro ⟨addr, haddr, rfl⟩
        exact .relayed ((decodeXorAddress_eq_some hid).1 haddr)
      · intro h
        cases h with
        | relayed h => exact ⟨_, (decodeXorAddress_eq_some hid).2 h, rfl⟩
  | username =>
      rw [stunField, StunKind.code, StunKind.field, if_neg (by decide), if_neg (by decide), if_pos rfl,
        map_field_eq_some]
      constructor
      · rintro ⟨t, ht, rfl⟩
        rw [Text.fromUtf8_eq_some.1 ht]
        exact .username t
      · intro h
        cases h with
        | username t => exact ⟨t, Text.fromUtf8_encode t, rfl⟩
  | errorCode =>
      rw [stunField, StunKind.code, StunKind.field, if_neg (by decide), if_neg (by decide), if_neg (by decide),
        if_pos rfl, map_field_eq_some]
      constructor
      · rintro ⟨n, hn, rfl⟩
        obtain ⟨r₁, r₂, cls, number, reason, rfl, rfl⟩ := decodeErrorCode_eq_some.1 hn
        exact .errorCode r₁ r₂ cls number reason
      · intro h
        cases h with
        | errorCode r₁ r₂ cls number reason =>
            exact ⟨_, decodeErrorCode_eq_some.2 ⟨r₁, r₂, cls, number, reason, rfl, rfl⟩, rfl⟩
  | lifetime =>
      rw [stunField, StunKind.code, StunKind.field, if_neg (by decide), if_neg (by decide), if_neg (by decide),
        if_neg (by decide)]
      constructor
      · intro h
        split at h
        · rename_i hlen
          obtain ⟨-, rfl⟩ := Prod.mk.inj (Option.some.inj h)
          exact .lifetime hlen.2
        · rw [if_neg (by simp)] at h
          cases h
      · intro h
        cases h with
        | lifetime hlen => rw [if_pos ⟨rfl, hlen⟩]
  | channelNumber =>
      rw [stunField, StunKind.code, StunKind.field, if_neg (by decide), if_neg (by decide), if_neg (by decide),
        if_neg (by decide), if_neg (by simp)]
      constructor
      · intro h
        split at h
        · rename_i hlen
          obtain ⟨-, rfl⟩ := Prod.mk.inj (Option.some.inj h)
          match value, hlen.2 with
          | n₁ :: n₂ :: more, _ => exact .channelNumber n₁ n₂ more
        · cases h
      · intro h
        cases h with
        | channelNumber n₁ n₂ more =>
            rw [if_pos ⟨rfl, by simp⟩]
            rfl

/-- What is inserted belongs to a kind that is known. -/
theorem exists_kind_of_stunField {attrType : UInt16} {value : List UInt8} {e : FieldName × Value}
    (he : stunField transactionId attrType value = some e) :
    ∃ kind : StunKind, attrType = kind.code ∧ e.1 = kind.field := by
  rw [stunField] at he
  split_ifs at he with h₁ h₂ h₃ h₄ h₅ h₆
  · obtain ⟨_, -, rfl⟩ := Option.map_eq_some_iff.1 he
    exact ⟨.xorMappedAddress, h₁, rfl⟩
  · obtain ⟨_, -, rfl⟩ := Option.map_eq_some_iff.1 he
    exact ⟨.xorRelayedAddress, h₂, rfl⟩
  · obtain ⟨_, -, rfl⟩ := Option.map_eq_some_iff.1 he
    exact ⟨.username, h₃, rfl⟩
  · obtain ⟨_, -, rfl⟩ := Option.map_eq_some_iff.1 he
    exact ⟨.errorCode, h₄, rfl⟩
  · obtain rfl := Option.some.inj he
    exact ⟨.lifetime, h₅.1, rfl⟩
  · obtain rfl := Option.some.inj he
    exact ⟨.channelNumber, h₆.1, rfl⟩

/-- Attributes of other types do not touch the field of a kind. -/
theorem stunField_of_ne {attrType : UInt16} {value : List UInt8} {e : FieldName × Value} (h : attrType ≠ kind.code)
    (he : stunField transactionId attrType value = some e) : e.1 ≠ kind.field := by
  obtain ⟨other, rfl, hfield⟩ := exists_kind_of_stunField he
  rw [hfield]
  intro heq
  apply h
  cases other <;> cases kind <;> first | rfl | (revert heq; decide)

/-! ### Attributes -/

theorem StunAttr.bytes_length (a : StunAttr) : 4 ≤ a.bytes.length ∧ a.bytes.length % 4 = 0 := by
  have hpad := a.padded
  have hlen : a.bytes.length = 4 + a.value.length + a.padding.length := by
    simp only [StunAttr.bytes, List.length_append, Lib.length_beBytes]
    omega
  omega

theorem reads_stunAttribute (a : StunAttr) : Reads stunAttribute a.bytes (a.attrType, a.value) := by
  have hlen : (UInt16.ofNat a.value.length).toNat = a.value.length := UInt16.toNat_ofNat_of_lt' a.fits
  rw [StunAttr.bytes]
  refine (reads_u16Be_toNat a.attrType).bind ((reads_u16Be a.value.length).bind ?_)
  rw [hlen]
  apply (reads_take a.value).bind
  exact reads_map (reads_take_of_length a.padded) fun _ => (a.attrType, a.value)

/-- What is read is an attribute. -/
theorem exists_attr_of_stunAttribute {x : UInt16 × List UInt8} (h : stunAttribute buf = .ok (x, rest)) :
    ∃ a : StunAttr, buf = a.bytes ++ rest := by
  obtain ⟨attrType, buf₁, htype, hread⟩ := bind_eq_ok.1 h
  obtain ⟨attrLen, buf₂, hlen, hread⟩ := bind_eq_ok.1 hread
  obtain ⟨value, buf₃, hvalue, hread⟩ := bind_eq_ok.1 hread
  obtain ⟨padding, buf₄, hpadding, hpure⟩ := bind_eq_ok.1 hread
  obtain ⟨ts, rfl, hts, rfl⟩ := u16Be_eq_ok.1 htype
  obtain ⟨ls, rfl, hls, rfl⟩ := u16Be_eq_ok.1 hlen
  obtain ⟨rfl, hvlen⟩ := take_eq_ok.1 hvalue
  obtain ⟨rfl, hplen⟩ := take_eq_ok.1 hpadding
  obtain ⟨-, rfl⟩ := pure_eq_ok.1 hpure
  have hfits : value.length < 65536 := by rw [hvlen]; exact UInt16.toNat_lt _
  refine ⟨⟨UInt16.ofNat (fromBeBytes ts), value, padding, hfits, by rw [hplen, hvlen]⟩, ?_⟩
  simp only [StunAttr.bytes]
  rw [hvlen, beBytes_word hls, beBytes_word hts]
  simp

theorem progresses_stunAttribute : EntryProgresses stunAttribute := by
  intro buf x rest h
  obtain ⟨a, rfl⟩ := exists_attr_of_stunAttribute h
  have hpos := a.bytes_length.1
  rw [List.length_append]
  omega

/-- Any attribute area is attributes in front of bytes that begin with none. -/
theorem exists_attrs (area : List UInt8) :
    ∃ (attrs : List StunAttr) (broken : List UInt8), area = attrs.flatMap StunAttr.bytes ++ broken ∧
      NoEntry 4 stunAttribute broken :=
  exists_entries progresses_stunAttribute (fun _ _ _ h => exists_attr_of_stunAttribute h) area

/-- The field of a kind after the attributes is the last well-formed value. -/
theorem get_foldl_recordAttribute (hid : transactionId.length = 12) (attrs : List StunAttr) {base : FieldMap}
    (hbase : base.get kind.field = none) :
    LastHeld transactionId kind attrs
      ((attrs.foldl (fun fields a => recordAttribute transactionId fields (a.attrType, a.value)) base).get
        kind.field) := by
  -- From the right: a later attribute overwrites an earlier one, so the last held one decides.
  induction attrs using List.reverseRecOn with
  | nil =>
      rw [List.foldl_nil, hbase]
      exact .none (by simp)
  | append_singleton attrs a ih =>
      rw [List.foldl_append, List.foldl_cons, List.foldl_nil]
      generalize attrs.foldl (fun fields a => recordAttribute transactionId fields (a.attrType, a.value)) base = fields
        at ih ⊢
      by_cases hheld : ∃ v, a.attrType = kind.code ∧ HoldsValue transactionId kind a.value v
      · obtain ⟨v, htype, hv⟩ := hheld
        have hfield := (stunField_code hid).2 hv
        rw [recordAttribute, htype, hfield, FieldMap.get_insert, if_pos rfl]
        exact @LastHeld.found _ _ _ _ [] _ _ rfl htype hv (by simp)
      · have hnot : ∀ w, a.attrType = kind.code → ¬HoldsValue transactionId kind a.value w :=
          fun w htype hv => hheld ⟨w, htype, hv⟩
        have hsame : (recordAttribute transactionId fields (a.attrType, a.value)).get kind.field =
            fields.get kind.field := by
          rw [recordAttribute]
          cases hfield : stunField transactionId a.attrType a.value with
          | none => rfl
          | some e =>
              -- An attribute of another type, or one that holds no value, writes under another name or not at all.
              have hne : kind.field ≠ e.1 := by
                by_cases htype : a.attrType = kind.code
                · intro heq
                  obtain ⟨name, v⟩ := e
                  obtain rfl : kind.field = name := heq
                  rw [htype] at hfield
                  exact hnot v htype ((stunField_code hid).1 hfield)
                · exact (stunField_of_ne htype hfield).symm
              exact (FieldMap.get_insert ..).trans (if_neg hne)
        rw [hsame]
        generalize fields.get kind.field = o at ih ⊢
        cases ih with
        | none hnone =>
            refine .none fun b hb htype => ?_
            rcases List.mem_append.1 hb with hb | hb
            · exact hnone b hb htype
            · obtain rfl := List.mem_singleton.1 hb
              exact fun w => hnot w htype
        | @found pre post b v hattrs htype hv hlast =>
            apply @LastHeld.found _ _ _ pre (post ++ [a]) _ _ (by rw [hattrs]; simp) htype hv
            intro c hc htype'
            rcases List.mem_append.1 hc with hc | hc
            · exact hlast c hc htype'
            · obtain rfl := List.mem_singleton.1 hc
              exact fun w => hnot w htype'

/-! ### The message -/

/-- The fields in front of the attributes. -/
def stunBase (ctx : ParseCtx) (m : StunMessage) : FieldMap :=
  insertAt ctx .structural
    [("message_class", .str (messageClassName (UInt8.ofNat m.messageClass))),
      ("message_method", .u64 (UInt16.ofNat m.method).toUInt64),
      ("message_length", .u64 (UInt16.ofNat m.area.length).toUInt64)]
    (insertAt ctx .keys [("app", .str "stun")] FieldMap.new)

theorem get_stunBase {m : StunMessage} {name : FieldName}
    (h : name ∉ ["app", "message_class", "message_method", "message_length"]) : (stunBase ctx m).get name = none := by
  simp only [List.mem_cons, List.not_mem_nil, or_false, not_or] at h
  rw [stunBase, get_insertAt (by simp [h]), get_insertAt (by simp [h])]
  rfl

/-- A field that no known kind has. -/
theorem get_foldl_of_ne (attrs : List StunAttr) (base : FieldMap) {name : FieldName}
    (h : ∀ kind : StunKind, name ≠ kind.field) :
    (attrs.foldl (fun fields a => recordAttribute transactionId fields (a.attrType, a.value)) base).get name =
      base.get name := by
  induction attrs generalizing base with
  | nil => rfl
  | cons a attrs ih =>
      rw [List.foldl_cons, ih, recordAttribute]
      cases hfield : stunField transactionId a.attrType a.value with
      | none => rfl
      | some e =>
          obtain ⟨kind, -, hkind⟩ := exists_kind_of_stunField hfield
          refine (FieldMap.get_insert ..).trans (if_neg ?_)
          rw [hkind]
          exact h kind

theorem cookie_read (more : List UInt8) : u32Be (cookieBytes ++ more) = .ok (magicCookie, more) :=
  u32Be_eq_ok.2 ⟨cookieBytes, rfl, rfl, by decide⟩

/-- The two bits in front of a message type are clear. -/
theorem top_bits {w : UInt16} (h : w.toNat < 16384) : w &&& 0xC000 = 0 := by
  have hrun : (w &&& 0xC000).toNat = 2 ^ 14 * (w.toNat / 2 ^ 14 % 2 ^ 2) := (UInt16.toNat_and w 0xC000).trans (and_run _ 14 2)
  apply UInt16.toNat_inj.1
  rw [hrun, show (0 : UInt16).toNat = 0 from rfl]
  omega

/-- What the plugin makes of a message, the attributes in front of what is broken. -/
theorem parseStun_bytes (m : StunMessage) {attrs : List StunAttr} (hattrs : HoldsAttrs m.area attrs)
    (more : List UInt8) :
    stun.parse (m.bytes ++ more) ctx = .ok ⟨20 + m.area.length,
      if atDepth ctx .full then
        attrs.foldl (fun fields a => recordAttribute m.transactionId fields (a.attrType, a.value)) (stunBase ctx m)
      else stunBase ctx m, .terminal⟩ := by
  obtain ⟨broken, harea, hbroken⟩ := hattrs
  have hword := typeWord_lt m.class_lt m.method_lt
  have htype : (UInt16.ofNat (typeWord m.messageClass m.method)).toNat = typeWord m.messageClass m.method :=
    UInt16.toNat_ofNat_of_lt' (Nat.lt_trans hword (by decide))
  have htop : ¬UInt16.ofNat (typeWord m.messageClass m.method) &&& 0xC000 ≠ 0 := not_not.2 (top_bits (by omega))
  have hlen : (UInt16.ofNat m.area.length).toNat = m.area.length := UInt16.toNat_ofNat_of_lt' m.fits
  have halign : ¬UInt16.ofNat m.area.length % 4 ≠ 0 := by
    refine not_not.2 (UInt16.toNat_inj.1 ?_)
    rw [UInt16.toNat_mod, hlen]
    exact m.aligned
  -- The attribute walk stops at what is no whole attribute and keeps those before it.
  have hwalk : (whileGood 4 stunAttribute (recordAttribute m.transactionId) (stunBase ctx m)).parse m.area =
      .ok (attrs.foldl (fun fields a => recordAttribute m.transactionId fields (a.attrType, a.value))
        (stunBase ctx m)) := by
    rw [harea]
    exact parse_eq_ok.2 ⟨broken, whileGood_flatMap progresses_stunAttribute (fun a _ => a.bytes_length.1)
      (fun a _ => reads_stunAttribute a) _ hbroken⟩
  refine parse_eq_ok.2 ⟨more, ?_⟩
  rw [parseStun, StunMessage.bytes, List.append_assoc, bind_of_ok (reads_u16Be _ _), if_neg htop, List.append_assoc]
  beta_reduce
  rw [bind_of_ok (reads_u16Be _ _), if_neg halign, List.append_assoc]
  beta_reduce
  rw [bind_of_ok (cookie_read _), if_neg (by simp), List.append_assoc]
  beta_reduce
  rw [bind_of_ok (take_eq_ok.2 ⟨rfl, m.transactionId_length⟩), hlen, bind_of_ok (reads_take m.area more),
    decodeMessageType_typeWord m.class_lt m.method_lt]
  dsimp only
  rw [← stunBase]
  split
  · rw [hwalk]
    rfl
  · rfl

/-- The plugin reads every message: class and method, and of each kind that is known the last well-formed value up
to the first attribute that is not complete. -/
theorem parse_stun_bytes (m : StunMessage) (ctx : ParseCtx) (more : List UInt8) :
    ∃ layer, stun.parse (m.bytes ++ more) ctx = .ok layer ∧ ReadsStun m ctx layer := by
  obtain ⟨attrs, broken, harea, hbroken⟩ := exists_attrs m.area
  refine ⟨_, parseStun_bytes m ⟨broken, harea, hbroken⟩ more, ?_⟩
  have hfields : ∀ kind : StunKind, (stunBase ctx m).get kind.field = none :=
    fun kind => get_stunBase (by cases kind <;> decide)
  -- the fields in front are not those of a kind
  have hbefore : ∀ name, (∀ kind : StunKind, name ≠ kind.field) →
      (if atDepth ctx .full then
        attrs.foldl (fun fields a => recordAttribute m.transactionId fields (a.attrType, a.value)) (stunBase ctx m)
      else stunBase ctx m).get name = (stunBase ctx m).get name := by
    intro name hname
    split
    · exact get_foldl_of_ne attrs _ hname
    · rfl
  refine ⟨rfl, ?_, ?_, ⟨attrs, broken, harea, hbroken⟩, ?_, ?_⟩
  · intro hctx
    apply (hbefore _ (by intro kind; cases kind <;> decide)).trans
    rw [stunBase, insertAt, if_pos hctx]
    simp [FieldMap.get_insert]
  · intro hctx
    have hmethod : (UInt16.ofNat m.method).toUInt64 = UInt64.ofNat m.method := by
      apply UInt64.toNat_inj.1
      have hlt := m.method_lt
      rw [UInt16.toNat_toUInt64, UInt16.toNat_ofNat_of_lt' (Nat.lt_trans hlt (by decide)),
        UInt64.toNat_ofNat_of_lt' (Nat.lt_trans hlt (by decide))]
    apply (hbefore _ (by intro kind; cases kind <;> decide)).trans
    rw [stunBase, insertAt, if_pos hctx, hmethod]
    simp [FieldMap.get_insert]
  · intro attrs' hattrs' hctx kind
    -- the attributes of the area are the same however it is split
    have hone : stun.parse (m.bytes ++ more) ctx = _ := parseStun_bytes m ⟨broken, harea, hbroken⟩ more
    have hsame := Except.ok.inj (hone.symm.trans (parseStun_bytes m hattrs' more))
    rw [hsame]
    simp only [hctx, if_true]
    exact get_foldl_recordAttribute m.transactionId_length attrs' (hfields kind)
  · intro name hname
    simp only [stunFields, List.mem_cons, List.not_mem_nil, or_false, not_or] at hname
    refine (hbefore name ?_).trans (get_stunBase (by simp [hname]))
    intro kind
    cases kind <;> simp [StunKind.field, hname]

/-- A success response to a binding: the address 192.0.2.1, and a name of three bytes with its padding. -/
def bindingResponse : StunMessage where
  messageClass := 2
  method := 1
  transactionId := [1, 2, 3, 4, 5, 6, 7, 8, 9, 10, 11, 12]
  area := [0, 0x20, 0, 8, 0, 1, 0xA1, 0x47, 0xE1, 0x12, 0xA6, 0x43, 0, 6, 0, 3, 0x61, 0x62, 0x63, 0]
  class_lt := by omega
  method_lt := by omega
  transactionId_length := rfl
  fits := by simp
  aligned := rfl

example : ((stun.parse bindingResponse.bytes ⟨[], .full, ⟨0, 40, 40, 1⟩⟩).toOption.map fun layer =>
    (layer.headerLen, layer.fields.get "message_class", layer.fields.get "xor_mapped_address",
      layer.fields.get "username")) =
    some (40, some (.str "success_response"), some (.bytes [192, 0, 2, 1]), some (.str "abc")) := by
  decide

/-- A name of no bytes. -/
def emptyUsername : StunAttr where
  attrType := 0x0006
  value := []
  padding := []
  fits := by simp
  padded := rfl

/-- The plugin refuses an area of a whole attribute and two bytes: the length of the area is no multiple of four. -/
theorem not_parse_stun_of_stray :
    HoldsAttrs [0, 6, 0, 0, 0, 0] [emptyUsername] ∧
    stun.parse (Lib.beBytes 2 (typeWord 0 1) ++ (Lib.beBytes 2 6 ++ (cookieBytes ++
      (List.replicate 12 0 ++ [0, 6, 0, 0, 0, 0])))) ⟨[], .full, ⟨0, 26, 26, 1⟩⟩ =
        .error (.malformed "STUN message length is not a multiple of 4") := by
  constructor
  · refine ⟨[0, 0], rfl, .inl ?_⟩
    simp
  · rfl

end Messages

end Pktflow.Plugins

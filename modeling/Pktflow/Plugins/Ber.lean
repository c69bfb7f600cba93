import Pktflow.Core.Framing
import Pktflow.Lib.Utf8Decode
import Pktflow.Plugins.ExtHeaders
import Pktflow.Plugins.FiveTuple

/-!
# SNMP, LDAP and Kerberos

Model of `snmp.rs`, `ldap.rs` and `kerberos.rs`. Each message is one tag, length and content under the Basic Encoding
Rules, and each file has a reader of lengths of its own. Every one of the three accepts the definite forms
(`Definite`) and reads the number that they encode; so the header of a message is the outer element, and what is
read are the values of the elements in it (`ber_messages`).
-/

set_option autoImplicit false

namespace Pktflow.Plugins

open Pktflow.Core Pktflow.Core.ByteReader Pktflow.Flows Pktflow.Lib

/-! ## SNMP -/

namespace Snmp

/-- `ber_length`; `usize` has 64 bits. -/
def berLength : ByteReader UInt64 := do
  let first ← u8
  if first &&& 0x80 = 0 then return first.toUInt64
  let n := (first &&& 0x7F).toNat
  if n = 0 then throw (.malformed "indefinite-length BER not supported")
  if 8 < n then throw (.malformed "BER length field too wide")
  let octets ← take n
  return octets.foldl (fun acc b => (acc <<< 8) ||| b.toUInt64) 0

/-- `read_tlv`. -/
def readTlv : ByteReader (UInt8 × List UInt8) := do
  let tag ← u8
  let len ← berLength
  let value ← take len.toNat
  return (tag, value)

/-- `ber_uint`. -/
def berUint (bytes : List UInt8) : Except ParseError UInt64 :=
  match bytes with
  | [] => throw (.malformed "empty BER INTEGER")
  | first :: _ =>
      if first &&& 0x80 ≠ 0 then throw (.malformed "negative SNMP INTEGER not supported")
      else if 8 < bytes.length then throw (.malformed "SNMP INTEGER wider than 64 bits")
      else pure (bytes.foldl (fun acc b => (acc <<< 8) ||| b.toUInt64) 0)

/-- What is read of a message. -/
structure Contents where
  version : UInt64
  community : Option (List UInt8) := none
  pduType : Option UInt8 := none
  requestId : Option UInt64 := none

/-- The request id that a PDU begins with. -/
def requestIdOf (pduBody : List UInt8) : Option UInt64 :=
  match readTlv.parse pduBody with
  | .ok (firstTag, firstBytes) => if firstTag = 0x02 then (berUint firstBytes).toOption else none
  | .error _ => none

/-- The walk over the body of a message. -/
def readBody : ByteReader Contents := do
  let (versionTag, versionBytes) ← readTlv
  if versionTag ≠ 0x02 then throw (.malformed "SNMP version must be an INTEGER")
  let version ← liftM (berUint versionBytes)
  if version = 0 ∨ version = 1 then
    let (communityTag, communityBytes) ← readTlv
    if communityTag ≠ 0x04 then throw (.malformed "SNMP community must be an OCTET STRING")
    let (pduTag, pduBody) ← readTlv
    if pduTag &&& 0xE0 ≠ 0xA0 then throw (.malformed "SNMP PDU tag is not context-specific constructed")
    return ⟨version, some communityBytes, some (pduTag &&& 0x1F), requestIdOf pduBody⟩
  else return { version }

/-- `Snmp::parse`. -/
def parse (ctx : ParseCtx) : ByteReader ParsedLayer := do
  let ((msgTag, msgBody), headerLen) ← measured readTlv
  if msgTag ≠ 0x30 then throw (.malformed "SNMP message must be a BER SEQUENCE")
  let c ← liftM (readBody.parse msgBody)
  let fields := insertAt ctx .full (c.requestId.toList.map fun id => ("request_id", .u64 id))
    (insertAt ctx .structural
      ([("version", .u64 c.version)] ++
        c.community.toList.map (fun v => ("community", .str (String.ofList (Text.lossy v)))) ++
        c.pduType.toList.map fun t => ("pdu_type", .u64 t.toUInt64))
      (insertAt ctx .keys [("app", .str "snmp")] FieldMap.new))
  return ⟨headerLen, fields, .terminal⟩

end Snmp

/-- `Snmp`. -/
def snmp : LayerPlugin where
  name := "snmp"
  parse := fun bytes ctx => (Snmp.parse ctx).parse bytes
  claims := [.udpPort 161, .udpPort 162]
  streamIdentity := some
    { key := [⟨"app", none⟩], canonicalize := .endpointSort, lifecycle := none,
      rollups := [⟨"pdu_type", .accumulate⟩, ⟨"community", .sample⟩] }

/-! ## LDAP -/

namespace Ldap

/-- `read_der_length` of `ldap.rs`. -/
def readDerLength : ByteReader UInt64 := do
  let first ← u8
  if first &&& 0x80 = 0 then return first.toUInt64
  let width := first &&& 0x7F
  if width = 0 then throw (.malformed "indefinite-length BER encoding is not valid DER")
  if 8 < width then throw (.malformed "DER length wider than 8 octets")
  let octets ← take width.toNat
  let mut len : UInt64 := 0
  for b in octets do
    len := (len <<< 8) ||| b.toUInt64
  return len

/-- `read_tlv`. -/
def readTlv : ByteReader (UInt8 × List UInt8) := do
  let tag ← u8
  let length ← readDerLength
  let content ← take length.toNat
  return (tag, content)

/-- `decode_uint`. -/
def decodeUint (bytes : List UInt8) : Option UInt64 :=
  if bytes.isEmpty ∨ 8 < bytes.length then none
  else some (bytes.foldl (fun acc b => (acc <<< 8) ||| b.toUInt64) 0)

/-- `read_bind_dn`. -/
def readBindDn (opContent : List UInt8) : Option Text :=
  let name : ByteReader (List UInt8) := do
    let (versionTag, _) ← readTlv
    if versionTag ≠ 0x02 then throw (.malformed "no version")
    let (nameTag, content) ← readTlv
    if nameTag ≠ 0x04 then throw (.malformed "no name")
    return content
  (name.parse opContent).toOption.bind Text.fromUtf8

/-- The walk over the content of a message: message id, operation and what the operation holds. -/
def readContent : ByteReader (UInt64 × UInt8 × List UInt8) := do
  let (idTag, idContent) ← readTlv
  if idTag ≠ 0x02 then throw (.malformed "LDAPMessage missing messageID")
  let messageId ← match decodeUint idContent with
    | some n => pure n
    | none => throw (.malformed "messageID too wide")
  let (opTag, opContent) ← readTlv
  if opTag &&& 0xC0 ≠ 0x40 then throw (.malformed "protocolOp is not an APPLICATION-tagged CHOICE")
  return (messageId, opTag &&& 0x1F, opContent)

/-- `Ldap::parse`. -/
def parse (ctx : ParseCtx) : ByteReader ParsedLayer := do
  let ((outerTag, outerContent), headerLen) ← measured readTlv
  if outerTag ≠ 0x30 then throw (.malformed "not an LDAPMessage SEQUENCE")
  let (messageId, protocolOp, opContent) ← liftM (readContent.parse outerContent)
  let bindDn := if protocolOp = 0 then readBindDn opContent else none
  let fields := insertAt ctx .full (bindDn.toList.map fun dn => ("bind_dn", .str (String.ofList dn)))
    (insertAt ctx .structural [("message_id", .u64 messageId), ("protocol_op", .u64 protocolOp.toUInt64)]
      (insertAt ctx .keys [("app", .str "ldap")] FieldMap.new))
  return ⟨headerLen, fields, .terminal⟩

end Ldap

/-- `Ldap`. -/
def ldap : LayerPlugin where
  name := "ldap"
  parse := fun bytes ctx => (Ldap.parse ctx).parse bytes
  claims := [.tcpPort 389]
  streamIdentity := some
    { key := [⟨"app", none⟩], canonicalize := .endpointSort, lifecycle := none,
      rollups := [⟨"protocol_op", .accumulate⟩, ⟨"bind_dn", .sample⟩] }

/-! ## Kerberos -/

namespace Kerberos

/-- `is_recognized_msg_type`. -/
def isRecognizedMsgType (msgType : UInt8) : Bool := msgType ∈ ([10, 11, 12, 13, 14, 15, 30] : List UInt8)

/-- `read_der_length` of `kerberos.rs`. -/
def readDerLength : ByteReader UInt64 := do
  let first ← u8
  if first &&& 0x80 = 0 then return first.toUInt64
  let width := first &&& 0x7F
  if width = 0 then throw (.malformed "indefinite-length BER encoding is not valid DER")
  if 8 < width then throw (.malformed "DER length wider than 8 octets")
  let octets ← take width.toNat
  let mut len : UInt64 := 0
  for b in octets do
    len := (len <<< 8) ||| b.toUInt64
  return len

/-- The outer element of a message: its type and its length. -/
def readOuter : ByteReader (UInt8 × UInt64) := do
  let tag ← u8
  if tag &&& 0xE0 ≠ 0x60 then throw (.malformed "not a Kerberos [APPLICATION n] SEQUENCE tag")
  let msgType := tag &&& 0x1F
  if ¬isRecognizedMsgType msgType then throw (.malformed "unrecognized Kerberos msg-type")
  let length ← readDerLength
  let _content ← take length.toNat
  return (msgType, length)

/-- `Kerberos::parse`. -/
def parse (ctx : ParseCtx) : ByteReader ParsedLayer := do
  let ((msgType, length), headerLen) ← measured readOuter
  let fields := insertAt ctx .structural [("msg_type", .u64 msgType.toUInt64), ("der_length", .u64 length)]
    (insertAt ctx .keys [("app", .str "kerberos")] FieldMap.new)
  return ⟨headerLen, fields, .terminal⟩

end Kerberos

/-- `Kerberos`. -/
def kerberos : LayerPlugin where
  name := "kerberos"
  parse := fun bytes ctx => (Kerberos.parse ctx).parse bytes
  claims := [.udpPort 88, .tcpPort 88]
  streamIdentity := some
    { key := [⟨"app", none⟩], canonicalize := .endpointSort, lifecycle := none, rollups := [⟨"msg_type", .accumulate⟩] }

/-! ## Messages -/

/-- The definite forms of a length: one byte, or up to eight octets behind their number. -/
inductive Definite : List UInt8 → Nat → Prop where
  | short (b : UInt8) (h : b.toNat < 128) : Definite [b] b.toNat
  | long (octets : List UInt8) (hpos : 1 ≤ octets.length) (hle : octets.length ≤ 8) :
      Definite (UInt8.ofNat (128 + octets.length) :: octets) (fromBeBytes octets)

/-- An element: its tag, and its content behind any form of its length. -/
structure Tlv where
  tag : UInt8
  length : List UInt8
  content : List UInt8
  definite : Definite length content.length

/-- The element as it is sent. -/
def Tlv.bytes (t : Tlv) : List UInt8 := t.tag :: (t.length ++ t.content)

/-- The content of an integer that is not negative and has at most eight octets. -/
inductive EncodesUint : List UInt8 → Nat → Prop where
  | octets (first : UInt8) (more : List UInt8) (hnonneg : first.toNat < 128) (hle : more.length ≤ 7) :
      EncodesUint (first :: more) (fromBeBytes (first :: more))

/-- The first element of a PDU: the request id, or an element of another type. -/
inductive BeginsPdu : Tlv → Option Nat → Prop where
  | requestId {t : Tlv} {n : Nat} (htag : t.tag = 0x02) (hn : EncodesUint t.content n) : BeginsPdu t (some n)
  | other {t : Tlv} (htag : t.tag ≠ 0x02) : BeginsPdu t none

/-- A message of SNMPv1 or SNMPv2c. -/
structure SnmpMessage where
  outer : Tlv
  version : Tlv
  community : Tlv
  pdu : Tlv
  first : Tlv
  versionNumber : Nat
  communityName : Text
  pduType : Nat
  requestId : Option Nat
  behindFirst : List UInt8
  behindPdu : List UInt8
  outer_tag : outer.tag = 0x30
  outer_content : outer.content = version.bytes ++ (community.bytes ++ (pdu.bytes ++ behindPdu))
  version_tag : version.tag = 0x02
  version_content : EncodesUint version.content versionNumber
  version_known : versionNumber = 0 ∨ versionNumber = 1
  community_tag : community.tag = 0x04
  community_content : community.content = Text.encode communityName
  pdu_tag : pdu.tag = UInt8.ofNat (0xA0 + pduType)
  pduType_lt : pduType < 31
  pdu_content : pdu.content = first.bytes ++ behindFirst
  begins : BeginsPdu first requestId

/-- What a message says. -/
def SnmpMessage.values (m : SnmpMessage) : List (FieldName × Value) :=
  [("version", .u64 (UInt64.ofNat m.versionNumber)), ("community", .str (String.ofList m.communityName)),
    ("pdu_type", .u64 (UInt64.ofNat m.pduType))] ++
    m.requestId.toList.map fun n => ("request_id", .u64 (UInt64.ofNat n))

/-- A message of LDAP; the tag of an operation may be constructed or not, and behind it may come controls. -/
structure LdapMessage where
  outer : Tlv
  id : Tlv
  op : Tlv
  messageId : Nat
  operation : Nat
  constructed : Bool
  controls : List UInt8
  outer_tag : outer.tag = 0x30
  outer_content : outer.content = id.bytes ++ (op.bytes ++ controls)
  id_tag : id.tag = 0x02
  id_content : EncodesUint id.content messageId
  op_tag : op.tag = UInt8.ofNat (0x40 + (if constructed then 0x20 else 0) + operation)
  operation_lt : operation < 31

/-- What a message says. -/
def LdapMessage.values (m : LdapMessage) : List (FieldName × Value) :=
  [("message_id", .u64 (UInt64.ofNat m.messageId)), ("protocol_op", .u64 (UInt64.ofNat m.operation))]

/-- A message of Kerberos, of a type that the plugin knows. -/
structure KerberosMessage where
  outer : Tlv
  msgType : Nat
  outer_tag : outer.tag = UInt8.ofNat (0x60 + msgType)
  known : msgType ∈ [10, 11, 12, 13, 14, 15, 30]

/-- What a message says. -/
def KerberosMessage.values (m : KerberosMessage) : List (FieldName × Value) :=
  [("msg_type", .u64 (UInt64.ofNat m.msgType)), ("der_length", .u64 (UInt64.ofNat m.outer.content.length))]

/-- A plugin reads these bytes as these values, whatever follows them, and declines each shorter part of them. -/
def ReadsMessage (p : LayerPlugin) (bytes : List UInt8) (values : List (FieldName × Value)) : Prop :=
  ∀ ctx, ∃ layer, layer.headerLen = bytes.length ∧
    (atDepth ctx .full = true → ∀ e ∈ values, layer.fields.get e.1 = some e.2) ∧
    (∀ more, p.parse (bytes ++ more) ctx = .ok layer) ∧
    ∀ n, n < bytes.length → ∃ e, p.parse (bytes.take n) ctx = .error e

section Readers

variable {buf rest used : List UInt8} {n : Nat}

/-! ### Lengths -/

/-- A length over unbounded numbers, with what to say of the indefinite form and of more than eight octets. -/
def definiteLength (indefinite tooWide : ParseError) : ByteReader UInt64 := do
  let first ← u8
  if first.toNat < 128 then return first.toUInt64
  if first.toNat - 128 = 0 then throw indefinite
  if 8 < first.toNat - 128 then throw tooWide
  let octets ← take (first.toNat - 128)
  return UInt64.ofNat (fromBeBytes octets)

theorem shift_or (n : Nat) (b : UInt8) : (UInt64.ofNat n <<< 8) ||| b.toUInt64 = UInt64.ofNat (256 * n + b.toNat) := by
  have hlt : b.toNat < 2 ^ 8 := b.toNat_lt
  apply UInt64.toNat_inj.1
  rw [UInt64.toNat_or, UInt64.toNat_shiftLeft, UInt8.toNat_toUInt64, show (8 : UInt64).toNat % 64 = 8 from rfl,
    Nat.shiftLeft_eq, UInt64.toNat_ofNat', UInt64.toNat_ofNat']
  -- what is shifted out is what wraps around
  have hhigh : n % 2 ^ 64 * 2 ^ 8 % 2 ^ 64 = 2 ^ 8 * (n % 2 ^ 56) := by omega
  rw [hhigh, ← Nat.two_pow_add_eq_or_of_lt hlt]
  omega

/-- The number that the octets denote, folded in 64 bits. -/
theorem foldl_octets (octets : List UInt8) :
    octets.foldl (fun (acc : UInt64) b => (acc <<< 8) ||| b.toUInt64) 0 = UInt64.ofNat (fromBeBytes octets) := by
  rw [fromBeBytes]
  exact List.foldl_hom UInt64.ofNat shift_or

theorem toNat_width {b : UInt8} (h : ¬b.toNat < 128) : (b &&& 0x7F).toNat = b.toNat - 128 := by
  have hlt := b.toNat_lt
  rw [toNat_low_bits]
  omega

/-- `ber_length` reads a definite length. -/
theorem berLength_eq : Snmp.berLength = definiteLength (.malformed "indefinite-length BER not supported")
    (.malformed "BER length field too wide") := by
  rw [Snmp.berLength, definiteLength]
  refine congrArg (u8 >>= ·) (funext fun first => ?_)
  by_cases hshort : first.toNat < 128
  · rw [if_pos (high_bit_eq_zero.2 hshort), if_pos hshort]
  · rw [if_neg (mt high_bit_eq_zero.1 hshort), if_neg hshort]
    simp only [toNat_width hshort, foldl_octets]

theorem ldap_readDerLength_eq : Ldap.readDerLength =
    definiteLength (.malformed "indefinite-length BER encoding is not valid DER")
      (.malformed "DER length wider than 8 octets") := by
  rw [Ldap.readDerLength, definiteLength]
  refine congrArg (u8 >>= ·) (funext fun first => ?_)
  by_cases hshort : first.toNat < 128
  · rw [if_pos (high_bit_eq_zero.2 hshort), if_pos hshort]
  · rw [if_neg (mt high_bit_eq_zero.1 hshort), if_neg hshort]
    have hzero : first &&& 0x7F = 0 ↔ first.toNat - 128 = 0 := by
      rw [← toNat_width hshort]
      exact UInt8.toNat_inj.symm
    have hwide : 8 < first &&& 0x7F ↔ 8 < first.toNat - 128 := by
      rw [← toNat_width hshort]
      exact UInt8.lt_iff_toNat_lt
    simp only [hzero, hwide, toNat_width hshort, List.forIn_pure_yield_eq_foldl, pure_bind, foldl_octets]

/-- `read_der_length` of `kerberos.rs` is a copy of that of `ldap.rs`. -/
theorem kerberos_readDerLength_eq : Kerberos.readDerLength = Ldap.readDerLength := rfl

theorem exact_definiteLength (e₁ e₂ : ParseError) : Exact (definiteLength e₁ e₂) :=
  exact_u8.bind fun _ => .ite (fun _ => exact_pure _) fun _ => .guard <| .guard <|
    (exact_take _).bind fun _ => exact_pure _

theorem Definite.lt (h : Definite used n) : n < 2 ^ 64 := by
  cases h with
  | short b h => omega
  | long octets hpos hle =>
      have hpow : 256 ^ octets.length ≤ 256 ^ 8 := Nat.pow_le_pow_right (by decide) hle
      exact (fromBeBytes_lt octets).trans_le hpow

/-- The definite forms are read as the number that they encode. -/
theorem Definite.reads (h : Definite used n) (e₁ e₂ : ParseError) :
    Reads (definiteLength e₁ e₂) used (UInt64.ofNat n) := by
  cases h with
  | short b h =>
      have hb : b.toUInt64 = UInt64.ofNat b.toNat := UInt64.toNat_inj.1 (by simp)
      rw [← hb]
      exact (reads_u8 b).bind (.ite_pos h (reads_pure _))
  | long octets hpos hle =>
      have hfirst : (UInt8.ofNat (128 + octets.length)).toNat = 128 + octets.length := toNat_byte (by omega)
      have hlen : octets.length = (UInt8.ofNat (128 + octets.length)).toNat - 128 := by omega
      refine (reads_u8 _).bind (.ite_neg (by omega) (.guard (by omega) (.guard (by omega) ?_)))
      exact reads_map (reads_take_of_length hlen) _

/-- Nothing else is read as a length. -/
theorem definite_of_ok {e₁ e₂ : ParseError} {v : UInt64} (h : definiteLength e₁ e₂ buf = .ok (v, rest)) :
    ∃ used n, buf = used ++ rest ∧ Definite used n ∧ v = UInt64.ofNat n := by
  cases buf with
  | nil =>
      have hnone : definiteLength e₁ e₂ [] = .error (.truncated 1 0) := rfl
      rw [hnone] at h
      cases h
  | cons b buf =>
      rw [definiteLength, bind_of_ok (u8_cons b buf)] at h
      have hlt := b.toNat_lt
      -- Below 128 the octet is the length; otherwise its low bits say how many octets the length has.
      split at h
      case isTrue hshort =>
        obtain ⟨rfl, rfl⟩ := Prod.mk.inj (Except.ok.inj h)
        exact ⟨[b], b.toNat, rfl, .short b hshort, UInt64.toNat_inj.1 (by simp)⟩
      case isFalse hlong =>
        by_cases hzero : b.toNat - 128 = 0
        · rw [if_pos hzero] at h
          cases h
        by_cases hwide : 8 < b.toNat - 128
        · rw [if_neg hzero, if_pos hwide] at h
          cases h
        rw [if_neg hzero, if_neg hwide] at h
        obtain ⟨octets, mid, htake, hpure⟩ := bind_eq_ok.1 h
        obtain ⟨rfl, rfl⟩ := Prod.mk.inj (Except.ok.inj hpure)
        obtain ⟨rfl, hlen⟩ := take_eq_ok.1 htake
        have hb : b = UInt8.ofNat (128 + octets.length) := by
          apply UInt8.toNat_inj.1
          rw [toNat_byte (by omega)]
          omega
        refine ⟨b :: octets, _, rfl, ?_, rfl⟩
        rw [hb]
        exact .long octets (by omega) (by omega)

/-- What is said of a length that is refused does not matter to those that are accepted. -/
theorem definiteLength_ok_iff (e₁ e₂ e₃ e₄ : ParseError) {v : UInt64} :
    definiteLength e₁ e₂ buf = .ok (v, rest) ↔ definiteLength e₃ e₄ buf = .ok (v, rest) := by
  constructor
  all_goals
    intro h
    obtain ⟨used, n, rfl, hn, rfl⟩ := definite_of_ok h
    exact hn.reads _ _ rest

/-! ### Elements -/

/-- An element with a given reader of its length. -/
def element (length : ByteReader UInt64) : ByteReader (UInt8 × List UInt8) := do
  let tag ← u8
  let len ← length
  let content ← take len.toNat
  return (tag, content)

theorem exact_element {length : ByteReader UInt64} (h : Exact length) : Exact (element length) :=
  exact_u8.bind fun _ => h.bind fun _ => (exact_take _).bind fun _ => exact_pure _

theorem Tlv.reads (t : Tlv) (e₁ e₂ : ParseError) :
    Reads (element (definiteLength e₁ e₂)) t.bytes (t.tag, t.content) := by
  have hlen : (UInt64.ofNat t.content.length).toNat = t.content.length := UInt64.toNat_ofNat_of_lt' t.definite.lt
  refine (reads_u8 t.tag).bind ((t.definite.reads e₁ e₂).bind ?_)
  rw [hlen]
  exact reads_map (reads_take t.content) _

theorem snmp_readTlv_eq : Snmp.readTlv = element Snmp.berLength := rfl

theorem ldap_readTlv_eq : Ldap.readTlv = element Ldap.readDerLength := rfl

theorem reads_snmp_readTlv (t : Tlv) : Reads Snmp.readTlv t.bytes (t.tag, t.content) := by
  rw [snmp_readTlv_eq, berLength_eq]
  exact t.reads _ _

theorem reads_ldap_readTlv (t : Tlv) : Reads Ldap.readTlv t.bytes (t.tag, t.content) := by
  rw [ldap_readTlv_eq, ldap_readDerLength_eq]
  exact t.reads _ _

theorem EncodesUint.berUint {content : List UInt8} (h : EncodesUint content n) :
    Snmp.berUint content = .ok (UInt64.ofNat n) := by
  cases h with
  | octets first more hnonneg hle =>
      have hsign : ¬first &&& 0x80 ≠ 0 := not_not.2 (high_bit_eq_zero.2 hnonneg)
      have hlen : ¬8 < (first :: more).length := by
        rw [List.length_cons]
        omega
      rw [Snmp.berUint, if_neg hsign, if_neg hlen, foldl_octets]
      rfl

theorem EncodesUint.decodeUint {content : List UInt8} (h : EncodesUint content n) :
    Ldap.decodeUint content = some (UInt64.ofNat n) := by
  cases h with
  | octets first more hnonneg hle =>
      have hlen : ¬((first :: more).isEmpty = true ∨ 8 < (first :: more).length) := by
        rw [List.length_cons, List.isEmpty_cons, not_or]
        exact ⟨Bool.false_ne_true, by omega⟩
      rw [Ldap.decodeUint, if_neg hlen, foldl_octets]

/-! ### Messages -/

/-- A plugin whose parse is an exact read of the message. -/
theorem readsMessage_of_exact {p : LayerPlugin} {r : ParseCtx → ByteReader ParsedLayer} {bytes : List UInt8}
    {values : List (FieldName × Value)} (hp : ∀ bytes ctx, p.parse bytes ctx = (r ctx).parse bytes)
    (hexact : ∀ ctx, Exact (r ctx)) {layer : ParseCtx → ParsedLayer}
    (hlen : ∀ ctx, (layer ctx).headerLen = bytes.length)
    (hvalues : ∀ ctx, atDepth ctx .full = true → ∀ e ∈ values, (layer ctx).fields.get e.1 = some e.2)
    (hreads : ∀ ctx, Reads (r ctx) bytes (layer ctx)) : ReadsMessage p bytes values := by
  intro ctx
  refine ⟨layer ctx, hlen ctx, hvalues ctx, ?_, ?_⟩
  · intro more
    rw [hp]
    exact (hreads ctx).parse more
  · intro n hn
    obtain ⟨e, he⟩ := (hexact ctx).needs (hreads ctx) n hn
    refine ⟨e, ?_⟩
    rw [hp]
    exact parse_of_error he

/-- The class and the form of a tag. -/
theorem and_class {n : Nat} (hn : n < 256) : (UInt8.ofNat n &&& 0xE0).toNat = 32 * (n / 32) := by
  have h : (UInt8.ofNat n &&& 0xE0).toNat = 2 ^ 5 * ((UInt8.ofNat n).toNat / 2 ^ 5 % 2 ^ 3) :=
    (UInt8.toNat_and _ 0xE0).trans (and_run _ 5 3)
  rw [h, toNat_byte hn]
  omega

/-- The class of a tag alone. -/
theorem and_application {n : Nat} (hn : n < 256) : (UInt8.ofNat n &&& 0xC0).toNat = 64 * (n / 64) := by
  have h : (UInt8.ofNat n &&& 0xC0).toNat = 2 ^ 6 * ((UInt8.ofNat n).toNat / 2 ^ 6 % 2 ^ 2) :=
    (UInt8.toNat_and _ 0xC0).trans (and_run _ 6 2)
  rw [h, toNat_byte hn]
  omega

/-- The number of a tag. -/
theorem and_number {n : Nat} (hn : n < 256) : UInt8.ofNat n &&& 0x1F = UInt8.ofNat (n % 32) := by
  apply UInt8.toNat_inj.1
  rw [UInt8.toNat_and, toNat_byte hn, toNat_byte (by omega)]
  exact Nat.and_two_pow_sub_one_eq_mod n 5

theorem toUInt64_byte (hn : n < 256) : (UInt8.ofNat n).toUInt64 = UInt64.ofNat n := by
  apply UInt64.toNat_inj.1
  rw [UInt8.toNat_toUInt64, toNat_byte hn, UInt64.toNat_ofNat_of_lt' (Nat.lt_trans hn (by decide))]

end Readers

section Messages

variable {ctx : ParseCtx}

theorem exact_snmp : Exact (Snmp.parse ctx) := by
  have htlv : Exact Snmp.readTlv := by
    rw [snmp_readTlv_eq, berLength_eq]
    exact exact_element (exact_definiteLength _ _)
  exact (exact_measured htlv).bind fun _ => .guard <| (exact_liftM _).bind fun _ => exact_pure _

theorem exact_ldap_readTlv : Exact Ldap.readTlv := by
  rw [ldap_readTlv_eq, ldap_readDerLength_eq]
  exact exact_element (exact_definiteLength _ _)

theorem exact_ldap : Exact (Ldap.parse ctx) :=
  (exact_measured exact_ldap_readTlv).bind fun _ => .guard <| (exact_liftM _).bind fun _ => exact_pure _

theorem exact_kerberos : Exact (Kerberos.parse ctx) := by
  have hlength : Exact Kerberos.readDerLength := by
    rw [kerberos_readDerLength_eq, ldap_readDerLength_eq]
    exact exact_definiteLength _ _
  have houter : Exact Kerberos.readOuter := exact_u8.bind fun _ => .guard <| .guard <|
    hlength.bind fun _ => (exact_take _).bind fun _ => exact_pure _
  exact (exact_measured houter).bind fun _ => exact_pure _

/-- The request id, where the PDU begins with one. -/
theorem BeginsPdu.requestIdOf {t : Tlv} {o : Option Nat} (h : BeginsPdu t o) (more : List UInt8) :
    Snmp.requestIdOf (t.bytes ++ more) = o.map UInt64.ofNat := by
  rw [Snmp.requestIdOf, (reads_snmp_readTlv t).parse more]
  cases h with
  | requestId htag hn =>
      dsimp only
      rw [if_pos htag, hn.berUint]
      rfl
  | other htag => exact if_neg htag

/-- What is read of the body of a message. -/
def SnmpMessage.contents (m : SnmpMessage) : Snmp.Contents :=
  ⟨UInt64.ofNat m.versionNumber, some m.community.content, some (UInt8.ofNat m.pduType), m.requestId.map UInt64.ofNat⟩

theorem readBody_content (m : SnmpMessage) : Snmp.readBody.parse m.outer.content = .ok m.contents := by
  have hlt := m.pduType_lt
  have hversion : UInt64.ofNat m.versionNumber = 0 ∨ UInt64.ofNat m.versionNumber = 1 := by
    rcases m.version_known with h | h
    · exact .inl (by rw [h]; rfl)
    · exact .inr (by rw [h]; rfl)
  -- A PDU tag is context-specific and constructed, with the PDU type as its number.
  have hclass : m.pdu.tag &&& 0xE0 = 0xA0 := by
    apply UInt8.toNat_inj.1
    rw [m.pdu_tag, and_class (by omega), show (0xA0 : UInt8).toNat = 160 from rfl]
    omega
  have hnumber : m.pdu.tag &&& 0x1F = UInt8.ofNat m.pduType := by
    rw [m.pdu_tag, and_number (by omega), show (0xA0 + m.pduType) % 32 = m.pduType by omega]
  refine parse_eq_ok.2 ⟨m.behindPdu, ?_⟩
  rw [Snmp.readBody, m.outer_content, bind_of_ok (reads_snmp_readTlv m.version _)]
  dsimp only
  rw [if_neg (not_not.2 m.version_tag), bind_of_ok (liftM_eq_ok.2 ⟨m.version_content.berUint, rfl⟩), if_pos hversion,
    bind_of_ok (reads_snmp_readTlv m.community _)]
  dsimp only
  rw [if_neg (not_not.2 m.community_tag), bind_of_ok (reads_snmp_readTlv m.pdu _)]
  dsimp only
  rw [if_neg (not_not.2 hclass), hnumber, m.pdu_content, m.begins.requestIdOf]
  rfl

theorem snmp_reads (m : SnmpMessage) : ReadsMessage snmp m.outer.bytes m.values := by
  have hparse : ∀ ctx, Reads (Snmp.parse ctx) m.outer.bytes
      ⟨m.outer.bytes.length, insertAt ctx .full ((m.requestId.map UInt64.ofNat).toList.map fun id => ("request_id", .u64 id))
        (insertAt ctx .structural
          [("version", .u64 (UInt64.ofNat m.versionNumber)),
            ("community", .str (String.ofList (Text.lossy m.community.content))),
            ("pdu_type", .u64 (UInt8.ofNat m.pduType).toUInt64)]
          (insertAt ctx .keys [("app", .str "snmp")] FieldMap.new)), .terminal⟩ := by
    intro ctx
    rw [← List.append_nil m.outer.bytes]
    refine (reads_snmp_readTlv m.outer).measured.bind (.guard (not_not.2 m.outer_tag) ?_)
    apply (reads_liftM (readBody_content m)).bind_nil
    rw [List.append_nil]
    exact reads_pure _
  refine readsMessage_of_exact (fun _ _ => rfl) (fun _ => exact_snmp) (fun _ => rfl) ?_ hparse
  intro ctx hctx e he
  have hlt := m.pduType_lt
  rw [SnmpMessage.values, List.mem_append] at he
  -- The three structural values first, which the request id does not overwrite; then the request id.
  rcases he with he | he
  · have hname : e.1 ≠ "request_id" := by
      simp only [List.mem_cons, List.not_mem_nil, or_false] at he
      rcases he with rfl | rfl | rfl <;> simp
    dsimp only
    rw [get_insertAt_option _ _ hname, m.community_content, Text.lossy_encode, toUInt64_byte (by omega)]
    exact get_insertAt_of_mem (atDepth_of_full hctx _) (by simp) he _
  · refine get_insertAt_of_mem hctx ?_ ?_ _
    · cases m.requestId <;> simp
    · cases hid : m.requestId with
      | none => rwa [hid] at he
      | some n => rwa [hid] at he

/-- The elements that a message of LDAP begins with. -/
theorem readContent_content (m : LdapMessage) :
    Ldap.readContent.parse m.outer.content =
      .ok (UInt64.ofNat m.messageId, UInt8.ofNat m.operation, m.op.content) := by
  have hlt := m.operation_lt
  have hbit : (if m.constructed then 0x20 else 0 : Nat) = 0 ∨ (if m.constructed then 0x20 else 0 : Nat) = 32 := by
    cases m.constructed
    · exact .inl rfl
    · exact .inr rfl
  have hop := m.op_tag
  generalize (if m.constructed then 0x20 else 0 : Nat) = bit at hbit hop
  have hclass : m.op.tag &&& 0xC0 = 0x40 := by
    apply UInt8.toNat_inj.1
    rw [hop, and_application (by omega), show (0x40 : UInt8).toNat = 64 from rfl]
    omega
  have hnumber : m.op.tag &&& 0x1F = UInt8.ofNat m.operation := by
    rw [hop, and_number (by omega), show (0x40 + bit + m.operation) % 32 = m.operation by omega]
  refine parse_eq_ok.2 ⟨m.controls, ?_⟩
  rw [Ldap.readContent, m.outer_content, bind_of_ok (reads_ldap_readTlv m.id _)]
  dsimp only
  rw [if_neg (not_not.2 m.id_tag), m.id_content.decodeUint]
  dsimp only
  rw [pure_bind, bind_of_ok (reads_ldap_readTlv m.op _)]
  dsimp only
  rw [if_neg (not_not.2 hclass), hnumber]
  rfl

theorem ldap_reads (m : LdapMessage) : ReadsMessage ldap m.outer.bytes m.values := by
  have hparse : ∀ ctx, Reads (Ldap.parse ctx) m.outer.bytes
      ⟨m.outer.bytes.length, insertAt ctx .full
        ((if UInt8.ofNat m.operation = 0 then Ldap.readBindDn m.op.content else none).toList.map
          fun dn => ("bind_dn", .str (String.ofList dn)))
        (insertAt ctx .structural
          [("message_id", .u64 (UInt64.ofNat m.messageId)), ("protocol_op", .u64 (UInt8.ofNat m.operation).toUInt64)]
          (insertAt ctx .keys [("app", .str "ldap")] FieldMap.new)), .terminal⟩ := by
    intro ctx
    rw [← List.append_nil m.outer.bytes]
    refine (reads_ldap_readTlv m.outer).measured.bind (.guard (not_not.2 m.outer_tag) ?_)
    apply (reads_liftM (readContent_content m)).bind_nil
    rw [List.append_nil]
    exact reads_pure _
  refine readsMessage_of_exact (fun _ _ => rfl) (fun _ => exact_ldap) (fun _ => rfl) ?_ hparse
  intro ctx hctx e he
  have hlt := m.operation_lt
  have hname : e.1 ≠ "bind_dn" := by
    simp only [LdapMessage.values, List.mem_cons, List.not_mem_nil, or_false] at he
    rcases he with rfl | rfl <;> simp
  dsimp only
  rw [get_insertAt_option _ _ hname, toUInt64_byte (by omega)]
  have hnodup : (m.values.map Prod.fst).Nodup := by simp [LdapMessage.values]
  exact get_insertAt_of_mem (atDepth_of_full hctx _) hnodup he _

theorem kerberos_reads (m : KerberosMessage) : ReadsMessage kerberos m.outer.bytes m.values := by
  have hrange : 10 ≤ m.msgType ∧ m.msgType ≤ 30 := by
    have hknown := m.known
    simp only [List.mem_cons, List.not_mem_nil, or_false] at hknown
    omega
  -- The application tag number is the message type, and only the known types pass.
  have hclass : m.outer.tag &&& 0xE0 = 0x60 := by
    apply UInt8.toNat_inj.1
    rw [m.outer_tag, and_class (by omega), show (0x60 : UInt8).toNat = 96 from rfl]
    omega
  have hnumber : m.outer.tag &&& 0x1F = UInt8.ofNat m.msgType := by
    rw [m.outer_tag, and_number (by omega), show (0x60 + m.msgType) % 32 = m.msgType by omega]
  have hknown : Kerberos.isRecognizedMsgType (UInt8.ofNat m.msgType) = true := by
    rw [Kerberos.isRecognizedMsgType, decide_eq_true_eq]
    exact List.mem_map_of_mem (f := UInt8.ofNat) m.known
  have hlen : (UInt64.ofNat m.outer.content.length).toNat = m.outer.content.length :=
    UInt64.toNat_ofNat_of_lt' m.outer.definite.lt
  have houter : Reads Kerberos.readOuter m.outer.bytes (UInt8.ofNat m.msgType, UInt64.ofNat m.outer.content.length) := by
    refine (reads_u8 m.outer.tag).bind (.guard (not_not.2 hclass) ?_)
    dsimp only
    rw [hnumber, kerberos_readDerLength_eq, ldap_readDerLength_eq]
    refine .guard (not_not.2 hknown) ((m.outer.definite.reads _ _).bind ?_)
    rw [hlen]
    exact reads_map (reads_take m.outer.content) _
  refine readsMessage_of_exact (fun _ _ => rfl) (fun _ => exact_kerberos) (fun _ => rfl) ?_
    fun ctx => reads_map houter.measured _
  intro ctx hctx e he
  dsimp only
  rw [toUInt64_byte (by omega)]
  have hnodup : (m.values.map Prod.fst).Nodup := by simp [KerberosMessage.values]
  exact get_insertAt_of_mem (atDepth_of_full hctx _) hnodup he _

/-- The three readers of lengths accept the same bytes, as the same length, and all the definite forms as the number
that they encode; and each plugin reads every message that it knows as the outer element and its values. -/
theorem ber_messages :
    (∀ buf rest v, (Snmp.berLength buf = .ok (v, rest) ↔ Ldap.readDerLength buf = .ok (v, rest)) ∧
      (Snmp.berLength buf = .ok (v, rest) ↔ Kerberos.readDerLength buf = .ok (v, rest))) ∧
    (∀ used n, Definite used n → n < 2 ^ 64 ∧ Reads Snmp.berLength used (UInt64.ofNat n)) ∧
    (∀ m : SnmpMessage, ReadsMessage snmp m.outer.bytes m.values) ∧
    (∀ m : LdapMessage, ReadsMessage ldap m.outer.bytes m.values) ∧
    ∀ m : KerberosMessage, ReadsMessage kerberos m.outer.bytes m.values := by
  refine ⟨fun buf rest v => ?_, fun used n hn => ⟨hn.lt, ?_⟩, snmp_reads, ldap_reads, kerberos_reads⟩
  · rw [kerberos_readDerLength_eq, and_self, berLength_eq, ldap_readDerLength_eq]
    exact definiteLength_ok_iff _ _ _ _
  · rw [berLength_eq]
    exact hn.reads _ _

/-- An element with the short form of its length. -/
def shortTlv (tag : UInt8) (content : List UInt8) (h : content.length < 128) : Tlv where
  tag := tag
  length := [UInt8.ofNat content.length]
  content := content
  definite := by
    have hlen : (UInt8.ofNat content.length).toNat = content.length :=
      UInt8.toNat_ofNat_of_lt' (Nat.lt_trans h (by decide))
    have hshort := Definite.short (UInt8.ofNat content.length) (by omega)
    rwa [hlen] at hshort

/-- A GetRequest of SNMPv1 to the community `public`, of no variables. -/
def getRequest : SnmpMessage where
  outer := shortTlv 0x30
    [2, 1, 0, 4, 6, 0x70, 0x75, 0x62, 0x6C, 0x69, 0x63, 0xA0, 11, 2, 1, 5, 2, 1, 0, 2, 1, 0, 0x30, 0] (by simp)
  version := shortTlv 2 [0] (by simp)
  community := shortTlv 4 [0x70, 0x75, 0x62, 0x6C, 0x69, 0x63] (by simp)
  pdu := shortTlv 0xA0 [2, 1, 5, 2, 1, 0, 2, 1, 0, 0x30, 0] (by simp)
  first := shortTlv 2 [5] (by simp)
  versionNumber := 0
  communityName := ['p', 'u', 'b', 'l', 'i', 'c']
  pduType := 0
  requestId := some 5
  behindFirst := [2, 1, 0, 2, 1, 0, 0x30, 0]
  behindPdu := []
  outer_tag := rfl
  outer_content := rfl
  version_tag := rfl
  version_content := .octets 0 [] (by simp) (by simp)
  version_known := .inl rfl
  community_tag := rfl
  community_content := rfl
  pdu_tag := rfl
  pduType_lt := by simp
  pdu_content := rfl
  begins := .requestId rfl (.octets 5 [] (by simp) (by simp))

example : (snmp.parse (getRequest.outer.bytes ++ [0xFF]) ⟨[], .full, ⟨0, 27, 27, 1⟩⟩).toOption.map (fun layer =>
    (layer.headerLen, getRequest.values.map fun e => layer.fields.get e.1)) =
    some (26, [some (.u64 0), some (.str "public"), some (.u64 0), some (.u64 5)]) := by
  decide

/-- A BindRequest of LDAP with a simple, empty password. -/
def bindRequest : LdapMessage where
  outer := shortTlv 0x30 [2, 1, 1, 0x60, 11, 2, 1, 3, 4, 4, 0x63, 0x6E, 0x3D, 0x61, 0x80, 0] (by simp)
  id := shortTlv 2 [1] (by simp)
  op := shortTlv 0x60 [2, 1, 3, 4, 4, 0x63, 0x6E, 0x3D, 0x61, 0x80, 0] (by simp)
  messageId := 1
  operation := 0
  constructed := true
  controls := []
  outer_tag := rfl
  outer_content := rfl
  id_tag := rfl
  id_content := .octets 1 [] (by simp) (by simp)
  op_tag := rfl
  operation_lt := by simp

example : (ldap.parse bindRequest.outer.bytes ⟨[], .full, ⟨0, 18, 18, 1⟩⟩).toOption.map (fun layer =>
    (layer.headerLen, bindRequest.values.map fun e => layer.fields.get e.1)) =
    some (18, [some (.u64 1), some (.u64 0)]) := by
  decide

/-- An AS-REQ of Kerberos; the plugin does not look into it. -/
def asReq : KerberosMessage where
  outer := shortTlv 0x6A [0x30, 0] (by simp)
  msgType := 10
  outer_tag := rfl
  known := by simp

example : (kerberos.parse asReq.outer.bytes ⟨[], .full, ⟨0, 4, 4, 1⟩⟩).toOption.map (fun layer =>
    (layer.headerLen, asReq.values.map fun e => layer.fields.get e.1)) =
    some (4, [some (.u64 10), some (.u64 2)]) := by
  decide

/-- A message of a type that the plugin does not know, KRB-SAFE, is declined. -/
theorem not_readsMessage_krbSafe : ∃ t : Tlv, t.tag = UInt8.ofNat (0x60 + 20) ∧
    ∀ values, ¬ReadsMessage kerberos t.bytes values := by
  refine ⟨⟨0x74, [0], [], .short 0 (by decide)⟩, rfl, ?_⟩
  intro values h
  obtain ⟨layer, -, -, hparse, -⟩ := h ⟨[], .full, ⟨0, 0, 0, 0⟩⟩
  have hdeclined := hparse []
  rw [show kerberos.parse ((⟨0x74, [0], [], .short 0 (by decide)⟩ : Tlv).bytes ++ []) ⟨[], .full, ⟨0, 0, 0, 0⟩⟩ =
    .error (.malformed "unrecognized Kerberos msg-type") from rfl] at hdeclined
  cases hdeclined

end Messages

end Pktflow.Plugins

import Pktflow.Core.Looping
import Pktflow.Plugins.Bgp

/-!
# IPFIX messages

Model of `ipfix.rs`. A message is its declared length and holds sets, each with its own; a Template Set lists
templates, whose fields carry an enterprise number if a bit says so. The lengths of the sets add up to the body
(`sets_length`), and templates are read back from their set (`decodeTemplateRecords_bytes`).
-/

set_option autoImplicit false

namespace Pktflow.Plugins

open Pktflow.Core Pktflow.Core.ByteReader Pktflow.Flows

/-! ## The plugin -/

/-- `ENTERPRISE_BIT`. -/
def enterpriseBit : UInt16 := 0x8000

/-- A Field Specifier: the information element, the length, and the enterprise number or 0. -/
structure FieldSpecifier where
  ieId : UInt16
  length : UInt16
  enterpriseNumber : UInt32
  deriving DecidableEq

/-- A Template Record. -/
structure TemplateRecord where
  templateId : UInt16
  fieldCount : UInt16
  fieldDefs : List FieldSpecifier
  deriving DecidableEq

/-- One Field Specifier. -/
def fieldSpecifier : ByteReader FieldSpecifier := do
  let rawIeId ← u16Be
  let fieldLength ← u16Be
  if rawIeId &&& enterpriseBit ≠ 0 then
    let enterpriseNumber ← u32Be
    return ⟨rawIeId &&& ~~~enterpriseBit, fieldLength, enterpriseNumber⟩
  else return ⟨rawIeId, fieldLength, 0⟩

/-- As many Field Specifiers as are announced. -/
def fieldSpecifiers : Nat → List FieldSpecifier → ByteReader (List FieldSpecifier)
  | 0, out => return out
  | n + 1, out => do
      let f ← fieldSpecifier
      fieldSpecifiers n (out ++ [f])

/-- One record in `decode_template_records`. -/
def templateRecord (records : List TemplateRecord) : ByteReader (List TemplateRecord) := do
  let templateId ← u16Be
  let fieldCount ← u16Be
  let fieldDefs ← fieldSpecifiers fieldCount.toNat []
  return records ++ [⟨templateId, fieldCount, fieldDefs⟩]

/-- `decode_template_records`. -/
def decodeTemplateRecords (body : List UInt8) : Except ParseError (List TemplateRecord) :=
  (whileLeft 4 templateRecord []).parse body

/-- The body of a set: templates, or bytes that only a template explains. -/
inductive SetPayload where
  | templates (records : List TemplateRecord)
  | raw (body : List UInt8)
  deriving DecidableEq

/-- A set as it is reported. -/
structure IpfixSet where
  setId : UInt16
  setLen : Nat
  payload : SetPayload
  deriving DecidableEq

/-- The payload of a set by its id. -/
def setPayload (setId : UInt16) (body : List UInt8) : Except ParseError SetPayload :=
  if setId = 2 then return .templates (← decodeTemplateRecords body) else .ok (.raw body)

/-- One set in `Ipfix::parse`. -/
def ipfixSet (sets : List IpfixSet) : ByteReader (List IpfixSet) := do
  let setId ← u16Be
  let setLen ← u16Be
  if setLen.toNat < 4 then throw (.malformed "IPFIX: Set length under 4")
  let body ← take (setLen.toNat - 4)
  let payload ← liftM (setPayload setId body)
  return sets ++ [⟨setId, setLen.toNat, payload⟩]

/-- A Field Specifier as a value. -/
def FieldSpecifier.toValue (f : FieldSpecifier) : Value :=
  .list [.u64 f.ieId.toUInt64, .u64 f.length.toUInt64, .u64 f.enterpriseNumber.toUInt64]

/-- A Template Record as a value. -/
def TemplateRecord.toValue (t : TemplateRecord) : Value :=
  .list [.u64 t.templateId.toUInt64, .u64 t.fieldCount.toUInt64, .list (t.fieldDefs.map FieldSpecifier.toValue)]

/-- A payload as a value. -/
def SetPayload.toValue : SetPayload → Value
  | .templates records => .list (records.map TemplateRecord.toValue)
  | .raw body => .bytes body

/-- A set as a value. -/
def IpfixSet.toValue (s : IpfixSet) : Value :=
  .list [.u64 s.setId.toUInt64, .u64 (UInt64.ofNat s.setLen), s.payload.toValue]

/-- `Ipfix::parse`. -/
def parseIpfix (ctx : ParseCtx) : ByteReader ParsedLayer := do
  let version ← u16Be
  if version ≠ 10 then throw (.malformed "IPFIX: version is not 10")
  let length ← u16Be
  let _ ← u32Be
  let sequence ← u32Be
  let domainId ← u32Be
  if length.toNat < 16 then throw (.malformed "IPFIX: length below fixed header")
  let body ← take (length.toNat - 16)
  let sets ← liftM ((whileLeft 4 ipfixSet []).parse body)
  let fields := insertAt ctx .full [("sets", .list (sets.map IpfixSet.toValue))]
    (insertAt ctx .structural
      [("version", .u64 version.toUInt64), ("length", .u64 length.toUInt64), ("sequence", .u64 sequence.toUInt64),
        ("domain_id", .u64 domainId.toUInt64)]
      (insertAt ctx .keys [("app", .str "ipfix")] FieldMap.new))
  return ⟨length.toNat, fields, .terminal⟩

/-- `Ipfix`. -/
def ipfix : LayerPlugin where
  name := "ipfix"
  parse := fun bytes ctx => (parseIpfix ctx).parse bytes
  claims := [.udpPort 4739]
  streamIdentity := some
    { key := [⟨"app", none⟩], canonicalize := .endpointSort, lifecycle := none,
      rollups := [⟨"domain_id", .accumulate⟩] }

/-! ## Templates -/

/-- A field of a template: one of the standard's elements, or one of an enterprise. -/
inductive TemplateField where
  | standard (ieId length : UInt16) (hid : ieId.toNat < 32768)
  | enterprise (ieId length : UInt16) (hid : ieId.toNat < 32768) (number : UInt32)

namespace TemplateField

/-- The field as it is sent. -/
def bytes : TemplateField → List UInt8
  | standard ieId length _ => Lib.beBytes 2 ieId.toNat ++ Lib.beBytes 2 length.toNat
  | enterprise ieId length _ number =>
      Lib.beBytes 2 (32768 + ieId.toNat) ++ (Lib.beBytes 2 length.toNat ++ Lib.beBytes 4 number.toNat)

/-- The field as it is reported. -/
def specifier : TemplateField → FieldSpecifier
  | standard ieId length _ => ⟨ieId, length, 0⟩
  | enterprise ieId length _ number => ⟨ieId, length, number⟩

end TemplateField

/-- A template: its id and its fields. -/
structure Template where
  id : UInt16
  fields : List TemplateField
  fits : fields.length < 65536

namespace Template

/-- The template as it is sent. -/
def bytes (t : Template) : List UInt8 :=
  Lib.beBytes 2 t.id.toNat ++ (Lib.beBytes 2 t.fields.length ++ t.fields.flatMap TemplateField.bytes)

/-- The template as it is reported. -/
def record (t : Template) : TemplateRecord :=
  ⟨t.id, UInt16.ofNat t.fields.length, t.fields.map TemplateField.specifier⟩

end Template

section Templates

variable {ctx : ParseCtx} {buf rest bytes : List UInt8}

/-- The enterprise bit of a word, and the element behind it. -/
theorem enterpriseBit_and {n : Nat} (hn : n < 32768) :
    UInt16.ofNat n &&& enterpriseBit = 0 ∧ UInt16.ofNat (32768 + n) &&& enterpriseBit ≠ 0 ∧
      UInt16.ofNat (32768 + n) &&& ~~~enterpriseBit = UInt16.ofNat n := by
  have hbit : enterpriseBit.toNat = 2 ^ 15 * (2 ^ 1 - 1) := rfl
  have hmask : (~~~enterpriseBit).toNat = 2 ^ 15 - 1 := rfl
  have hlow : (UInt16.ofNat n).toNat = n := UInt16.toNat_ofNat_of_lt' (Nat.lt_trans hn (by decide))
  have hhigh : (UInt16.ofNat (32768 + n)).toNat = 32768 + n :=
    UInt16.toNat_ofNat_of_lt' (show 32768 + n < 65536 by omega)
  refine ⟨?_, ?_, ?_⟩
  · apply UInt16.toNat_inj.1
    rw [UInt16.toNat_and, hbit, hlow, and_run, show (0 : UInt16).toNat = 0 from rfl]
    omega
  · intro h
    have h := congrArg UInt16.toNat h
    rw [UInt16.toNat_and, hbit, hhigh, and_run, show (0 : UInt16).toNat = 0 from rfl] at h
    omega
  · apply UInt16.toNat_inj.1
    rw [UInt16.toNat_and, hmask, hhigh, hlow, Nat.and_two_pow_sub_one_eq_mod]
    omega

theorem reads_fieldSpecifier (f : TemplateField) : Reads fieldSpecifier f.bytes f.specifier := by
  cases f with
  | standard ieId length hid =>
      obtain ⟨hbit, -, -⟩ := enterpriseBit_and hid
      rw [UInt16.ofNat_toNat] at hbit
      have hlast : Reads (if ieId &&& enterpriseBit ≠ 0 then do
            let enterpriseNumber ← u32Be
            return ⟨ieId &&& ~~~enterpriseBit, length, enterpriseNumber⟩
          else return ⟨ieId, length, 0⟩ : ByteReader FieldSpecifier) [] ⟨ieId, length, 0⟩ :=
        .ite_neg (not_not.2 hbit) (reads_pure _)
      have hread := (reads_u16Be_toNat length).bind (f := fun length =>
        if ieId &&& enterpriseBit ≠ 0 then do
            let enterpriseNumber ← u32Be
            return ⟨ieId &&& ~~~enterpriseBit, length, enterpriseNumber⟩
          else (return ⟨ieId, length, 0⟩ : ByteReader FieldSpecifier)) hlast
      rw [List.append_nil] at hread
      exact (reads_u16Be_toNat ieId).bind hread
  | enterprise ieId length hid number =>
      obtain ⟨-, hbit, helement⟩ := enterpriseBit_and hid
      rw [UInt16.ofNat_toNat] at helement
      refine (reads_u16Be (32768 + ieId.toNat)).bind ((reads_u16Be_toNat length).bind (.ite_pos hbit ?_))
      rw [helement]
      exact reads_map (reads_u32Be_toNat number) _

theorem reads_fieldSpecifiers (fs : List TemplateField) (out : List FieldSpecifier) :
    Reads (fieldSpecifiers fs.length out) (fs.flatMap TemplateField.bytes)
      (out ++ fs.map TemplateField.specifier) := by
  induction fs generalizing out with
  | nil =>
      rw [List.map_nil, List.append_nil]
      exact reads_pure out
  | cons f fs ih =>
      have hrest := ih (out ++ [f.specifier])
      rw [List.append_assoc] at hrest
      exact (reads_fieldSpecifier f).bind hrest

theorem reads_templateRecord (t : Template) (records : List TemplateRecord) :
    Reads (templateRecord records) t.bytes (records ++ [t.record]) := by
  have hlen : (UInt16.ofNat t.fields.length).toNat = t.fields.length := UInt16.toNat_ofNat_of_lt' t.fits
  rw [Template.bytes]
  refine (reads_u16Be_toNat t.id).bind ((reads_u16Be t.fields.length).bind ?_)
  rw [hlen]
  exact reads_map (reads_fieldSpecifiers t.fields []) _

theorem exact_fieldSpecifier : Exact fieldSpecifier :=
  exact_u16Be.bind fun _ => exact_u16Be.bind fun _ =>
    .ite (fun _ => exact_u32Be.bind fun _ => exact_pure _) fun _ => exact_pure _

theorem exact_fieldSpecifiers (n : Nat) (out : List FieldSpecifier) : Exact (fieldSpecifiers n out) := by
  induction n generalizing out with
  | zero => exact exact_pure out
  | succ n ih => exact exact_fieldSpecifier.bind fun f => ih _

theorem progresses_templateRecord : ItemProgresses templateRecord := by
  intro records buf records' rest h
  refine takes_u16Be.bind_lt (by decide) (fun _ => exact_u16Be.bind fun n => ?_) h
  exact (exact_fieldSpecifiers _ _).bind fun _ => exact_pure _

theorem Template.bytes_length (t : Template) : 4 ≤ t.bytes.length := by
  simp only [Template.bytes, List.length_append, Lib.length_beBytes]
  omega

/-- Templates are read back from a Template Set, whatever its padding. -/
theorem decodeTemplateRecords_bytes (ts : List Template) {padding : List UInt8} (h : padding.length < 4) :
    decodeTemplateRecords (ts.flatMap Template.bytes ++ padding) = .ok (ts.map Template.record) :=
  whileLeft_collect progresses_templateRecord (fun t _ => Template.bytes_length t)
    (fun t _ records => reads_templateRecord t records) h

end Templates

/-! ## Messages -/

/-- A set that is sent: a Template Set with its padding, or one that only a template explains. -/
inductive SentSet where
  | templates (ts : List Template) (padding : List UInt8) (hpadding : padding.length < 4)
  | raw (id : UInt16) (body : List UInt8) (hid : id ≠ 2)

namespace SentSet

/-- The id of the set. -/
def id : SentSet → UInt16
  | templates .. => 2
  | raw id .. => id

/-- The body of the set. -/
def body : SentSet → List UInt8
  | templates ts padding _ => ts.flatMap Template.bytes ++ padding
  | raw _ body _ => body

/-- What its body says. -/
def payload : SentSet → SetPayload
  | templates ts .. => .templates (ts.map Template.record)
  | raw _ body _ => .raw body

/-- The set as it is sent. -/
def bytes (s : SentSet) : List UInt8 :=
  Lib.beBytes 2 s.id.toNat ++ (Lib.beBytes 2 (4 + s.body.length) ++ s.body)

/-- The set as it is reported. -/
def report (s : SentSet) : IpfixSet := ⟨s.id, 4 + s.body.length, s.payload⟩

end SentSet

/-- A message: sets, and a tail too short for one more. -/
structure IpfixMessage where
  exportTime : UInt32
  sequence : UInt32
  domainId : UInt32
  sets : List SentSet
  tail : List UInt8
  tail_lt : tail.length < 4
  fits : 16 + (sets.flatMap SentSet.bytes ++ tail).length < 65536

namespace IpfixMessage

/-- The body of the message. -/
def body (m : IpfixMessage) : List UInt8 := m.sets.flatMap SentSet.bytes ++ m.tail

/-- The message as it is sent. -/
def bytes (m : IpfixMessage) : List UInt8 :=
  Lib.beBytes 2 10 ++ (Lib.beBytes 2 (16 + m.body.length) ++ (Lib.beBytes 4 m.exportTime.toNat ++
    (Lib.beBytes 4 m.sequence.toNat ++ (Lib.beBytes 4 m.domainId.toNat ++ m.body))))

end IpfixMessage

section Messages

variable {ctx : ParseCtx} {buf rest bytes : List UInt8}

theorem SentSet.bytes_length (s : SentSet) : s.bytes.length = 4 + s.body.length := by
  simp only [SentSet.bytes, List.length_append, Lib.length_beBytes]
  omega

theorem setPayload_body (s : SentSet) : setPayload s.id s.body = .ok s.payload := by
  cases s with
  | templates ts padding hpadding =>
      rw [setPayload, SentSet.id, if_pos rfl, SentSet.body, decodeTemplateRecords_bytes ts hpadding]
      rfl
  | raw id body hid => exact if_neg hid

theorem reads_ipfixSet {s : SentSet} (hfits : 4 + s.body.length < 65536) (sets : List IpfixSet) :
    Reads (ipfixSet sets) s.bytes (sets ++ [s.report]) := by
  have hlen : (UInt16.ofNat (4 + s.body.length)).toNat = 4 + s.body.length := UInt16.toNat_ofNat_of_lt' hfits
  rw [SentSet.bytes]
  refine (reads_u16Be_toNat s.id).bind ((reads_u16Be (4 + s.body.length)).bind (.guard (by rw [hlen]; omega) ?_))
  intro more
  rw [hlen, Nat.add_sub_cancel_left]
  apply (bind_of_ok (reads_take s.body more)).trans
  rw [setPayload_body]
  rfl

theorem progresses_ipfixSet : ItemProgresses ipfixSet := by
  intro sets buf sets' rest h
  refine takes_u16Be.bind_lt (by decide) (fun _ => exact_u16Be.bind fun _ => .guard ?_) h
  exact (exact_take _).bind fun _ => (exact_liftM _).bind fun _ => exact_pure _

/-- The lengths of the sets add up to the body, but for a tail too short for one more. -/
theorem sets_length {sets : List IpfixSet} (h : (whileLeft 4 ipfixSet []).parse bytes = .ok sets) :
    ∃ tail, tail < 4 ∧ (sets.map IpfixSet.setLen).sum + tail = bytes.length := by
  obtain ⟨rest, hread⟩ := parse_eq_ok.1 h
  -- Each set takes as many bytes as it declares: the sum so far and the bytes left stay the whole.
  have hstep : ∀ sets buf sets' rest, 4 ≤ buf.length → ipfixSet sets buf = .ok (sets', rest) →
      (sets.map IpfixSet.setLen).sum + buf.length = bytes.length →
        (sets'.map IpfixSet.setLen).sum + rest.length = bytes.length := by
    intro sets buf sets' rest _ hitem hsum
    obtain ⟨setId, buf₁, hid, hread⟩ := bind_eq_ok.1 hitem
    obtain ⟨setLen, buf₂, hlen, hread⟩ := bind_eq_ok.1 hread
    split at hread
    · cases hread
    · rename_i hfour
      obtain ⟨body, buf₃, hbody, hread⟩ := bind_eq_ok.1 hread
      obtain ⟨payload, buf₄, hpayload, hpure⟩ := bind_eq_ok.1 hread
      have h₁ := takes_u16Be _ _ _ hid
      have h₂ := takes_u16Be _ _ _ hlen
      have h₃ := takes_take _ _ _ _ hbody
      obtain ⟨-, rfl⟩ := liftM_eq_ok.1 hpayload
      obtain ⟨rfl, rfl⟩ := pure_eq_ok.1 hpure
      rw [List.map_append, List.sum_append, List.map_singleton, List.sum_singleton]
      dsimp only
      omega
  obtain ⟨hall, hlt⟩ := whileLeft_induction progresses_ipfixSet hstep hread (by simp)
  exact ⟨rest.length, hlt, hall⟩

theorem honestHeader_ipfix : HonestHeader ipfix := by
  refine honestHeader_of_exact (r := parseIpfix) (fun _ _ => rfl) ?_ ?_ fun _ => ⟨_, rfl⟩
  · intro ctx
    refine exact_u16Be.bind fun version => .guard ?_
    refine exact_u16Be.bind fun length => exact_u32Be.bind fun _ => exact_u32Be.bind fun _ => exact_u32Be.bind fun _ =>
      .guard ?_
    exact (exact_take _).bind fun _ => (exact_liftM _).bind fun _ => exact_pure _
  · intro ctx
    refine takes_u16Be.bind fun version => .guard fun _ => ?_
    refine takes_u16Be.bind fun length => takes_u32Be.bind fun _ => takes_u32Be.bind fun _ => takes_u32Be.bind fun _ =>
      .guard fun hlen => ?_
    refine (takes_take _).bind fun _ => (takes_liftM _).bind fun _ => counts_pure ?_
    simp only
    omega

/-- The sets at `Full`. -/
theorem get_sets (hctx : ctx.depth = .full) (v : Value) (version length : UInt16) (sequence domainId : UInt32) :
    (insertAt ctx .full [("sets", v)]
      (insertAt ctx .structural
        [("version", .u64 version.toUInt64), ("length", .u64 length.toUInt64), ("sequence", .u64 sequence.toUInt64),
          ("domain_id", .u64 domainId.toUInt64)]
        (insertAt ctx .keys [("app", .str "ipfix")] FieldMap.new))).get "sets" = some v := by
  have hfull : atDepth ctx .full = true := atDepth_of_depth hctx .full
  rw [insertAt, if_pos hfull]
  exact (FieldMap.get_insert ..).trans (if_pos rfl)

/-- What a parse has read: the two words in front, and the sets. -/
theorem parse_ipfix_eq_ok {layer : ParsedLayer} (h : ipfix.parse bytes ctx = .ok layer) :
    ∃ version word behind body sets, bytes = version ++ (word ++ behind) ∧ version.length = 2 ∧ word.length = 2 ∧
      layer.headerLen = fromBeBytes word ∧ layer.headerLen = 16 + body.length ∧
        (whileLeft 4 ipfixSet []).parse body = .ok sets ∧
          (ctx.depth = .full → layer.fields.get "sets" = some (.list (sets.map IpfixSet.toValue))) := by
  obtain ⟨rest, hread⟩ := parse_eq_ok.1 h
  obtain ⟨version, buf₁, hversion, hread⟩ := bind_eq_ok.1 hread
  split at hread
  · cases hread
  · obtain ⟨length, buf₂, hlength, hread⟩ := bind_eq_ok.1 hread
    obtain ⟨time, buf₃, htime, hread⟩ := bind_eq_ok.1 hread
    obtain ⟨sequence, buf₄, hsequence, hread⟩ := bind_eq_ok.1 hread
    obtain ⟨domainId, buf₅, hdomain, hread⟩ := bind_eq_ok.1 hread
    -- A length below sixteen is refused, so the body is the declared length less the header.
    split at hread
    · cases hread
    · rename_i hsixteen
      obtain ⟨body, buf₆, hbody, hread⟩ := bind_eq_ok.1 hread
      obtain ⟨sets, buf₇, hsets, hpure⟩ := bind_eq_ok.1 hread
      obtain ⟨vs, rfl, hvs, rfl⟩ := u16Be_eq_ok.1 hversion
      obtain ⟨word, rfl, hword, rfl⟩ := u16Be_eq_ok.1 hlength
      obtain ⟨rfl, hblen⟩ := take_eq_ok.1 hbody
      obtain ⟨hsets', rfl⟩ := liftM_eq_ok.1 hsets
      obtain ⟨rfl, rfl⟩ := pure_eq_ok.1 hpure
      have hlt := fromBeBytes_lt word
      rw [hword] at hlt
      have hvalue : (UInt16.ofNat (fromBeBytes word)).toNat = fromBeBytes word := UInt16.toNat_ofNat_of_lt' hlt
      refine ⟨vs, word, _, body, sets, rfl, hvs, hword, hvalue, ?_, hsets', fun hctx => get_sets hctx ..⟩
      rw [hblen]
      dsimp only
      omega

/-- The sets of a message are reported as they were sent. -/
theorem parse_ipfix_bytes (m : IpfixMessage) (more : List UInt8) :
    ∃ layer, ipfix.parse (m.bytes ++ more) ctx = .ok layer ∧ (ctx.depth = .full →
      layer.fields.get "sets" = some (.list (m.sets.map fun s => s.report.toValue))) := by
  have hlen : (UInt16.ofNat (16 + m.body.length)).toNat = 16 + m.body.length := UInt16.toNat_ofNat_of_lt' m.fits
  have hsets : (whileLeft 4 ipfixSet []).parse m.body = .ok (m.sets.map SentSet.report) := by
    refine whileLeft_collect progresses_ipfixSet (fun s _ => by rw [s.bytes_length]; omega) (fun s hs sets => ?_)
      m.tail_lt
    -- a set is no longer than the body that holds it
    have hle : s.bytes.length ≤ (m.sets.flatMap SentSet.bytes).length := by
      rw [List.length_flatMap]
      exact List.single_le_sum (fun _ _ => Nat.zero_le _) _ (List.mem_map_of_mem hs)
    have hfits := m.fits
    rw [List.length_append] at hfits
    rw [s.bytes_length] at hle
    exact reads_ipfixSet (by omega) sets
  have hread : ∃ layer, parseIpfix ctx (m.bytes ++ more) = .ok (layer, more) ∧ (ctx.depth = .full →
      layer.fields.get "sets" = some (.list (m.sets.map fun s => s.report.toValue))) := by
    rw [parseIpfix, IpfixMessage.bytes, List.append_assoc, bind_of_ok (reads_u16Be _ _), if_neg (by decide)]
    beta_reduce
    rw [List.append_assoc, bind_of_ok (reads_u16Be _ _), List.append_assoc, bind_of_ok (reads_u32Be _ _),
      List.append_assoc, bind_of_ok (reads_u32Be _ _), List.append_assoc, bind_of_ok (reads_u32Be _ _),
      if_neg (by rw [hlen]; omega)]
    beta_reduce
    rw [hlen, Nat.add_sub_cancel_left, bind_of_ok (reads_take m.body more), hsets]
    refine ⟨_, rfl, fun hctx => ?_⟩
    rw [get_sets hctx, List.map_map]
    rfl
  obtain ⟨layer, hlayer, hget⟩ := hread
  exact ⟨layer, parse_eq_ok.2 ⟨more, hlayer⟩, hget⟩

/-- A message of one set that only a template explains, and a tail of two bytes. -/
def ipfixMessage : IpfixMessage where
  exportTime := 1700000000
  sequence := 1
  domainId := 7
  sets := [.raw 256 [192, 0, 2, 1] (by simp)]
  tail := [0, 0]
  tail_lt := by simp
  fits := by simp [SentSet.bytes, SentSet.body, Lib.length_beBytes]

example : (ipfix.parse ipfixMessage.bytes ⟨[], .full, ⟨0, 26, 26, 1⟩⟩).toOption.map (fun layer =>
    (layer.headerLen, layer.fields.get "sets")) =
    some (26, some (.list [(⟨256, 8, .raw [192, 0, 2, 1]⟩ : IpfixSet).toValue])) := by
  decide

end Messages

end Pktflow.Plugins

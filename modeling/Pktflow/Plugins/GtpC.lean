import Pktflow.Lib.Utf8Decode
import Pktflow.Plugins.GtpU

/-!
# GTP-C

Model of `gtp_c.rs`. Both versions declare their length, which the header is. The information elements are walked
from a place that leaves the extension headers of version 1 out of account: behind them the elements are read only
if their bytes happen to tell the same (`readsGtpC_iff`).
-/

set_option autoImplicit false

namespace Pktflow.Plugins

open Pktflow.Core Pktflow.Core.ByteReader Pktflow.Flows Pktflow.Lib

/-! ## The plugin -/

/-- The digits of `decode_bcd_digits`, two in an octet, the low nibble first. -/
def nibbles (bytes : List UInt8) : List UInt8 := bytes.flatMap fun b => [b &&& 0x0F, (b >>> 4) &&& 0x0F]

/-- The character of a digit. -/
def digitChar (nibble : UInt8) : Char := Char.ofNat (48 + nibble.toNat)

/-- The turns of `decode_bcd_digits` that are left. -/
def bcdTurns : List UInt8 → Text → Option Text
  | [], digits => if digits.isEmpty then none else some digits
  | nibble :: rest, digits =>
      if nibble = 0xF then (if digits.isEmpty then none else some digits)
      else if 9 < nibble then none
      else bcdTurns rest (digits ++ [digitChar nibble])

/-- `decode_bcd_digits`. -/
def decodeBcdDigits (bytes : List UInt8) : Option Text := bcdTurns (nibbles bytes) []

/-- A label of an access point name. -/
def apnLabel : ByteReader (List UInt8) := do
  let len ← u8
  take len.toNat

/-- `labels.push(str::from_utf8(label).ok()?)`. -/
def pushApnLabel (labels : List Text) (label : List UInt8) : Except ParseError (List Text) :=
  match Text.fromUtf8 label with
  | some t => return labels ++ [t]
  | none => throw (.malformed "label is not UTF-8")

/-- `decode_apn_labels`. -/
def decodeApnLabels (bytes : List UInt8) : Option Text := do
  let labels ← ((whileLeft 1 (checkedItem apnLabel pushApnLabel) []).parse bytes).toOption
  if labels.isEmpty then none else some (List.intercalate ['.'] labels)

/-- `V1_TV_LENGTHS`. -/
def v1TvLengths : List (UInt8 × Nat) :=
  [(0x01, 1), (0x02, 8), (0x03, 6), (0x0E, 1), (0x0F, 1), (0x10, 4), (0x11, 4), (0x12, 5), (0x14, 1), (0x1A, 2)]

/-- An element of version 1. An error is the `break` of the walk. -/
def v1Ie : ByteReader (UInt8 × List UInt8) := do
  let ty ← u8
  if ty < 0x80 then
    match v1TvLengths.lookup ty with
    | none => throw (.malformed "unrecognized TV type")
    | some valueLen =>
        let value ← take valueLen
        return (ty, value)
  else
    let len ← u16Be
    let value ← take len.toNat
    return (ty, value)

/-- An element of version 2. -/
def v2Ie : ByteReader (UInt8 × List UInt8) := do
  let ty ← u8
  let len ← u16Be
  let _crInstance ← u8
  let value ← take len.toNat
  return (ty, value)

/-- The `imsi` and `apn` of the walks, behind one more element. -/
def recordIe (imsiType apnType : UInt8) (found : Option Text × Option Text) (ie : UInt8 × List UInt8) :
    Option Text × Option Text :=
  if ie.1 = imsiType then (decodeBcdDigits ie.2, found.2)
  else if ie.1 = apnType then (found.1, decodeApnLabels ie.2)
  else found

/-- `walk_v1_ies`. -/
def walkV1Ies (ies : List UInt8) : Except ParseError (Option Text × Option Text) :=
  (whileGood 1 v1Ie (recordIe 0x02 0x83) (none, none)).parse ies

/-- `walk_v2_ies`. -/
def walkV2Ies (ies : List UInt8) : Except ParseError (Option Text × Option Text) :=
  (whileGood 1 v2Ie (recordIe 1 71) (none, none)).parse ies

/-- What the versions read in front of the elements: TEID, message type, length, and where the elements start. -/
def gtpCFront (flags : UInt8) : ByteReader (UInt32 × UInt8 × UInt16 × Nat) := do
  if (flags &&& 0xE0) >>> 5 = 1 then
    if flags &&& 0x10 = 0 then throw (.malformed "GTPv1-C: PT bit selects GTP', not GTP")
    let messageType ← u8
    let length ← u16Be
    let teid ← u32Be
    if flags &&& (eBit ||| sBit ||| pnBit) ≠ 0 then
      let _ ← take 4
      return (teid, messageType, length, 12)
    else return (teid, messageType, length, 8)
  else if (flags &&& 0xE0) >>> 5 = 2 then
    let messageType ← u8
    let length ← u16Be
    if flags &&& 0x08 ≠ 0 then
      let teid ← u32Be
      let _ ← take 4
      return (teid, messageType, length, 12)
    else
      let _ ← take 4
      return (0, messageType, length, 8)
  else throw (.malformed "unsupported GTP-C version")

/-- `GtpC::parse`. -/
def parseGtpC (ctx : ParseCtx) : ByteReader ParsedLayer := do
  let flags ← u8
  let version := (flags &&& 0xE0) >>> 5
  let (teid, messageType, length, ieStart) ← gtpCFront flags
  let headerLen := (if version = 1 then 8 else 4) + length.toNat
  if headerLen < ieStart then throw (.malformed "GTP-C length shorter than the header it must contain")
  let ies ← take (headerLen - ieStart)
  let (imsi, apn) ← liftM (if version = 1 then walkV1Ies ies else walkV2Ies ies)
  let fields := insertAt ctx .full
    ((imsi.map fun t => Value.str (String.ofList t)).toList.map (fun v => ("imsi", v)) ++
      (apn.map fun t => Value.str (String.ofList t)).toList.map (fun v => ("apn", v)))
    (insertAt ctx .structural
      [("version", .u64 version.toUInt64), ("message_type", .u64 messageType.toUInt64), ("length", .u64 length.toUInt64)]
      (insertAt ctx .keys [("teid", .u64 teid.toUInt64)] FieldMap.new))
  return ⟨headerLen, fields, .terminal⟩

/-- `GtpC`. -/
def gtpC : LayerPlugin where
  name := "gtp_c"
  parse := fun bytes ctx => (parseGtpC ctx).parse bytes
  claims := [.udpPort 2123]
  streamIdentity := some
    { key := [⟨"teid", none⟩], canonicalize := .endpointSort, lifecycle := none,
      rollups := [⟨"message_type", .accumulate⟩] }

/-! ## Elements -/

/-- The octets are these digits, to their end or to the first filler. -/
def HoldsDigits (value : List UInt8) (digits : Text) : Prop :=
  ∃ ds, ds ≠ [] ∧ (∀ d ∈ ds, d ≤ 9) ∧ digits = ds.map digitChar ∧
    (nibbles value = ds ∨ ∃ more, nibbles value = ds ++ 0xF :: more)

/-- The octets are labels, each behind its length, and this is their dotted form. -/
def HoldsLabels (value : List UInt8) (name : Text) : Prop :=
  ∃ labels : List Text, labels ≠ [] ∧ (∀ t ∈ labels, Text.size t < 256) ∧ name = List.intercalate ['.'] labels ∧
    value = labels.flatMap fun t => UInt8.ofNat (Text.size t) :: Text.encode t

/-- An element of version 1: a type of the table with a value of its length, or any type from 128 on. -/
structure V1Element where
  ty : UInt8
  value : List UInt8
  valid : if ty < 0x80 then v1TvLengths.lookup ty = some value.length else value.length < 65536

/-- The element as it is sent. -/
def V1Element.bytes (e : V1Element) : List UInt8 :=
  if e.ty < 0x80 then e.ty :: e.value else e.ty :: (beBytes 2 e.value.length ++ e.value)

/-- An element of version 2. -/
structure V2Element where
  ty : UInt8
  crInstance : UInt8
  value : List UInt8
  fits : value.length < 65536

/-- The element as it is sent. -/
def V2Element.bytes (e : V2Element) : List UInt8 := e.ty :: (beBytes 2 e.value.length ++ e.crInstance :: e.value)

/-- The types and values of the elements of version 1 that the area consists of, up to bytes that begin with none. -/
def SplitsV1 (area : List UInt8) (ies : List (UInt8 × List UInt8)) : Prop :=
  ∃ (els : List V1Element) (broken : List UInt8), area = els.flatMap V1Element.bytes ++ broken ∧
    NoEntry 1 v1Ie broken ∧ ies = els.map fun e => (e.ty, e.value)

/-- The same for version 2. -/
def SplitsV2 (area : List UInt8) (ies : List (UInt8 × List UInt8)) : Prop :=
  ∃ (els : List V2Element) (broken : List UInt8), area = els.flatMap V2Element.bytes ++ broken ∧
    NoEntry 1 v2Ie broken ∧ ies = els.map fun e => (e.ty, e.value)

/-- The last element of a type. -/
inductive LastIe (ty : UInt8) (ies : List (UInt8 × List UInt8)) : Option (List UInt8) → Prop where
  | found {pre post : List (UInt8 × List UInt8)} {value : List UInt8} (hies : ies = pre ++ (ty, value) :: post)
      (hlast : ∀ e ∈ post, e.1 ≠ ty) : LastIe ty ies (some value)
  | none (hnone : ∀ e ∈ ies, e.1 ≠ ty) : LastIe ty ies none

/-- What the last element of a type tells: the text it holds, and nothing if it holds none or there is none. -/
inductive TellsText (Holds : List UInt8 → Text → Prop) (ty : UInt8) (ies : List (UInt8 × List UInt8)) :
    Option Value → Prop where
  | held {value : List UInt8} {t : Text} (hlast : LastIe ty ies (some value)) (hholds : Holds value t) :
      TellsText Holds ty ies (some (.str (String.ofList t)))
  | malformed {value : List UInt8} (hlast : LastIe ty ies (some value)) (hno : ∀ t, ¬Holds value t) :
      TellsText Holds ty ies none
  | absent (hlast : LastIe ty ies none) : TellsText Holds ty ies none

/-! ## Messages -/

/-- A message of version 1: flags, type, TEID, what the flags announce (the optional block and the chain of extension
headers), and any element area. -/
structure GtpV1Message where
  flags : UInt8
  messageType : UInt8
  teid : UInt32
  optional : List UInt8
  area : List UInt8
  version : IsGtpV1 flags
  announced : OptionalPart flags optional
  fits : optional.length + area.length < 65536

/-- A message of version 2: flags, type, TEID if the flags announce one, sequence number with its spare octet, and
any element area. -/
structure GtpV2Message where
  flags : UInt8
  messageType : UInt8
  teid : List UInt8
  sequence : List UInt8
  area : List UInt8
  version : (flags &&& 0xE0) >>> 5 = 2
  announced : teid.length = if flags &&& 0x08 ≠ 0 then 4 else 0
  sequence_length : sequence.length = 4
  fits : teid.length + 4 + area.length < 65536

/-- The length of a message of version 1. -/
def GtpV1Message.length (m : GtpV1Message) : Nat := m.optional.length + m.area.length

/-- The message as it is sent. -/
def GtpV1Message.bytes (m : GtpV1Message) : List UInt8 :=
  m.flags :: m.messageType :: (beBytes 2 m.length ++ (beBytes 4 m.teid.toNat ++ (m.optional ++ m.area)))

/-- The length of a message of version 2. -/
def GtpV2Message.length (m : GtpV2Message) : Nat := m.teid.length + 4 + m.area.length

/-- The message as it is sent. -/
def GtpV2Message.bytes (m : GtpV2Message) : List UInt8 :=
  m.flags :: m.messageType :: (beBytes 2 m.length ++ (m.teid ++ (m.sequence ++ m.area)))

/-- A message of either version. -/
inductive GtpCMessage where
  | v1 (m : GtpV1Message)
  | v2 (m : GtpV2Message)

namespace GtpCMessage

/-- The message as it is sent. -/
def bytes : GtpCMessage → List UInt8
  | v1 m => m.bytes
  | v2 m => m.bytes

/-- The length of a header: the octets its length leaves out, and those it counts. -/
def headerLen : GtpCMessage → Nat
  | v1 m => 8 + m.length
  | v2 m => 4 + m.length

/-- The elements of the message. -/
def Elements : GtpCMessage → List (UInt8 × List UInt8) → Prop
  | v1 m => SplitsV1 m.area
  | v2 m => SplitsV2 m.area

/-- The element types of IMSI and APN. -/
def imsiType : GtpCMessage → UInt8
  | v1 _ => 0x02
  | v2 _ => 1

def apnType : GtpCMessage → UInt8
  | v1 _ => 0x83
  | v2 _ => 71

end GtpCMessage

/-- The fields tell the digits and labels of these elements. -/
def TellsIes (m : GtpCMessage) (ies : List (UInt8 × List UInt8)) (imsi apn : Option Value) : Prop :=
  TellsText HoldsDigits m.imsiType ies imsi ∧ TellsText HoldsLabels m.apnType ies apn

/-- The plugin reads a message: its header to the declared end, whatever follows and no shorter, and at full detail
its IMSI and APN. -/
structure ReadsGtpC (m : GtpCMessage) : Prop where
  reads : ∀ ctx more, ∃ layer, gtpC.parse (m.bytes ++ more) ctx = .ok layer ∧ layer.headerLen = m.headerLen ∧
    (atDepth ctx .full = true →
      ∀ ies, m.Elements ies → TellsIes m ies (layer.fields.get "imsi") (layer.fields.get "apn"))
  needs : ∀ n, n < m.bytes.length → ∀ ctx, ∃ e, gtpC.parse (m.bytes.take n) ctx = .error e

/-- The elements that are walked: those from behind the optional block on. -/
def GtpCMessage.Walked : GtpCMessage → List (UInt8 × List UInt8) → Prop
  | .v1 m => SplitsV1 (m.optional.drop 4 ++ m.area)
  | .v2 m => SplitsV2 m.area

/-- The elements that are walked hold the same IMSI and APN as those of the message. -/
def HoldsSame (m : GtpCMessage) : Prop :=
  ∃ ies walked, m.Elements ies ∧ m.Walked walked ∧ ∀ imsi apn, TellsIes m ies imsi apn ↔ TellsIes m walked imsi apn

/-- The message is of version 2, or it has no extension headers, or, read as elements, they make no difference. -/
def GtpCMessage.Aligned : GtpCMessage → Prop
  | .v1 m => m.optional.drop 4 = [] ∨ HoldsSame (.v1 m)
  | .v2 _ => True

section Messages

variable {buf rest : List UInt8} {ctx : ParseCtx}

/-! ### Digits and labels -/

/-- These are the digits in front of the first filler, or all there are. -/
def Digits (ns ds : List UInt8) : Prop := (∀ d ∈ ds, d ≤ 9) ∧ (ns = ds ∨ ∃ more, ns = ds ++ 0xF :: more)

theorem digits_nil {ds : List UInt8} : Digits [] ds ↔ ds = [] := by
  constructor
  · rintro ⟨-, hns | ⟨more, hns⟩⟩
    · exact hns.symm
    · exact absurd hns (by simp)
  · rintro rfl
    exact ⟨nofun, .inl rfl⟩

/-- The first of the digits is the first nibble. -/
theorem Digits.head {n d : UInt8} {ns ds : List UInt8} (h : Digits (n :: ns) (d :: ds)) : n = d ∧ Digits ns ds := by
  obtain ⟨hds, hns | ⟨more, hns⟩⟩ := h
  · obtain ⟨rfl, rfl⟩ := List.cons.inj hns
    exact ⟨rfl, (List.forall_mem_cons.1 hds).2, .inl rfl⟩
  · obtain ⟨rfl, rfl⟩ := List.cons.inj hns
    exact ⟨rfl, (List.forall_mem_cons.1 hds).2, .inr ⟨more, rfl⟩⟩

theorem digits_filler {ns ds : List UInt8} : Digits (0xF :: ns) ds ↔ ds = [] := by
  constructor
  · intro h
    cases ds with
    | nil => rfl
    | cons d ds =>
        obtain ⟨rfl, -⟩ := h.head
        exact absurd (h.1 0xF List.mem_cons_self) (by decide)
  · rintro rfl
    exact ⟨nofun, .inr ⟨ns, rfl⟩⟩

/-- Something else than a filler is the first of the digits. -/
theorem digits_cons {n : UInt8} (hn : n ≠ 0xF) {ns ds : List UInt8} :
    Digits (n :: ns) ds ↔ n ≤ 9 ∧ ∃ rest, ds = n :: rest ∧ Digits ns rest := by
  constructor
  · intro h
    cases ds with
    | nil =>
        obtain ⟨-, hns | ⟨more, hns⟩⟩ := h
        · cases hns
        · exact absurd (List.cons.inj hns).1 hn
    | cons d ds =>
        obtain ⟨rfl, htail⟩ := h.head
        exact ⟨h.1 n List.mem_cons_self, ds, rfl, htail⟩
  · rintro ⟨hle, rest, rfl, hrest, hns⟩
    refine ⟨List.forall_mem_cons.2 ⟨hle, hrest⟩, ?_⟩
    rcases hns with rfl | ⟨more, rfl⟩
    · exact .inl rfl
    · exact .inr ⟨more, rfl⟩

/-- Some text was found. -/
theorem nonempty_eq_some {digits t : Text} :
    (if digits.isEmpty then none else some digits) = some t ↔ t = digits ∧ t ≠ [] := by
  cases digits with
  | nil =>
      constructor
      · intro h
        cases h
      · rintro ⟨rfl, h⟩
        exact absurd rfl h
  | cons c digits =>
      constructor
      · intro h
        obtain rfl := Option.some.inj h
        exact ⟨rfl, List.cons_ne_nil c digits⟩
      · rintro ⟨rfl, -⟩
        rfl

theorem bcdTurns_eq_some {ns : List UInt8} {digits t : Text} : bcdTurns ns digits = some t ↔
    ∃ ds : List UInt8, Digits ns ds ∧ t = digits ++ ds.map digitChar ∧ t ≠ [] := by
  -- a walk that ends here takes no more digits
  have hend : ∀ digits t : Text, t = digits ∧ t ≠ [] ↔
      ∃ ds : List UInt8, ds = [] ∧ t = digits ++ ds.map digitChar ∧ t ≠ [] := by
    intro digits t
    rw [exists_eq_left, List.map_nil, List.append_nil]
  induction ns generalizing digits with
  | nil =>
      rw [bcdTurns, nonempty_eq_some, hend]
      simp only [digits_nil]
  | cons n ns ih =>
      rw [bcdTurns]
      by_cases hfill : n = 0xF
      · rw [if_pos hfill, nonempty_eq_some, hfill, hend]
        simp only [digits_filler]
      · rw [if_neg hfill]
        simp only [digits_cons hfill]
        by_cases hdigit : 9 < n
        · rw [if_pos hdigit]
          constructor
          · intro h
            cases h
          · rintro ⟨ds, ⟨hle, -⟩, -⟩
            exact absurd hle (UInt8.not_le.2 hdigit)
        · rw [if_neg hdigit]
          apply ih.trans
          constructor
          · rintro ⟨ds, hds, rfl, hne⟩
            exact ⟨n :: ds, ⟨UInt8.not_lt.1 hdigit, ds, rfl, hds⟩, List.append_assoc _ _ _, hne⟩
          · rintro ⟨ds, ⟨-, rest, rfl, hrest⟩, rfl, hne⟩
            exact ⟨rest, hrest, by rw [List.append_assoc]; rfl, hne⟩

theorem decodeBcdDigits_eq_some {value : List UInt8} {t : Text} :
    decodeBcdDigits value = some t ↔ HoldsDigits value t := by
  rw [decodeBcdDigits, bcdTurns_eq_some]
  constructor
  · rintro ⟨ds, ⟨hds, hns⟩, rfl, hne⟩
    exact ⟨ds, fun h => hne (by rw [h]; rfl), hds, List.nil_append _, hns⟩
  · rintro ⟨ds, hne, hds, rfl, hns⟩
    exact ⟨ds, ⟨hds, hns⟩, (List.nil_append _).symm, fun h => hne (List.map_eq_nil_iff.1 h)⟩

/-- A label behind its length. -/
def labelBytes (label : { l : List UInt8 // l.length < 256 }) : List UInt8 := UInt8.ofNat label.1.length :: label.1

theorem reads_apnLabel (label : { l : List UInt8 // l.length < 256 }) : Reads apnLabel (labelBytes label) label.1 := by
  intro more
  have hlen : (UInt8.ofNat label.1.length).toNat = label.1.length := toNat_byte label.2
  rw [apnLabel, labelBytes, List.cons_append, bind_of_ok (u8_cons ..), hlen]
  exact reads_take label.1 more

theorem apnLabel_eq_ok {l : List UInt8} (h : apnLabel buf = .ok (l, rest)) :
    ∃ label : { l : List UInt8 // l.length < 256 }, buf = labelBytes label ++ rest ∧ label.1 = l := by
  obtain ⟨len, mid, hlen, htake⟩ := bind_eq_ok.1 h
  obtain rfl := u8_eq_ok.1 hlen
  obtain ⟨rfl, hl⟩ := take_eq_ok.1 htake
  have hback : UInt8.ofNat l.length = len := by rw [hl, UInt8.ofNat_toNat]
  refine ⟨⟨l, hl ▸ len.toNat_lt⟩, ?_, rfl⟩
  dsimp only [labelBytes]
  rw [hback]
  rfl

theorem progresses_apnLabel : EntryProgresses apnLabel := by
  intro buf l rest h
  obtain ⟨label, rfl, -⟩ := apnLabel_eq_ok h
  rw [List.length_append]
  exact Nat.lt_add_of_pos_left (Nat.succ_pos _)

theorem foldlM_pushApnLabel {ls : List { l : List UInt8 // l.length < 256 }} {out labels : List Text} :
    ls.foldlM (fun out l => pushApnLabel out l.1) out = .ok labels ↔
      ∃ ts : List Text, labels = out ++ ts ∧ ls.map Subtype.val = ts.map Text.encode := by
  induction ls generalizing out with
  | nil =>
      constructor
      · intro h
        exact ⟨[], by rw [List.append_nil]; exact (Except.ok.inj h).symm, rfl⟩
      · rintro ⟨ts, rfl, hts⟩
        have hnil : ts = [] := List.map_eq_nil_iff.1 hts.symm
        rw [hnil, List.append_nil]
        rfl
  | cons l ls ih =>
      rw [List.foldlM_cons, pushApnLabel]
      constructor
      · intro h
        cases ht : Text.fromUtf8 l.1 with
        | none =>
            rw [ht] at h
            cases h
        | some t =>
            rw [ht] at h
            obtain ⟨ts, rfl, hts⟩ := ih.1 h
            refine ⟨t :: ts, by simp, ?_⟩
            rw [List.map_cons, List.map_cons, hts, Text.fromUtf8_eq_some.1 ht]
      · rintro ⟨ts, rfl, hts⟩
        cases ts with
        | nil => cases hts
        | cons t ts =>
            obtain ⟨hl, hls⟩ := List.cons.inj hts
            rw [Text.fromUtf8_eq_some.2 hl]
            exact ih.2 ⟨ts, by simp, hls⟩

theorem exists_labels {ts : List Text} (h : ∀ t ∈ ts, Text.size t < 256) :
    ∃ ls : List { l : List UInt8 // l.length < 256 }, ls.map Subtype.val = ts.map Text.encode := by
  induction ts with
  | nil => exact ⟨[], rfl⟩
  | cons t ts ih =>
      obtain ⟨ht, hts⟩ := List.forall_mem_cons.1 h
      obtain ⟨ls, hls⟩ := ih hts
      exact ⟨⟨Text.encode t, ht⟩ :: ls, by rw [List.map_cons, List.map_cons, hls]⟩

theorem decodeApnLabels_eq_some {value : List UInt8} {name : Text} :
    decodeApnLabels value = some name ↔ HoldsLabels value name := by
  have hwalk : ∀ labels, ((whileLeft 1 (checkedItem apnLabel pushApnLabel) []).parse value).toOption = some labels ↔
      (∀ t ∈ labels, Text.size t < 256) ∧ value = labels.flatMap fun t => UInt8.ofNat (Text.size t) :: Text.encode t := by
    intro labels
    rw [toOption_parse_eq_some]
    constructor
    · rintro ⟨rest, h⟩
      obtain ⟨-, ls, rfl, hfold⟩ :=
        (whileLeft_checkedItem_eq_ok progresses_apnLabel reads_apnLabel fun _ _ _ => apnLabel_eq_ok).1 h
      obtain ⟨ts, rfl, hts⟩ := foldlM_pushApnLabel.1 hfold
      constructor
      · intro t ht
        have hmem : Text.encode t ∈ ls.map Subtype.val := hts ▸ List.mem_map_of_mem ht
        obtain ⟨l, -, hl⟩ := List.mem_map.1 hmem
        rw [Text.size, ← hl]
        exact l.2
      · have hbytes : ls.flatMap labelBytes = (ls.map Subtype.val).flatMap fun l => UInt8.ofNat l.length :: l := by
          rw [List.flatMap_map]
          rfl
        rw [hbytes, hts, List.flatMap_map]
        rfl
    · rintro ⟨hsize, rfl⟩
      obtain ⟨ls, hls⟩ := exists_labels hsize
      have hbytes : ls.flatMap labelBytes = (ls.map Subtype.val).flatMap fun l => UInt8.ofNat l.length :: l := by
        rw [List.flatMap_map]
        rfl
      refine ⟨[], (whileLeft_checkedItem_eq_ok progresses_apnLabel reads_apnLabel fun _ _ _ => apnLabel_eq_ok).2
        ⟨rfl, ls, ?_, foldlM_pushApnLabel.2 ⟨labels, rfl, hls⟩⟩⟩
      rw [hbytes, hls, List.flatMap_map]
      rfl
  rw [decodeApnLabels, Option.bind_eq_bind, Option.bind_eq_some_iff]
  constructor
  · rintro ⟨labels, hlabels, hname⟩
    obtain ⟨hsize, hvalue⟩ := (hwalk labels).1 hlabels
    split at hname
    · cases hname
    · rename_i hne
      exact ⟨labels, by simpa using hne, hsize, (Option.some.inj hname).symm, hvalue⟩
  · rintro ⟨labels, hne, hsize, rfl, hvalue⟩
    refine ⟨labels, (hwalk labels).2 ⟨hsize, hvalue⟩, ?_⟩
    rw [if_neg (by simpa using hne)]

/-! ### The walks -/

theorem reads_v1Ie (e : V1Element) : Reads v1Ie e.bytes (e.ty, e.value) := by
  have hvalid := e.valid
  intro more
  rw [v1Ie, V1Element.bytes]
  by_cases htv : e.ty < 0x80
  · rw [if_pos htv] at hvalid
    rw [if_pos htv, List.cons_append, bind_of_ok (u8_cons ..), if_pos htv, hvalid]
    exact bind_of_ok (reads_take e.value more)
  · rw [if_neg htv] at hvalid
    have hlen : (UInt16.ofNat e.value.length).toNat = e.value.length := UInt16.toNat_ofNat_of_lt' hvalid
    rw [if_neg htv, List.cons_append, bind_of_ok (u8_cons ..), if_neg htv, List.append_assoc,
      bind_of_ok (reads_u16Be _ _), hlen, bind_of_ok (reads_take e.value more)]
    rfl

theorem v1Ie_eq_ok {x : UInt8 × List UInt8} (h : v1Ie buf = .ok (x, rest)) :
    ∃ e : V1Element, buf = e.bytes ++ rest := by
  obtain ⟨ty, buf₁, hty, hread⟩ := bind_eq_ok.1 h
  obtain rfl := u8_eq_ok.1 hty
  by_cases htv : ty < 0x80
  · rw [if_pos htv] at hread
    cases hlookup : v1TvLengths.lookup ty with
    | none =>
        rw [hlookup] at hread
        cases hread
    | some n =>
        rw [hlookup] at hread
        obtain ⟨value, buf₂, hvalue, hpure⟩ := bind_eq_ok.1 hread
        obtain ⟨rfl, hlength⟩ := take_eq_ok.1 hvalue
        obtain ⟨-, rfl⟩ := pure_eq_ok.1 hpure
        refine ⟨⟨ty, value, by rw [if_pos htv, hlookup, hlength]⟩, ?_⟩
        rw [V1Element.bytes, if_pos htv]
        rfl
  · rw [if_neg htv] at hread
    obtain ⟨len, buf₂, hlen, hread⟩ := bind_eq_ok.1 hread
    obtain ⟨value, buf₃, hvalue, hpure⟩ := bind_eq_ok.1 hread
    obtain ⟨ls, rfl, hls, rfl⟩ := u16Be_eq_ok.1 hlen
    obtain ⟨rfl, hlength⟩ := take_eq_ok.1 hvalue
    obtain ⟨-, rfl⟩ := pure_eq_ok.1 hpure
    refine ⟨⟨ty, value, by rw [if_neg htv, hlength]; exact UInt16.toNat_lt _⟩, ?_⟩
    rw [V1Element.bytes, if_neg htv]
    dsimp only
    rw [hlength, beBytes_word hls]
    simp

theorem progresses_v1Ie : EntryProgresses v1Ie := by
  intro buf x rest h
  obtain ⟨e, rfl⟩ := v1Ie_eq_ok h
  have hpos : 0 < e.bytes.length := by
    rw [V1Element.bytes]
    split <;> exact Nat.succ_pos _
  rw [List.length_append]
  exact Nat.lt_add_of_pos_left hpos

theorem reads_v2Ie (e : V2Element) : Reads v2Ie e.bytes (e.ty, e.value) := by
  have hlen : (UInt16.ofNat e.value.length).toNat = e.value.length := UInt16.toNat_ofNat_of_lt' e.fits
  intro more
  rw [v2Ie, V2Element.bytes, List.cons_append, bind_of_ok (u8_cons ..), List.append_assoc, bind_of_ok (reads_u16Be _ _),
    List.cons_append, bind_of_ok (u8_cons ..), hlen, bind_of_ok (reads_take e.value more)]
  rfl

theorem v2Ie_eq_ok {x : UInt8 × List UInt8} (h : v2Ie buf = .ok (x, rest)) :
    ∃ e : V2Element, buf = e.bytes ++ rest := by
  obtain ⟨ty, buf₁, hty, hread⟩ := bind_eq_ok.1 h
  obtain ⟨len, buf₂, hlen, hread⟩ := bind_eq_ok.1 hread
  obtain ⟨crInstance, buf₃, hinstance, hread⟩ := bind_eq_ok.1 hread
  obtain ⟨value, buf₄, hvalue, hpure⟩ := bind_eq_ok.1 hread
  obtain rfl := u8_eq_ok.1 hty
  obtain ⟨ls, rfl, hls, rfl⟩ := u16Be_eq_ok.1 hlen
  obtain rfl := u8_eq_ok.1 hinstance
  obtain ⟨rfl, hlength⟩ := take_eq_ok.1 hvalue
  obtain ⟨-, rfl⟩ := pure_eq_ok.1 hpure
  refine ⟨⟨ty, crInstance, value, hlength ▸ UInt16.toNat_lt _⟩, ?_⟩
  rw [V2Element.bytes]
  dsimp only
  rw [hlength, beBytes_word hls]
  simp

theorem progresses_v2Ie : EntryProgresses v2Ie := by
  intro buf x rest h
  obtain ⟨e, rfl⟩ := v2Ie_eq_ok h
  rw [List.length_append]
  exact Nat.lt_add_of_pos_left (Nat.succ_pos _)

theorem exists_splitsV1 (area : List UInt8) : ∃ ies, SplitsV1 area ies := by
  obtain ⟨els, broken, harea, hbroken⟩ := exists_entries progresses_v1Ie (k := 1) (fun _ _ _ => v1Ie_eq_ok) area
  exact ⟨_, els, broken, harea, hbroken, rfl⟩

theorem exists_splitsV2 (area : List UInt8) : ∃ ies, SplitsV2 area ies := by
  obtain ⟨els, broken, harea, hbroken⟩ := exists_entries progresses_v2Ie (k := 1) (fun _ _ _ => v2Ie_eq_ok) area
  exact ⟨_, els, broken, harea, hbroken, rfl⟩

/-- What the walk over these elements finds. -/
def foundIn (imsiType apnType : UInt8) (ies : List (UInt8 × List UInt8)) : Option Text × Option Text :=
  ies.foldl (recordIe imsiType apnType) (none, none)

theorem walkV1Ies_of_splits {area : List UInt8} {ies : List (UInt8 × List UInt8)} (h : SplitsV1 area ies) :
    walkV1Ies area = .ok (foundIn 0x02 0x83 ies) := by
  obtain ⟨els, broken, rfl, hbroken, rfl⟩ := h
  rw [foundIn, List.foldl_map]
  refine parse_eq_ok.2 ⟨broken, whileGood_flatMap progresses_v1Ie (fun e _ => ?_) (fun e _ => reads_v1Ie e) _ hbroken⟩
  have hlt := progresses_v1Ie _ _ _ (reads_v1Ie e [])
  rw [List.append_nil] at hlt
  exact hlt

theorem walkV2Ies_of_splits {area : List UInt8} {ies : List (UInt8 × List UInt8)} (h : SplitsV2 area ies) :
    walkV2Ies area = .ok (foundIn 1 71 ies) := by
  obtain ⟨els, broken, rfl, hbroken, rfl⟩ := h
  rw [foundIn, List.foldl_map]
  refine parse_eq_ok.2 ⟨broken, whileGood_flatMap progresses_v2Ie (fun e _ => ?_) (fun e _ => reads_v2Ie e) _ hbroken⟩
  have hlt := progresses_v2Ie _ _ _ (reads_v2Ie e [])
  rw [List.append_nil] at hlt
  exact hlt

/-! ### What the elements tell -/

theorem exists_lastIe (ty : UInt8) (ies : List (UInt8 × List UInt8)) : ∃ o, LastIe ty ies o := by
  induction ies using List.reverseRecOn with
  | nil => exact ⟨none, .none (by simp)⟩
  | append_singleton ies e ih =>
      by_cases htype : e.1 = ty
      · obtain ⟨t, value⟩ := e
        obtain rfl : t = ty := htype
        exact ⟨some value, .found rfl (by simp)⟩
      · obtain ⟨o, ho⟩ := ih
        cases ho with
        | none hnone =>
            refine ⟨none, .none fun d hd => ?_⟩
            rcases List.mem_append.1 hd with hd | hd
            · exact hnone d hd
            · rwa [List.mem_singleton.1 hd]
        | @found pre post value hies hlast =>
            refine ⟨some value, @LastIe.found _ _ pre (post ++ [e]) _ (by rw [hies]; simp) fun d hd => ?_⟩
            rcases List.mem_append.1 hd with hd | hd
            · exact hlast d hd
            · rwa [List.mem_singleton.1 hd]

section Found

variable {imsiType apnType : UInt8} {ies : List (UInt8 × List UInt8)} {found : Option Text × Option Text}

theorem foldl_recordIe_imsi (h : ∀ e ∈ ies, e.1 ≠ imsiType) :
    (ies.foldl (recordIe imsiType apnType) found).1 = found.1 := by
  induction ies generalizing found with
  | nil => rfl
  | cons e ies ih =>
      obtain ⟨he, hies⟩ := List.forall_mem_cons.1 h
      rw [List.foldl_cons, ih hies, recordIe, if_neg he]
      split <;> rfl

theorem foldl_recordIe_apn (h : ∀ e ∈ ies, e.1 ≠ apnType) :
    (ies.foldl (recordIe imsiType apnType) found).2 = found.2 := by
  induction ies generalizing found with
  | nil => rfl
  | cons e ies ih =>
      obtain ⟨he, hies⟩ := List.forall_mem_cons.1 h
      rw [List.foldl_cons, ih hies, recordIe, if_neg he]
      split <;> rfl

theorem foundIn_imsi {o : Option (List UInt8)} (h : LastIe imsiType ies o) :
    (foundIn imsiType apnType ies).1 = o.bind decodeBcdDigits := by
  cases h with
  | none hnone => exact foldl_recordIe_imsi hnone
  | @found pre post value hies hlast =>
      rw [foundIn, hies, List.foldl_append, List.foldl_cons, foldl_recordIe_imsi hlast, recordIe, if_pos rfl]
      rfl

theorem foundIn_apn (hne : imsiType ≠ apnType) {o : Option (List UInt8)} (h : LastIe apnType ies o) :
    (foundIn imsiType apnType ies).2 = o.bind decodeApnLabels := by
  cases h with
  | none hnone => exact foldl_recordIe_apn hnone
  | @found pre post value hies hlast =>
      rw [foundIn, hies, List.foldl_append, List.foldl_cons, foldl_recordIe_apn hlast, recordIe, if_neg hne.symm,
        if_pos rfl]
      rfl

/-- What the elements tell is what is decoded from the last one. -/
theorem tellsText_iff {Holds : List UInt8 → Text → Prop} {decode : List UInt8 → Option Text}
    (hdecode : ∀ value t, decode value = some t ↔ Holds value t) {ty : UInt8} {r : Option Text}
    (hr : ∀ o, LastIe ty ies o → r = o.bind decode) {v : Option Value} :
    TellsText Holds ty ies v ↔ v = r.map fun t => .str (String.ofList t) := by
  constructor
  · intro h
    cases h with
    | held hlast hholds => rw [hr _ hlast, Option.bind_some, (hdecode _ _).2 hholds, Option.map_some]
    | @malformed value hlast hno =>
        have hnone : decode value = none := Option.eq_none_iff_forall_ne_some.2 fun t ht => hno t ((hdecode _ _).1 ht)
        rw [hr _ hlast, Option.bind_some, hnone, Option.map_none]
    | absent hlast => rw [hr _ hlast, Option.bind_none, Option.map_none]
  · rintro rfl
    obtain ⟨o, ho⟩ := exists_lastIe ty ies
    rw [hr o ho]
    cases o with
    | none => exact .absent ho
    | some value =>
        rw [Option.bind_some]
        cases hvalue : decode value with
        | none => exact .malformed ho fun t ht => Option.some_ne_none t (((hdecode _ _).2 ht).symm.trans hvalue)
        | some t => exact .held ho ((hdecode _ _).1 hvalue)

end Found

/-- The value of a text. -/
def ieText (t : Option Text) : Option Value := t.map fun t => .str (String.ofList t)

theorem tellsIes_iff {m : GtpCMessage} {ies : List (UInt8 × List UInt8)} {imsi apn : Option Value} :
    TellsIes m ies imsi apn ↔
      imsi = ieText (foundIn m.imsiType m.apnType ies).1 ∧ apn = ieText (foundIn m.imsiType m.apnType ies).2 := by
  have hne : m.imsiType ≠ m.apnType := by
    cases m with
    | v1 m => exact (by decide : (0x02 : UInt8) ≠ 0x83)
    | v2 m => exact (by decide : (1 : UInt8) ≠ 71)
  exact and_congr (tellsText_iff (fun _ _ => decodeBcdDigits_eq_some) fun _ => foundIn_imsi)
    (tellsText_iff (fun _ _ => decodeApnLabels_eq_some) fun _ => foundIn_apn hne)

/-! ### The message -/

theorem exact_gtpCFront (flags : UInt8) : Exact (gtpCFront flags) := by
  rw [gtpCFront]
  refine .ite (fun _ => .guard ?_) fun _ => .ite (fun _ => ?_) fun _ => exact_throw _
  · refine exact_u8.bind fun _ => exact_u16Be.bind fun _ => exact_u32Be.bind fun _ => .ite (fun _ => ?_) fun _ => ?_
    · exact (exact_take 4).bind fun _ => exact_pure _
    · exact exact_pure _
  · refine exact_u8.bind fun _ => exact_u16Be.bind fun _ => .ite (fun _ => ?_) fun _ => ?_
    · exact exact_u32Be.bind fun _ => (exact_take 4).bind fun _ => exact_pure _
    · exact (exact_take 4).bind fun _ => exact_pure _

theorem exact_parseGtpC (ctx : ParseCtx) : Exact (parseGtpC ctx) := by
  rw [parseGtpC]
  refine exact_u8.bind fun flags => (exact_gtpCFront flags).bind fun front => .guard ?_
  exact (exact_take _).bind fun _ => (exact_liftM _).bind fun _ => exact_pure _

/-- The fields of a message, with what the walk has found. -/
def gtpCFields (ctx : ParseCtx) (version messageType : UInt8) (length : UInt16) (teid : UInt32)
    (found : Option Text × Option Text) : FieldMap :=
  insertAt ctx .full
    ((found.1.map fun t => Value.str (String.ofList t)).toList.map (fun v => ("imsi", v)) ++
      (found.2.map fun t => Value.str (String.ofList t)).toList.map (fun v => ("apn", v)))
    (insertAt ctx .structural
      [("version", .u64 version.toUInt64), ("message_type", .u64 messageType.toUInt64), ("length", .u64 length.toUInt64)]
      (insertAt ctx .keys [("teid", .u64 teid.toUInt64)] FieldMap.new))

theorem get_gtpCFields (hctx : atDepth ctx .full = true) {version messageType : UInt8} {length : UInt16} {teid : UInt32}
    {found : Option Text × Option Text} :
    (gtpCFields ctx version messageType length teid found).get "imsi" = ieText found.1 ∧
      (gtpCFields ctx version messageType length teid found).get "apn" = ieText found.2 := by
  have hbase : ∀ name ∈ ["imsi", "apn"], (insertAt ctx .structural
      [("version", .u64 version.toUInt64), ("message_type", .u64 messageType.toUInt64), ("length", .u64 length.toUInt64)]
      (insertAt ctx .keys [("teid", .u64 teid.toUInt64)] FieldMap.new)).get name = none := by
    intro name hname
    simp only [List.mem_cons, List.not_mem_nil, or_false] at hname
    rw [get_insertAt (by rcases hname with rfl | rfl <;> simp), get_insertAt (by rcases hname with rfl | rfl <;> simp)]
    rfl
  constructor
  · have h := @get_insertAt_field ctx .full [] _ "imsi" _ hctx (ieText found.1) (by simp)
      (show "imsi" ∉ ((ieText found.2).toList.map (fun v => ("apn", v))).map Prod.fst by simp) (hbase _ (by simp))
    rwa [List.nil_append] at h
  · have h := @get_insertAt_field ctx .full ((ieText found.1).toList.map (fun v => ("imsi", v))) [] "apn" _ hctx
      (ieText found.2) (by simp) (by simp) (hbase _ (by simp))
    rwa [List.append_nil] at h

theorem OptionalPart.eq_nil {flags : UInt8} {optional : List UInt8} (h : OptionalPart flags optional)
    (hnone : flags &&& (eBit ||| sBit ||| pnBit) = 0) : optional = [] := by
  cases h with
  | absent => rfl
  | block hE hsome => exact absurd hnone hsome
  | chain hE => exact absurd ((flag_parts _).1 hnone).1 hE

theorem OptionalPart.four_le {flags : UInt8} {optional : List UInt8} (h : OptionalPart flags optional)
    (hsome : flags &&& (eBit ||| sBit ||| pnBit) ≠ 0) : 4 ≤ optional.length := by
  cases h with
  | absent hnone => exact absurd hnone hsome
  | block => simp
  | chain => simp

/-- What version 1 reads in front of its elements: the walk begins behind the optional block. -/
theorem gtpCFront_v1 (m : GtpV1Message) (more : List UInt8) :
    ∃ start, gtpCFront m.flags (m.messageType :: (beBytes 2 m.length ++ (beBytes 4 m.teid.toNat ++
      (m.optional ++ m.area ++ more)))) =
        .ok ((m.teid, m.messageType, UInt16.ofNat m.length, start), m.optional.drop 4 ++ m.area ++ more) ∧
          start + (m.optional.drop 4 ++ m.area).length = 8 + m.length := by
  obtain ⟨hversion, hpt⟩ := m.version
  rw [gtpCFront, if_pos hversion, if_neg hpt]
  beta_reduce
  rw [bind_of_ok (u8_cons ..), bind_of_ok (reads_u16Be _ _), bind_of_ok (reads_u32Be_toNat _ _)]
  by_cases hnone : m.flags &&& (eBit ||| sBit ||| pnBit) = 0
  · have hopt := m.announced.eq_nil hnone
    rw [if_neg (not_not.2 hnone), GtpV1Message.length, hopt]
    exact ⟨8, rfl, by simp⟩
  · have hfour := m.announced.four_le hnone
    have htake : take 4 (m.optional ++ m.area ++ more) =
        .ok (m.optional.take 4, m.optional.drop 4 ++ m.area ++ more) := by
      refine take_eq_ok.2 ⟨?_, List.length_take_of_le hfour⟩
      rw [← List.append_assoc, ← List.append_assoc, List.take_append_drop]
    rw [if_pos hnone, bind_of_ok htake, GtpV1Message.length]
    refine ⟨12, rfl, ?_⟩
    rw [List.length_append, List.length_drop]
    omega

/-- What version 2 reads in front of its elements. -/
theorem gtpCFront_v2 (m : GtpV2Message) (more : List UInt8) :
    ∃ teid start, gtpCFront m.flags (m.messageType :: (beBytes 2 m.length ++ (m.teid ++
      (m.sequence ++ (m.area ++ more))))) = .ok ((teid, m.messageType, UInt16.ofNat m.length, start), m.area ++ more) ∧
        start = 8 + m.teid.length ∧ teid = UInt32.ofNat (fromBeBytes m.teid) := by
  have hversion := m.version
  have hone : ¬(m.flags &&& 0xE0) >>> 5 = 1 := by rw [hversion]; decide
  have hannounced := m.announced
  have hsequence : take 4 (m.sequence ++ (m.area ++ more)) = .ok (m.sequence, m.area ++ more) :=
    take_eq_ok.2 ⟨rfl, m.sequence_length⟩
  rw [gtpCFront, if_neg hone, if_pos hversion, bind_of_ok (u8_cons ..), bind_of_ok (reads_u16Be _ _)]
  by_cases hT : m.flags &&& 0x08 = 0
  · rw [if_neg (not_not.2 hT)] at hannounced
    have hnil : m.teid = [] := List.eq_nil_of_length_eq_zero hannounced
    rw [if_neg (not_not.2 hT), hnil, List.nil_append, bind_of_ok hsequence]
    exact ⟨0, 8, rfl, rfl, rfl⟩
  · rw [if_pos hT] at hannounced
    have hteid := u32Be_eq_ok.2 ⟨m.teid, (rfl : m.teid ++ (m.sequence ++ (m.area ++ more)) = _), hannounced, rfl⟩
    rw [if_pos hT, bind_of_ok hteid, bind_of_ok hsequence]
    exact ⟨_, 12, rfl, by rw [hannounced], rfl⟩

variable (ctx) in
theorem reads_v1Message (m : GtpV1Message) {walked : List (UInt8 × List UInt8)}
    (h : SplitsV1 (m.optional.drop 4 ++ m.area) walked) : ∃ fields, Reads (parseGtpC ctx) m.bytes
      ⟨8 + m.length, fields, .terminal⟩ ∧ ∃ version messageType length teid,
        fields = gtpCFields ctx version messageType length teid (foundIn 0x02 0x83 walked) := by
  have hversion := m.version.1
  have hlen : (UInt16.ofNat m.length).toNat = m.length := UInt16.toNat_ofNat_of_lt' m.fits
  refine ⟨_, ?_, (m.flags &&& 0xE0) >>> 5, m.messageType, UInt16.ofNat m.length, m.teid, rfl⟩
  intro more
  obtain ⟨start, hstart, hcount⟩ := gtpCFront_v1 m more
  have hies : take (8 + m.length - start) (m.optional.drop 4 ++ m.area ++ more) =
      .ok (m.optional.drop 4 ++ m.area, more) :=
    take_eq_ok.2 ⟨rfl, by omega⟩
  rw [parseGtpC, GtpV1Message.bytes, List.cons_append, bind_of_ok (u8_cons ..),
    List.cons_append, List.append_assoc, List.append_assoc, List.append_assoc, ← List.append_assoc m.optional,
    bind_of_ok hstart]
  rw [if_pos hversion]
  dsimp only
  rw [hlen, if_neg (by omega)]
  rw [bind_of_ok hies, if_pos hversion, walkV1Ies_of_splits h]
  rfl

variable (ctx) in
theorem reads_v2Message (m : GtpV2Message) {walked : List (UInt8 × List UInt8)} (h : SplitsV2 m.area walked) :
    ∃ fields, Reads (parseGtpC ctx) m.bytes ⟨4 + m.length, fields, .terminal⟩ ∧ ∃ version messageType length teid,
      fields = gtpCFields ctx version messageType length teid (foundIn 1 71 walked) := by
  have hone : ¬(m.flags &&& 0xE0) >>> 5 = 1 := by rw [m.version]; decide
  have hlen : (UInt16.ofNat m.length).toNat = m.length := UInt16.toNat_ofNat_of_lt' m.fits
  refine ⟨_, ?_, (m.flags &&& 0xE0) >>> 5, m.messageType, UInt16.ofNat m.length, UInt32.ofNat (fromBeBytes m.teid), rfl⟩
  intro more
  obtain ⟨teid, start, hstart, hcount, rfl⟩ := gtpCFront_v2 m more
  have hies : take (4 + m.length - start) (m.area ++ more) = .ok (m.area, more) :=
    take_eq_ok.2 ⟨rfl, by rw [hcount, GtpV2Message.length]; omega⟩
  rw [parseGtpC, GtpV2Message.bytes, List.cons_append, bind_of_ok (u8_cons ..),
    List.cons_append, List.append_assoc, List.append_assoc, List.append_assoc, bind_of_ok hstart]
  rw [if_neg hone]
  dsimp only
  rw [hlen, if_neg (by rw [hcount, GtpV2Message.length]; omega)]
  rw [bind_of_ok hies, if_neg hone, walkV2Ies_of_splits h]
  rfl

/-- A message is read to its declared end, and what is told is what the walked elements tell. -/
theorem GtpCMessage.reads (m : GtpCMessage) {walked : List (UInt8 × List UInt8)} (h : m.Walked walked)
    (ctx : ParseCtx) :
    ∃ layer, Reads (parseGtpC ctx) m.bytes layer ∧ layer.headerLen = m.headerLen ∧ (atDepth ctx .full = true →
      TellsIes m walked (layer.fields.get "imsi") (layer.fields.get "apn")) := by
  have htells : ∀ {fields : FieldMap}, (∃ version messageType length teid,
      fields = gtpCFields ctx version messageType length teid (foundIn m.imsiType m.apnType walked)) →
        atDepth ctx .full = true → TellsIes m walked (fields.get "imsi") (fields.get "apn") := by
    rintro fields ⟨version, messageType, length, teid, rfl⟩ hctx
    exact tellsIes_iff.2 (get_gtpCFields hctx)
  cases m with
  | v1 m =>
      obtain ⟨fields, hreads, hfields⟩ := reads_v1Message ctx m h
      exact ⟨_, hreads, rfl, htells hfields⟩
  | v2 m =>
      obtain ⟨fields, hreads, hfields⟩ := reads_v2Message ctx m h
      exact ⟨_, hreads, rfl, htells hfields⟩

theorem GtpCMessage.exists_walked (m : GtpCMessage) : ∃ walked, m.Walked walked := by
  cases m with
  | v1 m => exact exists_splitsV1 _
  | v2 m => exact exists_splitsV2 _

theorem GtpCMessage.exists_elements (m : GtpCMessage) : ∃ ies, m.Elements ies := by
  cases m with
  | v1 m => exact exists_splitsV1 _
  | v2 m => exact exists_splitsV2 _

/-- An area tells the same however it is split. -/
theorem GtpCMessage.tellsIes_unique {m : GtpCMessage} {ies ies' : List (UInt8 × List UInt8)} (h : m.Elements ies)
    (h' : m.Elements ies') {imsi apn : Option Value} : TellsIes m ies imsi apn ↔ TellsIes m ies' imsi apn := by
  have hfound : foundIn m.imsiType m.apnType ies = foundIn m.imsiType m.apnType ies' := by
    cases m with
    | v1 m => exact Except.ok.inj ((walkV1Ies_of_splits h).symm.trans (walkV1Ies_of_splits h'))
    | v2 m => exact Except.ok.inj ((walkV2Ies_of_splits h).symm.trans (walkV2Ies_of_splits h'))
  rw [tellsIes_iff, tellsIes_iff, hfound]

/-- A layer with every field is there to tell the elements that were walked. -/
theorem ReadsGtpC.tells {m : GtpCMessage} (h : ReadsGtpC m) {ies walked : List (UInt8 × List UInt8)}
    (hies : m.Elements ies) (hwalked : m.Walked walked) :
    ∃ imsi apn, TellsIes m ies imsi apn ∧ TellsIes m walked imsi apn := by
  have hctx : atDepth ⟨[], .full, ⟨0, 0, 0, 0⟩⟩ .full = true := rfl
  obtain ⟨layer, hlayer, -, htells⟩ := h.reads ⟨[], .full, ⟨0, 0, 0, 0⟩⟩ []
  obtain ⟨layer', hreads, -, htells'⟩ := m.reads hwalked ⟨[], .full, ⟨0, 0, 0, 0⟩⟩
  obtain rfl := Except.ok.inj (hlayer.symm.trans (hreads.parse []))
  exact ⟨_, _, htells hctx ies hies, htells' hctx⟩

theorem readsGtpC_iff_holdsSame (m : GtpCMessage) : ReadsGtpC m ↔ HoldsSame m := by
  constructor
  · intro h
    obtain ⟨ies, hies⟩ := m.exists_elements
    obtain ⟨walked, hwalked⟩ := m.exists_walked
    obtain ⟨imsi, apn, hsaid, hfound⟩ := h.tells hies hwalked
    refine ⟨ies, walked, hies, hwalked, ?_⟩
    intro imsi' apn'
    rw [tellsIes_iff] at hsaid hfound ⊢
    rw [tellsIes_iff, ← hsaid.1, ← hsaid.2, ← hfound.1, ← hfound.2]
  · rintro ⟨ies, walked, hies, hwalked, hsame⟩
    constructor
    · intro ctx more
      obtain ⟨layer, hreads, hlen, htells⟩ := m.reads hwalked ctx
      refine ⟨layer, hreads.parse more, hlen, ?_⟩
      intro hctx ies' hies'
      exact (GtpCMessage.tellsIes_unique hies' hies).2 ((hsame _ _).2 (htells hctx))
    · intro n hn ctx
      obtain ⟨layer, hreads, -, -⟩ := m.reads hwalked ctx
      obtain ⟨e, he⟩ := (exact_parseGtpC ctx).needs hreads n hn
      exact ⟨e, parse_of_error he⟩

/-- Without extension headers the walk begins where the elements do. -/
theorem holdsSame_of_walked {m : GtpCMessage} (h : ∀ ies, m.Elements ies → m.Walked ies) : HoldsSame m := by
  obtain ⟨ies, hies⟩ := m.exists_elements
  exact ⟨ies, ies, hies, h ies hies, fun _ _ => Iff.rfl⟩

/-- The plugin reads every message of version 2, and of version 1 those whose extension headers are none, or, read as
elements in front of the others, make no difference. -/
theorem readsGtpC_iff (m : GtpCMessage) : ReadsGtpC m ↔ m.Aligned := by
  rw [readsGtpC_iff_holdsSame]
  cases m with
  | v2 m => exact ⟨fun _ => trivial, fun _ => holdsSame_of_walked fun _ h => h⟩
  | v1 m =>
      constructor
      · exact .inr
      · rintro (hnone | hsame)
        · apply holdsSame_of_walked
          intro ies hies
          rw [GtpCMessage.Walked, hnone, List.nil_append]
          exact hies
        · exact hsame

end Messages

/-! ## An extension header in front of an IMSI -/

/-- A Create PDP Context Request with one extension header, a PDCP PDU number, and the IMSI 123456789012345. -/
def extendedRequest : GtpV1Message where
  flags := 0x34
  messageType := 16
  teid := 0
  optional := [0, 1, 0, 0xC0, 1, 0, 0, 0]
  area := [2, 0x21, 0x43, 0x65, 0x87, 0x09, 0x21, 0x43, 0xF5]
  version := ⟨by decide, by decide⟩
  announced := .chain (by decide) 0 1 0 (@ExtensionChain.more 0xC0 1 0 [0, 0] [] (by decide) (by decide) rfl .stop)
  fits := by decide

theorem splitsV1_extendedRequest :
    SplitsV1 extendedRequest.area [(2, [0x21, 0x43, 0x65, 0x87, 0x09, 0x21, 0x43, 0xF5])] :=
  ⟨[⟨2, [0x21, 0x43, 0x65, 0x87, 0x09, 0x21, 0x43, 0xF5], by decide⟩], [], rfl, .inl (by decide), rfl⟩

/-- The walk takes the extension header for a Cause and meets an unknown type in its second octet. -/
theorem walked_extendedRequest : (GtpCMessage.v1 extendedRequest).Walked [(1, [0])] :=
  ⟨[⟨1, [0], by decide⟩], [0, 0, 2, 0x21, 0x43, 0x65, 0x87, 0x09, 0x21, 0x43, 0xF5], rfl, .inr ⟨_, rfl⟩, rfl⟩

theorem not_readsGtpC_extended : ¬ReadsGtpC (.v1 extendedRequest) := by
  intro h
  obtain ⟨imsi, apn, hsaid, hfound⟩ := h.tells splitsV1_extendedRequest walked_extendedRequest
  have himsi := (tellsIes_iff.1 hsaid).1.symm.trans (tellsIes_iff.1 hfound).1
  exact absurd (congrArg Option.isSome himsi) (by decide)

end Pktflow.Plugins

import Pktflow.Core.Looping
import Pktflow.Plugins.Cdp

/-!
# Headers of variable length

Model of `gre.rs`, `mpls.rs`, `lldp.rs` and `radiotap.rs`. The end of the header is told by flags, by the bottom of
a stack, by a last record, and by a declared length. In each case the bytes behind it change nothing and no byte of
it can be missing (`honestHeader_encapsulation`).
-/

set_option autoImplicit false

namespace Pktflow.Plugins

open Pktflow.Core Pktflow.Core.ByteReader Pktflow.Flows

/-! ## GRE -/

/-- `C_BIT` of GRE. -/
def greChecksumBit : UInt16 := 0x8000

/-- `K_BIT` of GRE. -/
def greKeyBit : UInt16 := 0x2000

/-- `S_BIT` of GRE. -/
def greSequenceBit : UInt16 := 0x1000

/-- A word that is there if its flag is set. -/
def greWord {α : Type} (flags bit : UInt16) (r : ByteReader α) : ByteReader (Option α) :=
  if flags &&& bit ≠ 0 then return some (← r) else return none

/-- The bytes of such a word. -/
def greWordLen (flags bit : UInt16) : Nat := if flags &&& bit ≠ 0 then 4 else 0

/-- `Gre::parse`. -/
def parseGre (ctx : ParseCtx) : ByteReader ParsedLayer := do
  let flagsVersion ← u16Be
  let version := flagsVersion &&& 0x0007
  if version ≠ 0 then throw (.malformed "GRE version is not 0")
  let protocol ← u16Be
  let checksum ← greWord flagsVersion greChecksumBit do
    let checksum ← u16Be
    let _ ← u16Be
    return checksum
  let key ← greWord flagsVersion greKeyBit u32Be
  let sequence ← greWord flagsVersion greSequenceBit u32Be
  let headerLen := 4 + greWordLen flagsVersion greChecksumBit + greWordLen flagsVersion greKeyBit +
    greWordLen flagsVersion greSequenceBit
  let fields := insertAt ctx .full
    ((checksum.map fun v => Value.u64 v.toUInt64).toList.map (fun v => ("checksum", v)) ++
      (sequence.map fun v => Value.u64 v.toUInt64).toList.map (fun v => ("sequence", v)))
    (insertAt ctx .structural
      [("flags", .u64 (flagsVersion >>> 12).toUInt64), ("protocol", .u64 protocol.toUInt64),
        ("version", .u64 version.toUInt64)]
      -- a tunnel without a key has the key 0
      (insertAt ctx .keys [("key", .u64 (key.getD 0).toUInt64)] FieldMap.new))
  return ⟨headerLen, fields, .route (.etherType protocol)⟩

/-- `Gre`. -/
def gre : LayerPlugin where
  name := "gre"
  parse := fun bytes ctx => (parseGre ctx).parse bytes
  claims := [.ipProtocol 47]
  streamIdentity := some
    { key := [⟨"key", none⟩], canonicalize := .endpointSort, lifecycle := none, rollups := [] }

/-! ## MPLS -/

/-- `MAX_LABELS`. -/
def maxLabels : Nat := 16

/-- The stack read so far: its labels, and the traffic class and time to live of the top one. -/
structure LabelStack where
  labels : List UInt32
  topTc : UInt32
  topTtl : UInt32

/-- One entry of the stack; the one that is marked as the bottom ends the walk. -/
def mplsEntry (s : LabelStack) : ByteReader (LabelStack ⊕ LabelStack × UInt32) := do
  if s.labels.length = maxLabels then throw (.malformed "MPLS: label stack too deep")
  let entry ← u32Be
  let label := entry >>> 12
  let s' : LabelStack :=
    if s.labels.isEmpty then ⟨[label], (entry >>> 9) &&& 0x7, entry &&& 0xFF⟩
    else { s with labels := s.labels ++ [label] }
  if entry &&& 0x100 ≠ 0 then return .inr (s', label) else return .inl s'

/-- `Mpls::parse`. -/
def parseMpls (ctx : ParseCtx) : ByteReader ParsedLayer := do
  let (s, bottomLabel) ← loop mplsEntry ⟨[], 0, 0⟩
  let fields := insertAt ctx .full [("labels", .list (s.labels.map fun l => .u64 l.toUInt64))]
    (insertAt ctx .structural
      [("stack_depth", .u64 (UInt64.ofNat s.labels.length)), ("tc", .u64 s.topTc.toUInt64),
        ("ttl", .u64 s.topTtl.toUInt64)]
      (insertAt ctx .keys [("label", .u64 (s.labels.headD 0).toUInt64)] FieldMap.new))
  let hint := if bottomLabel = 0 then Hint.byProtocol "ipv4" else if bottomLabel = 2 then .byProtocol "ipv6" else .unknown
  return ⟨4 * s.labels.length, fields, hint⟩

/-- `Mpls`. -/
def mpls : LayerPlugin where
  name := "mpls"
  parse := fun bytes ctx => (parseMpls ctx).parse bytes
  claims := [.etherType 0x8847, .etherType 0x8848]
  streamIdentity := some
    { key := [⟨"label", none⟩], canonicalize := .endpointSort, lifecycle := none, rollups := [] }

/-! ## LLDP -/

/-- `read_tlv`. -/
def readTlv : ByteReader (UInt16 × List UInt8) := do
  let header ← u16Be
  let value ← take (header &&& 0x01FF).toNat
  return (header >>> 9, value)

/-- The optional records. -/
structure LldpOptional where
  systemName : Option String := none
  systemDescription : Option String := none
  managementAddress : Option (List UInt8) := none
  capabilities : Option UInt16 := none

/-- The records after one more; the first of a type counts. -/
def LldpOptional.record (o : LldpOptional) (tlvType : UInt16) (value : List UInt8) : LldpOptional :=
  if tlvType = 5 ∧ o.systemName.isNone then { o with systemName := some (decodeText value) }
  else if tlvType = 6 ∧ o.systemDescription.isNone then { o with systemDescription := some (decodeText value) }
  else if tlvType = 7 ∧ o.capabilities.isNone ∧ value.length = 4 then
    { o with capabilities := some (UInt16.ofNat (fromBeBytes (value.drop 2))) }
  else if tlvType = 8 ∧ o.managementAddress.isNone then { o with managementAddress := some value }
  else o

/-- One optional record; the End record ends the walk. -/
def lldpRecord (o : LldpOptional) : ByteReader (LldpOptional ⊕ LldpOptional) := do
  let (tlvType, value) ← readTlv
  if tlvType = 0 then return .inr o else return .inl (o.record tlvType value)

/-- What an announcement says. -/
structure LldpMessage where
  chassisId : List UInt8
  portId : List UInt8
  ttl : UInt16
  optional : LldpOptional

/-- The records of an announcement: three in a fixed order, and others up to the End. -/
def lldpRecords : ByteReader LldpMessage := do
  let (t₁, chassis) ← readTlv
  if t₁ ≠ 1 ∨ chassis.isEmpty then throw (.malformed "LLDP: expected Chassis ID TLV")
  let (t₂, port) ← readTlv
  if t₂ ≠ 2 ∨ port.isEmpty then throw (.malformed "LLDP: expected Port ID TLV")
  let (t₃, ttlBytes) ← readTlv
  if t₃ ≠ 3 ∨ ttlBytes.length ≠ 2 then throw (.malformed "LLDP: expected 2-byte TTL TLV")
  let optional ← loop lldpRecord {}
  return ⟨chassis, port, UInt16.ofNat (fromBeBytes ttlBytes), optional⟩

/-- `Lldp::parse`. -/
def parseLldp (ctx : ParseCtx) : ByteReader ParsedLayer := do
  let (m, headerLen) ← measured lldpRecords
  let o := m.optional
  let fields := insertAt ctx .full
    ((o.systemName.map Value.str).toList.map (fun v => ("system_name", v)) ++
      (o.systemDescription.map Value.str).toList.map (fun v => ("system_description", v)) ++
      (o.managementAddress.map Value.bytes).toList.map (fun v => ("management_address", v)) ++
      (o.capabilities.map fun v => Value.u64 v.toUInt64).toList.map (fun v => ("capabilities", v)))
    (insertAt ctx .structural
      [("chassis_id_subtype", .u64 (m.chassisId.headD 0).toUInt64), ("chassis_id", .bytes m.chassisId.tail),
        ("port_id_subtype", .u64 (m.portId.headD 0).toUInt64), ("port_id", .bytes m.portId.tail),
        ("ttl", .u64 m.ttl.toUInt64)]
      FieldMap.new)
  return ⟨headerLen, fields, .terminal⟩

/-- `Lldp`. -/
def lldp : LayerPlugin where
  name := "lldp"
  parse := fun bytes ctx => (parseLldp ctx).parse bytes
  claims := [.etherType 0x88CC]

/-! ## Radiotap -/

/-- `ByteReader::u16_le`. -/
def u16Le : ByteReader UInt16 := return UInt16.ofNat (fromBeBytes (← take 2).reverse)

/-- `ByteReader::u32_le`. -/
def u32Le : ByteReader UInt32 := return UInt32.ofNat (fromBeBytes (← take 4).reverse)

/-- `PRESENT_EXTENSION_BIT`. -/
def presentExtensionBit : UInt32 := 0x80000000

/-- `MAX_PRESENT_WORDS`. -/
def maxPresentWords : Nat := 8

/-- `FIELD_LAYOUT`: the bit, the alignment and the size of each field. -/
def fieldLayout : List (UInt32 × Nat × Nat) := [(0, 8, 8), (1, 1, 1), (2, 1, 1), (3, 2, 4), (4, 1, 2), (5, 1, 1)]

/-- The fields that are reported. -/
structure RadiotapData where
  rate : Option UInt8 := none
  channelFreq : Option UInt16 := none
  antennaSignal : Option Int8 := none

/-- The data after one more field. -/
def RadiotapData.record (d : RadiotapData) (bit : UInt32) (value : List UInt8) : RadiotapData :=
  if bit = 2 then { d with rate := some (value.headD 0) }
  else if bit = 3 then { d with channelFreq := some (UInt16.ofNat (fromBeBytes (value.take 2).reverse)) }
  else if bit = 5 then { d with antennaSignal := some (value.headD 0).toInt8 }
  else d

/-- One turn of the loop over the present words: the last word read, and how many were. -/
def presentWord : UInt32 × Nat → ByteReader (UInt32 × Nat ⊕ Nat) := fun (word, wordsRead) => do
  if word &&& presentExtensionBit = 0 then return .inr wordsRead
  if maxPresentWords ≤ wordsRead then
    throw (.malformed "radiotap: present-word chain exceeds the 8-word bound")
  let word ← u32Le
  return .inl (word, wordsRead + 1)

/-- One field of the layout, behind `offset` bytes of the header. -/
def radiotapField (itPresent : UInt32) : Nat × RadiotapData → UInt32 × Nat × Nat → ByteReader (Nat × RadiotapData) :=
  fun (offset, data) (bit, align, size) => do
    if itPresent &&& (1 <<< bit) = 0 then return (offset, data)
    let pad := if align - offset % align = align then 0 else align - offset % align
    let _ ← take pad
    let value ← take size
    return (offset + pad + size, data.record bit value)

/-- `Radiotap::parse` on `len` bytes. -/
def parseRadiotap (len : Nat) (ctx : ParseCtx) : ByteReader ParsedLayer := do
  let itVersion ← u8
  let _ ← u8
  let itLen ← u16Le
  if len < itLen.toNat then throw (.malformed "radiotap: it_len exceeds captured bytes")
  let itPresent ← u32Le
  let wordsRead ← loop presentWord (itPresent, 1)
  let (consumed, data) ← fieldLayout.foldlM (radiotapField itPresent) (4 + 4 * wordsRead, {})
  if itLen.toNat < consumed then throw (.malformed "radiotap: present fields overrun it_len")
  let fields := insertAt ctx .full
    ((data.rate.map fun v => Value.u64 v.toUInt64).toList.map (fun v => ("rate", v)) ++
      (data.channelFreq.map fun v => Value.u64 v.toUInt64).toList.map (fun v => ("channel_freq", v)) ++
      (data.antennaSignal.map fun v => Value.i64 v.toInt64).toList.map (fun v => ("antenna_signal", v)))
    (insertAt ctx .structural
      [("it_version", .u64 itVersion.toUInt64), ("it_len", .u64 itLen.toUInt64), ("it_present", .u64 itPresent.toUInt64)]
      FieldMap.new)
  return ⟨itLen.toNat, fields, .byProtocol "dot11"⟩

/-- `Radiotap`. -/
def radiotap : LayerPlugin where
  name := "radiotap"
  parse := fun bytes ctx => (parseRadiotap bytes.length ctx).parse bytes
  claims := [.linkType 127]

/-! ## Honesty -/

section Honest

variable {α : Type}

theorem exact_greWord {r : ByteReader α} (hr : Exact r) (flags bit : UInt16) : Exact (greWord flags bit r) :=
  .ite (fun _ => hr.bind fun _ => exact_pure _) fun _ => exact_pure _

theorem takes_greWord {r : ByteReader α} (hr : Takes 4 r) (flags bit : UInt16) :
    Takes (greWordLen flags bit) (greWord flags bit r) := by
  rw [greWord, greWordLen]
  split
  · exact hr.then fun _ => takes_pure _
  · exact takes_pure _

theorem honestHeader_gre : HonestHeader gre := by
  refine honestHeader_of_exact (r := parseGre) (fun _ _ => rfl) ?_ ?_ fun _ => ⟨_, rfl⟩
  · intro ctx
    refine exact_u16Be.bind fun flags => .guard (exact_u16Be.bind fun protocol => ?_)
    refine (exact_greWord (exact_u16Be.bind fun _ => exact_u16Be.bind fun _ => exact_pure _) _ _).bind fun _ => ?_
    exact (exact_greWord exact_u32Be _ _).bind fun _ => (exact_greWord exact_u32Be _ _).bind fun _ => exact_pure _
  · intro ctx
    refine takes_u16Be.bind fun flags => .guard fun _ => takes_u16Be.bind fun protocol => ?_
    refine (takes_greWord (takes_u16Be.then fun _ => takes_u16Be.then fun _ => takes_pure _) _ _).bind fun _ => ?_
    refine (takes_greWord takes_u32Be _ _).bind fun _ => (takes_greWord takes_u32Be _ _).bind fun _ => ?_
    exact counts_pure rfl

theorem exact_mplsEntry (s : LabelStack) : Exact (mplsEntry s) := by
  rw [mplsEntry]
  refine .guard ?_
  exact exact_u32Be.bind fun _ => .ite (fun _ => exact_pure _) fun _ => exact_pure _

theorem progresses_mplsEntry : Progresses mplsEntry := by
  intro s buf s' rest h
  rw [mplsEntry] at h
  split at h
  · cases h
  · exact takes_u32Be.bind_lt (by decide) (fun _ => .ite (fun _ => exact_pure _) fun _ => exact_pure _) h

/-- Each entry adds a label. -/
theorem counts_mplsEntry (s : LabelStack) :
    Counts (4 * s.labels.length) (Sum.elim (fun s => 4 * s.labels.length) fun r => 4 * r.1.labels.length)
      (mplsEntry s) := by
  rw [mplsEntry]
  refine .guard fun _ => ?_
  apply takes_u32Be.bind
  intro entry
  have hlabels : (if s.labels.isEmpty then (⟨[entry >>> 12], (entry >>> 9) &&& 0x7, entry &&& 0xFF⟩ : LabelStack)
      else { s with labels := s.labels ++ [entry >>> 12] }).labels.length = s.labels.length + 1 := by
    split
    · rename_i hempty
      rw [List.isEmpty_iff.1 hempty]
      rfl
    · exact List.length_append
  refine .ite (fun _ => counts_pure ?_) fun _ => counts_pure ?_
  · rw [Sum.elim_inr, hlabels]
    omega
  · rw [Sum.elim_inl, hlabels]
    omega

theorem honestHeader_mpls : HonestHeader mpls := by
  refine honestHeader_of_exact (r := parseMpls) (fun _ _ => rfl) ?_ ?_ fun _ => ⟨_, rfl⟩
  · intro ctx
    exact (Exact.loop progresses_mplsEntry exact_mplsEntry _).bind fun _ => exact_pure _
  · intro ctx
    apply (Counts.loop progresses_mplsEntry counts_mplsEntry ⟨[], 0, 0⟩).bind
    intro r
    exact counts_pure rfl

theorem exact_readTlv : Exact readTlv := exact_u16Be.bind fun _ => (exact_take _).bind fun _ => exact_pure _

theorem exact_lldpRecord (o : LldpOptional) : Exact (lldpRecord o) :=
  exact_readTlv.bind fun _ => .ite (fun _ => exact_pure _) fun _ => exact_pure _

theorem progresses_lldpRecord : Progresses lldpRecord := by
  intro o buf o' rest h
  obtain ⟨tlv, mid, htlv, hread⟩ := bind_eq_ok.1 h
  have hlt := takes_u16Be.bind_lt (by decide) (fun _ => (exact_take _).bind fun _ => exact_pure _) htlv
  have hrest : Exact (if tlv.1 = 0 then pure (.inr o) else pure (.inl (o.record tlv.1 tlv.2)) :
      ByteReader (LldpOptional ⊕ LldpOptional)) := .ite (fun _ => exact_pure _) fun _ => exact_pure _
  have hle := hrest.length_le hread
  omega

theorem exact_lldpRecords : Exact lldpRecords := by
  refine exact_readTlv.bind fun _ => .guard (exact_readTlv.bind fun _ => .guard (exact_readTlv.bind fun _ => .guard ?_))
  exact (Exact.loop progresses_lldpRecord exact_lldpRecord _).bind fun _ => exact_pure _

theorem honestHeader_lldp : HonestHeader lldp := by
  refine honestHeader_of_exact (r := parseLldp) (fun _ _ => rfl) ?_ ?_ fun _ => ⟨_, rfl⟩
  · exact fun ctx => (exact_measured exact_lldpRecords).bind fun _ => exact_pure _
  · exact fun ctx => (counts_measured exact_lldpRecords).bind fun _ => counts_pure rfl

theorem exact_u16Le : Exact u16Le := (exact_take 2).bind fun _ => exact_pure _

theorem exact_u32Le : Exact u32Le := (exact_take 4).bind fun _ => exact_pure _

theorem takes_u16Le : Takes 2 u16Le := (takes_take 2).map _

theorem takes_u32Le : Takes 4 u32Le := (takes_take 4).map _

theorem exact_presentWord (s : UInt32 × Nat) : Exact (presentWord s) :=
  .ite (fun _ => exact_pure _) fun _ => .guard (exact_u32Le.bind fun _ => exact_pure _)

theorem progresses_presentWord : Progresses presentWord := by
  rintro ⟨word, wordsRead⟩ buf s' rest h
  rw [presentWord] at h
  split at h
  · cases h
  · split at h
    · cases h
    · exact takes_u32Le.bind_lt (by decide) (fun _ => exact_pure _) h

theorem counts_presentWord (s : UInt32 × Nat) :
    Counts (4 + 4 * s.2) (Sum.elim (fun s => 4 + 4 * s.2) fun n => 4 + 4 * n) (presentWord s) := by
  refine .ite (fun _ => counts_pure rfl) fun _ => .guard fun _ => takes_u32Le.bind fun _ => counts_pure ?_
  simp only [Sum.elim_inl]
  omega

theorem exact_radiotapField (itPresent : UInt32) (s : Nat × RadiotapData) (f : UInt32 × Nat × Nat) :
    Exact (radiotapField itPresent s f) :=
  .ite (fun _ => exact_pure _) fun _ => (exact_take _).bind fun _ => (exact_take _).bind fun _ => exact_pure _

/-- The offset counts the bytes in front of the next field. -/
theorem counts_radiotapField (itPresent : UInt32) (s : Nat × RadiotapData) (f : UInt32 × Nat × Nat) :
    Counts s.1 Prod.fst (radiotapField itPresent s f) :=
  .ite (fun _ => counts_pure rfl) fun _ => (takes_take _).bind fun _ => (takes_take _).bind fun _ => counts_pure rfl

theorem counts_radiotapFields (itPresent : UInt32) (fs : List (UInt32 × Nat × Nat)) (s : Nat × RadiotapData) :
    Counts s.1 Prod.fst (fs.foldlM (radiotapField itPresent) s) := by
  induction fs generalizing s with
  | nil => exact counts_pure rfl
  | cons f fs ih =>
      rw [List.foldlM_cons]
      exact (counts_radiotapField itPresent s f).bind ih

/-- A header that is read is as long as it declares, no longer than the bytes there are, and covers all that was read;
and with at least as many bytes it is read the same. -/
theorem parseRadiotap_eq_ok {len : Nat} {ctx : ParseCtx} {buf rest : List UInt8} {layer : ParsedLayer}
    (h : parseRadiotap len ctx buf = .ok (layer, rest)) :
    layer.headerLen ≤ len ∧ buf.length ≤ rest.length + layer.headerLen ∧
      ∀ len', layer.headerLen ≤ len' → parseRadiotap len' ctx buf = .ok (layer, rest) := by
  obtain ⟨itVersion, buf₁, hversion, hread⟩ := bind_eq_ok.1 h
  obtain ⟨itPad, buf₂, hpad, hread⟩ := bind_eq_ok.1 hread
  obtain ⟨itLen, buf₃, hlen, hread⟩ := bind_eq_ok.1 hread
  split at hread
  case isTrue => cases hread
  case isFalse hle =>
    have hfields := hread
    obtain ⟨itPresent, buf₄, hpresent, hread⟩ := bind_eq_ok.1 hread
    obtain ⟨wordsRead, buf₅, hwords, hread⟩ := bind_eq_ok.1 hread
    obtain ⟨data, buf₆, hdata, hread⟩ := bind_eq_ok.1 hread
    dsimp only at hread
    split at hread
    case isTrue => cases hread
    case isFalse hconsumed =>
      obtain ⟨hlayer, rfl⟩ := pure_eq_ok.1 hread
      have hheader : layer.headerLen = itLen.toNat := congrArg ParsedLayer.headerLen hlayer
      rw [hheader]
      refine ⟨Nat.not_lt.1 hle, ?_, ?_⟩
      · -- all that was read, counted from the start of the header
        have h₁ := takes_u8 _ _ _ hversion
        have h₂ := takes_u8 _ _ _ hpad
        have h₃ := takes_u16Le _ _ _ hlen
        have h₄ := takes_u32Le _ _ _ hpresent
        have h₅ := Counts.loop progresses_presentWord counts_presentWord _ _ _ _ hwords
        have h₆ := counts_radiotapFields itPresent fieldLayout _ _ _ _ hdata
        dsimp only at h₅ h₆
        omega
      · intro len' hlen'
        rw [parseRadiotap, bind_of_ok hversion, bind_of_ok hpad, bind_of_ok hlen, if_neg (Nat.not_lt.2 hlen')]
        exact hfields

/-- The declared length is all that is asked of the number of bytes. -/
theorem declaresLength_parseRadiotap (ctx : ParseCtx) : DeclaresLength fun len => parseRadiotap len ctx := by
  constructor
  case exact =>
    intro len
    refine exact_u8.bind fun _ => exact_u8.bind fun _ => exact_u16Le.bind fun itLen => .guard ?_
    refine exact_u32Le.bind fun itPresent => (Exact.loop progresses_presentWord exact_presentWord _).bind fun _ => ?_
    exact (Exact.foldlM (exact_radiotapField itPresent) _ _).bind fun _ => .guard (exact_pure _)
  case within =>
    intro len buf rest layer h
    exact (parseRadiotap_eq_ok h).1
  case mono =>
    intro len len' buf layer rest h hle
    exact (parseRadiotap_eq_ok h).2.2 len' hle
  case covers =>
    intro len buf layer rest h
    exact (parseRadiotap_eq_ok h).2.1
  case some => exact fun len => ⟨_, rfl⟩

theorem honestHeader_radiotap : HonestHeader radiotap :=
  honestHeader_of_declares (r := fun ctx len => parseRadiotap len ctx) (fun _ _ => rfl) declaresLength_parseRadiotap

/-- In each of the four formats the header is as long as it says, determines the result, and is needed to its last
byte, at every depth. -/
theorem honestHeader_encapsulation {p : LayerPlugin} (hp : p ∈ [gre, mpls, radiotap, lldp]) : HonestHeader p := by
  simp only [List.mem_cons, List.not_mem_nil, or_false] at hp
  rcases hp with rfl | rfl | rfl | rfl
  · exact honestHeader_gre
  · exact honestHeader_mpls
  · exact honestHeader_radiotap
  · exact honestHeader_lldp

/-- GRE is one of them. -/
theorem honestHeader_encapsulation_gre : HonestHeader gre := honestHeader_encapsulation List.mem_cons_self

end Honest

end Pktflow.Plugins

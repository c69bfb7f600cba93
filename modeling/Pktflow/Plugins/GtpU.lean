import Pktflow.Core.Looping
import Pktflow.Plugins.ExtHeaders
import Pktflow.Plugins.FiveTuple

/-!
# GTP-U

Model of `GtpU::parse` (`gtp_u.rs`). The header is the mandatory part, the optional block and, if the E flag is
set, a chain of extension headers (`GtpHeader`). The walk over the chain does not look at the flag: what is read is
the header except where the flag is clear and the unused octet for the first extension type is not zero
(`framesGtp_iff`).
-/

set_option autoImplicit false

namespace Pktflow.Plugins

open Pktflow.Core Pktflow.Core.ByteReader Pktflow.Flows

/-! ## The plugin -/

/-- `E_BIT`. -/
def eBit : UInt8 := 0x04

/-- `S_BIT`. -/
def sBit : UInt8 := 0x02

/-- `PN_BIT`. -/
def pnBit : UInt8 := 0x01

/-- `MSG_GPDU`. -/
def msgGpdu : UInt8 := 255

/-- One turn of the walk over the extension headers: the type of the next one, and the header length so far. -/
def walkExtension : UInt8 × Nat → ByteReader (UInt8 × Nat ⊕ Nat) := fun (nextExtType, headerLen) => do
  if nextExtType = 0 then return .inr headerLen
  let lengthWords ← u8
  if lengthWords = 0 then throw (.malformed "GTP-U: zero-length extension header")
  let recordLen := lengthWords.toNat * 4
  let _ ← take (recordLen - 2)
  let nextExtType ← u8
  return .inl (nextExtType, headerLen + recordLen)

/-- The optional block and what is walked behind it: the header length and the sequence number. -/
def optionalBlock (flags : UInt8) : ByteReader (Nat × Option UInt16) := do
  if flags &&& (eBit ||| sBit ||| pnBit) = 0 then return (8, none)
  let seq ← u16Be
  let _ ← u8
  let nextExtType ← u8
  let headerLen ← loop walkExtension (nextExtType, 12)
  return (headerLen, if flags &&& sBit ≠ 0 then some seq else none)

/-- `GtpU::parse`. -/
def parseGtpU (ctx : ParseCtx) : ByteReader ParsedLayer := do
  let flags ← u8
  if (flags &&& 0xE0) >>> 5 ≠ 1 then throw (.malformed "GTP-U: unsupported version")
  if flags &&& 0x10 = 0 then throw (.malformed "GTP-U: PT bit selects GTP', not GTP")
  let messageType ← u8
  let length ← u16Be
  let teid ← u32Be
  let (headerLen, sequenceNumber) ← optionalBlock flags
  let fields := insertAt ctx .full (sequenceNumber.toList.map fun seq => ("sequence_number", .u64 seq.toUInt64))
    (insertAt ctx .structural
      [("message_type", .u64 messageType.toUInt64), ("flags", .u64 flags.toUInt64), ("length", .u64 length.toUInt64)]
      (insertAt ctx .keys [("teid", .u64 teid.toUInt64)] FieldMap.new))
  return ⟨headerLen, fields, if messageType = msgGpdu then .unknown else .terminal⟩

/-- `GtpU`. -/
def gtpU : LayerPlugin where
  name := "gtp_u"
  parse := fun bytes ctx => (parseGtpU ctx).parse bytes
  claims := [.udpPort 2152]
  streamIdentity := some
    { key := [⟨"teid", none⟩], canonicalize := .endpointSort, lifecycle := none,
      rollups := [⟨"message_type", .accumulate⟩] }

/-! ## The header -/

/-- The chain of extension headers that a type leads to, and its bytes. -/
inductive ExtensionChain : UInt8 → List UInt8 → Prop where
  | stop : ExtensionChain 0 []
  | more {type lengthWords next : UInt8} {content rest : List UInt8} (htype : type ≠ 0) (hwords : lengthWords ≠ 0)
      (hcontent : content.length = lengthWords.toNat * 4 - 2) (hrest : ExtensionChain next rest) :
      ExtensionChain type (lengthWords :: content ++ next :: rest)

/-- Version 1 and the bit for GTP. -/
def IsGtpV1 (flags : UInt8) : Prop := (flags &&& 0xE0) >>> 5 = 1 ∧ flags &&& 0x10 ≠ 0

/-- What stands behind the mandatory part: nothing if no flag is set, else the block, and behind it the chain if
and only if E is set. -/
inductive OptionalPart (flags : UInt8) : List UInt8 → Prop where
  | absent (hnone : flags &&& (eBit ||| sBit ||| pnBit) = 0) : OptionalPart flags []
  | block (hE : flags &&& eBit = 0) (hsome : flags &&& (eBit ||| sBit ||| pnBit) ≠ 0) (s₁ s₂ pn next : UInt8) :
      OptionalPart flags [s₁, s₂, pn, next]
  | chain (hE : flags &&& eBit ≠ 0) (s₁ s₂ pn : UInt8) {next : UInt8} {extensions : List UInt8}
      (hchain : ExtensionChain next extensions) : OptionalPart flags (s₁ :: s₂ :: pn :: next :: extensions)

/-- The bytes of a header. -/
inductive GtpHeader : List UInt8 → Prop where
  | mk {flags : UInt8} {mandatory optional : List UInt8} (hflags : IsGtpV1 flags) (hlen : mandatory.length = 7)
      (hopt : OptionalPart flags optional) : GtpHeader (flags :: mandatory ++ optional)

/-- The flags in the first byte. -/
def flagsOf (bytes : List UInt8) : UInt8 := bytes.headD 0

/-- The plugin frames these bytes: it takes them if and only if they begin with a header, and then reports its
length, and the sequence number if and only if S is set. Every turn of the walk over the chain that goes on takes a
byte, so that the walk ends. -/
structure FramesGtp (bytes : List UInt8) (ctx : ParseCtx) : Prop where
  succeeds : (∃ layer, gtpU.parse bytes ctx = .ok layer) ↔ ∃ header, GtpHeader header ∧ header <+: bytes
  headerLen : ∀ layer header, gtpU.parse bytes ctx = .ok layer → GtpHeader header → header <+: bytes →
    layer.headerLen = header.length
  sequence : ∀ layer, gtpU.parse bytes ctx = .ok layer → ctx.depth = .full →
    ((layer.fields.get "sequence_number").isSome ↔ flagsOf bytes &&& sBit ≠ 0)
  progresses : Progresses walkExtension
  terminates : ∀ s, Ends walkExtension s bytes (loop walkExtension s bytes)

/-- No extension is announced, the block is there for another flag, and its last octet is not zero. -/
structure OverrunsGtp (bytes : List UInt8) : Prop where
  gtp : IsGtpV1 (flagsOf bytes)
  noChain : flagsOf bytes &&& eBit = 0
  block : flagsOf bytes &&& (sBit ||| pnBit) ≠ 0
  octet : ∃ next, bytes[11]? = some next ∧ next ≠ 0

section Framing

variable {bytes buf rest : List UInt8} {ctx : ParseCtx}

theorem takes_walkExtension_lt : Progresses walkExtension := by
  rintro ⟨type, headerLen⟩ buf s' rest h
  rw [walkExtension] at h
  split at h
  · cases h
  · refine takes_u8.bind_lt (Nat.succ_pos 0) (fun words => ?_) h
    exact .guard ((exact_take _).bind fun _ => exact_u8.bind fun _ => exact_pure _)

theorem walkExtension_zero (headerLen : Nat) : walkExtension (0, headerLen) = pure (.inr headerLen) := by
  rw [walkExtension]
  exact if_pos rfl

theorem walkExtension_eq_ok {type : UInt8} {headerLen : Nat} (htype : type ≠ 0) {r : UInt8 × Nat ⊕ Nat} :
    walkExtension (type, headerLen) buf = .ok (r, rest) ↔ ∃ words next content,
      words ≠ 0 ∧ content.length = words.toNat * 4 - 2 ∧ buf = words :: content ++ next :: rest ∧
        r = .inl (next, headerLen + words.toNat * 4) := by
  -- Four bytes a word: the length octet and the next type are counted in it, hence the two bytes less.
  rw [walkExtension, if_neg htype]
  constructor
  · intro h
    obtain ⟨words, buf₁, hwords, hbody⟩ := bind_eq_ok.1 h
    split at hbody
    · cases hbody
    · rename_i hne
      obtain ⟨content, buf₂, hcontent, hlast⟩ := bind_eq_ok.1 hbody
      obtain ⟨next, buf₃, hnext, hpure⟩ := bind_eq_ok.1 hlast
      obtain rfl := u8_eq_ok.1 hwords
      obtain ⟨rfl, hlen⟩ := take_eq_ok.1 hcontent
      obtain rfl := u8_eq_ok.1 hnext
      obtain ⟨rfl, rfl⟩ := pure_eq_ok.1 hpure
      exact ⟨words, next, content, hne, hlen, rfl, rfl⟩
  · rintro ⟨words, next, content, hne, hlen, rfl, rfl⟩
    refine bind_eq_ok.2 ⟨words, content ++ next :: rest, u8_eq_ok.2 rfl, ?_⟩
    rw [if_neg hne]
    refine bind_eq_ok.2 ⟨content, next :: rest, take_eq_ok.2 ⟨rfl, hlen⟩, ?_⟩
    exact bind_eq_ok.2 ⟨next, rest, u8_eq_ok.2 rfl, rfl⟩

/-- The bytes of one extension header, the octet for the next type included. -/
theorem extension_length {words next : UInt8} {content rest : List UInt8} (hwords : words ≠ 0)
    (hcontent : content.length = words.toNat * 4 - 2) :
    (words :: content ++ next :: rest).length = words.toNat * 4 + rest.length := by
  have hpos : 0 < words.toNat := Nat.pos_of_ne_zero fun h => hwords (UInt8.toNat_inj.1 h)
  simp only [List.cons_append, List.length_cons, List.length_append, hcontent]
  omega

/-- The walk reads a chain of extension headers and counts its bytes. -/
theorem extensionWalk_eq_ok {type : UInt8} {headerLen n : Nat} :
    loop walkExtension (type, headerLen) buf = .ok (n, rest) ↔
      ∃ chain, ExtensionChain type chain ∧ buf = chain ++ rest ∧ n = headerLen + chain.length := by
  constructor
  -- Forwards the run of the loop is read off turn by turn; backwards the chain is put in one link at a time.
  · refine loop_induction takes_walkExtension_lt
      (P := fun s buf res => res = .ok (n, rest) →
        ∃ chain, ExtensionChain s.1 chain ∧ buf = chain ++ rest ∧ n = s.2 + chain.length) ?_ ?_ ?_ _ _
    · rintro ⟨type, headerLen⟩ buf s' mid res hstep ih hres
      by_cases htype : type = 0
      · subst htype
        rw [walkExtension_zero] at hstep
        cases hstep
      · obtain ⟨words, next, content, hwords, hcontent, rfl, hs'⟩ := (walkExtension_eq_ok htype).1 hstep
        obtain rfl := Sum.inl.inj hs'
        obtain ⟨chain, hchain, rfl, rfl⟩ := ih hres
        refine ⟨_, .more htype hwords hcontent hchain, by simp, ?_⟩
        rw [extension_length hwords hcontent, Nat.add_assoc]
    · rintro ⟨type, headerLen⟩ buf b mid hstep hres
      obtain ⟨rfl, rfl⟩ := Prod.mk.inj (Except.ok.inj hres)
      by_cases htype : type = 0
      · subst htype
        rw [walkExtension_zero] at hstep
        obtain ⟨hb, rfl⟩ := pure_eq_ok.1 hstep
        exact ⟨[], .stop, rfl, Sum.inr.inj hb⟩
      · obtain ⟨words, next, content, hwords, hcontent, rfl, hs'⟩ := (walkExtension_eq_ok htype).1 hstep
        cases hs'
    · intro s buf e _ hres
      cases hres
  · rintro ⟨chain, hchain, rfl, rfl⟩
    induction hchain generalizing headerLen with
    | stop => exact loop_of_inr (congrFun (walkExtension_zero headerLen) _)
    | @more type words next content chain htype hwords hcontent hchain ih =>
        have hstep : walkExtension (type, headerLen) ((words :: content ++ next :: chain) ++ rest) =
            .ok (.inl (next, headerLen + words.toNat * 4), chain ++ rest) :=
          (walkExtension_eq_ok htype).2 ⟨words, next, content, hwords, hcontent, by simp, rfl⟩
        rw [loop_of_inl takes_walkExtension_lt hstep, ih, extension_length hwords hcontent, Nat.add_assoc]

/-- What the block and the walk read. -/
theorem optionalBlock_eq_ok {flags : UInt8} {n : Nat} {seq : Option UInt16} :
    optionalBlock flags buf = .ok ((n, seq), rest) ↔
      (flags &&& (eBit ||| sBit ||| pnBit) = 0 ∧ n = 8 ∧ seq = none ∧ rest = buf) ∨
      (flags &&& (eBit ||| sBit ||| pnBit) ≠ 0 ∧ ∃ s₁ s₂ pn next chain, ExtensionChain next chain ∧
        buf = s₁ :: s₂ :: pn :: next :: chain ++ rest ∧ n = 12 + chain.length ∧
          seq = if flags &&& sBit ≠ 0 then some (UInt16.ofNat (fromBeBytes [s₁, s₂])) else none) := by
  rw [optionalBlock]
  -- One flag is enough for all four bytes: sequence number, N-PDU number and next type come together.
  by_cases hflags : flags &&& (eBit ||| sBit ||| pnBit) = 0
  · rw [if_pos hflags, pure_eq_ok]
    simp only [hflags, Prod.mk.injEq, and_assoc, true_and, ne_eq, not_true_eq_false, false_and, or_false]
  · rw [if_neg hflags]
    simp only [hflags, false_and, ne_eq, not_false_eq_true, true_and, false_or]
    constructor
    · intro h
      obtain ⟨word, buf₁, hword, hrest⟩ := bind_eq_ok.1 h
      obtain ⟨pn, buf₂, hpn, hrest⟩ := bind_eq_ok.1 hrest
      obtain ⟨next, buf₃, hnext, hrest⟩ := bind_eq_ok.1 hrest
      obtain ⟨m, buf₄, hwalk, hpure⟩ := bind_eq_ok.1 hrest
      obtain ⟨bs, rfl, hbs, rfl⟩ := u16Be_eq_ok.1 hword
      obtain rfl := u8_eq_ok.1 hpn
      obtain rfl := u8_eq_ok.1 hnext
      obtain ⟨chain, hchain, rfl, rfl⟩ := extensionWalk_eq_ok.1 hwalk
      obtain ⟨hpair, rfl⟩ := pure_eq_ok.1 hpure
      obtain ⟨rfl, rfl⟩ := Prod.mk.inj hpair
      obtain ⟨s₁, s₂, rfl⟩ := List.length_eq_two.1 hbs
      exact ⟨s₁, s₂, pn, next, chain, hchain, rfl, rfl, rfl⟩
    · rintro ⟨s₁, s₂, pn, next, chain, hchain, rfl, rfl, rfl⟩
      refine bind_eq_ok.2 ⟨_, _, u16Be_eq_ok.2 ⟨[s₁, s₂], rfl, rfl, rfl⟩, ?_⟩
      refine bind_eq_ok.2 ⟨pn, _, u8_eq_ok.2 rfl, ?_⟩
      refine bind_eq_ok.2 ⟨next, chain ++ rest, u8_eq_ok.2 rfl, ?_⟩
      exact bind_eq_ok.2 ⟨_, rest, extensionWalk_eq_ok.2 ⟨chain, hchain, rfl, rfl⟩, rfl⟩

theorem sequenceNumber_isSome (hctx : ctx.depth = .full) (seq : Option UInt16) (messageType flags : UInt8)
    (length : UInt16) (teid : UInt32) :
    ((insertAt ctx .full (seq.toList.map fun seq => ("sequence_number", Value.u64 seq.toUInt64))
      (insertAt ctx .structural
        [("message_type", .u64 messageType.toUInt64), ("flags", .u64 flags.toUInt64), ("length", .u64 length.toUInt64)]
        (insertAt ctx .keys [("teid", .u64 teid.toUInt64)] FieldMap.new))).get "sequence_number").isSome =
      seq.isSome := by
  have hfull : atDepth ctx .full = true := atDepth_of_depth hctx .full
  cases seq with
  | none =>
      rw [get_insertAt (by simp), get_insertAt (by simp), get_insertAt (by simp)]
      rfl
  | some seq =>
      rw [insertAt, if_pos hfull]
      simp only [Option.toList_some, List.map_cons, List.map_nil, List.foldl_cons, List.foldl_nil, FieldMap.get_insert,
        if_true, Option.isSome_some]

/-- What the plugin has read where it succeeds. -/
theorem parse_gtpU_eq_ok {layer : ParsedLayer} (h : gtpU.parse bytes ctx = .ok layer) :
    ∃ flags mandatory block n seq rest, IsGtpV1 flags ∧ mandatory.length = 7 ∧
      bytes = flags :: mandatory ++ block ∧ optionalBlock flags block = .ok ((n, seq), rest) ∧ layer.headerLen = n ∧
        (ctx.depth = .full → (layer.fields.get "sequence_number").isSome = seq.isSome) := by
  obtain ⟨rest, hread⟩ := parse_eq_ok.1 h
  obtain ⟨flags, buf₁, hflags, hread⟩ := bind_eq_ok.1 hread
  -- The version and the protocol type are checked on the first octet, before anything else is read.
  split at hread
  · cases hread
  · rename_i hversion
    split at hread
    · cases hread
    · rename_i hpt
      obtain ⟨messageType, buf₂, htype, hread⟩ := bind_eq_ok.1 hread
      obtain ⟨length, buf₃, hlength, hread⟩ := bind_eq_ok.1 hread
      obtain ⟨teid, buf₄, hteid, hread⟩ := bind_eq_ok.1 hread
      obtain ⟨⟨n, seq⟩, buf₅, hblock, hpure⟩ := bind_eq_ok.1 hread
      obtain rfl := u8_eq_ok.1 hflags
      obtain rfl := u8_eq_ok.1 htype
      obtain ⟨ls, rfl, hls, rfl⟩ := u16Be_eq_ok.1 hlength
      obtain ⟨ts, rfl, hts, rfl⟩ := u32Be_eq_ok.1 hteid
      obtain ⟨rfl, rfl⟩ := pure_eq_ok.1 hpure
      refine ⟨flags, messageType :: (ls ++ ts), buf₄, n, seq, _, ⟨not_not.1 hversion, hpt⟩, ?_, by simp, hblock, rfl, ?_⟩
      · simp [hls, hts]
      · intro hctx
        exact sequenceNumber_isSome hctx seq _ _ _ _

variable (ctx) in
/-- The plugin succeeds where the block is read. -/
theorem parse_gtpU_of_block {flags : UInt8} {mandatory block : List UInt8} {n : Nat} {seq : Option UInt16}
    (hflags : IsGtpV1 flags) (hlen : mandatory.length = 7) (hblock : optionalBlock flags block = .ok ((n, seq), rest)) :
    ∃ layer, gtpU.parse (flags :: mandatory ++ block) ctx = .ok layer ∧ layer.headerLen = n := by
  obtain ⟨messageType, words, rfl⟩ := List.exists_cons_of_length_eq_add_one hlen
  have hwords : words.length = 6 := by simpa using hlen
  have htype : u8 (messageType :: words ++ block) = .ok (messageType, words ++ block) := u8_eq_ok.2 rfl
  have hlength : u16Be (words ++ block) = .ok (_, words.drop 2 ++ block) :=
    u16Be_eq_ok.2 ⟨words.take 2, by rw [← List.append_assoc, List.take_append_drop], by simp [hwords], rfl⟩
  have hteid : u32Be (words.drop 2 ++ block) = .ok (_, block) :=
    u32Be_eq_ok.2 ⟨words.drop 2, rfl, by simp [hwords], rfl⟩
  have hread : ∃ layer, parseGtpU ctx (flags :: messageType :: words ++ block) = .ok (layer, rest) ∧
      layer.headerLen = n := by
    rw [parseGtpU, List.cons_append, bind_of_ok (u8_cons ..), if_neg (not_not.2 hflags.1), if_neg hflags.2]
    beta_reduce
    rw [bind_of_ok htype, bind_of_ok hlength, bind_of_ok hteid, bind_of_ok hblock]
    exact ⟨_, rfl, rfl⟩
  obtain ⟨layer, hlayer, hn⟩ := hread
  exact ⟨layer, parse_eq_ok.2 ⟨rest, hlayer⟩, hn⟩

theorem and_or_bytes (a b c : UInt8) : a &&& (b ||| c) = (a &&& b) ||| (a &&& c) := by
  apply UInt8.toBitVec_inj.1
  simp only [UInt8.toBitVec_and, UInt8.toBitVec_or]
  exact BitVec.and_or_distrib_left

theorem flag_parts (flags : UInt8) :
    flags &&& (eBit ||| sBit ||| pnBit) = 0 ↔ flags &&& eBit = 0 ∧ flags &&& (sBit ||| pnBit) = 0 := by
  have hparts : flags &&& (eBit ||| sBit ||| pnBit) = (flags &&& eBit) ||| (flags &&& (sBit ||| pnBit)) := by
    rw [UInt8.or_assoc, and_or_bytes]
  rw [hparts, UInt8.or_eq_zero_iff]

variable (ctx) in
/-- A header at the front of bytes that do not overrun it is read, to its end. -/
theorem GtpHeader.parsed {header : List UInt8} (h : GtpHeader header) (hover : ¬OverrunsGtp (header ++ rest)) :
    ∃ layer, gtpU.parse (header ++ rest) ctx = .ok layer ∧ layer.headerLen = header.length := by
  obtain ⟨hflags, hlen, hopt⟩ := h
  rename_i flags mandatory optional
  obtain ⟨n, seq, hblock, hn⟩ : ∃ n seq, optionalBlock flags (optional ++ rest) = .ok ((n, seq), rest) ∧
      n = 8 + optional.length := by
    cases hopt with
    | absent hnone => exact ⟨8, none, optionalBlock_eq_ok.2 (.inl ⟨hnone, rfl, rfl, rfl⟩), rfl⟩
    | block hE hsome s₁ s₂ pn next =>
        -- the octet for the next type is the twelfth byte
        have hnext : next = 0 := by
          by_contra hne
          have hblock : flags &&& (sBit ||| pnBit) ≠ 0 := fun h => hsome ((flag_parts flags).2 ⟨hE, h⟩)
          refine hover ⟨hflags, hE, hblock, next, ?_, hne⟩
          rw [List.append_assoc, List.cons_append, List.getElem?_cons_succ, List.getElem?_append_right (by omega), hlen]
          rfl
        subst hnext
        exact ⟨12, _, optionalBlock_eq_ok.2 (.inr ⟨hsome, s₁, s₂, pn, 0, [], .stop, rfl, rfl, rfl⟩), rfl⟩
    | @chain hE s₁ s₂ pn next extensions hchain =>
        have hsome : flags &&& (eBit ||| sBit ||| pnBit) ≠ 0 := fun h => hE ((flag_parts flags).1 h).1
        refine ⟨_, _, optionalBlock_eq_ok.2 (.inr ⟨hsome, s₁, s₂, pn, next, extensions, hchain, rfl, rfl, rfl⟩), ?_⟩
        simp only [List.length_cons]
        omega
  obtain ⟨layer, hlayer, hheader⟩ := parse_gtpU_of_block ctx hflags hlen hblock
  refine ⟨layer, ?_, ?_⟩
  · rw [List.append_assoc]
    exact hlayer
  · rw [hheader, hn, List.length_append, List.length_cons, hlen]

/-- What is read is a header, unless its bytes overrun one. -/
theorem exists_header_of_parse {layer : ParsedLayer} (h : gtpU.parse bytes ctx = .ok layer)
    (hover : ¬OverrunsGtp bytes) : ∃ header, GtpHeader header ∧ header <+: bytes := by
  obtain ⟨flags, mandatory, block, n, seq, rest, hflags, hlen, rfl, hblock, -, -⟩ := parse_gtpU_eq_ok h
  rcases optionalBlock_eq_ok.1 hblock with ⟨hnone, -, -, rfl⟩ | ⟨hsome, s₁, s₂, pn, next, chain, hchain, rfl, -, -⟩
  · exact ⟨_, .mk hflags hlen (.absent hnone), by simp⟩
  · by_cases hE : flags &&& eBit = 0
    · exact ⟨_, .mk hflags hlen (.block hE hsome s₁ s₂ pn next), by simp⟩
    · refine ⟨_, .mk hflags hlen (.chain hE s₁ s₂ pn hchain), ?_⟩
      simp

/-- An extension type that is walked leads to at least one header. -/
theorem ExtensionChain.length_pos {type : UInt8} {chain : List UInt8} (h : ExtensionChain type chain)
    (htype : type ≠ 0) : 0 < chain.length := by
  cases h with
  | stop => exact absurd rfl htype
  | more => simp

/-- The sequence number is read if and only if its flag is set. -/
theorem sequence_iff {flags : UInt8} {n : Nat} {seq : Option UInt16}
    (h : optionalBlock flags buf = .ok ((n, seq), rest)) : seq.isSome ↔ flags &&& sBit ≠ 0 := by
  rcases optionalBlock_eq_ok.1 h with ⟨hnone, -, rfl, -⟩ | ⟨-, s₁, s₂, pn, next, chain, -, -, -, rfl⟩
  · have hS : flags &&& sBit = 0 := by
      have hboth := ((flag_parts flags).1 hnone).2
      rw [and_or_bytes, UInt8.or_eq_zero_iff] at hboth
      exact hboth.1
    simp [hS]
  · split <;> simp [*]

/-- Twelve bytes and the rest. -/
theorem split_twelve {next : UInt8} (h : bytes[11]? = some next) : ∃ flags mandatory s₁ s₂ pn rest,
    mandatory.length = 7 ∧ bytes = flags :: mandatory ++ s₁ :: s₂ :: pn :: next :: rest := by
  obtain ⟨hlt, hget⟩ := List.getElem?_eq_some_iff.1 h
  match bytes, hlt, hget with
  | a :: b :: c :: d :: e :: f :: g :: i :: j :: k :: l :: m :: rest, _, hget =>
      obtain rfl : m = next := hget
      exact ⟨a, [b, c, d, e, f, g, i], j, k, l, rest, rfl, rfl⟩

/-- The plugin frames every byte string but those that overrun the header. -/
theorem framesGtp_iff (bytes : List UInt8) (ctx : ParseCtx) : FramesGtp bytes ctx ↔ ¬OverrunsGtp bytes := by
  constructor
  · rintro ⟨hsucceeds, hheaderLen, -, -, -⟩ ⟨hgtp, hE, hblock, next, hoctet, hnext⟩
    -- the header is the first twelve bytes
    obtain ⟨flags, mandatory, s₁, s₂, pn, rest, hlen, rfl⟩ := split_twelve hoctet
    have hsome : flags &&& (eBit ||| sBit ||| pnBit) ≠ 0 := fun h => hblock ((flag_parts flags).1 h).2
    have hheader : GtpHeader (flags :: mandatory ++ [s₁, s₂, pn, next]) := .mk hgtp hlen (.block hE hsome s₁ s₂ pn next)
    have hfront : flags :: mandatory ++ [s₁, s₂, pn, next] <+: flags :: mandatory ++ s₁ :: s₂ :: pn :: next :: rest :=
      ⟨rest, by simp⟩
    obtain ⟨layer, hlayer⟩ := hsucceeds.2 ⟨_, hheader, hfront⟩
    have htwelve := hheaderLen layer _ hlayer hheader hfront
    -- but the walk has read more
    obtain ⟨flags', mandatory', block, n, seq, rest', -, hlen', heq, hblock', hn, -⟩ := parse_gtpU_eq_ok hlayer
    obtain ⟨rfl, htail⟩ := List.cons.inj heq
    obtain ⟨rfl, rfl⟩ := List.append_inj htail (hlen.trans hlen'.symm)
    rcases optionalBlock_eq_ok.1 hblock' with ⟨hnone, -⟩ | ⟨-, t₁, t₂, pn', next', chain, hchain, heq, hcount, -⟩
    · exact hsome hnone
    · simp only [List.cons_append, List.cons.injEq] at heq
      obtain ⟨-, -, -, rfl, -⟩ := heq
      have hpos := hchain.length_pos hnext
      rw [hn, hcount] at htwelve
      simp only [List.length_append, List.length_cons, List.length_nil, hlen] at htwelve
      omega
  · intro hover
    refine ⟨⟨?_, ?_⟩, ?_, ?_, takes_walkExtension_lt, fun s => ends_loop takes_walkExtension_lt s bytes⟩
    · rintro ⟨layer, hlayer⟩
      exact exists_header_of_parse hlayer hover
    · rintro ⟨header, hheader, rest, rfl⟩
      obtain ⟨layer, hlayer, -⟩ := hheader.parsed ctx hover
      exact ⟨layer, hlayer⟩
    · rintro layer header hlayer hheader ⟨rest, rfl⟩
      obtain ⟨layer', hlayer', hlen⟩ := hheader.parsed ctx hover
      obtain rfl := Except.ok.inj (hlayer.symm.trans hlayer')
      exact hlen
    · intro layer hlayer hctx
      obtain ⟨flags, mandatory, block, n, seq, rest, -, -, rfl, hblock, -, hseq⟩ := parse_gtpU_eq_ok hlayer
      rw [hseq hctx]
      exact sequence_iff hblock

/-- A sequence number is announced and no extension; the octet for the first extension type is not zero, and the
plugin refuses the header. -/
theorem not_framesGtp_of_unused_octet : ¬∀ bytes ctx, FramesGtp bytes ctx := by
  intro h
  have hheader : GtpHeader [0x32, 0xFF, 0, 4, 0, 0, 0, 1, 0, 7, 0, 0x85] :=
    @GtpHeader.mk _ [0xFF, 0, 4, 0, 0, 0, 1] _ ⟨by decide, by decide⟩ rfl
      (.block (by decide) (by decide) 0 7 0 0x85)
  obtain ⟨layer, hlayer⟩ := (h [0x32, 0xFF, 0, 4, 0, 0, 0, 1, 0, 7, 0, 0x85]
    ⟨[], .full, ⟨0, 12, 12, 1⟩⟩).succeeds.2 ⟨_, hheader, List.prefix_rfl⟩
  cases hlayer

end Framing

end Pktflow.Plugins

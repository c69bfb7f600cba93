import Pktflow.Plugins.ExtHeaders
import Pktflow.Plugins.FiveTuple
import Pktflow.Plugins.Names

/-!
# DNS messages

Model of `render_rdata`, `parse_message` and `Dns::parse` (`dns.rs`). A message is read exactly if its sections
are laid out in it (`parseMessage_eq_ok`), and the header length is the end of the last record. A name can lead
through pointers to bytes behind that end, so the bytes in front of it determine what is read exactly if each name
is complete in them; behind a length prefix they do exactly if the prefix counts them (`honest_iff`).
-/

set_option autoImplicit false

namespace Pktflow.Plugins

open Pktflow.Core Pktflow.Core.ByteReader Pktflow.Flows

/-- A read of the bytes behind an offset. -/
def readAt {α : Type} (r : ByteReader α) (msg : List UInt8) (pos : Nat) : Except Abort α :=
  (r.parse (msg.drop pos)).mapError .declined

/-- The text of record data that is not rendered. -/
def typeText (rtype : UInt16) : String := s!"type{rtype.toNat}"

/-- `render_rdata`. -/
def renderRdata (msg : List UInt8) (rtype : UInt16) (rdataOffset : Nat) (rdata : List UInt8) : String :=
  if rtype = 1 ∧ rdata.length = 4 then ".".intercalate (rdata.map fun b => toString b.toNat)
  else if rtype = 28 ∧ rdata.length = 16 then
    ":".intercalate ((Checksum.words rdata).map fun pair => String.ofList (Nat.toDigits 16 pair.toNat))
  else if rtype = 5 ∨ rtype = 12 then
    match decodeName msg rdataOffset with
    | .ok (name, _) => String.ofList name
    | .error _ => typeText rtype
  else typeText rtype

/-- The sections of a message. -/
inductive Section where
  | question
  | answer
  | authority
  | additional
  deriving DecidableEq

/-- The fixed header of a message. -/
structure MessageHead where
  id : UInt16
  flags : UInt16
  qdcount : UInt16
  ancount : UInt16
  nscount : UInt16
  arcount : UInt16
  deriving DecidableEq

namespace MessageHead

/-- `counts`. -/
def counts (h : MessageHead) : List UInt16 := [h.qdcount, h.ancount, h.nscount, h.arcount]

/-- The section of each entry of the message in turn. -/
def sections (h : MessageHead) : List Section :=
  List.replicate h.qdcount.toNat .question ++ List.replicate h.ancount.toNat .answer ++
    List.replicate h.nscount.toNat .authority ++ List.replicate h.arcount.toNat .additional

end MessageHead

/-- The six words of the header. -/
def messageHead : ByteReader MessageHead := do
  let id ← u16Be
  let flags ← u16Be
  let qdcount ← u16Be
  let ancount ← u16Be
  let nscount ← u16Be
  let arcount ← u16Be
  return ⟨id, flags, qdcount, ancount, nscount, arcount⟩

/-- What the loops of `parse_message` change. -/
structure MessageWalk where
  pos : Nat
  qname : Option (List Char)
  qtype : Option UInt16
  qclass : Option UInt16
  firstAnswerClass : Option UInt16
  answers : List Value
  deriving DecidableEq

/-- The type and the class of a question. -/
def questionBody : ByteReader (UInt16 × UInt16) := do
  let t ← u16Be
  let cls ← u16Be
  return (t, cls)

/-- The type, the class, the length of the data and the data of a record. -/
def recordBody : ByteReader (UInt16 × UInt16 × UInt16 × List UInt8) := do
  let rtype ← u16Be
  let cls ← u16Be
  let _ ← u32Be
  let rdlength ← u16Be
  let rdata ← take rdlength.toNat
  return (rtype, cls, rdlength, rdata)

/-- One question. -/
def readQuestion (msg : List UInt8) (w : MessageWalk) : Except Abort MessageWalk := do
  let (name, consumed) ← decodeName msg w.pos
  let pos := w.pos + consumed
  let (t, cls) ← readAt questionBody msg pos
  if w.qname.isNone then
    return { w with pos := pos + 4, qname := some name, qtype := some t, qclass := some cls }
  else return { w with pos := pos + 4 }

/-- One record. -/
def readRecord (msg : List UInt8) (sect : Section) (w : MessageWalk) : Except Abort MessageWalk := do
  let (_, consumed) ← decodeName msg w.pos
  let pos := w.pos + consumed
  let (rtype, cls, rdlength, rdata) ← readAt recordBody msg pos
  if sect = .answer then
    return { w with
      pos := pos + (10 + rdlength.toNat)
      firstAnswerClass := w.firstAnswerClass.orElse fun _ => some cls
      answers := w.answers ++ [.str (renderRdata msg rtype (pos + 10) rdata)] }
  else return { w with pos := pos + (10 + rdlength.toNat) }

/-- One turn of the loops over the sections. -/
def readEntry (msg : List UInt8) (sect : Section) (w : MessageWalk) : Except Abort MessageWalk :=
  if sect = .question then readQuestion msg w else readRecord msg sect w

/-- The loops over the sections, one entry after the other. -/
def walkSections (msg : List UInt8) : List Section → MessageWalk → Except Abort MessageWalk
  | [], w => return w
  | sect :: rest, w => do
      let w ← readEntry msg sect w
      walkSections msg rest w

/-- `MAX_RECORDS_PER_SECTION`. -/
def maxRecordsPerSection : UInt16 := 128

/-- `RawMessage`. -/
structure RawMessage where
  head : MessageHead
  qname : Option (List Char)
  qtype : Option UInt16
  qclass : Option UInt16
  firstAnswerClass : Option UInt16
  answers : List Value
  headerLen : Nat
  deriving DecidableEq

/-- The message with other answers. -/
def RawMessage.withAnswers (raw : RawMessage) (answers : List Value) : RawMessage := { raw with answers := answers }

/-- The walk before the first section. -/
def MessageWalk.start : MessageWalk := ⟨12, none, none, none, none, []⟩

/-- The message that a walk has read. -/
def MessageWalk.message (w : MessageWalk) (head : MessageHead) : RawMessage :=
  ⟨head, w.qname, w.qtype, w.qclass, w.firstAnswerClass, w.answers, w.pos⟩

/-- `parse_message`. -/
def parseMessage (msg : List UInt8) : Except Abort RawMessage := do
  let head ← readAt messageHead msg 0
  if head.counts.any fun c => maxRecordsPerSection < c then malformed "implausible section count"
  else
    let w ← walkSections msg head.sections .start
    return w.message head

/-- The layer directly below is TCP. -/
def overTcp (ctx : ParseCtx) : Bool := ctx.prev.any fun l => l.protocol == "tcp"

/-- The question fields, absent if there is none. -/
def questionFields (raw : RawMessage) : List (FieldName × Value) :=
  match raw.qname, raw.qtype with
  | some name, some t => [("qname", .str (String.ofList name)), ("qtype", .u64 t.toUInt64)]
  | _, _ => []

/-- The fields of a message, as far as the session asks for them. -/
def messageFields (ctx : ParseCtx) (raw : RawMessage) : FieldMap :=
  insertAt ctx .full
    [("answers", .list raw.answers), ("qdcount", .u64 raw.head.qdcount.toUInt64),
      ("ancount", .u64 raw.head.ancount.toUInt64), ("nscount", .u64 raw.head.nscount.toUInt64),
      ("arcount", .u64 raw.head.arcount.toUInt64)]
    (insertAt ctx .structural
      ([("id", .u64 raw.head.id.toUInt64), ("is_response", .bool (raw.head.flags &&& 0x8000 != 0)),
        ("opcode", .u64 (raw.head.flags >>> 11 &&& 0xF).toUInt64), ("rcode", .u64 (raw.head.flags &&& 0xF).toUInt64)] ++
        questionFields raw)
      (insertAt ctx .keys [("app", .str "dns")] FieldMap.new))

/-- The message behind the length prefix of a segment. -/
def framedMessage : ByteReader (List UInt8) := do
  let msgLen ← u16Be
  take msgLen.toNat

/-- The message that is parsed, and the bytes in front of it. -/
def unframed (ctx : ParseCtx) (bytes : List UInt8) : Except Abort (List UInt8 × Nat) :=
  if overTcp ctx then do return (← readAt framedMessage bytes 0, 2) else return (bytes, 0)

/-- `Dns::parse`. -/
def parseDns (ctx : ParseCtx) (bytes : List UInt8) : Except Abort ParsedLayer := do
  let (msg, lead) ← unframed ctx bytes
  let raw ← parseMessage msg
  return ⟨lead + raw.headerLen, messageFields ctx raw, .terminal⟩

/-- `IDENTITY`: one stream for each transport stream. -/
def dnsIdentity : StreamIdentity where
  key := [⟨"app", none⟩]
  canonicalize := .endpointSort
  lifecycle := none
  rollups := [⟨"qname", .accumulate⟩, ⟨"rcode", .accumulate⟩]

/-- `Dns`. It has no result only where bytes are declined (`parseDns_eq_error`). -/
def dns : LayerPlugin where
  name := "dns"
  parse := fun bytes ctx =>
    match parseDns ctx bytes with
    | .ok layer => .ok layer
    | .error (.declined e) => .error e
    | .error _ => .error (.malformed "")
  claims := [.udpPort 53, .tcpPort 53]
  streamIdentity := some dnsIdentity

/-! ## The layout of a message -/

/-- The big-endian word at an offset. -/
def wordAt (msg : List UInt8) (pos : Nat) : UInt16 := UInt16.ofNat (fromBeBytes ((msg.drop pos).take 2))

/-- The header of a message. -/
def headAt (msg : List UInt8) : MessageHead :=
  ⟨wordAt msg 0, wordAt msg 2, wordAt msg 4, wordAt msg 6, wordAt msg 8, wordAt msg 10⟩

/-- An entry of a section: its name at the start, the fields and the data behind it, and the next entry. -/
structure Entry where
  sect : Section
  start : Nat
  name : List Char
  body : Nat
  next : Nat

/-- The length of what stands behind the name. -/
def bodyLength (sect : Section) (msg : List UInt8) (body : Nat) : Nat :=
  if sect = .question then 4 else 10 + (wordAt msg (body + 8)).toNat

/-- The entry stands in the message. -/
structure Entry.InMessage (msg : List UInt8) (en : Entry) : Prop where
  name : ∃ size, NameAt msg en.start en.name size ∧ en.body = en.start + size
  next : en.next = en.body + bodyLength en.sect msg en.body
  fits : en.next ≤ msg.length

/-- Entries of these sections stand in a row, from one offset to the other. -/
inductive Laid (msg : List UInt8) : List Section → Nat → List Entry → Nat → Prop where
  | nil (pos : Nat) : Laid msg [] pos [] pos
  | cons {en : Entry} {rest : List Section} {entries : List Entry} {stop : Nat} (hen : en.InMessage msg)
      (h : Laid msg rest en.next entries stop) : Laid msg (en.sect :: rest) en.start (en :: entries) stop

/-- The data of a record. -/
def Entry.rdata (msg : List UInt8) (en : Entry) : List UInt8 :=
  (msg.drop (en.body + 10)).take (wordAt msg (en.body + 8)).toNat

/-- What is shown of a record. -/
def Entry.rendered (msg : List UInt8) (en : Entry) : String :=
  renderRdata msg (wordAt msg en.body) (en.body + 10) (en.rdata msg)

/-- What an entry adds to what was read before it. -/
def MessageWalk.push (msg : List UInt8) (w : MessageWalk) (en : Entry) : MessageWalk :=
  match en.sect with
  | .question =>
      if w.qname.isNone then
        { w with
          pos := en.next
          qname := some en.name
          qtype := some (wordAt msg en.body)
          qclass := some (wordAt msg (en.body + 2)) }
      else { w with pos := en.next }
  | .answer =>
      { w with
        pos := en.next
        firstAnswerClass := w.firstAnswerClass.orElse fun _ => some (wordAt msg (en.body + 2))
        answers := w.answers ++ [.str (en.rendered msg)] }
  | _ => { w with pos := en.next }

/-! ## Reads at an offset -/

section Reads

variable {α : Type} {msg : List UInt8} {pos n : Nat} {taken rest : List UInt8}

theorem take_drop_eq_ok : take n (msg.drop pos) = .ok (taken, rest) ↔
    n ≤ msg.length - pos ∧ taken = (msg.drop pos).take n ∧ rest = msg.drop (pos + n) := by
  rw [take]
  rw [List.length_drop, List.drop_drop]
  split
  · simp only [Except.ok.injEq, Prod.mk.injEq, *, true_and]
    constructor
    · rintro ⟨rfl, rfl⟩
      exact ⟨rfl, rfl⟩
    · rintro ⟨rfl, rfl⟩
      exact ⟨rfl, rfl⟩
  · simp [*]

theorem u16Be_drop_eq_ok {v : UInt16} : u16Be (msg.drop pos) = .ok (v, rest) ↔
    2 ≤ msg.length - pos ∧ v = wordAt msg pos ∧ rest = msg.drop (pos + 2) := by
  rw [u16Be]
  rw [bind_eq_ok]
  constructor
  · rintro ⟨bs, mid, htake, hpure⟩
    obtain ⟨hle, rfl, rfl⟩ := take_drop_eq_ok.1 htake
    obtain ⟨rfl, rfl⟩ := Prod.mk.inj (Except.ok.inj hpure)
    exact ⟨hle, rfl, rfl⟩
  · rintro ⟨hle, rfl, rfl⟩
    exact ⟨_, _, take_drop_eq_ok.2 ⟨hle, rfl, rfl⟩, rfl⟩

theorem u32Be_drop_eq_ok : (∃ v, u32Be (msg.drop pos) = .ok (v, rest)) ↔
    4 ≤ msg.length - pos ∧ rest = msg.drop (pos + 4) := by
  rw [u32Be]
  simp only [bind_eq_ok]
  constructor
  · rintro ⟨v, bs, mid, htake, hpure⟩
    obtain ⟨hle, rfl, rfl⟩ := take_drop_eq_ok.1 htake
    obtain ⟨rfl, rfl⟩ := Prod.mk.inj (Except.ok.inj hpure)
    exact ⟨hle, rfl⟩
  · rintro ⟨hle, rfl⟩
    exact ⟨_, _, _, take_drop_eq_ok.2 ⟨hle, rfl, rfl⟩, rfl⟩

theorem readAt_eq_ok {r : ByteReader α} {a : α} :
    readAt r msg pos = .ok a ↔ ∃ rest, r (msg.drop pos) = .ok (a, rest) := by
  rw [readAt, ← parse_eq_ok]
  cases r.parse (msg.drop pos) with
  | error e => simp [Except.mapError]
  | ok b => simp [Except.mapError]

theorem readAt_eq_error {r : ByteReader α} {a : Abort} (h : readAt r msg pos = .error a) :
    ∃ e, a = .declined e := by
  rw [readAt] at h
  cases hr : r.parse (msg.drop pos) with
  | error e =>
      rw [hr] at h
      cases h
      exact ⟨e, rfl⟩
  | ok b =>
      rw [hr] at h
      cases h

theorem readAt_questionBody {r : UInt16 × UInt16} : readAt questionBody msg pos = .ok r ↔
    4 ≤ msg.length - pos ∧ r = (wordAt msg pos, wordAt msg (pos + 2)) := by
  rw [readAt_eq_ok]
  constructor
  · rintro ⟨rest, h⟩
    obtain ⟨t, mid, ht, h⟩ := bind_eq_ok.1 h
    obtain ⟨-, rfl, rfl⟩ := u16Be_drop_eq_ok.1 ht
    obtain ⟨cls, mid, hcls, h⟩ := bind_eq_ok.1 h
    obtain ⟨hle, rfl, rfl⟩ := u16Be_drop_eq_ok.1 hcls
    obtain ⟨rfl, -⟩ := pure_eq_ok.1 h
    exact ⟨by omega, rfl⟩
  · rintro ⟨hle, rfl⟩
    refine ⟨msg.drop (pos + 2 + 2), bind_eq_ok.2 ⟨_, _, u16Be_drop_eq_ok.2 ⟨by omega, rfl, rfl⟩, ?_⟩⟩
    exact bind_eq_ok.2 ⟨_, _, u16Be_drop_eq_ok.2 ⟨by omega, rfl, rfl⟩, rfl⟩

theorem readAt_recordBody {r : UInt16 × UInt16 × UInt16 × List UInt8} : readAt recordBody msg pos = .ok r ↔
    10 + (wordAt msg (pos + 8)).toNat ≤ msg.length - pos ∧ r = (wordAt msg pos, wordAt msg (pos + 2),
      wordAt msg (pos + 8), (msg.drop (pos + 10)).take (wordAt msg (pos + 8)).toNat) := by
  rw [readAt_eq_ok]
  constructor
  · rintro ⟨rest, h⟩
    obtain ⟨rtype, mid, hrtype, h⟩ := bind_eq_ok.1 h
    obtain ⟨h2, rfl, rfl⟩ := u16Be_drop_eq_ok.1 hrtype
    obtain ⟨cls, mid, hcls, h⟩ := bind_eq_ok.1 h
    obtain ⟨h4, rfl, rfl⟩ := u16Be_drop_eq_ok.1 hcls
    obtain ⟨ttl, mid, httl, h⟩ := bind_eq_ok.1 h
    obtain ⟨h8, rfl⟩ := u32Be_drop_eq_ok.1 ⟨ttl, httl⟩
    obtain ⟨len, mid, hlen, h⟩ := bind_eq_ok.1 h
    obtain ⟨h10, rfl, rfl⟩ := u16Be_drop_eq_ok.1 hlen
    obtain ⟨rdata, mid, hrdata, h⟩ := bind_eq_ok.1 h
    obtain ⟨hle, rfl, rfl⟩ := take_drop_eq_ok.1 hrdata
    obtain ⟨rfl, -⟩ := pure_eq_ok.1 h
    change (wordAt msg (pos + 8)).toNat ≤ _ at hle
    exact ⟨by omega, rfl⟩
  · rintro ⟨hle, rfl⟩
    have h8 : 4 ≤ msg.length - (pos + 4) := by omega
    have hdata : (wordAt msg (pos + 8)).toNat ≤ msg.length - (pos + 10) := by omega
    obtain ⟨ttl, httl⟩ := u32Be_drop_eq_ok.2 ⟨h8, rfl⟩
    refine ⟨msg.drop (pos + 10 + (wordAt msg (pos + 8)).toNat), bind_eq_ok.2 ⟨_, _, u16Be_drop_eq_ok.2 ⟨by omega, rfl, rfl⟩, ?_⟩⟩
    refine bind_eq_ok.2 ⟨_, _, u16Be_drop_eq_ok.2 ⟨by omega, rfl, rfl⟩, ?_⟩
    refine bind_eq_ok.2 ⟨_, _, httl, ?_⟩
    refine bind_eq_ok.2 ⟨_, _, u16Be_drop_eq_ok.2 ⟨by omega, rfl, rfl⟩, ?_⟩
    exact bind_eq_ok.2 ⟨_, _, take_drop_eq_ok.2 ⟨hdata, rfl, rfl⟩, rfl⟩

theorem readAt_messageHead {head : MessageHead} : readAt messageHead msg 0 = .ok head ↔
    12 ≤ msg.length ∧ head = headAt msg := by
  rw [readAt_eq_ok]
  constructor
  · rintro ⟨rest, h⟩
    obtain ⟨id, mid, hid, h⟩ := bind_eq_ok.1 h
    obtain ⟨-, rfl, rfl⟩ := u16Be_drop_eq_ok.1 hid
    obtain ⟨flags, mid, hflags, h⟩ := bind_eq_ok.1 h
    obtain ⟨-, rfl, rfl⟩ := u16Be_drop_eq_ok.1 hflags
    obtain ⟨qdcount, mid, hqdcount, h⟩ := bind_eq_ok.1 h
    obtain ⟨-, rfl, rfl⟩ := u16Be_drop_eq_ok.1 hqdcount
    obtain ⟨ancount, mid, hancount, h⟩ := bind_eq_ok.1 h
    obtain ⟨-, rfl, rfl⟩ := u16Be_drop_eq_ok.1 hancount
    obtain ⟨nscount, mid, hnscount, h⟩ := bind_eq_ok.1 h
    obtain ⟨-, rfl, rfl⟩ := u16Be_drop_eq_ok.1 hnscount
    obtain ⟨arcount, mid, harcount, h⟩ := bind_eq_ok.1 h
    obtain ⟨hle, rfl, rfl⟩ := u16Be_drop_eq_ok.1 harcount
    obtain ⟨rfl, -⟩ := pure_eq_ok.1 h
    exact ⟨by omega, rfl⟩
  · rintro ⟨hle, rfl⟩
    refine ⟨msg.drop 12, bind_eq_ok.2 ⟨_, _, u16Be_drop_eq_ok.2 ⟨by omega, rfl, rfl⟩, ?_⟩⟩
    refine bind_eq_ok.2 ⟨_, _, u16Be_drop_eq_ok.2 ⟨by omega, rfl, rfl⟩, ?_⟩
    refine bind_eq_ok.2 ⟨_, _, u16Be_drop_eq_ok.2 ⟨by omega, rfl, rfl⟩, ?_⟩
    refine bind_eq_ok.2 ⟨_, _, u16Be_drop_eq_ok.2 ⟨by omega, rfl, rfl⟩, ?_⟩
    refine bind_eq_ok.2 ⟨_, _, u16Be_drop_eq_ok.2 ⟨by omega, rfl, rfl⟩, ?_⟩
    exact bind_eq_ok.2 ⟨_, _, u16Be_drop_eq_ok.2 ⟨by omega, rfl, rfl⟩, rfl⟩

theorem readAt_framedMessage {inner : List UInt8} : readAt framedMessage msg 0 = .ok inner ↔
    2 + (wordAt msg 0).toNat ≤ msg.length ∧ inner = (msg.drop 2).take (wordAt msg 0).toNat := by
  rw [readAt_eq_ok]
  constructor
  · rintro ⟨rest, h⟩
    obtain ⟨len, mid, hlen, h⟩ := bind_eq_ok.1 h
    obtain ⟨h2, rfl, rfl⟩ := u16Be_drop_eq_ok.1 hlen
    obtain ⟨hle, rfl, rfl⟩ := take_drop_eq_ok.1 h
    exact ⟨by omega, rfl⟩
  · rintro ⟨hle, rfl⟩
    refine ⟨msg.drop (2 + (wordAt msg 0).toNat), bind_eq_ok.2 ⟨_, _, u16Be_drop_eq_ok.2 ⟨by omega, rfl, rfl⟩, ?_⟩⟩
    have hinner : (wordAt msg 0).toNat ≤ msg.length - 2 := by omega
    exact take_drop_eq_ok.2 ⟨hinner, rfl, rfl⟩

end Reads

/-! ## What is parsed -/

section Parses

variable {msg msg' : List UInt8} {pos stop stop' : Nat} {sect : Section} {sections : List Section}
  {en : Entry} {entries entries' : List Entry} {w w' : MessageWalk} {raw : RawMessage}

/-- The results of a computation in two parts. -/
theorem except_bind_eq_ok {α β : Type} {x : Except Abort α} {f : α → Except Abort β} {b : β} :
    (x >>= f) = .ok b ↔ ∃ a, x = .ok a ∧ f a = .ok b := by
  cases x with
  | error e => simp [bind, Except.bind]
  | ok a => simp [bind, Except.bind]

theorem except_bind_eq_error {α β : Type} {x : Except Abort α} {f : α → Except Abort β} {e : Abort} :
    (x >>= f) = .error e ↔ x = .error e ∨ ∃ a, x = .ok a ∧ f a = .error e := by
  cases x with
  | error e' => simp [bind, Except.bind]
  | ok a => simp [bind, Except.bind]

theorem readQuestion_eq_ok : readQuestion msg w = .ok w' ↔
    ∃ en, Entry.InMessage msg en ∧ en.sect = .question ∧ en.start = w.pos ∧ w' = w.push msg en := by
  rw [readQuestion]
  rw [except_bind_eq_ok]
  constructor
  · rintro ⟨⟨name, size⟩, hname, h⟩
    obtain ⟨⟨t, cls⟩, hbody, h⟩ := except_bind_eq_ok.1 h
    obtain ⟨hle, heq⟩ := readAt_questionBody.1 hbody
    obtain ⟨rfl, rfl⟩ := Prod.mk.inj heq
    -- the name ends in the message, and so do the words behind it
    obtain ⟨labels, jumps, hencoded, -⟩ := decodeName_eq_ok_iff.1 hname
    have hbounds := hencoded.size_bounds
    refine ⟨⟨.question, w.pos, name, w.pos + size, w.pos + size + 4⟩, ⟨⟨size, decodeName_eq_ok_iff.1 hname, rfl⟩,
      rfl, ?_⟩, rfl, rfl, ?_⟩
    · dsimp only
      omega
    · rw [MessageWalk.push]
      dsimp only at h ⊢
      split at h
      · rename_i hnone
        rw [if_pos hnone]
        exact (Except.ok.inj h).symm
      · rename_i hsome
        rw [if_neg hsome]
        exact (Except.ok.inj h).symm
  · rintro ⟨⟨sect, start, name, body, next⟩, ⟨⟨size, hname, hbody⟩, hnext, hfits⟩, hsect, hstart, rfl⟩
    dsimp only at hname hbody hnext hfits hsect hstart
    subst hsect hstart hbody hnext
    rw [bodyLength, if_pos rfl] at hfits
    refine ⟨(name, size), decodeName_eq_ok_iff.2 hname, ?_⟩
    refine except_bind_eq_ok.2 ⟨_, readAt_questionBody.2 ⟨by omega, rfl⟩, ?_⟩
    rw [MessageWalk.push]
    dsimp only
    split
    · rfl
    · rfl

theorem readRecord_eq_ok (hsect : sect ≠ .question) : readRecord msg sect w = .ok w' ↔
    ∃ en, Entry.InMessage msg en ∧ en.sect = sect ∧ en.start = w.pos ∧ w' = w.push msg en := by
  rw [readRecord]
  rw [except_bind_eq_ok]
  constructor
  · rintro ⟨⟨name, size⟩, hname, h⟩
    obtain ⟨⟨rtype, cls, rdlength, rdata⟩, hbody, h⟩ := except_bind_eq_ok.1 h
    obtain ⟨hle, heq⟩ := readAt_recordBody.1 hbody
    simp only [Prod.mk.injEq] at heq
    obtain ⟨rfl, rfl, rfl, rfl⟩ := heq
    obtain ⟨labels, jumps, hencoded, -⟩ := decodeName_eq_ok_iff.1 hname
    have hbounds := hencoded.size_bounds
    refine ⟨⟨sect, w.pos, name, w.pos + size, w.pos + size + (10 + (wordAt msg (w.pos + size + 8)).toNat)⟩,
      ⟨⟨size, decodeName_eq_ok_iff.1 hname, rfl⟩, ?_, ?_⟩, rfl, rfl, ?_⟩
    · dsimp only
      rw [bodyLength, if_neg hsect]
    · dsimp only
      omega
    · rw [MessageWalk.push]
      cases sect with
      | question => exact absurd rfl hsect
      | answer => exact (Except.ok.inj h).symm
      | authority => exact (Except.ok.inj h).symm
      | additional => exact (Except.ok.inj h).symm
  · rintro ⟨⟨sect, start, name, body, next⟩, ⟨⟨size, hname, hbody⟩, hnext, hfits⟩, rfl, hstart, rfl⟩
    dsimp only at hname hbody hnext hfits hstart hsect
    subst hstart hbody hnext
    rw [bodyLength, if_neg hsect] at hfits
    refine ⟨(name, size), decodeName_eq_ok_iff.2 hname, ?_⟩
    refine except_bind_eq_ok.2 ⟨_, readAt_recordBody.2 ⟨by omega, rfl⟩, ?_⟩
    rw [MessageWalk.push]
    cases sect with
    | question => exact absurd rfl hsect
    | answer => rfl
    | authority => rfl
    | additional => rfl

/-- A turn reads an entry that stands at the offset. -/
theorem readEntry_eq_ok : readEntry msg sect w = .ok w' ↔
    ∃ en, Entry.InMessage msg en ∧ en.sect = sect ∧ en.start = w.pos ∧ w' = w.push msg en := by
  rw [readEntry]
  split
  · rename_i hsect
    rw [hsect]
    exact readQuestion_eq_ok
  · rename_i hsect
    exact readRecord_eq_ok hsect

theorem MessageWalk.push_pos (msg : List UInt8) (w : MessageWalk) (en : Entry) : (w.push msg en).pos = en.next := by
  rw [MessageWalk.push]
  split
  · split <;> rfl
  · rfl
  · rfl

/-- The sections are walked exactly if their entries are laid out. -/
theorem walkSections_eq_ok : walkSections msg sections w = .ok w' ↔
    ∃ entries, Laid msg sections w.pos entries w'.pos ∧ w' = entries.foldl (MessageWalk.push msg) w := by
  induction sections generalizing w with
  | nil =>
      constructor
      · intro h
        obtain rfl := Except.ok.inj h
        exact ⟨[], .nil _, rfl⟩
      · rintro ⟨entries, hlaid, rfl⟩
        cases hlaid
        rfl
  | cons sect rest ih =>
      rw [walkSections, except_bind_eq_ok]
      constructor
      · rintro ⟨v, hv, h⟩
        obtain ⟨en, hen, rfl, hstart, rfl⟩ := readEntry_eq_ok.1 hv
        obtain ⟨entries, hlaid, rfl⟩ := ih.1 h
        rw [MessageWalk.push_pos] at hlaid
        exact ⟨en :: entries, hstart ▸ .cons hen hlaid, rfl⟩
      · rintro ⟨entries, hlaid, hw⟩
        -- the walk stands where the first entry does
        generalize hp : w.pos = p at hlaid
        cases hlaid with
        | @cons en _ entries _ hen hlaid =>
            refine ⟨_, readEntry_eq_ok.2 ⟨en, hen, rfl, hp.symm, rfl⟩, ih.2 ⟨entries, ?_, hw⟩⟩
            rw [MessageWalk.push_pos]
            exact hlaid

/-- The message that the entries make. -/
def messageOf (msg : List UInt8) (entries : List Entry) : RawMessage :=
  (entries.foldl (MessageWalk.push msg) .start).message (headAt msg)

/-- No section has more entries than are walked. -/
def PlausibleCounts (msg : List UInt8) : Prop := ∀ c ∈ (headAt msg).counts, c ≤ maxRecordsPerSection

/-- The entries of all the sections are laid out behind the header. -/
def LaidOut (msg : List UInt8) (entries : List Entry) (stop : Nat) : Prop :=
  Laid msg (headAt msg).sections 12 entries stop

/-- A message is parsed exactly if it has a header and its sections are laid out behind it. -/
theorem parseMessage_eq_ok : parseMessage msg = .ok raw ↔
    12 ≤ msg.length ∧ PlausibleCounts msg ∧
      ∃ entries, LaidOut msg entries raw.headerLen ∧ raw = messageOf msg entries := by
  have hcounts : ((headAt msg).counts.any fun c => maxRecordsPerSection < c) = false ↔ PlausibleCounts msg := by
    simp [PlausibleCounts]
  rw [parseMessage]
  rw [except_bind_eq_ok]
  constructor
  · rintro ⟨head, hhead, h⟩
    obtain ⟨hlen, rfl⟩ := readAt_messageHead.1 hhead
    split at h
    · cases h
    · rename_i hplausible
      obtain ⟨w, hw, h⟩ := except_bind_eq_ok.1 h
      obtain ⟨entries, hlaid, rfl⟩ := walkSections_eq_ok.1 hw
      obtain rfl := Except.ok.inj h
      exact ⟨hlen, hcounts.1 (by simpa using hplausible), entries, hlaid, rfl⟩
  · rintro ⟨hlen, hplausible, entries, hlaid, rfl⟩
    refine ⟨_, readAt_messageHead.2 ⟨hlen, rfl⟩, ?_⟩
    rw [if_neg (by rw [hcounts.2 hplausible]; decide)]
    exact except_bind_eq_ok.2 ⟨_, walkSections_eq_ok.2 ⟨entries, hlaid, rfl⟩, rfl⟩

/-- An entry that is not read is declined. -/
theorem readEntry_eq_error {a : Abort} (h : readEntry msg sect w = .error a) : ∃ e, a = .declined e := by
  have hname : ∀ {pos : Nat} {a : Abort}, decodeName msg pos = .error a → ∃ e, a = .declined e := by
    intro pos a hname
    obtain ⟨reason, rfl⟩ := decodeName_eq_error hname
    exact ⟨_, rfl⟩
  rw [readEntry] at h
  split at h
  · rw [readQuestion] at h
    rcases except_bind_eq_error.1 h with h | ⟨_, -, h⟩
    · exact hname h
    rcases except_bind_eq_error.1 h with h | ⟨_, -, h⟩
    · exact readAt_eq_error h
    · dsimp only at h
      split at h <;> cases h
  · rw [readRecord] at h
    rcases except_bind_eq_error.1 h with h | ⟨_, -, h⟩
    · exact hname h
    rcases except_bind_eq_error.1 h with h | ⟨_, -, h⟩
    · exact readAt_eq_error h
    · dsimp only at h
      split at h <;> cases h

theorem walkSections_eq_error {a : Abort} (h : walkSections msg sections w = .error a) : ∃ e, a = .declined e := by
  induction sections generalizing w with
  | nil => cases h
  | cons sect rest ih =>
      rw [walkSections, except_bind_eq_error] at h
      rcases h with h | ⟨v, -, h⟩
      · exact readEntry_eq_error h
      · exact ih h

/-- What is not parsed is declined. -/
theorem parseMessage_eq_error {a : Abort} (h : parseMessage msg = .error a) : ∃ e, a = .declined e := by
  rw [parseMessage] at h
  rcases except_bind_eq_error.1 h with h | ⟨_, -, h⟩
  · exact readAt_eq_error h
  split at h
  · cases h
    exact ⟨_, rfl⟩
  rcases except_bind_eq_error.1 h with h | ⟨_, -, h⟩
  · exact walkSections_eq_error h
  · cases h

end Parses

/-! ## Bytes behind a message -/

section Prefixes

variable {front msg : List UInt8} {pos stop stop' size : Nat} {name : List Char} {sections : List Section}
  {en en' : Entry} {entries entries' : List Entry}

theorem NameAt.mono (h : NameAt front pos name size) (hpre : front <+: msg) : NameAt msg pos name size := by
  obtain ⟨labels, jumps, hencoded, hrest⟩ := h
  exact ⟨labels, jumps, hencoded.mono hpre, hrest⟩

theorem NameAt.unique {name' : List Char} {size' : Nat} (h : NameAt msg pos name size)
    (h' : NameAt msg pos name' size') : name = name' ∧ size = size' := by
  have heq := (decodeName_eq_ok_iff.2 h).symm.trans (decodeName_eq_ok_iff.2 h')
  exact Prod.mk.inj (Except.ok.inj heq)

theorem take_drop_of_front {i n : Nat} (hpre : front <+: msg) (h : i + n ≤ front.length) :
    (msg.drop i).take n = (front.drop i).take n := by
  obtain ⟨more, rfl⟩ := hpre
  rw [List.drop_append_of_le_length (by omega), List.take_append_of_le_length (by rw [List.length_drop]; omega)]

theorem wordAt_of_front {i : Nat} (hpre : front <+: msg) (h : i + 2 ≤ front.length) :
    wordAt msg i = wordAt front i := by
  rw [wordAt, wordAt, take_drop_of_front hpre h]

theorem headAt_of_front (hpre : front <+: msg) (h : 12 ≤ front.length) : headAt msg = headAt front := by
  unfold headAt
  rw [wordAt_of_front hpre (by omega), wordAt_of_front hpre (by omega), wordAt_of_front hpre (by omega),
    wordAt_of_front hpre (by omega), wordAt_of_front hpre (by omega), wordAt_of_front hpre (by omega)]

theorem le_bodyLength (sect : Section) (msg : List UInt8) (body : Nat) :
    4 ≤ bodyLength sect msg body ∧ (sect ≠ .question → 10 ≤ bodyLength sect msg body) := by
  rw [bodyLength]
  split
  · rename_i hsect
    exact ⟨Nat.le_refl 4, fun h => absurd hsect h⟩
  · omega

/-- Behind the name of an entry are a type and a class. -/
theorem Entry.InMessage.body_le (h : en.InMessage msg) : en.body + 4 ≤ msg.length := by
  have hlength := (le_bodyLength en.sect msg en.body).1
  have hfits := h.fits
  rw [h.next] at hfits
  omega

/-- Behind the name of a record are its fixed fields and its data. -/
theorem Entry.InMessage.rdata_le (h : en.InMessage msg) (hsect : en.sect ≠ .question) :
    en.body + (10 + (wordAt msg (en.body + 8)).toNat) ≤ msg.length := by
  have hfits := h.fits
  rw [h.next, bodyLength, if_neg hsect] at hfits
  exact hfits

/-- The type of an entry is the same in front of more bytes. -/
theorem Entry.InMessage.wordAt_body (h : en.InMessage front) (hpre : front <+: msg) :
    wordAt msg en.body = wordAt front en.body := by
  have hbody := h.body_le
  exact wordAt_of_front hpre (by omega)

/-- The length behind the name stands in the bytes that the entry has at least. -/
theorem bodyLength_of_front {sect : Section} {body : Nat} (hpre : front <+: msg)
    (h : sect ≠ .question → body + 10 ≤ front.length) :
    bodyLength sect msg body = bodyLength sect front body := by
  unfold bodyLength
  split
  · rfl
  · rename_i hsect
    rw [wordAt_of_front hpre (by have := h hsect; omega)]

theorem Entry.InMessage.mono (h : en.InMessage front) (hpre : front <+: msg) : en.InMessage msg := by
  obtain ⟨⟨size, hname, hbody⟩, hnext, hfits⟩ := h
  have hlength := le_bodyLength en.sect front en.body
  refine ⟨⟨size, hname.mono hpre, hbody⟩, ?_, hfits.trans hpre.length_le⟩
  rw [bodyLength_of_front hpre fun hsect => by have := hlength.2 hsect; omega]
  exact hnext

/-- An entry stands in the front of a message if it ends there and its name is complete. -/
theorem Entry.InMessage.restrict (h : en.InMessage msg) (hpre : front <+: msg) (hle : en.next ≤ front.length)
    (hname : ∃ name size, NameAt front en.start name size) : en.InMessage front := by
  obtain ⟨⟨size, hat, hbody⟩, hnext, -⟩ := h
  obtain ⟨name, size', hfront⟩ := hname
  -- the name in front of the end is the one that was read in the message
  obtain ⟨rfl, rfl⟩ := hat.unique (hfront.mono hpre)
  have hlength := le_bodyLength en.sect msg en.body
  refine ⟨⟨size, hfront, hbody⟩, ?_, hle⟩
  rw [← bodyLength_of_front hpre fun hsect => by have := hlength.2 hsect; omega]
  exact hnext

theorem Entry.InMessage.unique (h : en.InMessage msg) (h' : en'.InMessage msg) (hsect : en.sect = en'.sect)
    (hstart : en.start = en'.start) : en = en' := by
  obtain ⟨sect, start, name, body, next⟩ := en
  obtain ⟨sect', start', name', body', next'⟩ := en'
  obtain ⟨⟨size, hname, hbody⟩, hnext, -⟩ := h
  obtain ⟨⟨size', hname', hbody'⟩, hnext', -⟩ := h'
  dsimp only at *
  subst hsect hstart
  obtain ⟨rfl, rfl⟩ := hname.unique hname'
  subst hbody hbody' hnext hnext'
  rfl

theorem Entry.InMessage.start_le (h : en.InMessage msg) : en.start ≤ en.next := by
  obtain ⟨⟨size, -, hbody⟩, hnext, -⟩ := h
  omega

theorem Laid.mono (h : Laid front sections pos entries stop) (hpre : front <+: msg) :
    Laid msg sections pos entries stop := by
  induction h with
  | nil => exact .nil _
  | cons hen _ ih => exact .cons (hen.mono hpre) ih

theorem Laid.unique (h : Laid msg sections pos entries stop) (h' : Laid msg sections pos entries' stop') :
    entries = entries' ∧ stop = stop' := by
  induction h generalizing entries' with
  | nil =>
      cases h'
      exact ⟨rfl, rfl⟩
  | @cons en rest entries stop hen _ ih =>
      generalize hsect : en.sect = sect at h'
      generalize hstart : en.start = start at h'
      cases h' with
      | cons hen' h' =>
          -- entries of one section and start are one, so the next ones start together
          obtain rfl := hen.unique hen' hsect hstart
          obtain ⟨rfl, rfl⟩ := ih h'
          exact ⟨rfl, rfl⟩

theorem Laid.bounds (h : Laid msg sections pos entries stop) (hpos : pos ≤ msg.length) :
    pos ≤ stop ∧ stop ≤ msg.length ∧ ∀ en ∈ entries, en.InMessage msg ∧ en.next ≤ stop := by
  induction h with
  | nil => exact ⟨Nat.le_refl _, hpos, fun _ hmem => absurd hmem List.not_mem_nil⟩
  | cons hen _ ih =>
      obtain ⟨hle, hstop, hall⟩ := ih hen.fits
      exact ⟨hen.start_le.trans hle, hstop, List.forall_mem_cons.2 ⟨⟨hen, hle⟩, hall⟩⟩

theorem Laid.restrict (h : Laid msg sections pos entries stop) (hpre : front <+: msg)
    (hle : ∀ en ∈ entries, en.next ≤ front.length)
    (hnames : ∀ en ∈ entries, ∃ name size, NameAt front en.start name size) :
    Laid front sections pos entries stop := by
  induction h with
  | nil => exact .nil _
  | cons hen _ ih =>
      obtain ⟨hle, hles⟩ := List.forall_mem_cons.1 hle
      obtain ⟨hname, hnames⟩ := List.forall_mem_cons.1 hnames
      exact .cons (hen.restrict hpre hle hname) (ih hles hnames)

/-- But for the answers an entry adds the same. -/
theorem MessageWalk.push_of_front (hen : en.InMessage front) (hpre : front <+: msg) (w : MessageWalk)
    (answers : List Value) : ∃ answers', MessageWalk.push msg { w with answers := answers } en =
      { w.push front en with answers := answers' } := by
  have hbody := hen.body_le
  have htype := hen.wordAt_body hpre
  have hclass := wordAt_of_front (i := en.body + 2) hpre (by omega)
  unfold MessageWalk.push
  rw [htype, hclass]
  cases en.sect with
  | question =>
      dsimp only
      split
      · exact ⟨_, rfl⟩
      · exact ⟨_, rfl⟩
  | answer => exact ⟨_, rfl⟩
  | authority => exact ⟨_, rfl⟩
  | additional => exact ⟨_, rfl⟩

theorem foldl_push_of_front (hens : ∀ en ∈ entries, Entry.InMessage front en) (hpre : front <+: msg)
    (w : MessageWalk) (answers : List Value) :
    ∃ answers', entries.foldl (MessageWalk.push msg) { w with answers := answers } =
      { entries.foldl (MessageWalk.push front) w with answers := answers' } := by
  induction entries generalizing w answers with
  | nil => exact ⟨answers, rfl⟩
  | cons en entries ih =>
      obtain ⟨hen, hens⟩ := List.forall_mem_cons.1 hens
      obtain ⟨answers', hpush⟩ := MessageWalk.push_of_front hen hpre w answers
      rw [List.foldl_cons, List.foldl_cons, hpush]
      exact ih hens _ answers'

/-- The answers of a message. -/
def answersOf (msg : List UInt8) (entries : List Entry) : List Value :=
  (entries.filter fun en => en.sect = .answer).map fun en => .str (en.rendered msg)

theorem foldl_push_answers (msg : List UInt8) (entries : List Entry) (w : MessageWalk) :
    (entries.foldl (MessageWalk.push msg) w).answers = w.answers ++ answersOf msg entries := by
  induction entries generalizing w with
  | nil => exact (List.append_nil _).symm
  | cons en entries ih =>
      have hpush : (w.push msg en).answers = w.answers ++ answersOf msg [en] := by
        unfold MessageWalk.push answersOf
        cases hsect : en.sect with
        | question =>
            dsimp only
            split <;> simp [hsect]
        | answer => simp [hsect]
        | authority => simp [hsect]
        | additional => simp [hsect]
      have hcons : answersOf msg (en :: entries) = answersOf msg [en] ++ answersOf msg entries := by
        unfold answersOf
        rw [← List.map_append, ← List.filter_append]
        rfl
      rw [List.foldl_cons, ih, hpush, hcons, List.append_assoc]

/-- A message is the same in front of more bytes, but for its answers. -/
theorem messageOf_of_front (hens : ∀ en ∈ entries, Entry.InMessage front en) (hpre : front <+: msg)
    (hlen : 12 ≤ front.length) :
    messageOf msg entries = (messageOf front entries).withAnswers (answersOf msg entries) := by
  obtain ⟨answers, hfold⟩ := foldl_push_of_front hens hpre .start []
  have hanswers := foldl_push_answers msg entries .start
  change entries.foldl (MessageWalk.push msg) .start = _ at hfold
  rw [hfold] at hanswers
  change answers = [] ++ answersOf msg entries at hanswers
  rw [messageOf]
  rw [hfold, headAt_of_front hpre hlen, hanswers, List.nil_append]
  rfl

end Prefixes

/-! ## Framing -/

/-- The header length frames what was parsed: these bytes alone determine the result, whatever follows them, and
no fewer do. -/
structure HonestFraming {α : Type} (parse : List UInt8 → Except Abort α) (headerLen : α → Nat) (bytes : List UInt8)
    (r : α) : Prop where
  low : 12 ≤ headerLen r
  high : headerLen r ≤ bytes.length
  determined : ∀ more, parse (bytes.take (headerLen r) ++ more) = .ok r
  minimal : ∀ n < headerLen r, ∃ e, parse (bytes.take n) = .error (.declined e)

/-- An answer whose data is a name. -/
def Entry.IsAlias (msg : List UInt8) (en : Entry) : Prop :=
  en.sect = .answer ∧ (wordAt msg en.body = 5 ∨ wordAt msg en.body = 12)

/-- Bytes behind the end of the sections make no name of the data that is none before, but one that is shown the
same. -/
def Entry.DataComplete (msg : List UInt8) (stop : Nat) (en : Entry) : Prop :=
  ∀ more name size, NameAt (msg.take stop ++ more) (en.body + 10) name size →
    String.ofList name ≠ typeText (wordAt msg en.body) →
      ∃ name size, NameAt (msg.take stop) (en.body + 10) name size

/-- The name of every entry is complete in front of the end of the sections, and, where the answers are asked for,
so is the data of those that are names. -/
def NamesComplete (withAnswers : Bool) (msg : List UInt8) : Prop :=
  ∀ entries stop, LaidOut msg entries stop →
    (∀ en ∈ entries, ∃ name size, NameAt (msg.take stop) en.start name size) ∧
    (withAnswers = true → ∀ en ∈ entries, en.IsAlias msg → en.DataComplete msg stop)

section Framing

variable {msg : List UInt8} {raw : RawMessage} {stop : Nat} {en : Entry} {entries : List Entry}

/-- Without the answers less is asked for. -/
theorem NamesComplete.names {withAnswers : Bool} (h : NamesComplete withAnswers msg) : NamesComplete false msg := by
  intro entries stop hlaid
  exact ⟨(h entries stop hlaid).1, fun hfalse => absurd hfalse (by decide)⟩

/-- The data of an answer that is a name. -/
theorem Entry.rendered_alias {front : List UInt8} (hen : en.InMessage front) (hpre : front <+: msg)
    (halias : wordAt front en.body = 5 ∨ wordAt front en.body = 12) :
    en.rendered msg = match decodeName msg (en.body + 10) with
      | .ok (name, _) => String.ofList name
      | .error _ => typeText (wordAt front en.body) := by
  have h1 : wordAt front en.body ≠ 1 := by
    rcases halias with h | h <;> rw [h] <;> decide
  have h28 : wordAt front en.body ≠ 28 := by
    rcases halias with h | h <;> rw [h] <;> decide
  rw [Entry.rendered, hen.wordAt_body hpre, renderRdata, if_neg fun h => h1 h.1, if_neg fun h => h28 h.1,
    if_pos halias]

/-- The data of another record is the same in front of more bytes. -/
theorem Entry.rendered_of_front {front : List UInt8} (hen : en.InMessage front) (hpre : front <+: msg)
    (hsect : en.sect ≠ .question) (halias : ¬(wordAt front en.body = 5 ∨ wordAt front en.body = 12)) :
    en.rendered msg = en.rendered front := by
  have hfits := hen.rdata_le hsect
  have hrdata : en.rdata msg = en.rdata front := by
    rw [Entry.rdata, Entry.rdata, wordAt_of_front hpre (by omega), take_drop_of_front hpre (by omega)]
  unfold Entry.rendered renderRdata
  rw [hrdata, hen.wordAt_body hpre, if_neg halias, if_neg halias]

/-- The data of an answer is complete exactly if it is shown the same, whatever follows. -/
theorem Entry.dataComplete_iff (hen : en.InMessage (msg.take stop)) (halias : en.IsAlias msg) :
    en.DataComplete msg stop ↔ ∀ more, en.rendered (msg.take stop ++ more) = en.rendered (msg.take stop) := by
  have hword := hen.wordAt_body (List.take_prefix stop msg)
  have hfront : wordAt (msg.take stop) en.body = 5 ∨ wordAt (msg.take stop) en.body = 12 := hword ▸ halias.2
  have hrendered : ∀ more, en.rendered (msg.take stop ++ more) =
      match decodeName (msg.take stop ++ more) (en.body + 10) with
      | .ok (name, _) => String.ofList name
      | .error _ => typeText (wordAt (msg.take stop) en.body) :=
    fun more => Entry.rendered_alias hen (List.prefix_append _ more) hfront
  have hself := Entry.rendered_alias hen List.prefix_rfl hfront
  constructor
  · intro hcomplete more
    rw [hrendered, hself]
    cases hdecode : decodeName (msg.take stop) (en.body + 10) with
    | ok r =>
        -- a name in front of the end is read the same, whatever follows
        have hname := (decodeName_eq_ok_iff.1 hdecode).mono (List.prefix_append _ more)
        rw [decodeName_eq_ok_iff.2 hname]
    | error a =>
        cases hmore : decodeName (msg.take stop ++ more) (en.body + 10) with
        | error _ => rfl
        | ok r =>
            -- what follows has made a name, which may be only the text that is shown without one
            by_contra hne
            rw [← hword] at hne
            obtain ⟨name, size, hname⟩ := hcomplete more r.1 r.2 (decodeName_eq_ok_iff.1 hmore) hne
            rw [decodeName_eq_ok_iff.2 hname] at hdecode
            cases hdecode
  · intro hsame more name size hname hne
    have heq := hsame more
    rw [hrendered, hself, decodeName_eq_ok_iff.2 hname] at heq
    cases hdecode : decodeName (msg.take stop) (en.body + 10) with
    | ok r => exact ⟨r.1, r.2, decodeName_eq_ok_iff.1 hdecode⟩
    | error a =>
        rw [hdecode] at heq
        rw [hword] at hne
        exact absurd heq hne

/-- What a parse has found. -/
theorem exists_laidOut (h : parseMessage msg = .ok raw) :
    ∃ entries, LaidOut msg entries raw.headerLen ∧ raw = messageOf msg entries ∧ 12 ≤ raw.headerLen ∧
      raw.headerLen ≤ msg.length ∧ ∀ en ∈ entries, en.InMessage msg ∧ en.next ≤ raw.headerLen := by
  obtain ⟨hlen, -, entries, hlaid, heq⟩ := parseMessage_eq_ok.1 h
  obtain ⟨hlow, hhigh, hall⟩ := hlaid.bounds hlen
  exact ⟨entries, hlaid, heq, hlow, hhigh, hall⟩

/-- No fewer bytes are parsed. -/
theorem parseMessage_take_lt (h : parseMessage msg = .ok raw) {n : Nat} (hn : n < raw.headerLen) :
    ∃ e, parseMessage (msg.take n) = .error (.declined e) := by
  cases hfront : parseMessage (msg.take n) with
  | error a =>
      obtain ⟨e, rfl⟩ := parseMessage_eq_error hfront
      exact ⟨e, rfl⟩
  | ok raw' =>
      obtain ⟨entries, hlaid, -⟩ := exists_laidOut h
      obtain ⟨entries', hlaid', -, hlow, hhigh, -⟩ := exists_laidOut hfront
      have hhead := headAt_of_front (List.take_prefix n msg) (hlow.trans hhigh)
      rw [LaidOut, ← hhead] at hlaid'
      -- the same entries would end earlier
      obtain ⟨-, hstop⟩ := (hlaid'.mono (List.take_prefix n msg)).unique hlaid
      rw [List.length_take] at hhigh
      omega

/-- With complete names the bytes in front of the end are parsed, whatever follows. -/
theorem parseMessage_take_append (h : parseMessage msg = .ok raw) (hnames : NamesComplete false msg)
    (more : List UInt8) :
    ∃ entries, LaidOut msg entries raw.headerLen ∧
      (∀ en ∈ entries, Entry.InMessage (msg.take raw.headerLen) en) ∧
      raw.answers = answersOf msg entries ∧
      parseMessage (msg.take raw.headerLen ++ more) =
        .ok (raw.withAnswers (answersOf (msg.take raw.headerLen ++ more) entries)) := by
  obtain ⟨entries, hlaid, heq, hlow, hhigh, hall⟩ := exists_laidOut h
  have hpre := List.take_prefix raw.headerLen msg
  have hlen : (msg.take raw.headerLen).length = raw.headerLen := by
    rw [List.length_take]
    omega
  -- the entries stand in the front of the message, so they do in front of other bytes
  have hfront : Laid (msg.take raw.headerLen) (headAt msg).sections 12 entries raw.headerLen :=
    hlaid.restrict hpre (fun en hen => hlen.symm ▸ (hall en hen).2) (hnames entries _ hlaid).1
  have hens : ∀ en ∈ entries, Entry.InMessage (msg.take raw.headerLen) en :=
    fun en hen => ((hfront.bounds (by omega)).2.2 en hen).1
  have hmessage := messageOf_of_front hens hpre (by omega)
  rw [← heq] at hmessage
  have hmore : msg.take raw.headerLen <+: msg.take raw.headerLen ++ more := List.prefix_append _ more
  have hhead := headAt_of_front hpre (by omega)
  have hhead' := headAt_of_front hmore (by omega)
  have hanswers : messageOf (msg.take raw.headerLen ++ more) entries =
      raw.withAnswers (answersOf (msg.take raw.headerLen ++ more) entries) := by
    rw [messageOf_of_front hens hmore (by omega)]
    exact (congrArg (RawMessage.withAnswers · _) hmessage).symm
  refine ⟨entries, hlaid, hens, congrArg RawMessage.answers hmessage, parseMessage_eq_ok.2 ⟨?_, ?_, entries, ?_, hanswers.symm⟩⟩
  · rw [List.length_append]
    omega
  · rw [PlausibleCounts, hhead', ← hhead]
    exact (parseMessage_eq_ok.1 h).2.1
  · rw [LaidOut, hhead', ← hhead]
    exact hfront.mono hmore

/-- Where the bytes in front of the end are parsed, the names of the entries are complete. -/
theorem namesComplete_of_take {raw' : RawMessage} (h : parseMessage msg = .ok raw)
    (hfront : parseMessage (msg.take raw.headerLen) = .ok raw') : NamesComplete false msg := by
  intro entries stop hlaid
  refine ⟨?_, fun hfalse => absurd hfalse (by decide)⟩
  obtain ⟨entries₀, hlaid₀, -⟩ := exists_laidOut h
  obtain ⟨rfl, rfl⟩ := hlaid₀.unique hlaid
  obtain ⟨entries', hlaid', -, hlow, hhigh, hall⟩ := exists_laidOut hfront
  have hpre := List.take_prefix raw.headerLen msg
  rw [LaidOut, ← headAt_of_front hpre (hlow.trans hhigh)] at hlaid'
  obtain ⟨rfl, -⟩ := (hlaid'.mono hpre).unique hlaid
  intro en hen
  obtain ⟨⟨size, hname, -⟩, -, -⟩ := (hall en hen).1
  exact ⟨en.name, size, hname⟩

/-- The bytes in front of the end determine the message exactly if its names are complete. -/
theorem parseMessage_determined_iff (h : parseMessage msg = .ok raw) :
    (∀ more, parseMessage (msg.take raw.headerLen ++ more) = .ok raw) ↔ NamesComplete true msg := by
  have halias : ∀ {en : Entry}, en.InMessage (msg.take raw.headerLen) → en.sect = .answer →
      (¬en.IsAlias msg ↔ ¬(wordAt (msg.take raw.headerLen) en.body = 5 ∨ wordAt (msg.take raw.headerLen) en.body = 12)) := by
    intro en hen hsect
    rw [Entry.IsAlias, hen.wordAt_body (List.take_prefix raw.headerLen msg)]
    exact not_congr ⟨fun h => h.2, fun h => ⟨hsect, h⟩⟩
  constructor
  · intro hdetermined
    have hself := hdetermined []
    rw [List.append_nil] at hself
    -- the front alone is parsed, so the names of the entries are complete
    have hnames := namesComplete_of_take h hself
    intro entries stop hlaid
    obtain ⟨entries₀, hlaid₀, hens, -⟩ := parseMessage_take_append h hnames []
    obtain ⟨rfl, rfl⟩ := hlaid₀.unique hlaid
    refine ⟨(hnames _ _ hlaid).1, fun _ en hen hisAlias => ?_⟩
    rw [Entry.dataComplete_iff (hens en hen) hisAlias]
    intro more
    -- both messages have the answers of the one that was parsed
    have hanswers : ∀ more, answersOf (msg.take raw.headerLen ++ more) entries₀ = raw.answers := by
      intro more
      obtain ⟨entries', hlaid', -, -, hparse⟩ := parseMessage_take_append h hnames more
      obtain ⟨rfl, -⟩ := hlaid'.unique hlaid
      exact congrArg RawMessage.answers (Except.ok.inj (hparse.symm.trans (hdetermined more)))
    have hmap := (hanswers more).trans (hanswers []).symm
    rw [List.append_nil] at hmap
    have hmem : en ∈ entries₀.filter fun en => en.sect = .answer :=
      List.mem_filter.2 ⟨hen, decide_eq_true hisAlias.1⟩
    injection List.map_inj_left.1 hmap en hmem
  · intro hnames more
    obtain ⟨entries, hlaid, hens, hraw, hparse⟩ := parseMessage_take_append h hnames.names more
    rw [hparse]
    have hshown : ∀ {full : List UInt8}, msg.take raw.headerLen <+: full →
        answersOf full entries = answersOf (msg.take raw.headerLen) entries := by
      rintro _ ⟨more, rfl⟩
      apply List.map_congr_left
      intro en hmem
      obtain ⟨hen, hsect⟩ := List.mem_filter.1 hmem
      have hanswer := of_decide_eq_true hsect
      -- the data of an alias is complete, that of another record is shown from its own bytes
      by_cases hisAlias : en.IsAlias msg
      · rw [(Entry.dataComplete_iff (hens en hen) hisAlias).1 ((hnames _ _ hlaid).2 rfl en hen hisAlias) more]
      · rw [Entry.rendered_of_front (hens en hen) (List.prefix_append _ more) (by rw [hanswer]; decide)
          ((halias (hens en hen) hanswer).1 hisAlias)]
    rw [hshown (List.prefix_append _ more), ← hshown (List.take_prefix raw.headerLen msg)]
    rw [← hraw]
    rfl

/-- The header length of a message frames it exactly if its names are complete. -/
theorem parseMessage_honest_iff (h : parseMessage msg = .ok raw) :
    HonestFraming parseMessage RawMessage.headerLen msg raw ↔ NamesComplete true msg := by
  rw [← parseMessage_determined_iff h]
  constructor
  · exact fun honest => honest.determined
  · intro hdetermined
    obtain ⟨-, -, -, hlow, hhigh, -⟩ := exists_laidOut h
    exact ⟨hlow, hhigh, hdetermined, fun n hn => parseMessage_take_lt h hn⟩

end Framing

/-! ## Layers -/

/-- The message behind the length prefix of a segment. -/
def framed (bytes : List UInt8) : List UInt8 := (bytes.drop 2).take (wordAt bytes 0).toNat

/-- The length prefix counts the bytes of the sections. -/
def LengthExact (bytes : List UInt8) : Prop :=
  ∀ entries stop, LaidOut (framed bytes) entries stop → stop = (wordAt bytes 0).toNat

section Layers

variable {ctx : ParseCtx} {bytes : List UInt8} {layer : ParsedLayer} {raw : RawMessage}

theorem messageFields_withAnswers (hdepth : atDepth ctx .full = false) (answers : List Value) :
    messageFields ctx (raw.withAnswers answers) = messageFields ctx raw := by
  have hskip : ∀ level fields, insertAt ctx .full level fields = fields := by
    intro level fields
    rw [insertAt, hdepth]
    rfl
  unfold messageFields
  rw [hskip, hskip]
  rfl

theorem get_answers (hdepth : atDepth ctx .full = true) :
    (messageFields ctx raw).get "answers" = some (.list raw.answers) := by
  rw [messageFields]
  rw [insertAt, if_pos hdepth]
  simp only [List.foldl_cons, List.foldl_nil, FieldMap.get_insert]
  rfl

theorem parseDns_udp_eq_ok (hudp : overTcp ctx = false) : parseDns ctx bytes = .ok layer ↔
    ∃ raw, parseMessage bytes = .ok raw ∧ layer = ⟨raw.headerLen, messageFields ctx raw, .terminal⟩ := by
  rw [parseDns, unframed]
  rw [hudp]
  simp only [Bool.false_eq_true, if_false, pure_bind]
  rw [except_bind_eq_ok]
  constructor
  · rintro ⟨raw, hraw, h⟩
    refine ⟨raw, hraw, ?_⟩
    rw [← Except.ok.inj h, Nat.zero_add]
  · rintro ⟨raw, hraw, rfl⟩
    refine ⟨raw, hraw, ?_⟩
    rw [Nat.zero_add]
    rfl

theorem parseDns_tcp_eq_ok (htcp : overTcp ctx = true) : parseDns ctx bytes = .ok layer ↔
    2 + (wordAt bytes 0).toNat ≤ bytes.length ∧ ∃ raw, parseMessage (framed bytes) = .ok raw ∧
      layer = ⟨2 + raw.headerLen, messageFields ctx raw, .terminal⟩ := by
  rw [parseDns, unframed]
  rw [htcp]
  simp only [if_true, except_bind_eq_ok]
  constructor
  · rintro ⟨_, ⟨inner, hinner, hpure⟩, raw, hraw, h⟩
    cases hpure
    obtain ⟨hle, rfl⟩ := readAt_framedMessage.1 hinner
    exact ⟨hle, raw, hraw, (Except.ok.inj h).symm⟩
  · rintro ⟨hle, raw, hraw, rfl⟩
    exact ⟨_, ⟨_, readAt_framedMessage.2 ⟨hle, rfl⟩, rfl⟩, raw, hraw, rfl⟩

theorem parseDns_eq_error {a : Abort} (h : parseDns ctx bytes = .error a) : ∃ e, a = .declined e := by
  rw [parseDns] at h
  rcases except_bind_eq_error.1 h with h | ⟨_, -, h⟩
  · rw [unframed] at h
    split at h
    · rcases except_bind_eq_error.1 h with h | ⟨_, -, h⟩
      · exact readAt_eq_error h
      · cases h
    · cases h
  rcases except_bind_eq_error.1 h with h | ⟨_, -, h⟩
  · exact parseMessage_eq_error h
  · cases h

/-- Over UDP the layer is framed exactly if the names that the session asks for are complete. -/
theorem parseDns_udp_honest_iff (hudp : overTcp ctx = false) (h : parseDns ctx bytes = .ok layer) :
    HonestFraming (parseDns ctx) ParsedLayer.headerLen bytes layer ↔ NamesComplete (atDepth ctx .full) bytes := by
  obtain ⟨raw, hraw, rfl⟩ := (parseDns_udp_eq_ok hudp).1 h
  constructor
  · intro honest
    obtain ⟨raw₀, hself, -⟩ := (parseDns_udp_eq_ok hudp).1 (honest.determined [])
    rw [List.append_nil] at hself
    have hnames := namesComplete_of_take hraw hself
    -- a layer tells the answers at full depth only
    cases hdepth : atDepth ctx .full with
    | false => exact hnames
    | true =>
        rw [← parseMessage_determined_iff hraw]
        intro more
        obtain ⟨raw', hraw', hlayer⟩ := (parseDns_udp_eq_ok hudp).1 (honest.determined more)
        obtain ⟨entries, -, -, -, hmore⟩ := parseMessage_take_append hraw hnames more
        have hfields : messageFields ctx raw = messageFields ctx raw' := congrArg ParsedLayer.fields hlayer
        have hget := congrArg (FieldMap.get · "answers") hfields
        dsimp only at hget hraw'
        rw [get_answers hdepth, get_answers hdepth] at hget
        have hanswers : raw'.answers = raw.answers := by
          injection Option.some.inj hget.symm
        obtain rfl := Except.ok.inj (hmore.symm.trans hraw')
        rw [hmore]
        exact congrArg (fun answers => Except.ok (raw.withAnswers answers)) hanswers
  · intro hnames
    obtain ⟨-, -, -, hlow, hhigh, -⟩ := exists_laidOut hraw
    refine ⟨hlow, hhigh, fun more => ?_, fun n hn => ?_⟩
    · rw [parseDns_udp_eq_ok hudp]
      dsimp only
      cases hdepth : atDepth ctx .full with
      | false =>
          obtain ⟨entries, -, -, -, hmore⟩ := parseMessage_take_append hraw hnames.names more
          refine ⟨_, hmore, ?_⟩
          rw [messageFields_withAnswers hdepth]
          rfl
      | true =>
          rw [hdepth] at hnames
          exact ⟨raw, (parseMessage_determined_iff hraw).2 hnames more, rfl⟩
    · cases hfront : parseDns ctx (bytes.take n) with
      | error a =>
          obtain ⟨e, rfl⟩ := parseDns_eq_error hfront
          exact ⟨e, rfl⟩
      | ok layer =>
          obtain ⟨raw', hraw', -⟩ := (parseDns_udp_eq_ok hudp).1 hfront
          obtain ⟨e, herror⟩ := parseMessage_take_lt hraw hn
          rw [hraw'] at herror
          cases herror

/-- Over TCP the layer is framed exactly if the length prefix ends where the sections do. -/
theorem parseDns_tcp_honest_iff (htcp : overTcp ctx = true) (h : parseDns ctx bytes = .ok layer) :
    HonestFraming (parseDns ctx) ParsedLayer.headerLen bytes layer ↔ LengthExact bytes := by
  obtain ⟨hle, raw, hraw, rfl⟩ := (parseDns_tcp_eq_ok htcp).1 h
  obtain ⟨entries, hlaid, -, hlow, hhigh, -⟩ := exists_laidOut hraw
  have hframed : (framed bytes).length = (wordAt bytes 0).toNat := by
    rw [framed, List.length_take, List.length_drop]
    omega
  have hword : ∀ {n : Nat}, 2 ≤ n → wordAt (bytes.take n) 0 = wordAt bytes 0 := by
    intro n hn
    exact (wordAt_of_front (List.take_prefix n bytes) (by rw [List.length_take]; omega)).symm
  constructor
  · intro honest entries' stop hlaid'
    obtain ⟨-, rfl⟩ := hlaid.unique hlaid'
    -- with nothing behind the sections, the prefix counts no more than them
    obtain ⟨hfits, -⟩ := (parseDns_tcp_eq_ok htcp).1 (honest.determined [])
    rw [List.append_nil, hword (by dsimp only; omega), List.length_take] at hfits
    dsimp only at hfits
    omega
  · intro hexact
    have hstop := hexact entries _ hlaid
    refine ⟨by dsimp only; omega, by dsimp only; omega, fun more => ?_, fun n hn => ?_⟩
    · -- the segment up to the end of the sections has the prefix and the whole message
      have hlen : (bytes.take (2 + raw.headerLen)).length = 2 + raw.headerLen := by
        rw [List.length_take]
        omega
      have hpre : bytes.take (2 + raw.headerLen) <+: bytes.take (2 + raw.headerLen) ++ more := List.prefix_append _ more
      have hword0 : wordAt (bytes.take (2 + raw.headerLen) ++ more) 0 = wordAt bytes 0 :=
        (wordAt_of_front hpre (by omega)).trans (hword (by omega))
      have hinner : framed (bytes.take (2 + raw.headerLen) ++ more) = framed bytes := by
        rw [framed, framed, hword0, take_drop_of_front hpre (by omega),
          take_drop_of_front (List.take_prefix (2 + raw.headerLen) bytes) (by omega)]
      refine (parseDns_tcp_eq_ok htcp).2 ⟨?_, raw, ?_, rfl⟩
      · dsimp only
        rw [hword0, List.length_append]
        omega
      · rw [hinner]
        exact hraw
    · cases hfront : parseDns ctx (bytes.take n) with
      | error a =>
          obtain ⟨e, rfl⟩ := parseDns_eq_error hfront
          exact ⟨e, rfl⟩
      | ok layer =>
          -- the prefix counts more bytes than there are
          obtain ⟨hfits, -⟩ := (parseDns_tcp_eq_ok htcp).1 hfront
          dsimp only at hn
          rw [List.length_take] at hfits
          rw [hword (by omega)] at hfits
          omega

/-- The header length that a parse reports frames what was parsed exactly if the names are complete in front of it
or, over TCP, the length prefix counts its bytes. -/
theorem honest_iff (ctx : ParseCtx) (bytes : List UInt8) :
    (∀ raw, parseMessage bytes = .ok raw →
      (HonestFraming parseMessage RawMessage.headerLen bytes raw ↔ NamesComplete true bytes)) ∧
    ∀ layer, parseDns ctx bytes = .ok layer →
      (HonestFraming (parseDns ctx) ParsedLayer.headerLen bytes layer ↔
        if overTcp ctx then LengthExact bytes else NamesComplete (atDepth ctx .full) bytes) := by
  refine ⟨fun raw h => parseMessage_honest_iff h, fun layer h => ?_⟩
  cases htcp : overTcp ctx with
  | true => exact parseDns_tcp_honest_iff htcp h
  | false => exact parseDns_udp_honest_iff htcp h

end Layers

/-- A question and a byte behind it. -/
theorem honest_iff_question :
    ∃ raw, parseMessage [0, 7, 0, 0, 0, 1, 0, 0, 0, 0, 0, 0, 1, 97, 0, 0, 1, 0, 1, 99] = .ok raw ∧
      HonestFraming parseMessage RawMessage.headerLen
        [0, 7, 0, 0, 0, 1, 0, 0, 0, 0, 0, 0, 1, 97, 0, 0, 1, 0, 1, 99] raw := by
  have hen : Entry.InMessage [0, 7, 0, 0, 0, 1, 0, 0, 0, 0, 0, 0, 1, 97, 0, 0, 1, 0, 1, 99]
      ⟨.question, 12, ['a'], 15, 19⟩ :=
    ⟨⟨3, decodeName_eq_ok_iff.1 (by decide +kernel), rfl⟩, rfl, by decide⟩
  have hlaid : LaidOut [0, 7, 0, 0, 0, 1, 0, 0, 0, 0, 0, 0, 1, 97, 0, 0, 1, 0, 1, 99]
      [⟨.question, 12, ['a'], 15, 19⟩] 19 := .cons hen (.nil 19)
  have hraw : parseMessage [0, 7, 0, 0, 0, 1, 0, 0, 0, 0, 0, 0, 1, 97, 0, 0, 1, 0, 1, 99] =
      .ok (messageOf [0, 7, 0, 0, 0, 1, 0, 0, 0, 0, 0, 0, 1, 97, 0, 0, 1, 0, 1, 99]
        [⟨.question, 12, ['a'], 15, 19⟩]) := by decide +kernel
  refine ⟨_, hraw, ((honest_iff ⟨[], .full, ⟨0, 0, 0, 0⟩⟩ _).1 _ hraw).2 fun entries stop h => ?_⟩
  obtain ⟨rfl, rfl⟩ := hlaid.unique h
  constructor
  · intro en hmem
    obtain rfl := List.mem_singleton.1 hmem
    exact ⟨['a'], 3, decodeName_eq_ok_iff.1 (by decide +kernel)⟩
  · intro _ en hmem halias
    obtain rfl := List.mem_singleton.1 hmem
    cases halias.1

/-- A question whose name is a pointer to the first byte of the message, a label that ends where the sections do.
The byte behind them ends the name. -/
theorem framing_fails :
    (∃ raw, parseMessage [17, 0, 0, 0, 0, 1, 0, 0, 0, 0, 0, 0, 0xC0, 0, 0, 1, 0, 1, 0] = .ok raw ∧
      raw.headerLen = 18 ∧
      ¬HonestFraming parseMessage RawMessage.headerLen
        [17, 0, 0, 0, 0, 1, 0, 0, 0, 0, 0, 0, 0xC0, 0, 0, 1, 0, 1, 0] raw) ∧
    parseMessage [17, 0, 0, 0, 0, 1, 0, 0, 0, 0, 0, 0, 0xC0, 0, 0, 1, 0, 1] =
      malformed "name runs past message" := by
  have hfront : parseMessage [17, 0, 0, 0, 0, 1, 0, 0, 0, 0, 0, 0, 0xC0, 0, 0, 1, 0, 1] =
      malformed "name runs past message" := by decide +kernel
  have hlen : (parseMessage [17, 0, 0, 0, 0, 1, 0, 0, 0, 0, 0, 0, 0xC0, 0, 0, 1, 0, 1, 0]).toOption.map
      RawMessage.headerLen = some 18 := by decide +kernel
  refine ⟨?_, hfront⟩
  cases hraw : parseMessage [17, 0, 0, 0, 0, 1, 0, 0, 0, 0, 0, 0, 0xC0, 0, 0, 1, 0, 1, 0] with
  | error a =>
      rw [hraw] at hlen
      cases hlen
  | ok raw =>
      rw [hraw] at hlen
      have hstop : raw.headerLen = 18 := Option.some.inj hlen
      refine ⟨raw, rfl, hstop, fun honest => ?_⟩
      have hdetermined := honest.determined []
      rw [hstop] at hdetermined
      cases hfront.symm.trans hdetermined

end Pktflow.Plugins

import Pktflow.Core.Looping
import Pktflow.Plugins.Ospf

/-!
# BACnet/IP and messages that declare their length

Model of `bacnet_ip.rs`, whose declared length also covers what is not walked. With it the four plugins whose
messages declare their own length are complete: for each the header is the declared message and nothing more
(`selfDelimiting_messages`), and what the walks inside report is what stands there.
-/

set_option autoImplicit false

namespace Pktflow.Plugins

open Pktflow.Core Pktflow.Core.ByteReader Pktflow.Flows

/-! ## The plugin -/

/-- What the fields of a message say. -/
structure BacnetHead where
  bvlcFunction : UInt8
  declaredLen : Nat
  npduControl : Option UInt8 := none
  apduType : Option UInt8 := none
  serviceChoice : Option UInt8 := none

/-- `KNOWN_FUNCTIONS`. -/
def knownFunctions : List UInt8 := [0x00, 0x01, 0x02, 0x03, 0x04, 0x05, 0x06, 0x07, 0x08, 0x09, 0x0A, 0x0B]

/-- An address of the network layer, if its bit is set. -/
def npduAddress (control bit : UInt8) : ByteReader Unit := do
  if control &&& bit ≠ 0 then
    let _ ← u16Be
    let len ← u8
    let _ ← take len.toNat
    return ()
  else return ()

/-- Sequence number and window size of a segment. -/
def segmentFields (apduByte0 : UInt8) : ByteReader Unit := do
  if apduByte0 &&& 0x08 ≠ 0 then
    let _ ← u8
    let _ ← u8
    return ()
  else return ()

/-- The service choice of the kinds of unit that have one. -/
def apduService (apduByte0 : UInt8) : ByteReader (Option UInt8) := do
  let pduType := apduByte0 >>> 4
  if pduType = 0 then
    let _ ← u8
    let _ ← u8
    segmentFields apduByte0
    return some (← u8)
  else if pduType = 1 then return some (← u8)
  else if pduType = 2 then
    let _ ← u8
    return some (← u8)
  else if pduType = 3 then
    let _ ← u8
    segmentFields apduByte0
    return some (← u8)
  else return none

/-- What follows the network layer: a message of its own, or an application unit with its type and service. -/
def npduPayload (control : UInt8) : ByteReader (Option UInt8 × Option UInt8) := do
  if control &&& 0x80 ≠ 0 then
    let messageType ← u8
    if 0x80 ≤ messageType then
      let _ ← u16Be
      return (none, none)
    else return (none, none)
  else
    let apduByte0 ← u8
    let service ← apduService apduByte0
    return (some (apduByte0 >>> 4), service)

/-- The network layer: its control byte, and the type and service behind it. -/
def npdu : ByteReader (UInt8 × Option UInt8 × Option UInt8) := do
  let version ← u8
  if version ≠ 0x01 then throw (.malformed "NPDU version is not 1")
  let control ← u8
  npduAddress control 0x20
  npduAddress control 0x08
  -- the hop count trails the addresses
  let _ ← take (if control &&& 0x20 ≠ 0 then 1 else 0)
  let (apduType, service) ← npduPayload control
  return (control, apduType, service)

/-- The fields of a message. -/
def bacnetHead : ByteReader BacnetHead := do
  let bvlcType ← u8
  if bvlcType ≠ 0x81 then throw (.malformed "BVLC type is not 0x81 (BACnet/IP)")
  let bvlcFunction ← u8
  let declaredLen ← u16Be
  if declaredLen.toNat < 4 then throw (.malformed "BVLC length smaller than the BVLC header itself")
  if bvlcFunction = 0x0A ∨ bvlcFunction = 0x0B ∨ bvlcFunction = 0x04 then
    let _ ← take (if bvlcFunction = 0x04 then 6 else 0)
    let (control, apduType, service) ← npdu
    return ⟨bvlcFunction, declaredLen.toNat, some control, apduType, service⟩
  else return { bvlcFunction, declaredLen := declaredLen.toNat }

/-- The fields, and the tail that the declared length still promises. -/
def bacnetMessage : ByteReader BacnetHead := do
  let (head, consumed) ← measured bacnetHead
  if head.declaredLen < consumed then throw (.malformed "BVLC length shorter than the fields it must contain")
  let _ ← take (head.declaredLen - consumed)
  return head

/-- `BacnetIp::parse`. -/
def parseBacnetIp (ctx : ParseCtx) : ByteReader ParsedLayer := do
  let (head, headerLen) ← measured bacnetMessage
  let fields := insertAt ctx .full
    ((head.apduType.map fun t => Value.u64 t.toUInt64).toList.map (fun v => ("apdu_type", v)) ++
      (head.serviceChoice.map fun s => Value.u64 s.toUInt64).toList.map (fun v => ("service_choice", v)))
    (insertAt ctx .structural
      ([("bvlc_function", .u64 head.bvlcFunction.toUInt64)] ++
        (head.npduControl.map fun c => Value.u64 c.toUInt64).toList.map (fun v => ("npdu_control", v)))
      (insertAt ctx .keys [("app", .str "bacnet")] FieldMap.new))
  return ⟨headerLen, fields, .terminal⟩

/-- `BacnetIp::probe`. -/
def probeBacnetIp (bytes : List UInt8) : Option Confidence :=
  match bytes with
  | bvlcType :: bvlcFunction :: hi :: lo :: _ =>
      if bvlcType = 0x81 ∧ bvlcFunction ∈ knownFunctions ∧ 4 ≤ fromBeBytes [hi, lo] then some (Confidence.new 60)
      else none
  | _ => none

/-- `BacnetIp`. -/
def bacnetIp : LayerPlugin where
  name := "bacnet_ip"
  parse := fun bytes ctx => (parseBacnetIp ctx).parse bytes
  claims := [.udpPort 47808]
  hasProbe := true
  probe := fun bytes _ => probeBacnetIp bytes
  streamIdentity := some
    { key := [⟨"app", none⟩], canonicalize := .endpointSort, lifecycle := none,
      rollups := [⟨"service_choice", .accumulate⟩] }

section Bacnet

variable {ctx : ParseCtx} {buf rest bytes : List UInt8}

theorem exact_npduAddress (control bit : UInt8) : Exact (npduAddress control bit) :=
  .ite (fun _ => exact_u16Be.bind fun _ => exact_u8.bind fun _ => (exact_take _).bind fun _ => exact_pure _)
    fun _ => exact_pure _

theorem exact_segmentFields (apduByte0 : UInt8) : Exact (segmentFields apduByte0) :=
  .ite (fun _ => exact_u8.bind fun _ => exact_u8.bind fun _ => exact_pure _) fun _ => exact_pure _

theorem exact_apduService (apduByte0 : UInt8) : Exact (apduService apduByte0) := by
  rw [apduService]
  refine .ite (fun _ => ?_) fun _ => .ite (fun _ => ?_) fun _ => .ite (fun _ => ?_) fun _ => .ite (fun _ => ?_) fun _ =>
    exact_pure _
  · exact exact_u8.bind fun _ => exact_u8.bind fun _ => (exact_segmentFields _).bind fun _ => exact_u8.bind fun _ =>
      exact_pure _
  · exact exact_u8.bind fun _ => exact_pure _
  · exact exact_u8.bind fun _ => exact_u8.bind fun _ => exact_pure _
  · exact exact_u8.bind fun _ => (exact_segmentFields _).bind fun _ => exact_u8.bind fun _ => exact_pure _

theorem exact_npduPayload (control : UInt8) : Exact (npduPayload control) := by
  refine .ite (fun _ => exact_u8.bind fun _ => ?_) fun _ => ?_
  · exact .ite (fun _ => exact_u16Be.bind fun _ => exact_pure _) fun _ => exact_pure _
  · exact exact_u8.bind fun _ => (exact_apduService _).bind fun _ => exact_pure _

theorem exact_npdu : Exact npdu := by
  refine exact_u8.bind fun version => .guard (exact_u8.bind fun control => ?_)
  refine (exact_npduAddress _ _).bind fun _ => (exact_npduAddress _ _).bind fun _ => (exact_take _).bind fun _ => ?_
  exact (exact_npduPayload _).bind fun _ => exact_pure _

theorem exact_bacnetHead : Exact bacnetHead := by
  refine exact_u8.bind fun _ => .guard (exact_u8.bind fun _ => exact_u16Be.bind fun _ => .guard (.ite (fun _ => ?_) ?_))
  · exact (exact_take _).bind fun _ => exact_npdu.bind fun _ => exact_pure _
  · exact fun _ => exact_pure _

theorem exact_bacnetMessage : Exact bacnetMessage :=
  (exact_measured exact_bacnetHead).bind fun _ => .guard ((exact_take _).bind fun _ => exact_pure _)

theorem honestHeader_bacnetIp : HonestHeader bacnetIp := by
  refine honestHeader_of_exact (r := parseBacnetIp) (fun _ _ => rfl) ?_ ?_ fun _ => ⟨_, rfl⟩
  · exact fun ctx => (exact_measured exact_bacnetMessage).bind fun _ => exact_pure _
  · exact fun ctx => (counts_measured exact_bacnetMessage).bind fun _ => counts_pure rfl

/-- A message is as long as it declares. -/
theorem counts_bacnetMessage : Counts 0 BacnetHead.declaredLen bacnetMessage := by
  refine (counts_measured exact_bacnetHead).bind fun head => .guard fun hle => ?_
  exact (takes_take _).bind fun _ => counts_pure (by omega)

/-- The length that is declared is the second word. -/
theorem bacnetMessage_eq_ok {head : BacnetHead} (h : bacnetMessage buf = .ok (head, rest)) :
    ∃ front word behind, buf = front ++ (word ++ behind) ∧ front.length = 2 ∧ word.length = 2 ∧
      head.declaredLen = fromBeBytes word := by
  obtain ⟨⟨head', consumed⟩, buf₁, hhead, hread⟩ := bind_eq_ok.1 h
  obtain ⟨hhead, -⟩ := measured_eq_ok.1 hhead
  dsimp only at hread
  split at hread
  · cases hread
  · obtain ⟨_, buf₂, -, hpure⟩ := bind_eq_ok.1 hread
    obtain ⟨rfl, -⟩ := pure_eq_ok.1 hpure
    obtain ⟨bvlcType, buf₃, htype, hread⟩ := bind_eq_ok.1 hhead
    split at hread
    · cases hread
    · obtain ⟨bvlcFunction, buf₄, hfunction, hread⟩ := bind_eq_ok.1 hread
      obtain ⟨declaredLen, buf₅, hlen, hread⟩ := bind_eq_ok.1 hread
      split at hread
      · cases hread
      -- The functions that carry an NPDU read it on; the declared length is the same either way.
      · have hdeclared : head.declaredLen = declaredLen.toNat := by
          split at hread
          · obtain ⟨_, buf₆, -, hread⟩ := bind_eq_ok.1 hread
            obtain ⟨_, buf₇, -, hpure⟩ := bind_eq_ok.1 hread
            obtain ⟨rfl, -⟩ := pure_eq_ok.1 hpure
            rfl
          · obtain ⟨rfl, -⟩ := pure_eq_ok.1 hread
            rfl
        obtain rfl := u8_eq_ok.1 htype
        obtain rfl := u8_eq_ok.1 hfunction
        obtain ⟨word, rfl, hword, rfl⟩ := u16Be_eq_ok.1 hlen
        have hlt := fromBeBytes_lt word
        rw [hword] at hlt
        exact ⟨[bvlcType, bvlcFunction], word, buf₅, rfl, rfl, hword,
          hdeclared.trans (UInt16.toNat_ofNat_of_lt' hlt)⟩

theorem parse_bacnetIp_eq_ok {layer : ParsedLayer} (h : bacnetIp.parse bytes ctx = .ok layer) :
    ∃ front word behind, bytes = front ++ (word ++ behind) ∧ front.length = 2 ∧ word.length = 2 ∧
      layer.headerLen = fromBeBytes word := by
  obtain ⟨rest, hread⟩ := parse_eq_ok.1 h
  obtain ⟨⟨head, headerLen⟩, buf₁, hmessage, hpure⟩ := bind_eq_ok.1 hread
  obtain ⟨hmessage, hlen⟩ := measured_eq_ok.1 hmessage
  obtain ⟨rfl, rfl⟩ := pure_eq_ok.1 hpure
  have hcount := counts_bacnetMessage _ _ _ hmessage
  obtain ⟨front, word, behind, hbytes, hfront, hword, hdeclared⟩ := bacnetMessage_eq_ok hmessage
  refine ⟨front, word, behind, hbytes, hfront, hword, ?_⟩
  rw [← hdeclared]
  dsimp only
  omega

end Bacnet

/-! ## The four messages -/

/-- The word at an offset. -/
def declaredAt (off : Nat) (bytes : List UInt8) : Nat := fromBeBytes ((bytes.drop off).take 2)

/-- Every item takes a byte, so that the loop ends, whatever the bytes. -/
structure LoopEnds {σ : Type} (k : Nat) (item : σ → ByteReader σ) : Prop where
  progresses : ItemProgresses item
  ends : ∀ s buf, Ends (turnWhile k item) s buf (whileLeft k item s buf)

/-- The prefixes of an UPDATE are exactly the bytes of their sections. -/
def LosslessUpdate : Prop :=
  ∀ bytes ctx layer, bgp.parse bytes ctx = .ok layer → ctx.depth = .full → bytes[18]? = some 2 →
    ∃ (withdrawn nlri : List (List UInt8)) (attrs : List UInt8),
      UpdateSections ((bytes.take layer.headerLen).drop 19) withdrawn.flatten attrs nlri.flatten ∧
      layer.fields.get "withdrawn_routes" = some (.list (withdrawn.map .bytes)) ∧
        layer.fields.get "nlri" = some (.list (nlri.map .bytes))

/-- The lengths of the sets of an IPFIX message are the length of its body, but for a tail under four bytes, and
sets are reported as they are sent, templates among them. -/
structure LosslessSets : Prop where
  lengths : ∀ bytes ctx layer, ipfix.parse bytes ctx = .ok layer → ctx.depth = .full →
    ∃ sets : List IpfixSet, layer.fields.get "sets" = some (.list (sets.map IpfixSet.toValue)) ∧
      ∃ tail, tail < 4 ∧ 16 + (sets.map IpfixSet.setLen).sum + tail = layer.headerLen
  decode : ∀ (m : IpfixMessage) (more : List UInt8) ctx, ∃ layer, ipfix.parse (m.bytes ++ more) ctx = .ok layer ∧
    (ctx.depth = .full → layer.fields.get "sets" = some (.list (m.sets.map fun s => s.report.toValue)))

/-- The neighbors of a Hello and the headers of a Link State Update are reported as they are sent, in order. -/
structure LosslessOspf : Prop where
  hello : ∀ (h : OspfHello) (more : List UInt8) ctx, ∃ layer, ospf.parse (h.bytes ++ more) ctx = .ok layer ∧
    (ctx.depth = .full → layer.fields.get "neighbors" = some (.list (h.neighbors.map .bytes)))
  update : ∀ (u : OspfUpdate) (more : List UInt8) ctx, ∃ layer, ospf.parse (u.bytes ++ more) ctx = .ok layer ∧
    (ctx.depth = .full → layer.fields.get "lsa_headers" = some (.list (u.lsas.map fun l => .bytes l.header)))

theorem loopEnds {σ : Type} {k : Nat} {item : σ → ByteReader σ} (h : ItemProgresses item) : LoopEnds k item :=
  ⟨h, ends_loop (progresses_turnWhile h)⟩

theorem losslessUpdate : LosslessUpdate := by
  intro bytes ctx layer h hctx htype
  obtain ⟨marker, word, msgType, body, b, rest, rfl, hmarker, hword, -, hlen, hbody, hfields⟩ := parse_bgp_eq_ok h
  have hupdate : msgType = 2 := by
    rw [List.getElem?_append_right (by omega), hmarker, List.getElem?_append_right (by omega), hword] at htype
    simpa using htype
  subst hupdate
  rw [bgpBody, if_neg (by decide), if_pos rfl] at hbody
  obtain ⟨attrs, hsections⟩ := updateBody_eq_ok hbody
  obtain ⟨hwithdrawn, hnlri⟩ := hfields hctx rfl
  refine ⟨b.withdrawnRoutes, b.nlri, attrs, ?_, hwithdrawn, hnlri⟩
  have hinside : ((marker ++ (word ++ 2 :: (body ++ rest))).take layer.headerLen).drop 19 = body := by
    have hsplit : marker ++ (word ++ 2 :: (body ++ rest)) = (marker ++ word ++ [2]) ++ (body ++ rest) := by simp
    have hfront : (marker ++ word ++ [2]).length = 19 := by simp [hmarker, hword]
    rw [hsplit, List.drop_take, hlen, ← hfront, List.drop_left, Nat.add_sub_cancel_left, List.take_left]
  rw [hinside]
  exact hsections

theorem losslessSets : LosslessSets := by
  refine ⟨?_, fun m more ctx => parse_ipfix_bytes m more⟩
  intro bytes ctx layer h hctx
  obtain ⟨version, word, behind, body, sets, -, -, -, -, hlen, hsets, hfields⟩ := parse_ipfix_eq_ok h
  obtain ⟨tail, htail, hsum⟩ := sets_length hsets
  exact ⟨sets, hfields hctx, tail, htail, by omega⟩

theorem declaredAt_append {front word behind : List UInt8} {off : Nat} (hfront : front.length = off)
    (hword : word.length = 2) : declaredAt off (front ++ (word ++ behind)) = fromBeBytes word := by
  rw [declaredAt, List.drop_left' hfront, List.take_left' hword]

/-- Each of the four messages is what its length declares, is needed to its last byte, and determines the result;
the walks inside end, and report the prefixes, sets, neighbors and advertisements that stand there. -/
theorem selfDelimiting_messages :
    (∀ p off, (p, off) ∈ [(bgp, 16), (ipfix, 2), (ospf, 2), (bacnetIp, 2)] → HonestHeader p ∧
      ∀ bytes ctx layer, p.parse bytes ctx = .ok layer → layer.headerLen = declaredAt off bytes) ∧
    (LoopEnds 1 prefixEntry ∧ LoopEnds 1 pathAttribute ∧ LoopEnds 4 ipfixSet ∧ LoopEnds 4 templateRecord ∧
      LoopEnds 1 neighbor) ∧
    LosslessUpdate ∧ LosslessSets ∧ LosslessOspf := by
  refine ⟨?_, ⟨loopEnds progresses_prefixEntry, loopEnds progresses_pathAttribute, loopEnds progresses_ipfixSet,
    loopEnds progresses_templateRecord, loopEnds progresses_neighbor⟩, losslessUpdate, losslessSets,
    fun h more ctx => parse_ospf_hello h more, fun u more ctx => parse_ospf_update u more⟩
  intro p off hp
  simp only [List.mem_cons, Prod.mk.injEq, List.not_mem_nil, or_false] at hp
  rcases hp with ⟨rfl, rfl⟩ | ⟨rfl, rfl⟩ | ⟨rfl, rfl⟩ | ⟨rfl, rfl⟩
  · refine ⟨honestHeader_bgp, fun bytes ctx layer h => ?_⟩
    obtain ⟨marker, word, msgType, body, b, rest, rfl, hmarker, hword, hlen, -⟩ := parse_bgp_eq_ok h
    rw [declaredAt_append hmarker hword, hlen]
  · refine ⟨honestHeader_ipfix, fun bytes ctx layer h => ?_⟩
    obtain ⟨version, word, behind, body, sets, rfl, hversion, hword, hlen, -⟩ := parse_ipfix_eq_ok h
    rw [declaredAt_append hversion hword, hlen]
  · refine ⟨honestHeader_ospf, fun bytes ctx layer h => ?_⟩
    obtain ⟨front, word, behind, rfl, hfront, hword, hlen⟩ := parse_ospf_eq_ok h
    rw [declaredAt_append hfront hword, hlen]
  · refine ⟨honestHeader_bacnetIp, fun bytes ctx layer h => ?_⟩
    obtain ⟨front, word, behind, rfl, hfront, hword, hlen⟩ := parse_bacnetIp_eq_ok h
    rw [declaredAt_append hfront hword, hlen]

end Pktflow.Plugins

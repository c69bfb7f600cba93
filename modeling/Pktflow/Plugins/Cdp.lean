import Pktflow.Core.Looping
import Pktflow.Plugins.ExtHeaders
import Pktflow.Plugins.FiveTuple

/-!
# CDP

Model of `cdp.rs`. An announcement is a header and a walk over type-length-value records; the Address record nests
a list of addresses, whose first is reported. `first_address` takes the protocol type for the protocol length, so
the address is found exactly if it stands that many bytes behind as well (`reportsFirst_iff`).
-/

set_option autoImplicit false

namespace Pktflow.Plugins

open Pktflow.Core Pktflow.Core.ByteReader Pktflow.Flows

/-! ## The plugin -/

/-- `decode_text`. -/
def decodeText (bytes : List UInt8) : String :=
  String.ofList (bytes.map fun b => if 0x20 ≤ b ∧ b ≤ 0x7E then Char.ofNat b.toNat else '?')

/-- The bytes of `first_address`. -/
def firstAddressReader : ByteReader (List UInt8) := do
  let count ← u32Be
  if count = 0 then throw (.malformed "no address")
  let protocolLength ← u8
  let _ ← u8
  let _ ← take protocolLength.toNat
  let addressLength ← u16Be
  take addressLength.toNat

/-- `first_address`. -/
def firstAddress (value : List UInt8) : Option (List UInt8) := (firstAddressReader.parse value).toOption

/-- `Tlvs`. -/
structure Tlvs where
  deviceId : Option String := none
  portId : Option String := none
  platform : Option String := none
  capabilities : Option UInt32 := none
  nativeVlan : Option UInt16 := none
  ipAddress : Option (List UInt8) := none

namespace Tlvs

/-- `Tlvs::record`. -/
def record (t : Tlvs) (tlvType : UInt16) (value : List UInt8) : Tlvs :=
  if tlvType = 0x0001 then { t with deviceId := some (decodeText value) }
  else if tlvType = 0x0003 then { t with portId := some (decodeText value) }
  else if tlvType = 0x0006 then { t with platform := some (decodeText value) }
  else if tlvType = 0x0004 ∧ value.length = 4 then
    { t with capabilities := some (UInt32.ofNat (fromBeBytes value)) }
  else if tlvType = 0x000A ∧ value.length = 2 then
    { t with nativeVlan := some (UInt16.ofNat (fromBeBytes value)) }
  else if tlvType = 0x0002 then
    match firstAddress value with
    | some addr => { t with ipAddress := some addr }
    | none => t
  else t

/-- `Tlvs::insert_full_fields`. -/
def fullFields (t : Tlvs) : List (FieldName × Value) :=
  (t.deviceId.map Value.str).toList.map (fun v => ("device_id", v)) ++
    (t.portId.map Value.str).toList.map (fun v => ("port_id", v)) ++
    (t.platform.map Value.str).toList.map (fun v => ("platform", v)) ++
    (t.capabilities.map fun v => Value.u64 v.toUInt64).toList.map (fun v => ("capabilities", v)) ++
    (t.nativeVlan.map fun v => Value.u64 v.toUInt64).toList.map (fun v => ("native_vlan", v)) ++
    (t.ipAddress.map Value.bytes).toList.map (fun v => ("ip_address", v))

end Tlvs

/-- One turn of the walk of `Cdp::parse` over a message of `len` bytes: what was found, and the header length. -/
def tlvTurn (len : Nat) : Tlvs × Nat → ByteReader (Tlvs × Nat ⊕ Tlvs × Nat) := fun (tlvs, headerLen) => do
  let before ← remaining
  if before < 4 then return .inr (tlvs, headerLen)
  let tlvType ← u16Be
  let tlvLen ← u16Be
  if tlvType = 0 ∧ tlvLen = 0 then return .inr (tlvs, len - before)
  if tlvLen < 4 then throw (.malformed "CDP: TLV length shorter than its own header")
  let value ← take (tlvLen.toNat - 4)
  return .inl (tlvs.record tlvType value, len - (← remaining))

/-- `Cdp::parse` on `len` bytes. -/
def parseCdp (len : Nat) (ctx : ParseCtx) : ByteReader ParsedLayer := do
  let version ← u8
  let ttl ← u8
  let checksum ← u16Be
  let (tlvs, headerLen) ← loop (tlvTurn len) ({}, len - (← remaining))
  if tlvs.deviceId.isNone then throw (.malformed "CDP: missing Device ID TLV")
  let fields := insertAt ctx .full tlvs.fullFields
    (insertAt ctx .structural
      [("version", .u64 version.toUInt64), ("ttl", .u64 ttl.toUInt64), ("checksum", .u64 checksum.toUInt64)]
      FieldMap.new)
  return ⟨headerLen, fields, .terminal⟩

/-- `Cdp`. -/
def cdp : LayerPlugin where
  name := "cdp"
  parse := fun bytes ctx => (parseCdp bytes.length ctx).parse bytes
  claims := [.custom "snap_pid" 0x0C2000]

/-! ## Messages -/

/-- One address of the list: protocol type, protocol and address. -/
structure CdpAddress where
  protocolType : UInt8
  protocol : List UInt8
  address : List UInt8
  protocol_fits : protocol.length < 256
  address_fits : address.length < 65536

namespace CdpAddress

/-- What stands behind the two one-byte fields. -/
def body (a : CdpAddress) : List UInt8 := a.protocol ++ (Lib.beBytes 2 a.address.length ++ a.address)

/-- The address as it is sent: the protocol type, then the protocol length. -/
def bytes (a : CdpAddress) : List UInt8 := a.protocolType :: UInt8.ofNat a.protocol.length :: a.body

end CdpAddress

/-- A record of the message. -/
structure CdpTlv where
  tlvType : UInt16
  value : List UInt8
  fits : value.length + 4 < 65536

/-- The record as it is sent. -/
def CdpTlv.bytes (t : CdpTlv) : List UInt8 :=
  Lib.beBytes 2 t.tlvType.toNat ++ (Lib.beBytes 2 (t.value.length + 4) ++ t.value)

/-- The value of an Address record: the number of addresses, then each. -/
def addressList (addresses : List CdpAddress) : List UInt8 :=
  Lib.beBytes 4 addresses.length ++ addresses.flatMap CdpAddress.bytes

/-- A message with one Address record, in front of and behind others, among them a Device ID; behind the records
come fewer than four bytes, or padding that begins with four zero bytes. -/
structure CdpMessage where
  version : UInt8
  ttl : UInt8
  checksum : UInt16
  front : List CdpTlv
  first : CdpAddress
  others : List CdpAddress
  back : List CdpTlv
  padding : List UInt8
  fits : (addressList (first :: others)).length + 4 < 65536
  one : ∀ t ∈ front ++ back, t.tlvType ≠ 0x0002
  device : ∃ t ∈ front ++ back, t.tlvType = 0x0001
  padded : padding.length < 4 ∨ ∃ more, padding = [0, 0, 0, 0] ++ more

namespace CdpMessage

/-- The Address record. -/
def addressTlv (m : CdpMessage) : CdpTlv := ⟨0x0002, addressList (m.first :: m.others), m.fits⟩

/-- The records. -/
def tlvs (m : CdpMessage) : List CdpTlv := m.front ++ m.addressTlv :: m.back

/-- The message as it is sent. -/
def bytes (m : CdpMessage) : List UInt8 :=
  [m.version, m.ttl] ++ (Lib.beBytes 2 m.checksum.toNat ++ (m.tlvs.flatMap CdpTlv.bytes ++ m.padding))

end CdpMessage

/-- The first address of the list is reported. -/
def ReportsFirst (m : CdpMessage) (ctx : ParseCtx) : Prop :=
  ∃ layer, cdp.parse m.bytes ctx = .ok layer ∧ layer.fields.get "ip_address" = some (.bytes m.first.address)

/-- Behind as many bytes as the protocol type says, counted from the end of the two one-byte fields, stand the
length of the first address and the address. -/
def InPlace (m : CdpMessage) : Prop :=
  m.first.protocolType.toNat ≤ (m.first.body ++ m.others.flatMap CdpAddress.bytes).length ∧
    Lib.beBytes 2 m.first.address.length ++ m.first.address <+:
      (m.first.body ++ m.others.flatMap CdpAddress.bytes).drop m.first.protocolType.toNat

section Cdp

variable {buf rest : List UInt8} {ctx : ParseCtx}

theorem progresses_tlvTurn (len : Nat) : Progresses (tlvTurn len) := by
  rintro ⟨tlvs, headerLen⟩ buf s' rest h
  obtain ⟨before, mid, hbefore, hread⟩ := bind_eq_ok.1 h
  obtain ⟨rfl, rfl⟩ := Prod.mk.inj (Except.ok.inj hbefore)
  split at hread
  · cases hread
  · obtain ⟨tlvType, buf₁, htype, hread⟩ := bind_eq_ok.1 hread
    obtain ⟨tlvLen, buf₂, hlen, hread⟩ := bind_eq_ok.1 hread
    have h₁ := takes_u16Be _ _ _ htype
    have h₂ := takes_u16Be _ _ _ hlen
    split at hread
    · cases hread
    · split at hread
      · cases hread
      · obtain ⟨value, buf₃, hvalue, hread⟩ := bind_eq_ok.1 hread
        have h₃ := takes_take _ _ _ _ hvalue
        obtain ⟨left, buf₄, hleft, hpure⟩ := bind_eq_ok.1 hread
        obtain ⟨rfl, rfl⟩ := Prod.mk.inj (Except.ok.inj hleft)
        obtain ⟨-, rfl⟩ := pure_eq_ok.1 hpure
        omega

theorem CdpTlv.bytes_length (t : CdpTlv) : t.bytes.length = t.value.length + 4 := by
  simp [CdpTlv.bytes]
  omega

/-- A record is recorded. -/
theorem tlvTurn_bytes (len : Nat) (t : CdpTlv) (tlvs : Tlvs) (headerLen : Nat) (rest : List UInt8) :
    tlvTurn len (tlvs, headerLen) (t.bytes ++ rest) =
      .ok (.inl (tlvs.record t.tlvType t.value, len - rest.length), rest) := by
  have hfits := t.fits
  have hfour : ¬(t.bytes ++ rest).length < 4 := by rw [List.length_append, t.bytes_length]; omega
  have hlen : (UInt16.ofNat (t.value.length + 4)).toNat = t.value.length + 4 := UInt16.toNat_ofNat_of_lt' hfits
  -- A TLV of type 0 and length 0 ends the walk as padding; a sent one declares its own four bytes at least.
  have hzero : ¬(t.tlvType = 0 ∧ UInt16.ofNat (t.value.length + 4) = 0) := by
    rintro ⟨-, h⟩
    have := congrArg UInt16.toNat h
    rw [hlen] at this
    simp at this
  have hshort : ¬UInt16.ofNat (t.value.length + 4) < 4 := by
    rw [UInt16.lt_iff_toNat_lt, hlen]
    simp
  have hvalue : take ((UInt16.ofNat (t.value.length + 4)).toNat - 4) (t.value ++ rest) = .ok (t.value, rest) := by
    rw [hlen, Nat.add_sub_cancel]
    exact reads_take t.value rest
  have htype := reads_u16Be_toNat t.tlvType (Lib.beBytes 2 (t.value.length + 4) ++ t.value ++ rest)
  have hbytes : t.bytes ++ rest =
      Lib.beBytes 2 t.tlvType.toNat ++ (Lib.beBytes 2 (t.value.length + 4) ++ t.value ++ rest) := by
    simp [CdpTlv.bytes]
  rw [tlvTurn, bind_of_ok (show remaining (t.bytes ++ rest) = .ok (_, t.bytes ++ rest) from rfl), if_neg hfour, hbytes,
    bind_of_ok htype, List.append_assoc, bind_of_ok (reads_u16Be _ _), if_neg hzero, if_neg hshort]
  beta_reduce
  rw [bind_of_ok hvalue]
  rfl

/-- Padding ends the walk. -/
theorem tlvTurn_padding (len : Nat) {padding : List UInt8}
    (h : padding.length < 4 ∨ ∃ more, padding = [0, 0, 0, 0] ++ more) (tlvs : Tlvs) (headerLen : Nat) :
    ∃ n rest, tlvTurn len (tlvs, headerLen) padding = .ok (.inr (tlvs, n), rest) := by
  rcases h with hlt | ⟨more, rfl⟩
  · refine ⟨headerLen, padding, ?_⟩
    rw [tlvTurn, bind_of_ok (show remaining padding = .ok (_, padding) from rfl), if_pos hlt]
    rfl
  · refine ⟨len - ([0, 0, 0, 0] ++ more).length, more, ?_⟩
    rw [tlvTurn, bind_of_ok (show remaining _ = .ok (_, [0, 0, 0, 0] ++ more) from rfl), if_neg (by simp)]
    rfl

/-- The walk over the records of a message. -/
theorem loop_tlvTurn (len : Nat) (ts : List CdpTlv) {padding : List UInt8}
    (h : padding.length < 4 ∨ ∃ more, padding = [0, 0, 0, 0] ++ more) (tlvs : Tlvs) (headerLen : Nat) :
    ∃ n rest, loop (tlvTurn len) (tlvs, headerLen) (ts.flatMap CdpTlv.bytes ++ padding) =
      .ok ((ts.foldl (fun tlvs t => tlvs.record t.tlvType t.value) tlvs, n), rest) := by
  induction ts generalizing tlvs headerLen with
  | nil =>
      obtain ⟨n, rest, hturn⟩ := tlvTurn_padding len h tlvs headerLen
      exact ⟨n, rest, loop_of_inr hturn⟩
  | cons t ts ih =>
      obtain ⟨n, rest, hloop⟩ := ih (tlvs.record t.tlvType t.value) _
      refine ⟨n, rest, ?_⟩
      rw [List.flatMap_cons, List.append_assoc, loop_of_inl (progresses_tlvTurn len) (tlvTurn_bytes ..)]
      exact hloop

/-- What the records leave of the address found. -/
theorem ipAddress_record {t : Tlvs} {tlvType : UInt16} (h : tlvType ≠ 0x0002) (value : List UInt8) :
    (t.record tlvType value).ipAddress = t.ipAddress := by
  rw [Tlvs.record]
  split_ifs <;> rfl

theorem ipAddress_record_address (t : Tlvs) (value : List UInt8) :
    (t.record 0x0002 value).ipAddress = (firstAddress value).or t.ipAddress := by
  rw [Tlvs.record, if_neg (by decide), if_neg (by decide), if_neg (by decide), if_neg (by simp), if_neg (by simp),
    if_pos rfl]
  cases firstAddress value <;> rfl

theorem deviceId_record {t : Tlvs} (tlvType : UInt16) (value : List UInt8)
    (h : t.deviceId.isSome = true ∨ tlvType = 0x0001) : (t.record tlvType value).deviceId.isSome = true := by
  rw [Tlvs.record]
  split_ifs with h₁ <;> try rfl
  all_goals have hsome := h.resolve_right h₁
  all_goals first | exact hsome | skip
  cases firstAddress value <;> exact hsome

theorem ipAddress_foldl {ts : List CdpTlv} (h : ∀ t ∈ ts, t.tlvType ≠ 0x0002) (tlvs : Tlvs) :
    (ts.foldl (fun tlvs t => tlvs.record t.tlvType t.value) tlvs).ipAddress = tlvs.ipAddress := by
  induction ts generalizing tlvs with
  | nil => rfl
  | cons t ts ih =>
      rw [List.foldl_cons, ih (fun t ht => h t (List.mem_cons_of_mem _ ht)), ipAddress_record (h t List.mem_cons_self)]

theorem deviceId_foldl {ts : List CdpTlv} {tlvs : Tlvs}
    (h : tlvs.deviceId.isSome = true ∨ ∃ t ∈ ts, t.tlvType = 0x0001) :
    (ts.foldl (fun tlvs t => tlvs.record t.tlvType t.value) tlvs).deviceId.isSome = true := by
  induction ts generalizing tlvs with
  | nil => exact h.resolve_right (by rintro ⟨t, ht, -⟩; cases ht)
  | cons t ts ih =>
      rw [List.foldl_cons]
      apply ih
      rcases h with hsome | ⟨t', ht', htype⟩
      · exact .inl (deviceId_record _ _ (.inl hsome))
      · rcases List.mem_cons.1 ht' with rfl | hmem
        · exact .inl (deviceId_record _ _ (.inr htype))
        · exact .inr ⟨t', hmem, htype⟩

/-- What a message reports: the address found in its Address record. -/
theorem parse_cdp_bytes (m : CdpMessage) (hctx : ctx.depth = .full) :
    ∃ layer, cdp.parse m.bytes ctx = .ok layer ∧
      layer.fields.get "ip_address" = (firstAddress m.addressTlv.value).map .bytes := by
  have hfull : atDepth ctx .full = true := atDepth_of_depth hctx .full
  set len := m.bytes.length with hlen
  set body := m.tlvs.flatMap CdpTlv.bytes ++ m.padding with hbody
  obtain ⟨n, rest, hloop⟩ := loop_tlvTurn len m.tlvs m.padded {} (len - body.length)
  set found := m.tlvs.foldl (fun (tlvs : Tlvs) t => tlvs.record t.tlvType t.value) {} with hfound
  -- The address comes from the one address TLV: the others, in front and behind, leave it as it was.
  have hip : found.ipAddress = firstAddress m.addressTlv.value := by
    have hfront : ∀ t ∈ m.front, t.tlvType ≠ 0x0002 := fun t ht => m.one t (List.mem_append_left _ ht)
    have hback : ∀ t ∈ m.back, t.tlvType ≠ 0x0002 := fun t ht => m.one t (List.mem_append_right _ ht)
    rw [hfound, CdpMessage.tlvs, List.foldl_append, List.foldl_cons, ipAddress_foldl hback]
    rw [show m.addressTlv.tlvType = 0x0002 from rfl, ipAddress_record_address, ipAddress_foldl hfront]
    exact Option.or_none
  have hdevice : ¬found.deviceId.isNone = true := by
    obtain ⟨t, ht, htype⟩ := m.device
    have hmem : t ∈ m.tlvs := by
      rcases List.mem_append.1 ht with hf | hb
      · exact List.mem_append_left _ hf
      · exact List.mem_append_right _ (List.mem_cons_of_mem _ hb)
    have hsome : (m.tlvs.foldl (fun tlvs t => tlvs.record t.tlvType t.value) ({} : Tlvs)).deviceId.isSome = true :=
      deviceId_foldl (.inr ⟨t, hmem, htype⟩)
    rw [← hfound] at hsome
    simp [Option.isNone_iff_eq_none, Option.isSome_iff_ne_none.1 hsome]
  have hsum := reads_u16Be_toNat m.checksum body
  have hread : ∃ layer, parseCdp len ctx m.bytes = .ok (layer, rest) ∧
      layer.fields.get "ip_address" = found.ipAddress.map .bytes := by
    rw [parseCdp, CdpMessage.bytes, List.cons_append, bind_of_ok (u8_cons ..), List.cons_append, bind_of_ok (u8_cons ..),
      List.nil_append, ← hbody, bind_of_ok hsum, bind_of_ok (show remaining body = .ok (body.length, body) from rfl),
      bind_of_ok hloop]
    dsimp only
    rw [if_neg hdevice]
    refine ⟨_, rfl, ?_⟩
    have hget := @get_insertAt_field ctx .full
      ((found.deviceId.map Value.str).toList.map (fun v => ("device_id", v)) ++
        (found.portId.map Value.str).toList.map (fun v => ("port_id", v)) ++
        (found.platform.map Value.str).toList.map (fun v => ("platform", v)) ++
        (found.capabilities.map fun v => Value.u64 v.toUInt64).toList.map (fun v => ("capabilities", v)) ++
        (found.nativeVlan.map fun v => Value.u64 v.toUInt64).toList.map (fun v => ("native_vlan", v)))
      [] "ip_address"
      (insertAt ctx .structural
        [("version", .u64 m.version.toUInt64), ("ttl", .u64 m.ttl.toUInt64), ("checksum", .u64 m.checksum.toUInt64)]
        FieldMap.new)
      hfull (found.ipAddress.map Value.bytes) (by simp) (by simp) (by rw [get_insertAt (by simp)]; rfl)
    rw [List.append_nil] at hget
    exact hget
  obtain ⟨layer, hlayer, hget⟩ := hread
  exact ⟨layer, parse_eq_ok.2 ⟨rest, hlayer⟩, hget.trans (congrArg _ hip)⟩

/-- The address found in a list: what stands where the protocol type, taken for a length, leads. -/
theorem firstAddress_eq_some {a : CdpAddress} {others : List CdpAddress} {addr : List UInt8}
    (hcount : (a :: others).length < 2 ^ 32) :
    firstAddress (addressList (a :: others)) = some addr ↔
      ∃ skipped bs rest, a.body ++ others.flatMap CdpAddress.bytes = skipped ++ (bs ++ addr) ++ rest ∧
        skipped.length = a.protocolType.toNat ∧ bs.length = 2 ∧
          addr.length = (UInt16.ofNat (fromBeBytes bs)).toNat := by
  have hopt : ∀ value, firstAddress value = some addr ↔ ∃ rest, firstAddressReader value = .ok (addr, rest) := by
    intro value
    exact toOption_parse_eq_some
  have hne : ¬UInt32.ofNat (a :: others).length = 0 := by
    intro h
    have := congrArg UInt32.toNat h
    rw [UInt32.toNat_ofNat_of_lt' hcount] at this
    simp at this
  rw [hopt, addressList, List.flatMap_cons, firstAddressReader]
  simp only [bind_of_ok (reads_u32Be _ _), if_neg hne]
  rw [CdpAddress.bytes, List.cons_append, List.cons_append, bind_of_ok (u8_cons ..), bind_of_ok (u8_cons ..)]
  -- The reader skips as many bytes as the protocol type has and takes the next two for the address length.
  constructor
  · rintro ⟨rest, h⟩
    obtain ⟨skipped, buf₁, hskip, hread⟩ := bind_eq_ok.1 h
    obtain ⟨word, buf₂, hword, haddr⟩ := bind_eq_ok.1 hread
    obtain ⟨hbuf, hskipped⟩ := take_eq_ok.1 hskip
    obtain ⟨bs, rfl, hbs, rfl⟩ := u16Be_eq_ok.1 hword
    obtain ⟨rfl, hlen⟩ := take_eq_ok.1 haddr
    exact ⟨skipped, bs, rest, by rw [hbuf]; simp, hskipped, hbs, hlen⟩
  · rintro ⟨skipped, bs, rest, hbuf, hskipped, hbs, hlen⟩
    refine ⟨rest, bind_eq_ok.2 ⟨skipped, bs ++ (addr ++ rest), take_eq_ok.2 ⟨by rw [hbuf]; simp, hskipped⟩, ?_⟩⟩
    refine bind_eq_ok.2 ⟨_, addr ++ rest, u16Be_eq_ok.2 ⟨bs, rfl, hbs, rfl⟩, ?_⟩
    exact take_eq_ok.2 ⟨rfl, hlen⟩

/-- The first address is reported exactly if it stands where the protocol type leads. -/
theorem reportsFirst_iff (m : CdpMessage) (hctx : ctx.depth = .full) : ReportsFirst m ctx ↔ InPlace m := by
  obtain ⟨layer, hlayer, hget⟩ := parse_cdp_bytes m hctx
  have hreports : ReportsFirst m ctx ↔ firstAddress (addressList (m.first :: m.others)) = some m.first.address := by
    rw [ReportsFirst, hlayer]
    simp only [Except.ok.injEq, exists_eq_left', hget]
    simp [CdpMessage.addressTlv]
  have hcount : (m.first :: m.others).length < 2 ^ 32 := by
    -- each address takes at least four bytes of the record
    have hfits := m.fits
    have hle : (m.first :: m.others).length ≤ ((m.first :: m.others).flatMap CdpAddress.bytes).length := by
      have hone : ∀ n ∈ (m.first :: m.others).map fun a => a.bytes.length, 1 ≤ n := by
        intro n hn
        obtain ⟨a, -, rfl⟩ := List.mem_map.1 hn
        simp [CdpAddress.bytes]
      have hsum := List.length_le_sum_of_one_le _ hone
      rw [List.length_map] at hsum
      rwa [List.length_flatMap]
    rw [addressList, List.length_append] at hfits
    omega
  have hfits := m.first.address_fits
  rw [hreports, firstAddress_eq_some hcount, InPlace]
  generalize hbehind : m.first.body ++ m.others.flatMap CdpAddress.bytes = behind
  constructor
  · rintro ⟨skipped, bs, rest, rfl, hskipped, hbs, hlen⟩
    have hlength : bs = Lib.beBytes 2 m.first.address.length := by
      rw [hlen, beBytes_word hbs]
    refine ⟨by simp [hskipped], ?_⟩
    rw [List.append_assoc, ← hskipped, List.drop_left, ← hlength]
    exact List.prefix_append _ _
  · rintro ⟨hle, rest, hrest⟩
    refine ⟨behind.take m.first.protocolType.toNat, Lib.beBytes 2 m.first.address.length, rest, ?_,
      List.length_take_of_le hle, Lib.length_beBytes 2 _, ?_⟩
    · rw [List.append_assoc, hrest, List.take_append_drop]
    · have hmod : m.first.address.length % 256 ^ 2 = m.first.address.length := Nat.mod_eq_of_lt hfits
      rw [fromBeBytes_beBytes, hmod, UInt16.toNat_ofNat_of_lt' hfits]

end Cdp

/-- An announcement of one address, with a Device ID in front. -/
def sampleCdp (first : CdpAddress) (h : (addressList [first]).length + 4 < 65536) : CdpMessage where
  version := 2
  ttl := 180
  checksum := 0
  front := [⟨1, [0x73, 0x77, 0x31], by decide⟩]
  first := first
  others := []
  back := []
  padding := []
  fits := h
  one := by simp
  device := by simp
  padded := .inl (by decide)

/-- The IPv4 address 192.0.2.1: protocol type 1, the NLPID of one byte. -/
def sampleIpv4 : CdpAddress := ⟨1, [0xCC], [192, 0, 2, 1], by decide, by decide⟩

/-- The IPv6 address 2001:db8::1: protocol type 2, the 802.2 protocol of eight bytes. -/
def sampleIpv6 : CdpAddress where
  protocolType := 2
  protocol := [0xAA, 0xAA, 3, 0, 0, 0, 0x86, 0xDD]
  address := [0x20, 1, 0xD, 0xB8, 0, 0, 0, 0, 0, 0, 0, 0, 0, 0, 0, 1]
  protocol_fits := by decide
  address_fits := by decide

/-- The IPv4 address, whose protocol type and length coincide, is reported if and only if it stands in its place. -/
theorem reportsFirst_sampleIpv4 :
    ReportsFirst (sampleCdp sampleIpv4 (by decide)) ⟨[], .full, ⟨0, 24, 24, 1⟩⟩ ↔
      InPlace (sampleCdp sampleIpv4 (by decide)) :=
  reportsFirst_iff _ rfl

/-- The IPv6 address is not reported. -/
theorem not_reportsFirst_ipv6 : ¬∀ m ctx, ctx.depth = .full → ReportsFirst m ctx := by
  intro h
  obtain ⟨layer, hlayer, hget⟩ := h (sampleCdp sampleIpv6 (by decide)) ⟨[], .full, ⟨0, 43, 43, 1⟩⟩ rfl
  have hparse : (cdp.parse (sampleCdp sampleIpv6 (by decide)).bytes ⟨[], .full, ⟨0, 43, 43, 1⟩⟩).toOption.bind
      (fun layer => layer.fields.get "ip_address") = none := by decide
  rw [hlayer] at hparse
  rw [Except.toOption, Option.bind_some, hget] at hparse
  cases hparse

end Pktflow.Plugins

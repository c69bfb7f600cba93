import Pktflow.Core.Looping
import Pktflow.Plugins.ExtHeaders
import Pktflow.Plugins.FiveTuple

/-!
# DHCPv6

Model of `dhcpv6.rs`. A client or server message is a type, a transaction id and options to the last byte; the
options for an association of addresses (IA_NA, IA_TA) hold options of their own. The walk looks into such an option
as long as no address was found, and into an address as long as it is the first: what stands behind is not checked
(`judgesMessage_iff`).
-/

set_option autoImplicit false

namespace Pktflow.Plugins

open Pktflow.Core Pktflow.Core.ByteReader Pktflow.Flows

/-! ## The plugin -/

/-- Code, length and data, as both walks read them. -/
def dhcpv6Option : ByteReader (UInt16 × List UInt8) := do
  let code ← u16Be
  let len ← u16Be
  let data ← take len.toNat
  return (code, data)

/-- An address with its two lifetimes. -/
structure IaAddress where
  addr : List UInt8
  preferred : UInt32
  valid : UInt32

/-- The read of an IA Address suboption. Sixteen bytes fit their array, so the error of `try_into` never occurs. -/
def iaAddressReader : ByteReader IaAddress := do
  let addr ← take 16
  let preferred ← u32Be
  let valid ← u32Be
  return ⟨addr, preferred, valid⟩

/-- A turn of `first_ia_address` behind the suboption's read. -/
def recordSuboption (found : Option IaAddress) (sub : UInt16 × List UInt8) : Except ParseError (Option IaAddress) :=
  if sub.1 = 5 ∧ found.isNone then do
    let a ← iaAddressReader.parse sub.2
    return some a
  else return found

/-- `first_ia_address`. -/
def firstIaAddress (data : List UInt8) : Except ParseError (Option IaAddress) :=
  (whileLeft 1 (checkedItem dhcpv6Option recordSuboption) none).parse data

/-- What `parse` has found in the options. -/
structure Dhcpv6Found where
  clientDuid : Option (List UInt8) := none
  serverDuid : Option (List UInt8) := none
  requestedIp : Option (List UInt8) := none
  preferredLifetime : Option UInt32 := none
  validLifetime : Option UInt32 := none

/-- The address and its lifetimes, as they are found together. -/
def Dhcpv6Found.withAddress (s : Dhcpv6Found) (a : IaAddress) : Dhcpv6Found :=
  { s with requestedIp := some a.addr, preferredLifetime := some a.preferred, validLifetime := some a.valid }

/-- The arms of IA_NA and IA_TA, which have `skip` bytes in front of their suboptions. -/
def recordIa (skip : Nat) (short : ParseError) (s : Dhcpv6Found) (data : List UInt8) :
    Except ParseError Dhcpv6Found := do
  if data.length < skip then throw short
  match ← firstIaAddress (data.drop skip) with
  | some a => return s.withAddress a
  | none => return s

/-- A turn of the options walk behind the option's read. -/
def recordOption (s : Dhcpv6Found) (o : UInt16 × List UInt8) : Except ParseError Dhcpv6Found :=
  if o.1 = 1 ∧ s.clientDuid.isNone then return { s with clientDuid := some o.2 }
  else if o.1 = 2 ∧ s.serverDuid.isNone then return { s with serverDuid := some o.2 }
  else if o.1 = 3 ∧ s.requestedIp.isNone then
    recordIa 12 (.malformed "DHCPv6: IA_NA shorter than IAID+T1+T2 (RFC 8415 §21.4)") s o.2
  else if o.1 = 4 ∧ s.requestedIp.isNone then
    recordIa 4 (.malformed "DHCPv6: IA_TA shorter than IAID (RFC 8415 §21.5)") s o.2
  else return s

/-- The fields at full detail. -/
def Dhcpv6Found.full (s : Dhcpv6Found) : List (FieldName × Value) :=
  (s.clientDuid.map Value.bytes).toList.map (fun v => ("client_duid", v)) ++
    (s.serverDuid.map Value.bytes).toList.map (fun v => ("server_duid", v)) ++
    (s.requestedIp.map Value.bytes).toList.map (fun v => ("requested_ip", v)) ++
    (s.preferredLifetime.map fun n => Value.u64 n.toUInt64).toList.map (fun v => ("preferred_lifetime", v)) ++
    (s.validLifetime.map fun n => Value.u64 n.toUInt64).toList.map (fun v => ("valid_lifetime", v))

/-- `Dhcpv6::parse` on `len` bytes. -/
def parseDhcpv6 (len : Nat) (ctx : ParseCtx) : ByteReader ParsedLayer := do
  let msgType ← u8
  if msgType = 12 ∨ msgType = 13 then
    throw (.malformed "DHCPv6: relay message layout not supported (RFC 8415 §7.2)")
  let xid ← take 3
  let found ← whileLeft 1 (checkedItem dhcpv6Option recordOption) {}
  let fields := insertAt ctx .full found.full
    (insertAt ctx .structural
      [("msg_type", .u64 msgType.toUInt64), ("transaction_id", .u64 (UInt64.ofNat (fromBeBytes xid)))]
      (insertAt ctx .keys [("app", .str "dhcpv6")] FieldMap.new))
  return ⟨len, fields, .terminal⟩

/-- `Dhcpv6`. -/
def dhcpv6 : LayerPlugin where
  name := "dhcpv6"
  parse := fun bytes ctx => (parseDhcpv6 bytes.length ctx).parse bytes
  claims := [.udpPort 547, .udpPort 546]
  streamIdentity := some
    { key := [⟨"app", none⟩], canonicalize := .endpointSort, lifecycle := none, rollups := [⟨"msg_type", .series 64⟩] }

/-! ## Messages -/

/-- An option, or a suboption. -/
structure Dhcpv6Option where
  code : UInt16
  data : List UInt8
  fits : data.length < 65536

namespace Dhcpv6Option

/-- The option as it is sent. -/
def bytes (o : Dhcpv6Option) : List UInt8 := Lib.beBytes 2 o.code.toNat ++ (Lib.beBytes 2 o.data.length ++ o.data)

/-- The bytes an association option has in front of its suboptions: `none` for the other options. -/
def iaSkip (o : Dhcpv6Option) : Option Nat := if o.code = 3 then some 12 else if o.code = 4 then some 4 else none

/-- The option is an IA_NA or IA_TA with these suboptions, and nothing else, behind its fixed bytes. -/
def HoldsSuboptions (o : Dhcpv6Option) (subs : List Dhcpv6Option) : Prop :=
  ∃ fixed, o.iaSkip = some fixed.length ∧ o.data = fixed ++ subs.flatMap bytes

/-- An IA_NA or IA_TA is a sequence of suboptions, and every IA Address among them has its fixed bytes. -/
def WellFormed (o : Dhcpv6Option) : Prop :=
  o.iaSkip.isSome → ∃ subs, o.HoldsSuboptions subs ∧ ∀ s ∈ subs, s.code = 5 → 24 ≤ s.data.length

/-- An IA_NA or IA_TA is a sequence of suboptions without an IA Address. -/
def Bare (o : Dhcpv6Option) : Prop :=
  o.iaSkip.isSome → ∃ subs, o.HoldsSuboptions subs ∧ ∀ s ∈ subs, s.code ≠ 5

/-- A suboption with this address and these lifetimes. -/
def HoldsAddress (s : Dhcpv6Option) (a : IaAddress) : Prop :=
  s.code = 5 ∧ a.addr.length = 16 ∧ ∃ more,
    s.data = a.addr ++ (Lib.beBytes 4 a.preferred.toNat ++ (Lib.beBytes 4 a.valid.toNat ++ more))

/-- An IA_NA or IA_TA is a sequence of suboptions whose first IA Address is this one. -/
def ShowsAddress (o : Dhcpv6Option) (a : IaAddress) : Prop :=
  ∃ front s back, o.HoldsSuboptions (front ++ s :: back) ∧ (∀ t ∈ front, t.code ≠ 5) ∧ s.HoldsAddress a

end Dhcpv6Option

/-- The first IA Address of a message's options, in the order of the message. -/
inductive FirstAddress (opts : List Dhcpv6Option) : Option IaAddress → Prop where
  | shown {front back : List Dhcpv6Option} {o : Dhcpv6Option} {a : IaAddress} (hopts : opts = front ++ o :: back)
      (hfront : ∀ p ∈ front, p.Bare) (ho : o.ShowsAddress a) : FirstAddress opts (some a)
  | none (hbare : ∀ p ∈ opts, p.Bare) : FirstAddress opts none

/-- The bytes are the head of a client or server message and these options. -/
def IsMessage (bytes head : List UInt8) (opts : List Dhcpv6Option) : Prop :=
  ∃ msgType xid, head = msgType :: xid ∧ msgType ≠ 12 ∧ msgType ≠ 13 ∧ xid.length = 3 ∧
    bytes = head ++ opts.flatMap Dhcpv6Option.bytes

/-- The plugin takes the bytes for a message. -/
def Accepts (bytes : List UInt8) : Prop := ∃ ctx layer, dhcpv6.parse bytes ctx = .ok layer

/-- The fields tell this address, or that there is none. -/
structure TellsAddress (fields : FieldMap) (a : Option IaAddress) : Prop where
  requestedIp : fields.get "requested_ip" = a.map fun a => .bytes a.addr
  preferredLifetime : fields.get "preferred_lifetime" = a.map fun a => .u64 a.preferred.toUInt64
  validLifetime : fields.get "valid_lifetime" = a.map fun a => .u64 a.valid.toUInt64

/-- The bytes are taken in every context if they are a message whose options are well-formed, and in none otherwise;
a reordering of the options changes nothing of that; and the first address is told. -/
structure JudgesMessage (bytes : List UInt8) : Prop where
  accepts : ∀ ctx, (∃ layer, dhcpv6.parse bytes ctx = .ok layer) ↔
    ∃ head opts, IsMessage bytes head opts ∧ ∀ o ∈ opts, o.WellFormed
  reordered : ∀ head opts opts', IsMessage bytes head opts → opts.Perm opts' →
    (Accepts bytes ↔ Accepts (head ++ opts'.flatMap Dhcpv6Option.bytes))
  first : ∀ ctx layer, dhcpv6.parse bytes ctx = .ok layer → atDepth ctx .full = true →
    ∃ head opts a, IsMessage bytes head opts ∧ FirstAddress opts a ∧ TellsAddress layer.fields a

/-- Some association shows an address, and some association (that one, or another) is malformed. -/
def Shadowing (opts : List Dhcpv6Option) : Prop :=
  (∃ o ∈ opts, ∃ a, o.ShowsAddress a) ∧ ∃ o ∈ opts, ¬o.WellFormed

section Messages

variable {buf rest : List UInt8}

/-! ### The reads -/

theorem reads_dhcpv6Option (o : Dhcpv6Option) : Reads dhcpv6Option o.bytes (o.code, o.data) := by
  have hlen : (UInt16.ofNat o.data.length).toNat = o.data.length := UInt16.toNat_ofNat_of_lt' o.fits
  refine (reads_u16Be_toNat o.code).bind ((reads_u16Be _).bind ?_)
  rw [hlen]
  exact reads_map (reads_take o.data) _

theorem dhcpv6Option_eq_ok {x : UInt16 × List UInt8} (h : dhcpv6Option buf = .ok (x, rest)) :
    ∃ o : Dhcpv6Option, buf = o.bytes ++ rest ∧ (o.code, o.data) = x := by
  obtain ⟨code, buf₁, hcode, hread⟩ := bind_eq_ok.1 h
  obtain ⟨len, buf₂, hlen, hread⟩ := bind_eq_ok.1 hread
  obtain ⟨data, buf₃, hdata, hpure⟩ := bind_eq_ok.1 hread
  obtain ⟨cs, rfl, hcs, rfl⟩ := u16Be_eq_ok.1 hcode
  obtain ⟨ls, rfl, hls, rfl⟩ := u16Be_eq_ok.1 hlen
  obtain ⟨rfl, hlength⟩ := take_eq_ok.1 hdata
  obtain ⟨rfl, rfl⟩ := pure_eq_ok.1 hpure
  refine ⟨⟨UInt16.ofNat (fromBeBytes cs), data, hlength ▸ UInt16.toNat_lt _⟩, ?_, rfl⟩
  rw [Dhcpv6Option.bytes]
  dsimp only
  rw [beBytes_word hcs, hlength, beBytes_word hls]
  simp

theorem progresses_dhcpv6Option : EntryProgresses dhcpv6Option := by
  intro buf x rest h
  obtain ⟨o, rfl, -⟩ := dhcpv6Option_eq_ok h
  have hpos : 0 < o.bytes.length := by
    rw [Dhcpv6Option.bytes, List.length_append, Lib.length_beBytes]
    omega
  rw [List.length_append]
  exact Nat.lt_add_of_pos_left hpos

theorem iaAddressReader_eq_ok {a : IaAddress} : iaAddressReader buf = .ok (a, rest) ↔ a.addr.length = 16 ∧
    buf = a.addr ++ (Lib.beBytes 4 a.preferred.toNat ++ (Lib.beBytes 4 a.valid.toNat ++ rest)) := by
  constructor
  · intro h
    obtain ⟨addr, buf₁, haddr, hread⟩ := bind_eq_ok.1 h
    obtain ⟨preferred, buf₂, hpreferred, hread⟩ := bind_eq_ok.1 hread
    obtain ⟨valid, buf₃, hvalid, hpure⟩ := bind_eq_ok.1 hread
    obtain ⟨rfl, hlength⟩ := take_eq_ok.1 haddr
    obtain ⟨ps, rfl, hps, rfl⟩ := u32Be_eq_ok.1 hpreferred
    obtain ⟨vs, rfl, hvs, rfl⟩ := u32Be_eq_ok.1 hvalid
    obtain ⟨rfl, rfl⟩ := pure_eq_ok.1 hpure
    refine ⟨hlength, ?_⟩
    dsimp only
    rw [beBytes_doubleWord hps, beBytes_doubleWord hvs]
  · rintro ⟨hlength, rfl⟩
    rw [iaAddressReader, bind_of_ok (take_eq_ok.2 ⟨rfl, hlength⟩), bind_of_ok (reads_u32Be_toNat _ _),
      bind_of_ok (reads_u32Be_toNat _ _)]
    rfl

/-! ### The suboptions -/

theorem recordSuboption_eq_ok {s : Dhcpv6Option} {r : Option IaAddress} :
    recordSuboption none (s.code, s.data) = .ok r ↔
      s.code ≠ 5 ∧ r = none ∨ ∃ a, s.HoldsAddress a ∧ r = some a := by
  rw [recordSuboption]
  by_cases hcode : s.code = 5
  · rw [if_pos ⟨hcode, rfl⟩]
    have hread : (do let a ← iaAddressReader.parse s.data; return some a) = .ok r ↔
        ∃ a, iaAddressReader.parse s.data = .ok a ∧ some a = r := by
      cases iaAddressReader.parse s.data with
      | error e => exact ⟨nofun, nofun⟩
      | ok a => exact ⟨fun h => ⟨a, rfl, Except.ok.inj h⟩, fun ⟨b, hb, hr⟩ => by rw [← hr, ← Except.ok.inj hb]; rfl⟩
    apply hread.trans
    constructor
    · rintro ⟨a, ha, rfl⟩
      obtain ⟨more, hread⟩ := parse_eq_ok.1 ha
      obtain ⟨hlength, hdata⟩ := iaAddressReader_eq_ok.1 hread
      exact .inr ⟨a, ⟨hcode, hlength, more, hdata⟩, rfl⟩
    · rintro (⟨hne, -⟩ | ⟨a, ⟨-, hlength, more, hdata⟩, rfl⟩)
      · exact absurd hcode hne
      · exact ⟨a, parse_eq_ok.2 ⟨more, iaAddressReader_eq_ok.2 ⟨hlength, hdata⟩⟩, rfl⟩
  · rw [if_neg fun h => hcode h.1]
    constructor
    · intro h
      exact .inl ⟨hcode, (Except.ok.inj h).symm⟩
    · rintro (⟨-, rfl⟩ | ⟨a, ha, -⟩)
      · rfl
      · exact absurd ha.1 hcode

/-- Behind the first address no suboption is looked into. -/
theorem foldlM_recordSuboption_some (subs : List Dhcpv6Option) (a : IaAddress) :
    subs.foldlM (fun found s => recordSuboption found (s.code, s.data)) (some a) = .ok (some a) := by
  induction subs with
  | nil => rfl
  | cons s subs ih =>
      have hstep : recordSuboption (some a) (s.code, s.data) = .ok (some a) := if_neg (by simp)
      rw [List.foldlM_cons, hstep]
      exact ih

theorem foldlM_recordSuboption_eq_ok {subs : List Dhcpv6Option} {r : Option IaAddress} :
    subs.foldlM (fun found s => recordSuboption found (s.code, s.data)) none = .ok r ↔
      (∀ s ∈ subs, s.code ≠ 5) ∧ r = none ∨
        ∃ front s back a, subs = front ++ s :: back ∧ (∀ t ∈ front, t.code ≠ 5) ∧ s.HoldsAddress a ∧ r = some a := by
  induction subs with
  | nil =>
      constructor
      · intro h
        exact .inl ⟨by simp, (Except.ok.inj h).symm⟩
      · rintro (⟨-, rfl⟩ | ⟨front, s, back, a, h, -⟩)
        · rfl
        · simp at h
  | cons s subs ih =>
      rw [List.foldlM_cons]
      constructor
      · intro h
        cases hstep : recordSuboption none (s.code, s.data) with
        | error e =>
            rw [hstep] at h
            cases h
        | ok found =>
            rw [hstep] at h
            rcases recordSuboption_eq_ok.1 hstep with ⟨hcode, rfl⟩ | ⟨a, ha, rfl⟩
            · rcases ih.1 h with ⟨hnone, rfl⟩ | ⟨front, t, back, a, rfl, hfront, ht, rfl⟩
              · exact .inl ⟨List.forall_mem_cons.2 ⟨hcode, hnone⟩, rfl⟩
              · exact .inr ⟨s :: front, t, back, a, rfl, List.forall_mem_cons.2 ⟨hcode, hfront⟩, ht, rfl⟩
            · have hsome : (.ok (some a) : Except ParseError _) = .ok r :=
                (foldlM_recordSuboption_some subs a).symm.trans h
              exact .inr ⟨[], s, subs, a, rfl, by simp, ha, (Except.ok.inj hsome).symm⟩
      · rintro (⟨hnone, rfl⟩ | ⟨front, t, back, a, hsubs, hfront, ht, rfl⟩)
        · obtain ⟨hcode, hnone⟩ := List.forall_mem_cons.1 hnone
          rw [recordSuboption_eq_ok.2 (.inl ⟨hcode, rfl⟩)]
          exact ih.2 (.inl ⟨hnone, rfl⟩)
        · cases front with
          | nil =>
              obtain ⟨rfl, rfl⟩ := List.cons.inj hsubs
              rw [recordSuboption_eq_ok.2 (.inr ⟨a, ht, rfl⟩)]
              exact foldlM_recordSuboption_some subs a
          | cons u front =>
              obtain ⟨rfl, rfl⟩ := List.cons.inj hsubs
              obtain ⟨hcode, hfront⟩ := List.forall_mem_cons.1 hfront
              rw [recordSuboption_eq_ok.2 (.inl ⟨hcode, rfl⟩)]
              exact ih.2 (.inr ⟨front, t, back, a, rfl, hfront, ht, rfl⟩)

theorem firstIaAddress_eq_ok {data : List UInt8} {r : Option IaAddress} : firstIaAddress data = .ok r ↔
    ∃ subs : List Dhcpv6Option, data = subs.flatMap Dhcpv6Option.bytes ∧
      subs.foldlM (fun found s => recordSuboption found (s.code, s.data)) none = .ok r := by
  rw [firstIaAddress, parse_eq_ok]
  constructor
  · rintro ⟨rest, h⟩
    exact ((whileLeft_checkedItem_eq_ok progresses_dhcpv6Option reads_dhcpv6Option
      fun _ _ _ => dhcpv6Option_eq_ok).1 h).2
  · intro h
    exact ⟨[], (whileLeft_checkedItem_eq_ok progresses_dhcpv6Option reads_dhcpv6Option
      fun _ _ _ => dhcpv6Option_eq_ok).2 ⟨rfl, h⟩⟩

/-! ### The options -/

/-- What was found tells this address. -/
def Dhcpv6Found.Tells (s : Dhcpv6Found) (a : Option IaAddress) : Prop :=
  s.requestedIp = a.map IaAddress.addr ∧ s.preferredLifetime = a.map IaAddress.preferred ∧
    s.validLifetime = a.map IaAddress.valid

theorem tells_withAddress (s : Dhcpv6Found) (a : IaAddress) : (s.withAddress a).Tells (some a) := ⟨rfl, rfl, rfl⟩

/-- An association option is split into its fixed bytes and the suboptions. -/
theorem holdsSuboptions_iff {o : Dhcpv6Option} {skip : Nat} (hskip : o.iaSkip = some skip) {subs : List Dhcpv6Option} :
    o.HoldsSuboptions subs ↔ skip ≤ o.data.length ∧ o.data.drop skip = subs.flatMap Dhcpv6Option.bytes := by
  constructor
  · rintro ⟨fixed, hfixed, hdata⟩
    obtain rfl := Option.some.inj (hskip.symm.trans hfixed)
    rw [hdata]
    exact ⟨by simp, List.drop_left⟩
  · rintro ⟨hle, hdata⟩
    refine ⟨o.data.take skip, ?_, ?_⟩
    · rw [List.length_take_of_le hle, hskip]
    · rw [← hdata, List.take_append_drop]

theorem recordIa_eq_ok {o : Dhcpv6Option} {skip : Nat} (hskip : o.iaSkip = some skip) {short : ParseError}
    {s s' : Dhcpv6Found} : recordIa skip short s o.data = .ok s' ↔
      o.Bare ∧ s' = s ∨ ∃ a, o.ShowsAddress a ∧ s' = s.withAddress a := by
  have hbare : o.Bare ↔ ∃ subs, o.HoldsSuboptions subs ∧ ∀ s ∈ subs, s.code ≠ 5 := by
    rw [Dhcpv6Option.Bare, hskip]
    exact ⟨fun h => h rfl, fun h _ => h⟩
  rw [recordIa, hbare]
  by_cases hlt : o.data.length < skip
  · rw [if_pos hlt]
    constructor
    · intro h
      cases h
    · have hno : ∀ subs, ¬o.HoldsSuboptions subs := fun subs h => Nat.not_le.2 hlt ((holdsSuboptions_iff hskip).1 h).1
      rintro (⟨⟨subs, hsubs, -⟩, -⟩ | ⟨a, ⟨front, t, back, hsubs, -⟩, -⟩)
      · exact absurd hsubs (hno _)
      · exact absurd hsubs (hno _)
  · rw [if_neg hlt]
    have hholds : ∀ subs, o.HoldsSuboptions subs ↔ o.data.drop skip = subs.flatMap Dhcpv6Option.bytes :=
      fun subs => (holdsSuboptions_iff hskip).trans (and_iff_right (Nat.not_lt.1 hlt))
    constructor
    · intro h
      cases hfirst : firstIaAddress (o.data.drop skip) with
      | error e =>
          rw [hfirst] at h
          cases h
      | ok r =>
          rw [hfirst] at h
          obtain ⟨subs, hdata, hfold⟩ := firstIaAddress_eq_ok.1 hfirst
          rcases foldlM_recordSuboption_eq_ok.1 hfold with ⟨hnone, rfl⟩ | ⟨front, t, back, a, rfl, hfront, ht, rfl⟩
          · exact .inl ⟨⟨subs, (hholds subs).2 hdata, hnone⟩, (Except.ok.inj h).symm⟩
          · exact .inr ⟨a, ⟨front, t, back, (hholds _).2 hdata, hfront, ht⟩, (Except.ok.inj h).symm⟩
    · rintro (⟨⟨subs, hsubs, hnone⟩, rfl⟩ | ⟨a, ⟨front, t, back, hsubs, hfront, ht⟩, rfl⟩)
      · rw [firstIaAddress_eq_ok.2 ⟨subs, (hholds subs).1 hsubs, foldlM_recordSuboption_eq_ok.2 (.inl ⟨hnone, rfl⟩)⟩]
        rfl
      · rw [firstIaAddress_eq_ok.2 ⟨_, (hholds _).1 hsubs,
          foldlM_recordSuboption_eq_ok.2 (.inr ⟨front, t, back, a, rfl, hfront, ht, rfl⟩)⟩]
        rfl

/-- An option that is no association leaves the address as it is. -/
theorem recordOption_of_other {o : Dhcpv6Option} (hskip : o.iaSkip = none) (s : Dhcpv6Found) :
    ∃ s', recordOption s (o.code, o.data) = .ok s' ∧ ∀ a, s.Tells a → s'.Tells a := by
  have hthree : ¬(o.code = 3 ∧ s.requestedIp.isNone) := by
    rintro ⟨h, -⟩
    rw [Dhcpv6Option.iaSkip, if_pos h] at hskip
    cases hskip
  have hfour : ¬(o.code = 4 ∧ s.requestedIp.isNone) := by
    rintro ⟨h, -⟩
    rw [Dhcpv6Option.iaSkip, if_neg (by rw [h]; decide), if_pos h] at hskip
    cases hskip
  rw [recordOption]
  dsimp only
  rw [if_neg hthree, if_neg hfour]
  split
  · exact ⟨_, rfl, fun _ h => h⟩
  · split
    · exact ⟨_, rfl, fun _ h => h⟩
    · exact ⟨s, rfl, fun _ h => h⟩

/-- An association option, while no address was found. -/
theorem recordOption_of_ia {o : Dhcpv6Option} {skip : Nat} (hskip : o.iaSkip = some skip) {s : Dhcpv6Found}
    (hs : s.requestedIp = none) : ∃ short, recordOption s (o.code, o.data) = recordIa skip short s o.data := by
  rw [Dhcpv6Option.iaSkip] at hskip
  rw [recordOption]
  dsimp only
  split at hskip
  · rename_i hthree
    obtain rfl := Option.some.inj hskip
    rw [if_neg (by rw [hthree]; simp), if_neg (by rw [hthree]; simp), if_pos ⟨hthree, by rw [hs]; rfl⟩]
    exact ⟨_, rfl⟩
  · split at hskip
    · rename_i hfour
      obtain rfl := Option.some.inj hskip
      rw [if_neg (by rw [hfour]; simp), if_neg (by rw [hfour]; simp), if_neg (by rw [hfour]; simp),
        if_pos ⟨hfour, by rw [hs]; rfl⟩]
      exact ⟨_, rfl⟩
    · cases hskip

/-- Once an address was found, no association option is looked into. -/
theorem recordOption_of_tells {o : Dhcpv6Option} {s : Dhcpv6Found} {a : IaAddress} (hs : s.Tells (some a)) :
    ∃ s', recordOption s (o.code, o.data) = .ok s' ∧ s'.Tells (some a) := by
  have hsome : ∀ c, ¬(o.code = c ∧ s.requestedIp.isNone = true) := by
    rintro c ⟨-, h⟩
    rw [hs.1] at h
    cases h
  rw [recordOption]
  dsimp only
  rw [if_neg (hsome 3), if_neg (hsome 4)]
  split
  · exact ⟨_, rfl, hs⟩
  · split
    · exact ⟨_, rfl, hs⟩
    · exact ⟨s, rfl, hs⟩

theorem recordOption_of_tells_none {o : Dhcpv6Option} {s s' : Dhcpv6Found} (hs : s.Tells none)
    (h : recordOption s (o.code, o.data) = .ok s') :
    o.Bare ∧ s'.Tells none ∨ ∃ a, o.ShowsAddress a ∧ s'.Tells (some a) := by
  cases hskip : o.iaSkip with
  | none =>
      obtain ⟨t, ht, htells⟩ := recordOption_of_other hskip s
      obtain rfl := Except.ok.inj (h.symm.trans ht)
      refine .inl ⟨?_, htells none hs⟩
      intro hia
      rw [hskip] at hia
      cases hia
  | some skip =>
      obtain ⟨short, heq⟩ := recordOption_of_ia hskip hs.1
      rcases (recordIa_eq_ok hskip).1 (heq.symm.trans h) with ⟨hbare, rfl⟩ | ⟨a, ha, rfl⟩
      · exact .inl ⟨hbare, hs⟩
      · exact .inr ⟨a, ha, tells_withAddress s a⟩

theorem recordOption_of_bare {o : Dhcpv6Option} {s : Dhcpv6Found} (hs : s.Tells none) (ho : o.Bare) :
    ∃ s', recordOption s (o.code, o.data) = .ok s' ∧ s'.Tells none := by
  cases hskip : o.iaSkip with
  | none =>
      obtain ⟨t, ht, htells⟩ := recordOption_of_other hskip s
      exact ⟨t, ht, htells none hs⟩
  | some skip =>
      obtain ⟨short, heq⟩ := recordOption_of_ia hskip hs.1
      exact ⟨s, heq.trans ((recordIa_eq_ok hskip).2 (.inl ⟨ho, rfl⟩)), hs⟩

theorem recordOption_of_shows {o : Dhcpv6Option} {s : Dhcpv6Found} {a : IaAddress} (hs : s.Tells none)
    (ho : o.ShowsAddress a) : ∃ s', recordOption s (o.code, o.data) = .ok s' ∧ s'.Tells (some a) := by
  have hia : ∃ skip, o.iaSkip = some skip := by
    obtain ⟨-, -, -, ⟨fixed, hskip, -⟩, -⟩ := ho
    exact ⟨fixed.length, hskip⟩
  obtain ⟨skip, hskip⟩ := hia
  obtain ⟨short, heq⟩ := recordOption_of_ia hskip hs.1
  exact ⟨_, heq.trans ((recordIa_eq_ok hskip).2 (.inr ⟨a, ho, rfl⟩)), tells_withAddress s a⟩

/-- The options walk, from a state with this address. -/
def recordOptions (opts : List Dhcpv6Option) (s : Dhcpv6Found) : Except ParseError Dhcpv6Found :=
  opts.foldlM (fun s o => recordOption s (o.code, o.data)) s

theorem recordOptions_cons {o : Dhcpv6Option} {opts : List Dhcpv6Option} {s t : Dhcpv6Found}
    (h : recordOption s (o.code, o.data) = .ok t) : recordOptions (o :: opts) s = recordOptions opts t := by
  rw [recordOptions, List.foldlM_cons, h]
  rfl

theorem recordOptions_of_tells (opts : List Dhcpv6Option) {s : Dhcpv6Found} {a : IaAddress} (hs : s.Tells (some a)) :
    ∃ s', recordOptions opts s = .ok s' ∧ s'.Tells (some a) := by
  induction opts generalizing s with
  | nil => exact ⟨s, rfl, hs⟩
  | cons o opts ih =>
      obtain ⟨t, ht, htells⟩ := recordOption_of_tells (o := o) hs
      rw [recordOptions_cons ht]
      exact ih htells

theorem firstAddress_cons {o : Dhcpv6Option} {opts : List Dhcpv6Option} {a : Option IaAddress} (ho : o.Bare)
    (h : FirstAddress opts a) : FirstAddress (o :: opts) a := by
  cases h with
  | shown hopts hfront hp => exact .shown (by rw [hopts]; rfl) (List.forall_mem_cons.2 ⟨ho, hfront⟩) hp
  | none hbare => exact .none (List.forall_mem_cons.2 ⟨ho, hbare⟩)

/-- A walk that succeeds has found the first address. -/
theorem recordOptions_firstAddress {opts : List Dhcpv6Option} {s s' : Dhcpv6Found} (hs : s.Tells none)
    (h : recordOptions opts s = .ok s') : ∃ a, FirstAddress opts a ∧ s'.Tells a := by
  induction opts generalizing s with
  | nil =>
      obtain rfl := Except.ok.inj h
      exact ⟨none, .none (by simp), hs⟩
  | cons o opts ih =>
      cases hstep : recordOption s (o.code, o.data) with
      | error e =>
          rw [recordOptions, List.foldlM_cons, hstep] at h
          cases h
      | ok t =>
          rw [recordOptions_cons hstep] at h
          rcases recordOption_of_tells_none hs hstep with ⟨hbare, ht⟩ | ⟨a, ha, ht⟩
          · obtain ⟨a, hfirst, htells⟩ := ih ht h
            exact ⟨a, firstAddress_cons hbare hfirst, htells⟩
          · obtain ⟨t', ht', htells⟩ := recordOptions_of_tells opts ht
            obtain rfl := Except.ok.inj (h.symm.trans ht')
            exact ⟨some a, .shown (List.nil_append _).symm (by simp) ha, htells⟩

/-- Where there is a first address, or none, the walk succeeds. -/
theorem recordOptions_of_firstAddress {opts : List Dhcpv6Option} {s : Dhcpv6Found} {a : Option IaAddress}
    (hs : s.Tells none) (h : FirstAddress opts a) : ∃ s', recordOptions opts s = .ok s' := by
  induction opts generalizing s with
  | nil => exact ⟨s, rfl⟩
  | cons o opts ih =>
      cases h with
      | none hbare =>
          obtain ⟨ho, hbare⟩ := List.forall_mem_cons.1 hbare
          obtain ⟨t, ht, htells⟩ := recordOption_of_bare hs ho
          rw [recordOptions_cons ht]
          exact ih htells (.none hbare)
      | @shown front back p a hopts hfront hp =>
          cases front with
          | nil =>
              obtain ⟨rfl, rfl⟩ := List.cons.inj hopts
              obtain ⟨t, ht, htells⟩ := recordOption_of_shows hs hp
              obtain ⟨s', hs', -⟩ := recordOptions_of_tells opts htells
              exact ⟨s', (recordOptions_cons ht).trans hs'⟩
          | cons q front =>
              obtain ⟨rfl, rfl⟩ := List.cons.inj hopts
              obtain ⟨hbare, hfront⟩ := List.forall_mem_cons.1 hfront
              obtain ⟨t, ht, htells⟩ := recordOption_of_bare hs hbare
              rw [recordOptions_cons ht]
              exact ih htells (.shown rfl hfront hp)

/-! ### The message -/

/-- The fields at full detail tell the address that was found. -/
theorem tellsAddress_full {ctx : ParseCtx} (hctx : atDepth ctx .full = true) {s : Dhcpv6Found} {a : Option IaAddress}
    (hs : s.Tells a) {base : FieldMap}
    (hbase : ∀ name ∈ ["requested_ip", "preferred_lifetime", "valid_lifetime"], base.get name = none) :
    TellsAddress (insertAt ctx .full s.full base) a := by
  obtain ⟨hip, hpreferred, hvalid⟩ := hs
  constructor
  · rw [Dhcpv6Found.full, List.append_assoc]
    apply (get_insertAt_field hctx _ (by simp) (by simp) (hbase _ (by simp))).trans
    rw [hip, Option.map_map]
    rfl
  · rw [Dhcpv6Found.full]
    apply (get_insertAt_field hctx _ (by simp) (by simp) (hbase _ (by simp))).trans
    rw [hpreferred, Option.map_map]
    rfl
  · rw [Dhcpv6Found.full, ← List.append_nil (_ ++ _)]
    apply (get_insertAt_field hctx _ (by simp) (by simp) (hbase _ (by simp))).trans
    rw [hvalid, Option.map_map]
    rfl

theorem parse_dhcpv6_eq_ok {bytes : List UInt8} {ctx : ParseCtx} {layer : ParsedLayer}
    (h : dhcpv6.parse bytes ctx = .ok layer) :
    ∃ head opts a, IsMessage bytes head opts ∧ FirstAddress opts a ∧
      (atDepth ctx .full = true → TellsAddress layer.fields a) := by
  obtain ⟨rest, hread⟩ := parse_eq_ok.1 h
  obtain ⟨msgType, buf₁, htype, hread⟩ := bind_eq_ok.1 hread
  split at hread
  · cases hread
  · rename_i hrelay
    rw [not_or] at hrelay
    obtain ⟨xid, buf₂, hxid, hread⟩ := bind_eq_ok.1 hread
    obtain ⟨found, buf₃, hwalk, hpure⟩ := bind_eq_ok.1 hread
    obtain rfl := u8_eq_ok.1 htype
    obtain ⟨rfl, hlength⟩ := take_eq_ok.1 hxid
    obtain ⟨rfl, rfl⟩ := pure_eq_ok.1 hpure
    obtain ⟨-, opts, rfl, hfold⟩ := (whileLeft_checkedItem_eq_ok progresses_dhcpv6Option reads_dhcpv6Option
      fun _ _ _ => dhcpv6Option_eq_ok).1 hwalk
    obtain ⟨a, hfirst, htells⟩ := recordOptions_firstAddress (s := {}) ⟨rfl, rfl, rfl⟩ hfold
    refine ⟨msgType :: xid, opts, a, ⟨msgType, xid, rfl, hrelay.1, hrelay.2, hlength, rfl⟩, hfirst, ?_⟩
    intro hctx
    apply tellsAddress_full hctx htells
    intro name hname
    simp only [List.mem_cons, List.not_mem_nil, or_false] at hname
    rw [get_insertAt (by rcases hname with rfl | rfl | rfl <;> simp),
      get_insertAt (by rcases hname with rfl | rfl | rfl <;> simp)]
    rfl

theorem parse_dhcpv6_of_firstAddress {bytes head : List UInt8} {opts : List Dhcpv6Option} {a : Option IaAddress}
    (hmsg : IsMessage bytes head opts) (hfirst : FirstAddress opts a) (ctx : ParseCtx) :
    ∃ layer, dhcpv6.parse bytes ctx = .ok layer := by
  obtain ⟨msgType, xid, rfl, hforw, hrepl, hlength, rfl⟩ := hmsg
  obtain ⟨found, hfound⟩ := recordOptions_of_firstAddress (s := {}) ⟨rfl, rfl, rfl⟩ hfirst
  have hwalk : whileLeft 1 (checkedItem dhcpv6Option recordOption) {} (opts.flatMap Dhcpv6Option.bytes) =
      .ok (found, []) :=
    (whileLeft_checkedItem_eq_ok progresses_dhcpv6Option reads_dhcpv6Option fun _ _ _ => dhcpv6Option_eq_ok).2
      ⟨rfl, opts, rfl, hfound⟩
  have hrelay : ¬(msgType = 12 ∨ msgType = 13) := not_or.2 ⟨hforw, hrepl⟩
  have hread : ∀ len, ∃ layer, parseDhcpv6 len ctx (msgType :: xid ++ opts.flatMap Dhcpv6Option.bytes) =
      .ok (layer, []) := by
    intro len
    rw [parseDhcpv6, List.cons_append, bind_of_ok (u8_cons ..), if_neg hrelay]
    beta_reduce
    rw [bind_of_ok (take_eq_ok.2 ⟨rfl, hlength⟩), bind_of_ok hwalk]
    exact ⟨_, rfl⟩
  obtain ⟨layer, hlayer⟩ := hread _
  exact ⟨layer, parse_eq_ok.2 ⟨[], hlayer⟩⟩

theorem exists_layer_iff {bytes : List UInt8} {ctx : ParseCtx} : (∃ layer, dhcpv6.parse bytes ctx = .ok layer) ↔
    ∃ head opts a, IsMessage bytes head opts ∧ FirstAddress opts a := by
  constructor
  · rintro ⟨layer, h⟩
    obtain ⟨head, opts, a, hmsg, hfirst, -⟩ := parse_dhcpv6_eq_ok h
    exact ⟨head, opts, a, hmsg, hfirst⟩
  · rintro ⟨head, opts, a, hmsg, hfirst⟩
    exact parse_dhcpv6_of_firstAddress hmsg hfirst ctx

/-- A message has its head and its options in one way. -/
theorem IsMessage.unique {bytes head head' : List UInt8} {opts opts' : List Dhcpv6Option}
    (h : IsMessage bytes head opts) (h' : IsMessage bytes head' opts') : head = head' ∧ opts = opts' := by
  obtain ⟨msgType, xid, rfl, -, -, hlength, rfl⟩ := h
  obtain ⟨msgType', xid', rfl, -, -, hlength', hbytes⟩ := h'
  obtain ⟨hhead, hopts⟩ := List.append_inj hbytes (by rw [List.length_cons, List.length_cons, hlength, hlength'])
  refine ⟨hhead, flatMap_inj_of_reads progresses_dhcpv6Option reads_dhcpv6Option ?_ hopts⟩
  intro o o' heq
  obtain ⟨hcode, hdata⟩ := Prod.mk.inj heq
  cases o
  cases o'
  dsimp only at hcode hdata
  subst hcode hdata
  rfl

/-! ### What is accepted -/

theorem fixed_iaAddressReader : Fixed 24 iaAddressReader :=
  (fixed_take 16).bind (m := 8) fun _ => fixed_u32Be.bind (m := 4) fun _ => fixed_u32Be.map _

theorem holdsAddress_of_le {s : Dhcpv6Option} (hcode : s.code = 5) (h : 24 ≤ s.data.length) :
    ∃ a, s.HoldsAddress a := by
  obtain ⟨a, ha⟩ := fixed_iaAddressReader (s.data.take 24) (List.length_take_of_le h)
  have hread := ha (s.data.drop 24)
  rw [List.take_append_drop] at hread
  obtain ⟨hlength, hdata⟩ := iaAddressReader_eq_ok.1 hread
  exact ⟨a, hcode, hlength, _, hdata⟩

theorem Dhcpv6Option.Bare.wellFormed {o : Dhcpv6Option} (h : o.Bare) : o.WellFormed := by
  intro hia
  obtain ⟨subs, hsubs, hnone⟩ := h hia
  exact ⟨subs, hsubs, fun s hs hcode => absurd hcode (hnone s hs)⟩

theorem Dhcpv6Option.WellFormed.bare_or_shows {o : Dhcpv6Option} (h : o.WellFormed) :
    o.Bare ∨ ∃ a, o.ShowsAddress a := by
  by_cases hia : o.iaSkip.isSome
  · obtain ⟨subs, hsubs, hlong⟩ := h hia
    cases hfind : subs.find? fun s => s.code = 5 with
    | none => exact .inl fun _ => ⟨subs, hsubs, by simpa using hfind⟩
    | some s =>
        obtain ⟨hcode, front, back, rfl, hfront⟩ := List.find?_eq_some_iff_append.1 hfind
        have hcode : s.code = 5 := by simpa using hcode
        obtain ⟨a, ha⟩ := holdsAddress_of_le hcode (hlong s (by simp) hcode)
        exact .inr ⟨a, front, s, back, hsubs, by simpa using hfront, ha⟩
  · exact .inl fun h => absurd h hia

theorem exists_firstAddress {opts : List Dhcpv6Option} (h : ∀ o ∈ opts, o.WellFormed) :
    ∃ a, FirstAddress opts a := by
  induction opts with
  | nil => exact ⟨none, .none (by simp)⟩
  | cons o opts ih =>
      obtain ⟨ho, hopts⟩ := List.forall_mem_cons.1 h
      rcases ho.bare_or_shows with hbare | ⟨a, ha⟩
      · obtain ⟨a, hfirst⟩ := ih hopts
        exact ⟨a, firstAddress_cons hbare hfirst⟩
      · exact ⟨some a, .shown (List.nil_append _).symm (by simp) ha⟩

/-- Where nothing is shadowed, a walk that succeeds has looked into every association. -/
theorem wellFormed_of_firstAddress {opts : List Dhcpv6Option} (hno : ¬Shadowing opts) {a : Option IaAddress}
    (h : FirstAddress opts a) : ∀ o ∈ opts, o.WellFormed := by
  cases h with
  | none hbare => exact fun o ho => (hbare o ho).wellFormed
  | @shown front back o a hopts hfront ho =>
      intro p hp
      by_contra hbad
      exact hno ⟨⟨o, by rw [hopts]; simp, a, ho⟩, p, hp, hbad⟩

theorem accepts_iff_wellFormed {bytes head : List UInt8} {opts : List Dhcpv6Option} (hmsg : IsMessage bytes head opts)
    (hno : ¬Shadowing opts) (ctx : ParseCtx) :
    (∃ layer, dhcpv6.parse bytes ctx = .ok layer) ↔ ∀ o ∈ opts, o.WellFormed := by
  rw [exists_layer_iff]
  constructor
  · rintro ⟨head', opts', a, hmsg', hfirst⟩
    obtain ⟨-, rfl⟩ := hmsg.unique hmsg'
    exact wellFormed_of_firstAddress hno hfirst
  · intro hwell
    obtain ⟨a, hfirst⟩ := exists_firstAddress hwell
    exact ⟨head, opts, a, hmsg, hfirst⟩

theorem IsMessage.reorder {bytes head : List UInt8} {opts opts' : List Dhcpv6Option} (h : IsMessage bytes head opts) :
    IsMessage (head ++ opts'.flatMap Dhcpv6Option.bytes) head opts' := by
  obtain ⟨msgType, xid, rfl, hforw, hrepl, hlength, -⟩ := h
  exact ⟨msgType, xid, rfl, hforw, hrepl, hlength, rfl⟩

theorem Shadowing.perm {opts opts' : List Dhcpv6Option} (hperm : opts.Perm opts') (h : Shadowing opts) :
    Shadowing opts' := by
  obtain ⟨⟨o, ho, hshow⟩, p, hp, hbad⟩ := h
  exact ⟨⟨o, hperm.mem_iff.1 ho, hshow⟩, p, hperm.mem_iff.1 hp, hbad⟩

/-- With the association that shows an address in front, nothing behind it is looked into. -/
theorem Shadowing.not_judgesMessage {bytes head : List UInt8} {opts : List Dhcpv6Option} (h : Shadowing opts)
    (hmsg : IsMessage bytes head opts) : ¬JudgesMessage bytes := by
  intro hjudges
  obtain ⟨⟨o, ho, a, hshow⟩, p, hp, hbad⟩ := h
  obtain ⟨front, back, rfl⟩ := List.append_of_mem ho
  have hperm : (front ++ o :: back).Perm (o :: (front ++ back)) := List.perm_middle
  have hfirst : FirstAddress (o :: (front ++ back)) (some a) := .shown (List.nil_append _).symm (by simp) hshow
  have ctx : ParseCtx := ⟨[], .full, ⟨0, 0, 0, 0⟩⟩
  have haccepts : Accepts bytes := (hjudges.reordered head _ _ hmsg hperm).2
    ⟨ctx, parse_dhcpv6_of_firstAddress hmsg.reorder hfirst ctx⟩
  obtain ⟨ctx, hlayer⟩ := haccepts
  obtain ⟨head', opts', hmsg', hwell⟩ := (hjudges.accepts ctx).1 hlayer
  obtain ⟨-, rfl⟩ := hmsg.unique hmsg'
  exact hbad (hwell p hp)

/-- The plugin judges the bytes as it should if and only if no association that shows an address stands in a message
with a malformed one. -/
theorem judgesMessage_iff (bytes : List UInt8) :
    JudgesMessage bytes ↔ ¬∃ head opts, IsMessage bytes head opts ∧ Shadowing opts := by
  constructor
  · rintro hjudges ⟨head, opts, hmsg, hshadowing⟩
    exact hshadowing.not_judgesMessage hmsg hjudges
  · intro hno
    have hmessage : ∀ head opts, IsMessage bytes head opts → ¬Shadowing opts := fun head opts h hs =>
      hno ⟨head, opts, h, hs⟩
    constructor
    · intro ctx
      constructor
      · intro h
        obtain ⟨head, opts, a, hmsg, -⟩ := exists_layer_iff.1 h
        exact ⟨head, opts, hmsg, (accepts_iff_wellFormed hmsg (hmessage head opts hmsg) ctx).1 h⟩
      · rintro ⟨head, opts, hmsg, hwell⟩
        exact (accepts_iff_wellFormed hmsg (hmessage head opts hmsg) ctx).2 hwell
    · intro head opts opts' hmsg hperm
      have hopts := accepts_iff_wellFormed hmsg (hmessage head opts hmsg)
      have hno' : ¬Shadowing opts' := fun h => hmessage head opts hmsg (h.perm hperm.symm)
      have hopts' := accepts_iff_wellFormed hmsg.reorder hno'
      constructor
      · rintro ⟨ctx, hlayer⟩
        exact ⟨ctx, (hopts' ctx).2 fun o ho => (hopts ctx).1 hlayer o (hperm.mem_iff.2 ho)⟩
      · rintro ⟨ctx, hlayer⟩
        exact ⟨ctx, (hopts ctx).2 fun o ho => (hopts' ctx).1 hlayer o (hperm.mem_iff.1 ho)⟩
    · intro ctx layer hlayer hctx
      obtain ⟨head, opts, a, hmsg, hfirst, htells⟩ := parse_dhcpv6_eq_ok hlayer
      exact ⟨head, opts, a, hmsg, hfirst, htells hctx⟩

end Messages

/-! ## An association of four bytes behind one with an address -/

/-- `2001:db8::1`, preferred for an hour and valid for two. -/
def sampleIaAddress : IaAddress := ⟨[0x20, 0x01, 0x0D, 0xB8, 0, 0, 0, 0, 0, 0, 0, 0, 0, 0, 0, 1], 3600, 7200⟩

def sampleSuboption : Dhcpv6Option where
  code := 5
  data := sampleIaAddress.addr ++ (Lib.beBytes 4 3600 ++ Lib.beBytes 4 7200)
  fits := by decide

def sampleIaNa : Dhcpv6Option := ⟨3, List.replicate 12 0 ++ sampleSuboption.bytes, by decide⟩

def shortIaNa : Dhcpv6Option := ⟨3, [0, 0, 0, 1], by decide⟩

/-- A REQUEST with these two options. -/
def sampleRequest : List UInt8 := [3, 0, 0, 1] ++ [sampleIaNa, shortIaNa].flatMap Dhcpv6Option.bytes

theorem showsAddress_sampleIaNa : sampleIaNa.ShowsAddress sampleIaAddress := by
  refine ⟨[], sampleSuboption, [], ⟨List.replicate 12 0, rfl, ?_⟩, by simp, rfl, rfl, [], rfl⟩
  rw [List.nil_append, List.flatMap_singleton]
  rfl

theorem not_wellFormed_shortIaNa : ¬shortIaNa.WellFormed := by
  intro h
  obtain ⟨subs, ⟨fixed, hskip, hdata⟩, -⟩ := h rfl
  have hfixed : 12 = fixed.length := Option.some.inj hskip
  have hlength := congrArg List.length hdata
  rw [List.length_append, ← hfixed, shortIaNa] at hlength
  simp only [List.length_cons, List.length_nil] at hlength
  omega

/-- The request is accepted, though its second association is too short. -/
theorem not_judgesMessage_shortIa : ¬JudgesMessage sampleRequest := by
  have hmsg : IsMessage sampleRequest [3, 0, 0, 1] [sampleIaNa, shortIaNa] :=
    ⟨3, [0, 0, 1], rfl, by decide, by decide, rfl, rfl⟩
  exact Shadowing.not_judgesMessage
    ⟨⟨sampleIaNa, by simp, _, showsAddress_sampleIaNa⟩, shortIaNa, by simp, not_wellFormed_shortIaNa⟩ hmsg

end Pktflow.Plugins

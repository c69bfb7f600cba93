import Pktflow.Core.Looping
import Pktflow.Plugins.ExtHeaders
import Pktflow.Plugins.FiveTuple

/-!
# BGP messages

Model of `bgp.rs`. A message is its declared length; an UPDATE lists withdrawn and reachable prefixes, kept as they
are on the wire, and path attributes, among which a next hop is looked for. The first attribute that exposes one
wins, so a NEXT_HOP behind an MP_REACH_NLRI is not found (`nextHop_lawful_iff`).
-/

set_option autoImplicit false

namespace Pktflow.Plugins

open Pktflow.Core Pktflow.Core.ByteReader Pktflow.Flows

/-! ## The plugin -/

/-- One entry of `parse_prefix_list`. -/
def prefixEntry (out : List (List UInt8)) : ByteReader (List (List UInt8)) := do
  let prefixLenBits ← u8
  let prefixByteLen := (prefixLenBits.toNat + 7) / 8
  if 4 < prefixByteLen then throw (.malformed "BGP: prefix length exceeds 32 bits")
  let addr ← take prefixByteLen
  return out ++ [prefixLenBits :: addr]

/-- `parse_prefix_list`. -/
def parsePrefixList (bytes : List UInt8) : Except ParseError (List (List UInt8)) :=
  (whileLeft 1 prefixEntry []).parse bytes

/-- The bytes of `mp_reach_next_hop`. -/
def mpReachReader : ByteReader (List UInt8) := do
  let _ ← u16Be
  let _ ← u8
  let nhLen ← u8
  take nhLen.toNat

/-- `mp_reach_next_hop`. -/
def mpReachNextHop (value : List UInt8) : Option (List UInt8) := (mpReachReader.parse value).toOption

/-- `ATTR_EXTENDED_LENGTH`. -/
def attrExtendedLength : UInt8 := 0x10

/-- What a type of attribute exposes. -/
def nextHopOf (typeCode : UInt8) (value : List UInt8) : Option (List UInt8) :=
  if typeCode = 3 then some value
  else if typeCode = 14 then mpReachNextHop value
  else none

/-- The length of a path attribute, in one byte or in two. -/
def attributeLength (flags : UInt8) : ByteReader Nat :=
  if flags &&& attrExtendedLength ≠ 0 then return (← u16Be).toNat else return (← u8).toNat

/-- One attribute in `extract_next_hop`. -/
def pathAttribute (nextHop : Option (List UInt8)) : ByteReader (Option (List UInt8)) := do
  let flags ← u8
  let typeCode ← u8
  let length ← attributeLength flags
  let value ← take length
  return if nextHop.isNone then nextHopOf typeCode value else nextHop

/-- `extract_next_hop`. -/
def extractNextHop (bytes : List UInt8) : Except ParseError (Option (List UInt8)) :=
  (whileLeft 1 pathAttribute none).parse bytes

/-- What the body of a message yields. -/
structure BgpBody where
  myAs : Option UInt16 := none
  holdTime : Option UInt16 := none
  bgpIdentifier : Option (List UInt8) := none
  withdrawnRoutes : List (List UInt8) := []
  nlri : List (List UInt8) := []
  nextHop : Option (List UInt8) := none

/-- The body of an OPEN. -/
def openBody : ByteReader BgpBody := do
  let version ← u8
  if version ≠ 4 then throw (.malformed "BGP: unsupported OPEN version")
  let asNum ← u16Be
  let holdTime ← u16Be
  let identifier ← take 4
  let optParmLen ← u8
  let _ ← take optParmLen.toNat
  return { myAs := some asNum, holdTime := some holdTime, bgpIdentifier := some identifier }

/-- The body of an UPDATE. -/
def updateBody : ByteReader BgpBody := do
  let withdrawnLen ← u16Be
  let withdrawnBytes ← take withdrawnLen.toNat
  let withdrawnRoutes ← liftM (parsePrefixList withdrawnBytes)
  let pathAttrLen ← u16Be
  let pathAttrs ← take pathAttrLen.toNat
  let nextHop ← liftM (extractNextHop pathAttrs)
  let nlriBytes ← take (← remaining)
  let nlri ← liftM (parsePrefixList nlriBytes)
  return { withdrawnRoutes, nlri, nextHop }

/-- The body by the type of message. -/
def bgpBody (msgType : UInt8) (body : List UInt8) : Except ParseError BgpBody :=
  if msgType = 1 then openBody.parse body
  else if msgType = 2 then updateBody.parse body
  else .ok {}

/-- The fields of a message at `Full`. -/
def BgpBody.full (b : BgpBody) (msgType : UInt8) : List (FieldName × Value) :=
  (b.myAs.toList.map fun v => ("my_as", .u64 v.toUInt64)) ++
    (b.holdTime.toList.map fun v => ("hold_time", .u64 v.toUInt64)) ++
      (b.bgpIdentifier.toList.map fun v => ("bgp_identifier", .bytes v)) ++
  if msgType = 2 then
    [("withdrawn_routes", .list (b.withdrawnRoutes.map .bytes)), ("nlri", .list (b.nlri.map .bytes))] ++
      b.nextHop.toList.map fun v => ("next_hop", .bytes v)
  else []

/-- `Bgp::parse`. -/
def parseBgp (ctx : ParseCtx) : ByteReader ParsedLayer := do
  let _ ← take 16
  let length ← u16Be
  let msgType ← u8
  if length.toNat < 19 ∨ 4096 < length.toNat then throw (.malformed "BGP: length out of range")
  let body ← take (length.toNat - 19)
  let b ← liftM (bgpBody msgType body)
  let fields := insertAt ctx .full (b.full msgType)
    (insertAt ctx .structural [("msg_type", .u64 msgType.toUInt64), ("length", .u64 length.toUInt64)]
      (insertAt ctx .keys [("app", .str "bgp")] FieldMap.new))
  return ⟨length.toNat, fields, .terminal⟩

/-- `Bgp`. -/
def bgp : LayerPlugin where
  name := "bgp"
  parse := fun bytes ctx => (parseBgp ctx).parse bytes
  claims := [.tcpPort 179]
  streamIdentity := some
    { key := [⟨"app", none⟩], canonicalize := .endpointSort, lifecycle := none,
      rollups := [⟨"msg_type", .accumulate⟩, ⟨"my_as", .sample⟩] }

/-! ## The next hop -/

/-- A path attribute, its length in the form that its flags announce. -/
structure PathAttr where
  flags : UInt8
  typeCode : UInt8
  value : List UInt8
  fits : value.length < if flags &&& attrExtendedLength ≠ 0 then 65536 else 256

namespace PathAttr

/-- The attribute as it is sent. -/
def bytes (a : PathAttr) : List UInt8 :=
  [a.flags, a.typeCode] ++
    Lib.beBytes (if a.flags &&& attrExtendedLength ≠ 0 then 2 else 1) a.value.length ++ a.value

/-- A NEXT_HOP. -/
def IsNextHop (a : PathAttr) : Prop := a.typeCode = 3

/-- An MP_REACH_NLRI. -/
def IsMpReach (a : PathAttr) : Prop := a.typeCode = 14

instance : DecidablePred IsNextHop := fun a => inferInstanceAs (Decidable (a.typeCode = 3))

instance : DecidablePred IsMpReach := fun a => inferInstanceAs (Decidable (a.typeCode = 14))

end PathAttr

/-- A well-formed value of an MP_REACH_NLRI holds this next hop. -/
def HoldsNextHop (value hop : List UInt8) : Prop :=
  ∃ afi₁ afi₂ safi len nlri, value = afi₁ :: afi₂ :: safi :: len :: hop ++ nlri ∧ hop.length = len.toNat

/-- The next hop of a set of attributes: that of the NEXT_HOP if there is one, else the one in a well-formed
MP_REACH_NLRI, else none. -/
inductive NextHop (attrs : List PathAttr) : Option (List UInt8) → Prop where
  | nextHop {a : PathAttr} (ha : a ∈ attrs) (htype : a.IsNextHop) : NextHop attrs (some a.value)
  | mpReach {a : PathAttr} {hop : List UInt8} (hnone : ∀ a ∈ attrs, ¬a.IsNextHop) (ha : a ∈ attrs)
      (htype : a.IsMpReach) (hhop : HoldsNextHop a.value hop) : NextHop attrs (some hop)
  | none (hnone : ∀ a ∈ attrs, ¬a.IsNextHop)
      (hmp : ∀ a ∈ attrs, a.IsMpReach → ∀ hop, ¬HoldsNextHop a.value hop) : NextHop attrs none

/-- An MP_REACH_NLRI with another next hop stands in front of the NEXT_HOP. -/
def Shadowed (attrs : List PathAttr) : Prop :=
  ∃ pre mp mid nh post hop, attrs = pre ++ mp :: mid ++ nh :: post ∧ PathAttr.IsMpReach mp ∧
    PathAttr.IsNextHop nh ∧ HoldsNextHop mp.value hop ∧ hop ≠ nh.value

section NextHops

variable {attrs order : List PathAttr}

theorem reads_mpReach {value hop : List UInt8} : mpReachNextHop value = some hop ↔ HoldsNextHop value hop := by
  rw [mpReachNextHop, toOption_parse_eq_some]
  constructor
  · rintro ⟨rest, h⟩
    obtain ⟨afi, buf₁, hafi, hread⟩ := bind_eq_ok.1 h
    obtain ⟨safi, buf₂, hsafi, hread⟩ := bind_eq_ok.1 hread
    obtain ⟨len, buf₃, hlen, hhop⟩ := bind_eq_ok.1 hread
    obtain ⟨bs, rfl, hbs, -⟩ := u16Be_eq_ok.1 hafi
    obtain rfl := u8_eq_ok.1 hsafi
    obtain rfl := u8_eq_ok.1 hlen
    obtain ⟨rfl, hlength⟩ := take_eq_ok.1 hhop
    obtain ⟨afi₁, afi₂, rfl⟩ := List.length_eq_two.1 hbs
    exact ⟨afi₁, afi₂, safi, len, rest, rfl, hlength⟩
  · rintro ⟨afi₁, afi₂, safi, len, nlri, rfl, hlength⟩
    refine ⟨nlri, bind_eq_ok.2 ⟨_, _, u16Be_cons .., bind_eq_ok.2 ⟨_, _, u8_cons .., bind_eq_ok.2 ⟨_, _, u8_cons .., ?_⟩⟩⟩⟩
    exact take_eq_ok.2 ⟨rfl, hlength⟩

/-- What an attribute exposes. -/
def PathAttr.exposed (a : PathAttr) : Option (List UInt8) := nextHopOf a.typeCode a.value

theorem exposed_of_isNextHop {a : PathAttr} (h : a.IsNextHop) : a.exposed = some a.value := if_pos h

theorem exposed_eq_some {a : PathAttr} {hop : List UInt8} (h : ¬a.IsNextHop) :
    a.exposed = some hop ↔ a.IsMpReach ∧ HoldsNextHop a.value hop := by
  have hne : a.typeCode ≠ 3 := h
  rw [PathAttr.exposed, nextHopOf, if_neg hne, PathAttr.IsMpReach]
  by_cases hmp : a.typeCode = 14
  · rw [if_pos hmp, reads_mpReach]
    simp [hmp]
  · rw [if_neg hmp]
    simp [hmp]

theorem reads_attributeLength {flags : UInt8} {n : Nat} (h : n < if flags &&& attrExtendedLength ≠ 0 then 65536 else 256) :
    Reads (attributeLength flags) (Lib.beBytes (if flags &&& attrExtendedLength ≠ 0 then 2 else 1) n) n := by
  rw [attributeLength]
  split
  · rw [if_pos ‹_›] at h
    have hread := reads_map (reads_u16Be n) UInt16.toNat
    rwa [UInt16.toNat_ofNat_of_lt' h] at hread
  · rw [if_neg ‹_›] at h
    have hread := reads_map (reads_u8 (UInt8.ofNat n)) UInt8.toNat
    rw [UInt8.toNat_ofNat_of_lt' h] at hread
    have hbytes : Lib.beBytes 1 n = [UInt8.ofNat n] := by simp [Lib.beBytes]
    rw [hbytes]
    exact hread

theorem reads_pathAttribute (a : PathAttr) (nextHop : Option (List UInt8)) :
    Reads (pathAttribute nextHop) a.bytes (if nextHop.isNone then a.exposed else nextHop) := by
  have hbytes : a.bytes = [a.flags] ++ ([a.typeCode] ++
      (Lib.beBytes (if a.flags &&& attrExtendedLength ≠ 0 then 2 else 1) a.value.length ++ a.value)) := by
    simp [PathAttr.bytes]
  rw [hbytes]
  apply (reads_u8 a.flags).bind
  apply (reads_u8 a.typeCode).bind
  apply (reads_attributeLength a.fits).bind
  exact reads_map (reads_take a.value) _

theorem progresses_pathAttribute : ItemProgresses pathAttribute := by
  intro nextHop buf s' rest h
  refine takes_u8.bind_lt (Nat.succ_pos 0) (fun flags => exact_u8.bind fun _ => ?_) h
  refine Exact.bind (.ite (fun _ => exact_u16Be.bind fun _ => exact_pure _) fun _ => exact_u8.bind fun _ => exact_pure _)
    fun n => ?_
  exact (exact_take n).bind fun _ => exact_pure _

theorem foldl_exposed (attrs : List PathAttr) (found : Option (List UInt8)) :
    attrs.foldl (fun found a => if found.isNone then a.exposed else found) found =
      found.or (attrs.findSome? PathAttr.exposed) := by
  induction attrs generalizing found with
  | nil => simp
  | cons a attrs ih =>
      rw [List.foldl_cons, ih, List.findSome?_cons]
      cases found with
      | none => cases a.exposed <;> simp
      | some hop => rfl

/-- The next hop found is the first one exposed. -/
theorem extractNextHop_flatMap (attrs : List PathAttr) :
    extractNextHop (attrs.flatMap PathAttr.bytes) = .ok (attrs.findSome? PathAttr.exposed) := by
  have hwalk := whileLeft_flatMap progresses_pathAttribute _ (fun a _ => by simp [PathAttr.bytes])
    (fun a (_ : a ∈ attrs) nextHop => reads_pathAttribute a nextHop) none (List.length_nil.trans_lt Nat.one_pos)
  rw [foldl_exposed, List.append_nil, Option.none_or] at hwalk
  exact parse_eq_ok.2 ⟨[], hwalk⟩

/-- There is one NEXT_HOP in a list with at most one. -/
theorem not_isNextHop_of_countP {pre post : List PathAttr} {nh a : PathAttr}
    (hone : (pre ++ nh :: post).countP (·.IsNextHop) ≤ 1) (hnh : nh.IsNextHop) (ha : a ∈ pre) : ¬a.IsNextHop := by
  intro htype
  have hpos : 0 < pre.countP (·.IsNextHop) := List.countP_pos_iff.2 ⟨a, ha, by simpa using htype⟩
  rw [List.countP_append, List.countP_cons_of_pos (by simpa using hnh)] at hone
  omega

/-- In an order of the attributes without a shadow the first next hop exposed is the documented one. -/
theorem nextHop_findSome? (hnh : order.countP (·.IsNextHop) ≤ 1) (hshadow : ¬Shadowed order) :
    NextHop order (order.findSome? PathAttr.exposed) := by
  by_cases hexists : ∃ nh ∈ order, PathAttr.IsNextHop nh
  · obtain ⟨nh, hmem, htype⟩ := hexists
    obtain ⟨pre, post, rfl⟩ := List.append_of_mem hmem
    have hvalue : (pre ++ nh :: post).findSome? PathAttr.exposed = some nh.value := by
      rw [List.findSome?_append, List.findSome?_cons, exposed_of_isNextHop htype]
      cases hpre : pre.findSome? PathAttr.exposed with
      | none => rfl
      | some hop =>
          -- an MP_REACH_NLRI in front holds the same next hop
          obtain ⟨mp, hmp, hhop⟩ := List.exists_of_findSome?_eq_some hpre
          obtain ⟨hreach, hholds⟩ := (exposed_eq_some (not_isNextHop_of_countP hnh htype hmp)).1 hhop
          obtain ⟨pre', mid, rfl⟩ := List.append_of_mem hmp
          have heq : hop = nh.value := by
            by_contra hne
            exact hshadow ⟨pre', mp, mid, nh, post, hop, rfl, hreach, htype, hholds, hne⟩
          rw [heq]
          rfl
    rw [hvalue]
    exact .nextHop hmem htype
  · have hnone : ∀ a ∈ order, ¬a.IsNextHop := fun a ha htype => hexists ⟨a, ha, htype⟩
    cases hfind : order.findSome? PathAttr.exposed with
    | none =>
        refine .none hnone fun a ha hreach hop hholds => ?_
        have hexposed := List.findSome?_eq_none_iff.1 hfind a ha
        rw [(exposed_eq_some (hnone a ha)).2 ⟨hreach, hholds⟩] at hexposed
        cases hexposed
    | some hop =>
        obtain ⟨a, ha, hhop⟩ := List.exists_of_findSome?_eq_some hfind
        obtain ⟨hreach, hholds⟩ := (exposed_eq_some (hnone a ha)).1 hhop
        exact .mpReach hnone ha hreach hholds

/-- A shadow is what is found. -/
theorem not_nextHop_of_shadowed (hnh : order.countP (·.IsNextHop) ≤ 1) (hmp : order.countP (·.IsMpReach) ≤ 1)
    (hshadow : Shadowed order) : ¬NextHop order (order.findSome? PathAttr.exposed) := by
  obtain ⟨pre, mp, mid, nh, post, hop, rfl, hreach, htype, hholds, hne⟩ := hshadow
  have hfirst : ∀ a ∈ pre ++ mp :: mid, ¬a.IsNextHop := fun a ha => not_isNextHop_of_countP hnh htype ha
  have hnotReach : ∀ a ∈ pre, ¬a.IsMpReach := by
    intro a ha hreach'
    have hpos : 0 < pre.countP (·.IsMpReach) := List.countP_pos_iff.2 ⟨a, ha, by simpa using hreach'⟩
    rw [List.append_assoc, List.countP_append, List.cons_append,
      List.countP_cons_of_pos (by simpa using hreach)] at hmp
    omega
  have hpre : pre.findSome? PathAttr.exposed = none := by
    refine List.findSome?_eq_none_iff.2 fun a ha => ?_
    cases hexposed : a.exposed with
    | none => rfl
    | some hop' =>
        obtain ⟨hreach', -⟩ := (exposed_eq_some (hfirst a (List.mem_append_left _ ha))).1 hexposed
        exact absurd hreach' (hnotReach a ha)
  have hmpExposed : mp.exposed = some hop := (exposed_eq_some (hfirst mp (by simp))).2 ⟨hreach, hholds⟩
  have hfound : (pre ++ mp :: mid ++ nh :: post).findSome? PathAttr.exposed = some hop := by
    rw [List.append_assoc, List.findSome?_append, hpre, List.cons_append, List.findSome?_cons, hmpExposed]
    rfl
  rw [hfound]
  intro h
  -- the NEXT_HOP is the one the documented value is of
  generalize hr : some hop = r at h
  cases h with
  | @nextHop a ha ha' =>
      have hvalue : hop = a.value := Option.some.inj hr
      rcases List.mem_append.1 ha with hfront | hrest
      · exact hfirst a hfront ha'
      · rcases List.mem_cons.1 hrest with rfl | hpost
        · exact hne hvalue
        · have hpos : 0 < post.countP (·.IsNextHop) := List.countP_pos_iff.2 ⟨a, hpost, by simpa using ha'⟩
          rw [List.countP_append, List.countP_cons_of_pos (by simpa using htype)] at hnh
          omega
  | mpReach hnone => exact hnone nh (by simp) htype
  | none hnone => cases hr

theorem nextHop_perm {r : Option (List UInt8)} (hperm : order.Perm attrs) : NextHop attrs r ↔ NextHop order r := by
  constructor
  · intro h
    cases h with
    | nextHop ha htype => exact .nextHop (hperm.mem_iff.2 ha) htype
    | mpReach hnone ha htype hhop =>
        exact .mpReach (fun a ha => hnone a (hperm.mem_iff.1 ha)) (hperm.mem_iff.2 ha) htype hhop
    | none hnone hmp =>
        exact .none (fun a ha => hnone a (hperm.mem_iff.1 ha)) fun a ha => hmp a (hperm.mem_iff.1 ha)
  · intro h
    cases h with
    | nextHop ha htype => exact .nextHop (hperm.mem_iff.1 ha) htype
    | mpReach hnone ha htype hhop =>
        exact .mpReach (fun a ha => hnone a (hperm.mem_iff.2 ha)) (hperm.mem_iff.1 ha) htype hhop
    | none hnone hmp =>
        exact .none (fun a ha => hnone a (hperm.mem_iff.2 ha)) fun a ha => hmp a (hperm.mem_iff.2 ha)

/-- In whatever order the attributes stand, the next hop of the set is returned, except where an MP_REACH_NLRI with
another next hop stands in front of the NEXT_HOP. -/
theorem extractNextHop_iff (hperm : order.Perm attrs) (hnh : attrs.countP (·.IsNextHop) ≤ 1)
    (hmp : attrs.countP (·.IsMpReach) ≤ 1) :
    (∃ r, NextHop attrs r ∧ extractNextHop (order.flatMap PathAttr.bytes) = .ok r) ↔ ¬Shadowed order := by
  rw [← hperm.countP_eq] at hnh hmp
  rw [extractNextHop_flatMap]
  constructor
  · rintro ⟨r, hr, hfound⟩ hshadow
    rw [← Except.ok.inj hfound] at hr
    exact not_nextHop_of_shadowed hnh hmp hshadow ((nextHop_perm hperm).1 hr)
  · intro hshadow
    exact ⟨_, (nextHop_perm hperm).2 (nextHop_findSome? hnh hshadow), rfl⟩

end NextHops

/-- A NEXT_HOP of 192.0.2.1. -/
def sampleNextHop : PathAttr := ⟨0x40, 3, [192, 0, 2, 1], by decide⟩

/-- An MP_REACH_NLRI for IPv6 with the next hop 2001:db8::1 and no prefix. -/
def sampleMpReach : PathAttr :=
  ⟨0x80, 14, [0, 2, 1, 16, 0x20, 1, 0xD, 0xB8, 0, 0, 0, 0, 0, 0, 0, 0, 0, 0, 0, 1, 0], by decide⟩

/-- With the MP_REACH_NLRI behind it the NEXT_HOP is returned. -/
theorem extractNextHop_sample :
    (∃ r, NextHop [sampleMpReach, sampleNextHop] r ∧
      extractNextHop ([sampleNextHop, sampleMpReach].flatMap PathAttr.bytes) = .ok r) ↔
        ¬Shadowed [sampleNextHop, sampleMpReach] :=
  extractNextHop_iff (List.Perm.swap ..) (by decide) (by decide)

/-- With the MP_REACH_NLRI in front it is not. -/
theorem not_extractNextHop_mpReach_first :
    ¬∀ attrs order : List PathAttr, order.Perm attrs → attrs.countP (·.IsNextHop) ≤ 1 →
      attrs.countP (·.IsMpReach) ≤ 1 →
        ∃ r, NextHop attrs r ∧ extractNextHop (order.flatMap PathAttr.bytes) = .ok r := by
  intro h
  obtain ⟨r, hr, hfound⟩ := h [sampleNextHop, sampleMpReach] [sampleMpReach, sampleNextHop] (List.Perm.swap ..)
    (by decide) (by decide)
  have hhop : extractNextHop ([sampleMpReach, sampleNextHop].flatMap PathAttr.bytes) =
      .ok (some [0x20, 1, 0xD, 0xB8, 0, 0, 0, 0, 0, 0, 0, 0, 0, 0, 0, 1]) := by rfl
  obtain rfl := Except.ok.inj (hhop.symm.trans hfound)
  generalize hs : some _ = s at hr
  cases hr with
  | @nextHop a ha htype =>
      rcases List.mem_pair.1 ha with rfl | rfl
      · simp [sampleNextHop] at hs
      · cases htype
  | mpReach hnone => exact hnone sampleNextHop (by simp) rfl
  | none hnone => cases hs

/-! ## The message -/

section Message

variable {ctx : ParseCtx} {buf rest bytes : List UInt8}

theorem progresses_prefixEntry : ItemProgresses prefixEntry := by
  intro out buf out' rest h
  refine takes_u8.bind_lt (Nat.succ_pos 0) (fun bits => ?_) h
  exact .guard ((exact_take _).bind fun _ => exact_pure _)

/-- The entries of a list are its bytes. -/
theorem parsePrefixList_eq_ok {entries : List (List UInt8)} (h : parsePrefixList bytes = .ok entries) :
    entries.flatten = bytes := by
  obtain ⟨rest, hread⟩ := parse_eq_ok.1 h
  have hstep : ∀ out buf out' rest, 1 ≤ buf.length → prefixEntry out buf = .ok (out', rest) →
      out.flatten ++ buf = bytes → out'.flatten ++ rest = bytes := by
    intro out buf out' rest _ hitem hout
    obtain ⟨bits, buf₁, hbits, hread⟩ := bind_eq_ok.1 hitem
    split at hread
    · cases hread
    · obtain ⟨addr, buf₂, haddr, hpure⟩ := bind_eq_ok.1 hread
      obtain rfl := u8_eq_ok.1 hbits
      obtain ⟨rfl, -⟩ := take_eq_ok.1 haddr
      obtain ⟨rfl, rfl⟩ := pure_eq_ok.1 hpure
      rw [← hout]
      simp
  obtain ⟨hall, hlt⟩ := whileLeft_induction progresses_prefixEntry hstep hread rfl
  rw [List.eq_nil_of_length_eq_zero (Nat.lt_one_iff.1 hlt), List.append_nil] at hall
  exact hall

/-- The sections of the body of an UPDATE. -/
structure UpdateSections (body withdrawn attrs nlri : List UInt8) : Prop where
  body_eq : body = Lib.beBytes 2 withdrawn.length ++ (withdrawn ++ (Lib.beBytes 2 attrs.length ++ (attrs ++ nlri)))
  withdrawn_lt : withdrawn.length < 65536
  attrs_lt : attrs.length < 65536

/-- A length in two bytes, in front of what it counts. -/
theorem lengthWord_eq {bs taken : List UInt8} (hbs : bs.length = 2)
    (h : taken.length = (UInt16.ofNat (fromBeBytes bs)).toNat) :
    bs = Lib.beBytes 2 taken.length ∧ taken.length < 65536 := by
  rw [h, beBytes_word hbs]
  exact ⟨rfl, UInt16.toNat_lt _⟩

/-- The prefixes of an UPDATE are those of its sections. -/
theorem updateBody_eq_ok {b : BgpBody} (h : updateBody.parse bytes = .ok b) :
    ∃ attrs, UpdateSections bytes b.withdrawnRoutes.flatten attrs b.nlri.flatten := by
  obtain ⟨rest, hread⟩ := parse_eq_ok.1 h
  obtain ⟨withdrawnLen, buf₁, hlen₁, hread⟩ := bind_eq_ok.1 hread
  obtain ⟨withdrawn, buf₂, hwithdrawn, hread⟩ := bind_eq_ok.1 hread
  obtain ⟨routes, buf₃, hroutes, hread⟩ := bind_eq_ok.1 hread
  obtain ⟨attrLen, buf₄, hlen₂, hread⟩ := bind_eq_ok.1 hread
  obtain ⟨attrs, buf₅, hattrs, hread⟩ := bind_eq_ok.1 hread
  obtain ⟨hop, buf₆, hhop, hread⟩ := bind_eq_ok.1 hread
  obtain ⟨left, buf₇, hleft, hread⟩ := bind_eq_ok.1 hread
  obtain ⟨nlriBytes, buf₈, hnlri, hread⟩ := bind_eq_ok.1 hread
  obtain ⟨nlri, buf₉, hprefixes, hpure⟩ := bind_eq_ok.1 hread
  obtain ⟨bs, rfl, hbs, rfl⟩ := u16Be_eq_ok.1 hlen₁
  obtain ⟨rfl, hwlen⟩ := take_eq_ok.1 hwithdrawn
  obtain ⟨hwroutes, rfl⟩ := liftM_eq_ok.1 hroutes
  obtain ⟨cs, rfl, hcs, rfl⟩ := u16Be_eq_ok.1 hlen₂
  obtain ⟨rfl, halen⟩ := take_eq_ok.1 hattrs
  obtain ⟨-, rfl⟩ := liftM_eq_ok.1 hhop
  obtain ⟨rfl, rfl⟩ := Prod.mk.inj (Except.ok.inj hleft)
  obtain ⟨hsplit, hnlen⟩ := take_eq_ok.1 hnlri
  obtain ⟨hnlri', rfl⟩ := liftM_eq_ok.1 hprefixes
  obtain ⟨rfl, -⟩ := pure_eq_ok.1 hpure
  -- the last section runs to the end of the body
  have hend : buf₉ = [] := by
    have hlen := congrArg List.length hsplit
    rw [List.length_append, hnlen] at hlen
    exact List.eq_nil_of_length_eq_zero (by omega)
  rw [hend, List.append_nil] at hsplit
  obtain ⟨rfl, hwlt⟩ := lengthWord_eq hbs hwlen
  obtain ⟨rfl, halt⟩ := lengthWord_eq hcs halen
  refine ⟨attrs, ⟨?_, ?_, halt⟩⟩
  · rw [parsePrefixList_eq_ok hwroutes, parsePrefixList_eq_ok hnlri', hsplit]
  · rw [parsePrefixList_eq_ok hwroutes]
    exact hwlt

theorem honestHeader_bgp : HonestHeader bgp := by
  refine honestHeader_of_exact (r := parseBgp) (fun _ _ => rfl) ?_ ?_ fun _ => ⟨_, rfl⟩
  · intro ctx
    refine (exact_take 16).bind fun _ => exact_u16Be.bind fun length => exact_u8.bind fun _ => .guard ?_
    exact (exact_take _).bind fun _ => (exact_liftM _).bind fun _ => exact_pure _
  · intro ctx
    refine (takes_take 16).bind fun _ => takes_u16Be.bind fun length => takes_u8.bind fun _ => .guard fun hrange => ?_
    refine (takes_take _).bind fun _ => (takes_liftM _).bind fun _ => counts_pure ?_
    simp only
    omega

theorem BgpBody.full_update (b : BgpBody) :
    b.full 2 = (b.myAs.toList.map fun v => ("my_as", Value.u64 v.toUInt64)) ++
      (b.holdTime.toList.map fun v => ("hold_time", Value.u64 v.toUInt64)) ++
      (b.bgpIdentifier.toList.map fun v => ("bgp_identifier", Value.bytes v)) ++
      ([("withdrawn_routes", .list (b.withdrawnRoutes.map .bytes))] ++ ([("nlri", .list (b.nlri.map .bytes))] ++
        b.nextHop.toList.map fun v => ("next_hop", .bytes v))) := by
  rw [BgpBody.full, if_pos rfl]
  simp only [List.append_assoc, List.cons_append, List.nil_append]

/-- What a parse has read: the header, its length word, and the body. -/
theorem parse_bgp_eq_ok {layer : ParsedLayer} (h : bgp.parse bytes ctx = .ok layer) :
    ∃ marker word msgType body b rest, bytes = marker ++ (word ++ msgType :: (body ++ rest)) ∧ marker.length = 16 ∧
      word.length = 2 ∧ layer.headerLen = fromBeBytes word ∧ layer.headerLen = 19 + body.length ∧
        bgpBody msgType body = .ok b ∧ (ctx.depth = .full → msgType = 2 →
          layer.fields.get "withdrawn_routes" = some (.list (b.withdrawnRoutes.map .bytes)) ∧
            layer.fields.get "nlri" = some (.list (b.nlri.map .bytes))) := by
  obtain ⟨rest, hread⟩ := parse_eq_ok.1 h
  obtain ⟨marker, buf₁, hmarker, hread⟩ := bind_eq_ok.1 hread
  obtain ⟨length, buf₂, hlength, hread⟩ := bind_eq_ok.1 hread
  obtain ⟨msgType, buf₃, htype, hread⟩ := bind_eq_ok.1 hread
  -- A length below 19 or above 4096 is refused here, so the subtraction that sizes the body is exact.
  split at hread
  · cases hread
  · rename_i hrange
    obtain ⟨body, buf₄, hbody, hread⟩ := bind_eq_ok.1 hread
    obtain ⟨b, buf₅, hb, hpure⟩ := bind_eq_ok.1 hread
    obtain ⟨rfl, hmlen⟩ := take_eq_ok.1 hmarker
    obtain ⟨word, rfl, hword, rfl⟩ := u16Be_eq_ok.1 hlength
    obtain rfl := u8_eq_ok.1 htype
    obtain ⟨rfl, hblen⟩ := take_eq_ok.1 hbody
    obtain ⟨hparsed, rfl⟩ := liftM_eq_ok.1 hb
    obtain ⟨rfl, rfl⟩ := pure_eq_ok.1 hpure
    have hlt := fromBeBytes_lt word
    rw [hword] at hlt
    have hvalue : (UInt16.ofNat (fromBeBytes word)).toNat = fromBeBytes word := UInt16.toNat_ofNat_of_lt' hlt
    refine ⟨marker, word, msgType, body, b, _, rfl, hmlen, hword, hvalue, ?_, hparsed, ?_⟩
    · rw [hblen]
      dsimp only
      omega
    · intro hctx hupdate
      have hfull : atDepth ctx .full = true := atDepth_of_depth hctx .full
      subst hupdate
      -- No shallower depth writes a name of the update, so what is found under it is what full depth wrote.
      have hbase : ∀ name, name ∉ ["msg_type", "length", "app"] →
          (insertAt ctx .structural
            [("msg_type", .u64 (2 : UInt8).toUInt64),
              ("length", .u64 (UInt16.ofNat (fromBeBytes word)).toUInt64)]
            (insertAt ctx .keys [("app", .str "bgp")] FieldMap.new)).get name = none := by
        intro name hname
        simp only [List.mem_cons, List.not_mem_nil, or_false, not_or] at hname
        rw [get_insertAt (by simp [hname]), get_insertAt (by simp [hname])]
        rfl
      constructor
      · rw [BgpBody.full_update, ← List.append_assoc]
        exact get_insertAt_field hfull (some _) (by simp) (by simp) (hbase _ (by decide))
      · rw [BgpBody.full_update, ← List.append_assoc, ← List.append_assoc]
        exact get_insertAt_field hfull (some _) (by simp) (by simp) (hbase _ (by decide))

end Message

end Pktflow.Plugins

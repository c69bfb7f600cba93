import Pktflow.Core.Looping
import Pktflow.Plugins.Ipfix

/-!
# OSPF messages

Model of `ospf.rs`. Both versions share the first four bytes, which declare the length of the packet; the rest is
read within it. A Hello lists its neighbors up to the end of the packet, a Link State Update as many advertisements
as it counts, each with a header of twenty bytes (`parse_ospf_hello`, `parse_ospf_update`).
-/

set_option autoImplicit false

namespace Pktflow.Plugins

open Pktflow.Core Pktflow.Core.ByteReader Pktflow.Flows

/-! ## The plugin -/

/-- `LSA_HEADER_LEN`. -/
def lsaHeaderLen : Nat := 20

/-- What the body of a packet yields. -/
structure OspfBody where
  routerId : List UInt8
  areaId : List UInt8
  helloInterval : Option UInt16 := none
  routerDeadInterval : Option UInt32 := none
  designatedRouter : Option (List UInt8) := none
  neighbors : List (List UInt8) := []
  interfaceMtu : Option UInt16 := none
  ddSequence : Option UInt32 := none
  lsaHeaders : List (List UInt8) := []

/-- One neighbor of a Hello. -/
def neighbor (neighbors : List (List UInt8)) : ByteReader (List (List UInt8)) := do
  let id ← take 4
  return neighbors ++ [id]

/-- The length in the header of a link state advertisement. -/
def lsaLength : ByteReader Nat := do
  let _ ← u16Be
  let _ ← u16Be
  let _ ← take 4
  let _ ← take 4
  let _ ← u32Be
  let _ ← u16Be
  let length ← u16Be
  return length.toNat

/-- One advertisement: its header is kept, its body is skipped. -/
def advertisement : ByteReader (List UInt8) := do
  let header ← take lsaHeaderLen
  let length ← liftM (lsaLength.parse header)
  if length < lsaHeaderLen then throw (.malformed "OSPF: LSA length shorter than its own header")
  let _ ← take (length - lsaHeaderLen)
  return header

/-- As many advertisements as are counted. -/
def advertisements : Nat → List (List UInt8) → ByteReader (List (List UInt8))
  | 0, out => return out
  | n + 1, out => do
      let header ← advertisement
      advertisements n (out ++ [header])

/-- What stands in both versions in front of the neighbors. -/
def helloV2 : ByteReader (UInt16 × UInt32 × List UInt8) := do
  let _ ← take 4
  let helloInterval ← u16Be
  let _ ← u8
  let _ ← u8
  let deadInterval ← u32Be
  let designatedRouter ← take 4
  let _ ← take 4
  return (helloInterval, deadInterval, designatedRouter)

/-- The same in version 3, which has no network mask and shorter intervals. -/
def helloV3 : ByteReader (UInt16 × UInt32 × List UInt8) := do
  let _ ← u32Be
  let _ ← u8
  let _ ← take 3
  let helloInterval ← u16Be
  let deadInterval ← u16Be
  let designatedRouter ← take 4
  let _ ← take 4
  return (helloInterval, deadInterval.toUInt32, designatedRouter)

/-- The database description of version 2. -/
def descriptionV2 : ByteReader (UInt16 × UInt32) := do
  let mtu ← u16Be
  let _ ← u8
  let _ ← u8
  let sequence ← u32Be
  return (mtu, sequence)

/-- The database description of version 3. -/
def descriptionV3 : ByteReader (UInt16 × UInt32) := do
  let _ ← u8
  let _ ← take 3
  let mtu ← u16Be
  let _ ← u8
  let _ ← u8
  let sequence ← u32Be
  return (mtu, sequence)

/-- The rest of the common header: router and area, and what the version has behind them. -/
def commonHeader (version : UInt8) : ByteReader (List UInt8 × List UInt8) := do
  let routerId ← take 4
  let areaId ← take 4
  let _ ← u16Be
  if version = 2 then
    let _ ← u16Be
    let _ ← take 8
    return (routerId, areaId)
  else
    let _ ← u8
    let _ ← u8
    return (routerId, areaId)

/-- The body of a packet. -/
def ospfBody (version msgType : UInt8) : ByteReader OspfBody := do
  let (routerId, areaId) ← commonHeader version
  if msgType = 1 then
    let (helloInterval, deadInterval, designatedRouter) ← if version = 2 then helloV2 else helloV3
    let neighbors ← whileLeft 1 neighbor []
    return { routerId, areaId, helloInterval := some helloInterval, routerDeadInterval := some deadInterval,
             designatedRouter := some designatedRouter, neighbors }
  else if msgType = 2 then
    let (mtu, sequence) ← if version = 2 then descriptionV2 else descriptionV3
    return { routerId, areaId, interfaceMtu := some mtu, ddSequence := some sequence }
  else if msgType = 4 then
    let numLsas ← u32Be
    let lsaHeaders ← advertisements numLsas.toNat []
    return { routerId, areaId, lsaHeaders }
  else return { routerId, areaId }

/-- The fields of a packet at `Full`. -/
def OspfBody.full (b : OspfBody) (msgType : UInt8) : List (FieldName × Value) :=
  (b.helloInterval.toList.map fun v => ("hello_interval", .u64 v.toUInt64)) ++
    (b.routerDeadInterval.toList.map fun v => ("router_dead_interval", .u64 v.toUInt64)) ++
    (b.designatedRouter.toList.map fun v => ("designated_router", .bytes v)) ++
    (if msgType = 1 then [("neighbors", .list (b.neighbors.map .bytes))] else []) ++
    (b.interfaceMtu.toList.map fun v => ("interface_mtu", .u64 v.toUInt64)) ++
    (b.ddSequence.toList.map fun v => ("dd_sequence", .u64 v.toUInt64)) ++
    (if msgType = 4 then [("lsa_headers", .list (b.lsaHeaders.map .bytes))] else [])

/-- `Ospf::parse`. -/
def parseOspf (ctx : ParseCtx) : ByteReader ParsedLayer := do
  let version ← u8
  if version ≠ 2 ∧ version ≠ 3 then throw (.malformed "OSPF: unsupported version")
  let msgType ← u8
  let packetLength ← u16Be
  if packetLength.toNat < 4 then throw (.malformed "OSPF: packet_length shorter than the common header prefix")
  let body ← take (packetLength.toNat - 4)
  let b ← liftM ((ospfBody version msgType).parse body)
  let fields := insertAt ctx .full (b.full msgType)
    (insertAt ctx .structural
      [("version", .u64 version.toUInt64), ("type", .u64 msgType.toUInt64),
        ("packet_length", .u64 packetLength.toUInt64), ("router_id", .bytes b.routerId), ("area_id", .bytes b.areaId)]
      FieldMap.new)
  return ⟨packetLength.toNat, fields, .terminal⟩

/-- `Ospf`. -/
def ospf : LayerPlugin where
  name := "ospf"
  parse := fun bytes ctx => (parseOspf ctx).parse bytes
  claims := [.ipProtocol 89]

/-! ## Packets -/

/-- The parts of a packet that both kinds have: the version, and behind the first four bytes the common header. -/
structure OspfHead where
  version : UInt8
  common : List UInt8
  version_eq : version = 2 ∨ version = 3
  common_length : common.length = if version = 2 then 20 else 12

/-- A packet of a type with what stands behind the common header. -/
def OspfHead.packet (h : OspfHead) (msgType : UInt8) (payload : List UInt8) : List UInt8 :=
  [h.version, msgType] ++ (Lib.beBytes 2 (4 + (h.common ++ payload).length) ++ (h.common ++ payload))

/-- A Hello: twenty bytes in front of the neighbors in either version, and their router ids. -/
structure OspfHello where
  head : OspfHead
  front : List UInt8
  neighbors : List (List UInt8)
  front_length : front.length = 20
  neighbors_length : ∀ n ∈ neighbors, n.length = 4
  fits : 4 + (head.common ++ (front ++ neighbors.flatten)).length < 65536

/-- The Hello as it is sent. -/
def OspfHello.bytes (h : OspfHello) : List UInt8 := h.head.packet 1 (h.front ++ h.neighbors.flatten)

/-- A link state advertisement: its header without the length, and its body. -/
structure Lsa where
  front : List UInt8
  body : List UInt8
  front_length : front.length = 18
  fits : 20 + body.length < 65536

namespace Lsa

/-- The header of the advertisement, whose last word is the length. -/
def header (l : Lsa) : List UInt8 := l.front ++ Lib.beBytes 2 (20 + l.body.length)

/-- The advertisement as it is sent. -/
def bytes (l : Lsa) : List UInt8 := l.header ++ l.body

end Lsa

/-- A Link State Update. -/
structure OspfUpdate where
  head : OspfHead
  lsas : List Lsa
  fits : 4 + (head.common ++ (Lib.beBytes 4 lsas.length ++ lsas.flatMap Lsa.bytes)).length < 65536

/-- The update as it is sent. -/
def OspfUpdate.bytes (u : OspfUpdate) : List UInt8 :=
  u.head.packet 4 (Lib.beBytes 4 u.lsas.length ++ u.lsas.flatMap Lsa.bytes)

section Ospf

variable {ctx : ParseCtx} {buf rest bytes : List UInt8}

theorem fixed_commonHeader (version : UInt8) : Fixed (if version = 2 then 20 else 12) (commonHeader version) := by
  by_cases h : version = 2
  · rw [if_pos h]
    refine (fixed_take 4).bind (m := 16) fun _ => (fixed_take 4).bind (m := 12) fun _ =>
      fixed_u16Be.bind (m := 10) fun _ => ?_
    rw [if_pos h]
    exact fixed_u16Be.bind (m := 8) fun _ => (fixed_take 8).map _
  · rw [if_neg h]
    refine (fixed_take 4).bind (m := 8) fun _ => (fixed_take 4).bind (m := 4) fun _ =>
      fixed_u16Be.bind (m := 2) fun _ => ?_
    rw [if_neg h]
    exact fixed_u8.bind (m := 1) fun _ => fixed_u8.map _

theorem fixed_helloV2 : Fixed 20 helloV2 :=
  (fixed_take 4).bind (m := 16) fun _ => fixed_u16Be.bind (m := 14) fun _ => fixed_u8.bind (m := 13) fun _ =>
    fixed_u8.bind (m := 12) fun _ => fixed_u32Be.bind (m := 8) fun _ => (fixed_take 4).bind (m := 4) fun _ =>
      (fixed_take 4).map _

theorem fixed_helloV3 : Fixed 20 helloV3 :=
  fixed_u32Be.bind (m := 16) fun _ => fixed_u8.bind (m := 15) fun _ => (fixed_take 3).bind (m := 12) fun _ =>
    fixed_u16Be.bind (m := 10) fun _ => fixed_u16Be.bind (m := 8) fun _ => (fixed_take 4).bind (m := 4) fun _ =>
      (fixed_take 4).map _

theorem progresses_neighbor : ItemProgresses neighbor :=
  fun _ _ _ _ h => (takes_take 4).bind_lt (by decide) (fun _ => exact_pure _) h

/-- Neighbors are read up to the end. -/
theorem whileLeft_neighbors {ns : List (List UInt8)} (h : ∀ n ∈ ns, n.length = 4) :
    whileLeft 1 neighbor [] ns.flatten = .ok (ns, []) := by
  have hwalk : whileLeft 1 neighbor [] (ns.flatMap id ++ []) = .ok (ns.foldl (fun out n => out ++ [n]) [], []) :=
    whileLeft_flatMap progresses_neighbor _ (fun n hn => (h n hn).symm ▸ (by decide : 1 ≤ 4))
      (fun n hn out => reads_map (reads_take_of_length (h n hn)) _) [] Nat.one_pos
  rw [foldl_snoc (fun n : List UInt8 => n), List.append_nil] at hwalk
  simpa using hwalk

theorem Lsa.header_length (l : Lsa) : l.header.length = lsaHeaderLen := by
  rw [Lsa.header, List.length_append, Lib.length_beBytes, l.front_length, lsaHeaderLen]

/-- The length is the last word of the header. -/
theorem reads_lsaLength (l : Lsa) : Reads lsaLength l.header (20 + l.body.length) := by
  have hfront := l.front_length
  have hlen : l.header.length = 20 := l.header_length
  apply fixed_u16Be.reads (by omega)
  intro _
  apply fixed_u16Be.reads (by rw [List.length_drop]; omega)
  intro _
  apply (fixed_take 4).reads (by simp only [List.length_drop]; omega)
  intro _
  apply (fixed_take 4).reads (by simp only [List.length_drop]; omega)
  intro _
  apply fixed_u32Be.reads (by simp only [List.length_drop]; omega)
  intro _
  apply fixed_u16Be.reads (by simp only [List.length_drop]; omega)
  intro _
  simp only [List.drop_drop, Nat.reduceAdd]
  rw [Lsa.header, List.drop_left' hfront]
  have hword := reads_map (reads_u16Be (20 + l.body.length)) UInt16.toNat
  rwa [UInt16.toNat_ofNat_of_lt' l.fits] at hword

theorem reads_advertisement (l : Lsa) : Reads advertisement l.bytes l.header := by
  have hlength : lsaLength.parse l.header = .ok (20 + l.body.length) := by
    have h := (reads_lsaLength l).parse []
    rwa [List.append_nil] at h
  apply (reads_take_of_length l.header_length).bind
  rw [hlength]
  refine Reads.bind_nil (a := 20 + l.body.length) (fun _ => rfl) (.guard (by simp [lsaHeaderLen]) ?_)
  rw [lsaHeaderLen, Nat.add_sub_cancel_left]
  exact reads_map (reads_take l.body) _

theorem reads_advertisements (ls : List Lsa) (out : List (List UInt8)) :
    Reads (advertisements ls.length out) (ls.flatMap Lsa.bytes) (out ++ ls.map Lsa.header) := by
  induction ls generalizing out with
  | nil =>
      rw [List.map_nil, List.append_nil]
      exact reads_pure out
  | cons l ls ih =>
      have hrest := ih (out ++ [l.header])
      rw [List.append_assoc] at hrest
      exact (reads_advertisement l).bind hrest

theorem honestHeader_ospf : HonestHeader ospf := by
  refine honestHeader_of_exact (r := parseOspf) (fun _ _ => rfl) ?_ ?_ fun _ => ⟨_, rfl⟩
  · intro ctx
    refine exact_u8.bind fun version => .guard (exact_u8.bind fun msgType => exact_u16Be.bind fun length => .guard ?_)
    exact (exact_take _).bind fun _ => (exact_liftM _).bind fun _ => exact_pure _
  · intro ctx
    refine takes_u8.bind fun version => .guard fun _ => takes_u8.bind fun msgType => takes_u16Be.bind fun length =>
      .guard fun hlen => ?_
    refine (takes_take _).bind fun _ => (takes_liftM _).bind fun _ => counts_pure ?_
    simp only
    omega

/-- The length word of a packet. -/
theorem parse_ospf_eq_ok {layer : ParsedLayer} (h : ospf.parse bytes ctx = .ok layer) :
    ∃ front word behind, bytes = front ++ (word ++ behind) ∧ front.length = 2 ∧ word.length = 2 ∧
      layer.headerLen = fromBeBytes word := by
  obtain ⟨rest, hread⟩ := parse_eq_ok.1 h
  obtain ⟨version, buf₁, hversion, hread⟩ := bind_eq_ok.1 hread
  split at hread
  · cases hread
  · obtain ⟨msgType, buf₂, htype, hread⟩ := bind_eq_ok.1 hread
    obtain ⟨length, buf₃, hlength, hread⟩ := bind_eq_ok.1 hread
    split at hread
    · cases hread
    · obtain ⟨body, buf₄, hbody, hread⟩ := bind_eq_ok.1 hread
      obtain ⟨b, buf₅, hb, hpure⟩ := bind_eq_ok.1 hread
      obtain rfl := u8_eq_ok.1 hversion
      obtain rfl := u8_eq_ok.1 htype
      obtain ⟨word, rfl, hword, rfl⟩ := u16Be_eq_ok.1 hlength
      obtain ⟨rfl, rfl⟩ := pure_eq_ok.1 hpure
      have hlt := fromBeBytes_lt word
      rw [hword] at hlt
      exact ⟨[version, msgType], word, buf₃, rfl, rfl, hword, UInt16.toNat_ofNat_of_lt' hlt⟩

variable (ctx) in
/-- A packet whose body is read. -/
theorem parse_packet (h : OspfHead) {msgType : UInt8} {payload : List UInt8} {b : OspfBody}
    (hfits : 4 + (h.common ++ payload).length < 65536)
    (hbody : (ospfBody h.version msgType).parse (h.common ++ payload) = .ok b) (more : List UInt8) :
    ∃ layer, ospf.parse (h.packet msgType payload ++ more) ctx = .ok layer ∧ ∃ base : FieldMap,
      (∀ name, name ∉ ["version", "type", "packet_length", "router_id", "area_id"] → base.get name = none) ∧
        layer.fields = insertAt ctx .full (b.full msgType) base := by
  have hlen : (UInt16.ofNat (4 + (h.common ++ payload).length)).toNat = 4 + (h.common ++ payload).length :=
    UInt16.toNat_ofNat_of_lt' hfits
  -- Both versions share these four bytes: what follows is sized by the length, whatever the type.
  have hversion : ¬(h.version ≠ 2 ∧ h.version ≠ 3) := by
    rcases h.version_eq with hv | hv <;> simp [hv]
  have hread : ∃ layer, parseOspf ctx (h.packet msgType payload ++ more) = .ok (layer, more) ∧ ∃ base : FieldMap,
      (∀ name, name ∉ ["version", "type", "packet_length", "router_id", "area_id"] → base.get name = none) ∧
        layer.fields = insertAt ctx .full (b.full msgType) base := by
    rw [parseOspf, OspfHead.packet, List.append_assoc, List.cons_append, bind_of_ok (u8_cons ..), if_neg hversion]
    beta_reduce
    rw [List.cons_append, bind_of_ok (u8_cons ..), List.nil_append, List.append_assoc, bind_of_ok (reads_u16Be _ _),
      if_neg (by rw [hlen]; omega)]
    beta_reduce
    rw [hlen, Nat.add_sub_cancel_left, bind_of_ok (reads_take (h.common ++ payload) more), hbody]
    refine ⟨_, rfl, _, ?_, rfl⟩
    intro name hname
    simp only [List.mem_cons, List.not_mem_nil, or_false, not_or] at hname
    rw [get_insertAt (by simp [hname])]
    rfl
  obtain ⟨layer, hlayer, hfields⟩ := hread
  exact ⟨layer, parse_eq_ok.2 ⟨more, hlayer⟩, hfields⟩

/-- The neighbors of a Hello are reported in order. -/
theorem parse_ospf_hello (h : OspfHello) (more : List UInt8) :
    ∃ layer, ospf.parse (h.bytes ++ more) ctx = .ok layer ∧ (ctx.depth = .full →
      layer.fields.get "neighbors" = some (.list (h.neighbors.map .bytes))) := by
  obtain ⟨ids, hids⟩ := fixed_commonHeader h.head.version h.head.common h.head.common_length
  have hhello : Fixed 20 (if h.head.version = 2 then helloV2 else helloV3) := by
    split
    · exact fixed_helloV2
    · exact fixed_helloV3
  obtain ⟨hello, hfront⟩ := hhello h.front h.front_length
  have hbody : ∃ b, (ospfBody h.head.version 1).parse (h.head.common ++ (h.front ++ h.neighbors.flatten)) = .ok b ∧
      b.neighbors = h.neighbors := by
    have hread : ∃ b, ospfBody h.head.version 1 (h.head.common ++ (h.front ++ h.neighbors.flatten)) = .ok (b, []) ∧
        b.neighbors = h.neighbors := by
      rw [ospfBody, bind_of_ok (hids _)]
      dsimp only
      rw [if_pos rfl]
      -- The two hellos differ in their fixed part only; the neighbour list behind it is read by one loop.
      by_cases hv : h.head.version = 2
      · rw [if_pos hv] at hfront ⊢
        rw [bind_of_ok (hfront _), bind_of_ok (whileLeft_neighbors h.neighbors_length)]
        exact ⟨_, rfl, rfl⟩
      · rw [if_neg hv] at hfront ⊢
        rw [bind_of_ok (hfront _), bind_of_ok (whileLeft_neighbors h.neighbors_length)]
        exact ⟨_, rfl, rfl⟩
    obtain ⟨b, hb, hns⟩ := hread
    exact ⟨b, parse_eq_ok.2 ⟨[], hb⟩, hns⟩
  obtain ⟨b, hb, hns⟩ := hbody
  obtain ⟨layer, hlayer, base, hbase, hfields⟩ := parse_packet ctx h.head h.fits hb more
  refine ⟨layer, hlayer, fun hctx => ?_⟩
  have hfull : atDepth ctx .full = true := atDepth_of_depth hctx .full
  rw [hfields, OspfBody.full, if_pos rfl, hns, List.append_assoc, List.append_assoc]
  exact get_insertAt_field hfull (some _) (by simp) (by simp) (hbase _ (by decide))

/-- The headers of the advertisements of an update are reported in order. -/
theorem parse_ospf_update (u : OspfUpdate) (more : List UInt8) :
    ∃ layer, ospf.parse (u.bytes ++ more) ctx = .ok layer ∧ (ctx.depth = .full →
      layer.fields.get "lsa_headers" = some (.list (u.lsas.map fun l => .bytes l.header))) := by
  obtain ⟨ids, hids⟩ := fixed_commonHeader u.head.version u.head.common u.head.common_length
  have hcount : (UInt32.ofNat u.lsas.length).toNat = u.lsas.length := by
    -- each advertisement takes at least twenty bytes of the packet
    have hone : ∀ n ∈ u.lsas.map fun l => l.bytes.length, 1 ≤ n := by
      intro n hn
      obtain ⟨l, -, rfl⟩ := List.mem_map.1 hn
      rw [Lsa.bytes, List.length_append, l.header_length, lsaHeaderLen]
      omega
    have hsum := List.length_le_sum_of_one_le _ hone
    have hfits := u.fits
    rw [List.length_map] at hsum
    rw [List.length_append, List.length_append, List.length_flatMap] at hfits
    exact UInt32.toNat_ofNat_of_lt' (show u.lsas.length < 4294967296 by omega)
  have hbody : ∃ b, (ospfBody u.head.version 4).parse
      (u.head.common ++ (Lib.beBytes 4 u.lsas.length ++ u.lsas.flatMap Lsa.bytes)) = .ok b ∧
        b.lsaHeaders = u.lsas.map Lsa.header := by
    have hread : ∃ b, ospfBody u.head.version 4
        (u.head.common ++ (Lib.beBytes 4 u.lsas.length ++ u.lsas.flatMap Lsa.bytes)) = .ok (b, []) ∧
          b.lsaHeaders = u.lsas.map Lsa.header := by
      have hlsas := reads_advertisements u.lsas [] []
      rw [List.append_nil] at hlsas
      rw [ospfBody, bind_of_ok (hids _)]
      dsimp only
      rw [if_neg (by decide), if_neg (by decide), if_pos rfl, bind_of_ok (reads_u32Be _ _), hcount, bind_of_ok hlsas]
      exact ⟨_, rfl, rfl⟩
    obtain ⟨b, hb, hls⟩ := hread
    exact ⟨b, parse_eq_ok.2 ⟨[], hb⟩, hls⟩
  obtain ⟨b, hb, hls⟩ := hbody
  obtain ⟨layer, hlayer, base, hbase, hfields⟩ := parse_packet ctx u.head u.fits hb more
  refine ⟨layer, hlayer, fun hctx => ?_⟩
  have hfull : atDepth ctx .full = true := atDepth_of_depth hctx .full
  have hget := @get_insertAt_field ctx .full
    ((b.helloInterval.toList.map fun v => ("hello_interval", .u64 v.toUInt64)) ++
      (b.routerDeadInterval.toList.map fun v => ("router_dead_interval", .u64 v.toUInt64)) ++
      (b.designatedRouter.toList.map fun v => ("designated_router", .bytes v)) ++ [] ++
      (b.interfaceMtu.toList.map fun v => ("interface_mtu", .u64 v.toUInt64)) ++
      (b.ddSequence.toList.map fun v => ("dd_sequence", .u64 v.toUInt64)))
    [] "lsa_headers" base hfull (some (Value.list (u.lsas.map fun l => .bytes l.header))) (by simp) (by simp)
    (hbase _ (by decide))
  rw [hfields, OspfBody.full, if_neg (by decide), if_pos rfl, hls, List.map_map]
  rw [List.append_nil] at hget
  exact hget

/-- A Hello of version 2 from a router that knows one neighbor. -/
def ospfHello : OspfHello where
  head := ⟨2, [10, 0, 0, 1, 0, 0, 0, 0, 0, 0, 0, 0, 0, 0, 0, 0, 0, 0, 0, 0], .inl rfl, rfl⟩
  front := [255, 255, 255, 0, 0, 10, 2, 1, 0, 0, 0, 40, 10, 0, 0, 1, 0, 0, 0, 0]
  neighbors := [[10, 0, 0, 2]]
  front_length := rfl
  neighbors_length := by simp
  fits := by simp

example : (ospf.parse ospfHello.bytes ⟨[], .full, ⟨0, 48, 48, 1⟩⟩).toOption.map (fun layer =>
    (layer.headerLen, layer.fields.get "hello_interval", layer.fields.get "neighbors")) =
    some (48, some (.u64 10), some (.list [.bytes [10, 0, 0, 2]])) := by
  decide

end Ospf

end Pktflow.Plugins

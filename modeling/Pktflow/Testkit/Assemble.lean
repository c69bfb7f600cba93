import Pktflow.Core.Trailer
import Pktflow.Plugins.Checksum
import Pktflow.Plugins.Encapsulation
import Pktflow.Plugins.Ethernet
import Pktflow.Plugins.Tagging

/-!
# Assembled packets

Model of `assemble` and what it calls (`pktflow-testkit/src/lib.rs`): the wire bytes of a stack of layers, with its
lengths, next-protocol fields and checksums. A layer is materialised when what it carries is, from the inside out; a
length that does not fit its field panics.
-/

set_option autoImplicit false

namespace Pktflow.Testkit

open Pktflow.Core Pktflow.Core.ByteReader Pktflow.Lib Pktflow.Plugins

/-- `[u8; N]`. -/
abbrev Octets (n : Nat) := { bytes : List UInt8 // bytes.length = n }

def octets4 (a b c d : UInt8) : Octets 4 := ⟨[a, b, c, d], rfl⟩

/-- `Layer`. -/
inductive Layer where
  | eth (src dst : Octets 6)
  | vlan (vid tpid : UInt16)
  | ipv4 (src dst : Octets 4)
  | vxlan (vni : UInt32)
  | tcp (sport dport : UInt16) (flags : UInt8) (seq ack : UInt32)
  | udp (sport dport : UInt16)
  | gre
  | payload (bytes : List UInt8)
  | rawNext (protocol : UInt8) (bytes : List UInt8)
  deriving DecidableEq

/-- `ether_type_of`. -/
def etherTypeOf : Layer → UInt16
  | .vlan _ tpid => tpid
  | .ipv4 _ _ => 0x0800
  | _ => 0x9999

/-- `next.map_or(0x9999, ether_type_of)`. -/
def nextEtherType (next : Option Layer) : UInt16 := next.elim 0x9999 etherTypeOf

/-- `ip_proto_of`. -/
def ipProtoOf : Option Layer → UInt8
  | some (.tcp _ _ _ _ _) => 6
  | some (.udp _ _) => 17
  | some .gre => 47
  | some (.ipv4 _ _) => 4
  | some (.rawNext protocol _) => protocol
  | _ => 253

/-! ## Checksums -/

/-- The body of the loops of `internet_checksum`: bytes are paired across the chunks. -/
def sumByte (s : UInt32 × Option UInt8) (b : UInt8) : Option (UInt32 × Option UInt8) :=
  match s.2 with
  | none => some (s.1, some b)
  | some hi => (Checksum.addWord s.1 (UInt16.ofNat (fromBeBytes [hi, b]))).map fun sum => (sum, none)

/-- `internet_checksum`, over chunks. -/
def internetChecksum (chunks : List (List UInt8)) : Option UInt16 := do
  let (sum, carry) ← chunks.foldlM (fun s chunk => chunk.foldlM sumByte s) (0, none)
  let sum ← match carry with
    | none => some sum
    | some hi => Checksum.addWord sum (UInt16.ofNat (fromBeBytes [hi, 0]))
  return ~~~(Checksum.foldLoop sum).toUInt16

/-- `u16::try_from(n).expect(..)`. -/
def fitsU16 (n : Nat) : Option UInt16 := if n < 2 ^ 16 then some (UInt16.ofNat n) else none

/-- The addresses of a layer that encloses a transport header. -/
def addressesOf : Layer → Option (List UInt8)
  | .ipv4 src dst => some (src.val ++ dst.val)
  | _ => none

/-- The pseudo header of a segment. -/
def pseudoHeader (addresses : List UInt8) (proto : UInt8) (segLen : UInt16) : List UInt8 :=
  addresses ++ ([0, proto] ++ beBytes 2 segLen.toNat)

/-- `transport_checksum`, over the layers outside. -/
def transportChecksum (outer : List Layer) (proto : UInt8) (header body : List UInt8) : Option UInt16 :=
  match outer.reverse.findSome? addressesOf with
  | none => some 0
  | some addresses => do
      let segLen ← fitsU16 (header.length + body.length)
      internetChecksum [pseudoHeader addresses proto segLen, header, body]

/-! ## Headers -/

/-- The header of an IPv4 layer, but for its checksum. -/
def ipv4Front (total : UInt16) (proto : UInt8) : List UInt8 :=
  [0x45, 0] ++ (beBytes 2 total.toNat ++ [0x00, 0x00, 0x40, 0x00, 64, proto])

/-- The header of a UDP layer, but for its checksum. -/
def udpFront (sport dport len : UInt16) : List UInt8 :=
  beBytes 2 sport.toNat ++ (beBytes 2 dport.toNat ++ beBytes 2 len.toNat)

/-- The header of a TCP layer before its checksum. -/
def tcpFront (sport dport : UInt16) (flags : UInt8) (seq ack : UInt32) : List UInt8 :=
  beBytes 2 sport.toNat ++ (beBytes 2 dport.toNat ++ (beBytes 4 seq.toNat ++ (beBytes 4 ack.toNat ++
    ([0x50, flags] ++ beBytes 2 8192))))

/-- What a layer puts in front of what it carries. -/
def headerBytes (outer : List Layer) (layer : Layer) (next : Option Layer) (body : List UInt8) : Option (List UInt8) :=
  match layer with
  | .payload bytes => some bytes
  | .rawNext _ bytes => some bytes
  | .eth src dst => some (dst.val ++ (src.val ++ beBytes 2 (nextEtherType next).toNat))
  | .vlan vid _ => some (beBytes 2 (vid &&& 0x0FFF).toNat ++ beBytes 2 (nextEtherType next).toNat)
  | .gre => some (beBytes 2 0 ++ beBytes 2 (nextEtherType next).toNat)
  | .vxlan vni => some ([0x08] ++ ([0, 0, 0] ++ ((beBytes 4 vni.toNat).drop 1 ++ [0])))
  | .ipv4 src dst => do
      let total ← fitsU16 (20 + body.length)
      let front := ipv4Front total (ipProtoOf next)
      let back := src.val ++ dst.val
      let ck ← internetChecksum [front ++ ([0, 0] ++ back)]
      return front ++ (beBytes 2 ck.toNat ++ back)
  | .udp sport dport => do
      let len ← fitsU16 (8 + body.length)
      let front := udpFront sport dport len
      let ck ← transportChecksum outer 17 (front ++ [0, 0]) body
      -- zero on the wire says that there is no checksum
      let ck := if ck = 0 then 0xFFFF else ck
      return front ++ beBytes 2 ck.toNat
  | .tcp sport dport flags seq ack => do
      let front := tcpFront sport dport flags seq ack
      let ck ← transportChecksum outer 6 (front ++ [0, 0, 0, 0]) body
      return front ++ (beBytes 2 ck.toNat ++ [0, 0])

/-- `assemble`, over the layers from some point on, and those outside. -/
def assembleFrom (outer : List Layer) : List Layer → Option (List UInt8)
  | [] => some []
  | layer :: rest => do
      let body ← assembleFrom (outer ++ [layer]) rest
      let header ← headerBytes outer layer rest.head? body
      return header ++ body

/-- `assemble`. -/
def assemble (layers : List Layer) : Option (List UInt8) := assembleFrom [] layers

/-! ## The two checksums of the repository -/

theorem foldlM_flatten {σ : Type} (f : σ → UInt8 → Option σ) (chunks : List (List UInt8)) (s : σ) :
    chunks.foldlM (fun s chunk => chunk.foldlM f s) s = chunks.flatten.foldlM f s := by
  induction chunks generalizing s with
  | nil => rfl
  | cons chunk chunks ih =>
      rw [List.foldlM_cons, List.flatten_cons, List.foldlM_append]
      exact congrArg _ (funext ih)

/-- The pairing of the bytes, with the last one padded, is the sum of the words. -/
theorem foldlM_sumByte (bytes : List UInt8) (sum : UInt32) :
    (bytes.foldlM sumByte (sum, none) >>= fun s => match s.2 with
      | none => some s.1
      | some hi => Checksum.addWord s.1 (UInt16.ofNat (fromBeBytes [hi, 0]))) =
      (Checksum.words bytes).foldlM Checksum.addWord sum := by
  induction bytes using Checksum.words.induct generalizing sum with
  | case1 => rfl
  | case2 last =>
      simp [sumByte, Checksum.words]
  | case3 hi lo rest ih =>
      simp only [List.foldlM_cons, sumByte, Checksum.words, Option.bind_eq_bind, Option.bind_some]
      cases hword : Checksum.addWord sum (UInt16.ofNat (fromBeBytes [hi, lo])) with
      | none => rfl
      | some sum' =>
          simp only [Option.map_some, Option.bind_some]
          exact ih sum'

/-- The checksum over chunks is that of their concatenation, wherever they are cut. -/
theorem internetChecksum_flatten (chunks : List (List UInt8)) :
    internetChecksum chunks = Checksum.internetChecksum chunks.flatten := by
  rw [internetChecksum, foldlM_flatten, Checksum.internetChecksum, Checksum.accumulate, ← foldlM_sumByte]
  cases chunks.flatten.foldlM sumByte ((0 : UInt32), none) with
  | none => rfl
  | some s =>
      obtain ⟨sum, carry⟩ := s
      cases carry with
      | none => rfl
      | some hi =>
          cases hword : Checksum.addWord sum (UInt16.ofNat (fromBeBytes [hi, 0])) <;> simp [hword]

/-! ## The checksums of an assembled packet -/

section Verifying

open Checksum (FieldString wordSum)

/-- Where the checksum is zero, all ones in the field verify as well. -/
theorem withField_ones {s : FieldString} (h : Checksum.internetChecksum (s.withField 0) = some 0) :
    Checksum.internetChecksum (s.withField 0xFFFF) = some 0 := by
  have hshort : ∀ w, (s.withField w).length < 2 ^ 17 := fun w => (Checksum.length_withField s w).symm ▸ s.short
  obtain ⟨hne, hmod⟩ := (Checksum.internetChecksum_eq_zero (hshort 0)).1 h
  apply (Checksum.internetChecksum_eq_zero (hshort 0xFFFF)).2
  have hzero := Checksum.wordSum_split (Checksum.words_withField s 0)
  have hones := Checksum.wordSum_split (Checksum.words_withField s 0xFFFF)
  rw [show (0 : UInt16).toNat = 0 from rfl] at hzero
  rw [show (0xFFFF : UInt16).toNat = 65535 from rfl] at hones
  have hsum : wordSum (s.withField 0xFFFF) = wordSum (s.withField 0) + 65535 := by omega
  rw [hsum]
  refine ⟨Nat.succ_ne_zero _, ?_⟩
  exact (Nat.add_modEq_right (n := 65535)).trans hmod

theorem fitsU16_eq_some {n : Nat} {w : UInt16} (h : fitsU16 n = some w) : n < 2 ^ 16 ∧ w = UInt16.ofNat n := by
  rw [fitsU16] at h
  split at h
  · exact ⟨‹_›, (Option.some.inj h).symm⟩
  · cases h

/-- A segment is verified with the pseudo header of the addresses outside. -/
def SegmentVerifies (outer : List Layer) (proto : UInt8) (segment : List UInt8) : Prop :=
  ∀ addresses, outer.reverse.findSome? addressesOf = some addresses → segment.length < 2 ^ 16 ∧
    Checksum.internetChecksum (pseudoHeader addresses proto (UInt16.ofNat segment.length) ++ segment) = some 0

/-- The checksum of the layer in front of these bytes, as a receiver verifies it. -/
def Verifies (outer : List Layer) (segment : List UInt8) : Layer → Prop
  | .ipv4 _ _ => Checksum.internetChecksum (segment.take 20) = some 0 ∧ probeIpv4 segment = some (Confidence.new 90)
  | .udp _ _ => SegmentVerifies outer 17 segment ∧ (segment.drop 6).take 2 ≠ [0, 0]
  | .tcp _ _ _ _ _ => SegmentVerifies outer 6 segment
  | _ => True

theorem length_addressesOf {outer : List Layer} {addresses : List UInt8}
    (h : outer.reverse.findSome? addressesOf = some addresses) : addresses.length = 8 := by
  obtain ⟨layer, -, hlayer⟩ := List.exists_of_findSome?_eq_some h
  cases layer with
  | ipv4 src dst =>
      obtain rfl := Option.some.inj hlayer
      rw [List.length_append, src.2, dst.2]
  | _ => cases hlayer

/-- The pseudo header and the segment, around the field of the checksum. -/
def segmentString (proto : UInt8) {addresses front back body : List UInt8} (height : addresses.length = 8)
    (heven : front.length % 2 = 0) (hlt : front.length + (2 + (back.length + body.length)) < 2 ^ 16) : FieldString where
  front :=
    pseudoHeader addresses proto (UInt16.ofNat (front.length + (2 + (back.length + body.length)))) ++ front
  back := back ++ body
  aligned := by
    simp only [pseudoHeader, List.length_append, height, length_beBytes, List.length_cons, List.length_nil]
    omega
  short := by
    simp only [pseudoHeader, List.length_append, height, length_beBytes, List.length_cons, List.length_nil]
    omega

/-- The checksum of a segment, put into its field, verifies; and so do all ones where it is zero. -/
theorem segment_verifies {outer : List Layer} {proto : UInt8} {front back body : List UInt8} {ck : UInt16}
    (heven : front.length % 2 = 0) (h : transportChecksum outer proto (front ++ ([0, 0] ++ back)) body = some ck) :
    SegmentVerifies outer proto (front ++ (beBytes 2 ck.toNat ++ (back ++ body))) ∧
      (ck = 0 → SegmentVerifies outer proto (front ++ (beBytes 2 (0xFFFF : UInt16).toNat ++ (back ++ body)))) := by
  cases haddresses : outer.reverse.findSome? addressesOf with
  | none =>
      refine ⟨fun addresses hsome => ?_, fun _ addresses hsome => ?_⟩
      · rw [haddresses] at hsome
        cases hsome
      · rw [haddresses] at hsome
        cases hsome
  | some addresses =>
      have height := length_addressesOf haddresses
      rw [transportChecksum, haddresses] at h
      simp only [Option.bind_eq_bind, Option.bind_eq_some_iff] at h
      obtain ⟨segLen, hfits, hck⟩ := h
      obtain ⟨hlt, rfl⟩ := fitsU16_eq_some hfits
      have hlength : (front ++ ([0, 0] ++ back)).length + body.length =
          front.length + (2 + (back.length + body.length)) := by
        simp only [List.length_append, List.length_cons, List.length_nil]
        omega
      rw [hlength] at hlt hck
      have hzero : Checksum.internetChecksum ((segmentString proto height heven hlt).withField 0) = some ck := by
        rw [← hck, internetChecksum_flatten, FieldString.withField]
        simp only [List.flatten_cons, List.flatten_nil, List.append_nil, List.append_assoc]
        simp [segmentString, beBytes]
      have hverifies : ∀ w, Checksum.internetChecksum ((segmentString proto height heven hlt).withField w) = some 0 →
          SegmentVerifies outer proto (front ++ (beBytes 2 w.toNat ++ (back ++ body))) := by
        intro w hw addresses' hsome
        obtain rfl := Option.some.inj (haddresses.symm.trans hsome)
        have hsegment : (front ++ (beBytes 2 w.toNat ++ (back ++ body))).length =
            front.length + (2 + (back.length + body.length)) := by
          simp only [List.length_append, length_beBytes]
        rw [hsegment]
        refine ⟨hlt, ?_⟩
        rwa [FieldString.withField, segmentString, List.append_assoc] at hw
      obtain ⟨c, hc, hfield⟩ := Checksum.internetChecksum_withField (segmentString proto height heven hlt)
      obtain rfl := Option.some.inj (hc.symm.trans hzero)
      refine ⟨hverifies _ hfield, fun hck0 => hverifies _ ?_⟩
      apply withField_ones
      rw [hzero, hck0]

/-- The header of an IPv4 layer around the field of the checksum. -/
def ipv4String (total : UInt16) (proto : UInt8) (src dst : Octets 4) : FieldString where
  front := ipv4Front total proto
  back := src.val ++ dst.val
  aligned := by simp [ipv4Front]
  short := by simp [ipv4Front, src.2, dst.2]

/-- The header of an assembled IPv4 packet sums to zero, and the probe of its plugin takes the packet. -/
theorem ipv4_verifies {total : UInt16} {proto : UInt8} {src dst : Octets 4} {body : List UInt8} {ck : UInt16}
    (htotal : fitsU16 (20 + body.length) = some total)
    (hck : internetChecksum [ipv4Front total proto ++ ([0, 0] ++ (src.val ++ dst.val))] = some ck)
    {header : List UInt8} (hheader : header = ipv4Front total proto ++ (beBytes 2 ck.toNat ++ (src.val ++ dst.val))) :
    Checksum.internetChecksum ((header ++ body).take 20) = some 0 ∧
      probeIpv4 (header ++ body) = some (Confidence.new 90) := by
  obtain ⟨hlt, rfl⟩ := fitsU16_eq_some htotal
  have hlength : header.length = 20 := by simp [hheader, ipv4Front, src.2, dst.2]
  obtain ⟨c, hc, hfield⟩ := Checksum.internetChecksum_withField
    (ipv4String (UInt16.ofNat (20 + body.length)) proto src dst)
  rw [internetChecksum_flatten, List.flatten_singleton] at hck
  obtain rfl := Option.some.inj (hc.symm.trans hck)
  have hzero : Checksum.internetChecksum header = some 0 := by
    rw [hheader]
    exact hfield
  have htake : (header ++ body).take 20 = header := by rw [← hlength, List.take_left]
  rw [htake]
  refine ⟨hzero, ?_⟩
  have hfirst : (header ++ body).head? = some 0x45 := by
    rw [hheader]
    rfl
  have htotal' : fromBeBytes (((header ++ body).drop 2).take 2) = (header ++ body).length := by
    have hfield' : ((header ++ body).drop 2).take 2 = beBytes 2 (20 + body.length) := by
      rw [hheader, ipv4Front, UInt16.toNat_ofNat_of_lt' hlt]
      rfl
    rw [hfield', fromBeBytes_beBytes, Nat.mod_eq_of_lt (show _ < 256 ^ 2 from hlt), List.length_append, hlength]
  have hlen : (header ++ body).length = 20 + body.length := by rw [List.length_append, hlength]
  have hversion : ((0x45 : UInt8) >>> 4 = 4 ∧ 5 ≤ (0x45 : UInt8) &&& 0x0F) := by decide
  rw [probeIpv4, hfirst]
  simpa [htotal', hlen, htake, hzero] using hversion

theorem assembleFrom_split {outer front rest : List Layer} {bytes : List UInt8}
    (h : assembleFrom outer (front ++ rest) = some bytes) :
    ∃ heads segment, bytes = heads ++ segment ∧ assembleFrom (outer ++ front) rest = some segment := by
  induction front generalizing outer bytes with
  | nil => exact ⟨[], bytes, rfl, by rwa [List.append_nil]⟩
  | cons layer front ih =>
      rw [List.cons_append, assembleFrom] at h
      simp only [Option.bind_eq_bind, Option.bind_eq_some_iff] at h
      obtain ⟨body, hbody, header, -, hjoin⟩ := h
      obtain rfl := Option.some.inj hjoin
      obtain ⟨heads, segment, rfl, hsegment⟩ := ih hbody
      refine ⟨header ++ heads, segment, (List.append_assoc _ _ _).symm, ?_⟩
      rwa [List.append_assoc, List.singleton_append] at hsegment

theorem udpField_ne_zero {sport dport len w : UInt16} {body : List UInt8} (hw : w ≠ 0) :
    ((udpFront sport dport len ++ (beBytes 2 w.toNat ++ body)).drop 6).take 2 ≠ [0, 0] := by
  have hfield : ((udpFront sport dport len ++ (beBytes 2 w.toNat ++ body)).drop 6).take 2 = beBytes 2 w.toNat := rfl
  rw [hfield]
  intro hzero
  apply hw
  apply UInt16.toNat_inj.1
  exact beBytes_inj (n := w.toNat) (m := 0) w.toNat_lt (by decide) hzero

/-- The checksum of the layer whose header is in front verifies. -/
theorem header_verifies {outer : List Layer} {layer : Layer} {next : Option Layer} {body header : List UInt8}
    (h : headerBytes outer layer next body = some header) : Verifies outer (header ++ body) layer := by
  cases layer with
  | ipv4 src dst =>
      simp only [headerBytes, Option.bind_eq_bind, Option.bind_eq_some_iff] at h
      obtain ⟨total, htotal, ck, hck, hheader⟩ := h
      exact ipv4_verifies htotal hck (Option.some.inj hheader).symm
  | udp sport dport =>
      simp only [headerBytes, Option.bind_eq_bind, Option.bind_eq_some_iff] at h
      obtain ⟨len, hlen, ck, hck, hheader⟩ := h
      obtain rfl := Option.some.inj hheader
      have heven : (udpFront sport dport len).length % 2 = 0 := by simp [udpFront]
      obtain ⟨hsegment, hones⟩ := @segment_verifies outer 17 _ [] body ck heven hck
      rw [List.append_assoc]
      by_cases hzero : ck = 0
      · rw [if_pos hzero]
        exact ⟨hones hzero, udpField_ne_zero (by decide)⟩
      · rw [if_neg hzero]
        exact ⟨hsegment, udpField_ne_zero hzero⟩
  | tcp sport dport flags seq ack =>
      simp only [headerBytes, Option.bind_eq_bind, Option.bind_eq_some_iff] at h
      obtain ⟨ck, hck, hheader⟩ := h
      obtain rfl := Option.some.inj hheader
      have heven : (tcpFront sport dport flags seq ack).length % 2 = 0 := by simp [tcpFront]
      have hsegment := (@segment_verifies outer 6 _ [0, 0] body ck heven hck).1
      show SegmentVerifies outer 6 _
      rwa [List.append_assoc, List.append_assoc]
  | _ => trivial

/-- Wherever a layer stands in an assembled packet, its checksum verifies: the header of IPv4 sums to zero, so that the
probe of the plugin takes the packet, and a TCP segment and a UDP datagram, whose checksum is never absent, verify with
the pseudo header of the nearest IPv4 layer outside. -/
theorem assembled_verifies {front rest : List Layer} {layer : Layer} {bytes : List UInt8}
    (h : assemble (front ++ layer :: rest) = some bytes) :
    ∃ heads segment, bytes = heads ++ segment ∧ assembleFrom front (layer :: rest) = some segment ∧
      Verifies front segment layer := by
  obtain ⟨heads, segment, hbytes, hsegment⟩ := assembleFrom_split h
  refine ⟨heads, segment, hbytes, hsegment, ?_⟩
  rw [List.nil_append, assembleFrom] at hsegment
  simp only [Option.bind_eq_bind, Option.bind_eq_some_iff] at hsegment
  obtain ⟨body, -, header, hheader, hjoin⟩ := hsegment
  obtain rfl := Option.some.inj hjoin
  exact header_verifies hheader

/-- The IPv4 layer of a datagram that sums to zero, and has all ones for its checksum. -/
def zeroSumHost : Layer := .ipv4 (octets4 10 0 0 1) (octets4 10 0 0 2)

/-- The bytes of the datagram in its packet. -/
def zeroSumBytes : List UInt8 :=
  [0x45, 0, 0, 30, 0, 0, 64, 0, 64, 17, 38, 205, 10, 0, 0, 1, 10, 0, 0, 2, 0, 53, 0, 53, 0, 10, 0xFF, 0xFF, 0xEB, 0x6D]

/-- The datagram verifies with all ones in its field. -/
theorem assembled_verifies_zeroSum :
    assemble ([zeroSumHost] ++ .udp 53 53 :: [.payload [0xEB, 0x6D]]) = some zeroSumBytes ∧
      ∃ heads segment, zeroSumBytes = heads ++ segment ∧ Verifies [zeroSumHost] segment (.udp 53 53) := by
  have hbytes : assemble ([zeroSumHost] ++ .udp 53 53 :: [.payload [0xEB, 0x6D]]) = some zeroSumBytes := by
    decide +kernel
  obtain ⟨heads, segment, hjoin, -, hverifies⟩ := assembled_verifies hbytes
  exact ⟨hbytes, heads, segment, hjoin, hverifies⟩

end Verifying

end Pktflow.Testkit

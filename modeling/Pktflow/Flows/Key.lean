import Pktflow.Core.Stream
import Pktflow.Lib.PrefixCode

/-!
# Flow-key construction and canonicalization

Model of `pktflow-flows/src/key.rs`: a layer's extracted fields and its plugin's stream identity give
a canonical flow key and the packet's direction.

A key is the bare concatenation of the unpaired values, the smaller and the larger endpoint, without
separators. It is canonical because the value encoding delimits itself on values whose byte strings,
texts and lists are at most `u16::MAX` long at every nesting level (`encodeValue_selfDelimiting`).
-/

set_option autoImplicit false

namespace Pktflow.Flows

open Pktflow.Core Pktflow.Lib

/-- `KeyBuf`: the encoding scratch buffer. -/
abbrev KeyBuf := List UInt8

def tagBytes : UInt8 := 0
def tagU64 : UInt8 := 1
def tagI64 : UInt8 := 2
def tagBool : UInt8 := 3
def tagStr : UInt8 := 4
def tagList : UInt8 := 5

/-- `u16::try_from(n).unwrap_or(u16::MAX)`. -/
def clampU16 (n : Nat) : Nat := if n < 2 ^ 16 then n else 2 ^ 16 - 1

/-- `encode_len_prefixed`: tag, big-endian length and payload, cut at `u16::MAX` bytes. -/
def encodeLenPrefixed (tag : UInt8) (payload : List UInt8) : KeyBuf :=
  let len := clampU16 payload.length
  tag :: (beBytes 2 len ++ payload.take len)

/-- `str::as_bytes`. -/
def strBytes (s : String) : List UInt8 := s.toByteArray.data.toList

mutual

/-- `encode_value`: the bytes the source appends to its buffer. The arm for future variants of the
non-exhaustive `Value` has no value to encode. -/
def encodeValue : Value → KeyBuf
  | .bytes b => encodeLenPrefixed tagBytes b
  | .u64 n => tagU64 :: beBytes 8 n.toNat
  | .i64 n => tagI64 :: beBytes 8 n.toUInt64.toNat
  | .bool b => [tagBool, if b then 1 else 0]
  | .str s => encodeLenPrefixed tagStr (strBytes s)
  | .list vs =>
      let count := clampU16 vs.length
      tagList :: (beBytes 2 count ++ encodeTake count vs)

/-- The encodings of the first `count` values. -/
def encodeTake : Nat → List Value → KeyBuf
  | 0, _ => []
  | _ + 1, [] => []
  | count + 1, v :: vs => encodeValue v ++ encodeTake count vs

end

/-- The three buffers `flow_key` fills. -/
structure Sides where
  shared : KeyBuf := []
  sideA : KeyBuf := []
  sideB : KeyBuf := []

/-- The loop of `flow_key` over the key components. -/
def gatherSides (fields : FieldMap) : List KeyField → Sides → Except KeyError Sides
  | [], acc => .ok acc
  | kf :: rest, acc =>
      match fields.get kf.a with
      | none => .error (.missingField kf.a)
      | some va =>
          match kf.b with
          | none => gatherSides fields rest { acc with shared := acc.shared ++ encodeValue va }
          | some b =>
              match fields.get b with
              | none => .error (.missingField b)
              | some vb =>
                  gatherSides fields rest
                    { acc with
                      sideA := acc.sideA ++ encodeValue va
                      sideB := acc.sideB ++ encodeValue vb }

/-- The direction rule of `EndpointSort`: the smaller side is canonical A; equal sides are `AtoB`. -/
def Sides.direction (s : Sides) : PacketDirection :=
  if s.sideA ≤ s.sideB then .aToB else .bToA

/-- `shared ++ smaller ++ larger`. -/
def Sides.key (s : Sides) : FlowKey :=
  match s.direction with
  | .aToB => s.shared ++ s.sideA ++ s.sideB
  | .bToA => s.shared ++ s.sideB ++ s.sideA

/-- `flow_key`: canonical key and direction for one layer. -/
def flowKey (identity : StreamIdentity) (fields : FieldMap) :
    Except KeyError (FlowKey × PacketDirection) :=
  match identity.canonicalize with
  | .custom f => f fields
  | .endpointSort =>
      match gatherSides fields identity.key {} with
      | .error e => .error e
      | .ok s => .ok (s.key, s.direction)

/-! ## The value encoding delimits itself -/

/-- Every byte string, text and list inside the value is at most `u16::MAX` long. -/
inductive Short : Value → Prop
  | bytes (b : List UInt8) : b.length < 2 ^ 16 → Short (.bytes b)
  | u64 (n : UInt64) : Short (.u64 n)
  | i64 (n : Int64) : Short (.i64 n)
  | bool (b : Bool) : Short (.bool b)
  | str (s : String) : (strBytes s).length < 2 ^ 16 → Short (.str s)
  | list (vs : List Value) : vs.length < 2 ^ 16 → (∀ v ∈ vs, Short v) → Short (.list vs)

theorem clampU16_of_lt {n : Nat} (h : n < 2 ^ 16) : clampU16 n = n := if_pos h

theorem strBytes_injective : Function.Injective strBytes := by
  intro s t h
  have harr : s.toByteArray.data = t.toByteArray.data := Array.toList_inj.1 h
  exact String.toByteArray_inj.1 (ByteArray.ext harr)

theorem encodeLenPrefixed_append_inj {tag : UInt8} {p q s t : List UInt8}
    (hp : p.length < 2 ^ 16) (hq : q.length < 2 ^ 16)
    (h : encodeLenPrefixed tag p ++ s = encodeLenPrefixed tag q ++ t) : p = q ∧ s = t := by
  simp only [encodeLenPrefixed, clampU16_of_lt hp, clampU16_of_lt hq, List.take_length,
    List.cons_append, List.cons.injEq, true_and, List.append_assoc] at h
  obtain ⟨hlen, hrest⟩ := beBytes_append_inj (w := 2) (by omega) (by omega) h
  exact List.append_inj hrest hlen

/-- Taking as many encodings as there are values takes all of them. -/
theorem encodeTake_length (vs : List Value) : encodeTake vs.length vs = vs.flatMap encodeValue := by
  induction vs with
  | nil => simp [encodeTake]
  | cons v vs ih => simp [encodeTake, ih]

/-- The tag a value is encoded with. -/
def valueTag : Value → UInt8
  | .bytes _ => tagBytes
  | .u64 _ => tagU64
  | .i64 _ => tagI64
  | .bool _ => tagBool
  | .str _ => tagStr
  | .list _ => tagList

theorem encodeValue_eq_cons (v : Value) : ∃ rest, encodeValue v = valueTag v :: rest := by
  cases v <;> exact ⟨_, rfl⟩

/-- Streams that start with encodings agree on the tag of the value. -/
theorem valueTag_eq_of_append {v w : Value} {s t : List UInt8}
    (h : encodeValue v ++ s = encodeValue w ++ t) : valueTag v = valueTag w := by
  obtain ⟨r, hr⟩ := encodeValue_eq_cons v
  obtain ⟨r', hr'⟩ := encodeValue_eq_cons w
  rw [hr, hr', List.cons_append, List.cons_append] at h
  exact (List.cons.inj h).1

theorem u64_toNat_lt (n : UInt64) : n.toNat < 256 ^ 8 := n.toNat_lt

theorem delimits_bytes {b : List UInt8} (hb : b.length < 2 ^ 16) :
    Delimits Short encodeValue (.bytes b) := by
  intro w hw s t h
  have htag := valueTag_eq_of_append h
  cases hw with
  | bytes c hc =>
      obtain ⟨rfl, hst⟩ := encodeLenPrefixed_append_inj hb hc h
      exact ⟨rfl, hst⟩
  | _ =>
      simp only [valueTag] at htag
      exact absurd htag (by decide)

theorem delimits_u64 (n : UInt64) : Delimits Short encodeValue (.u64 n) := by
  intro w hw s t h
  have htag := valueTag_eq_of_append h
  cases hw with
  | u64 m =>
      simp only [encodeValue, List.cons_append, List.cons.injEq, true_and] at h
      obtain ⟨hn, hst⟩ := beBytes_append_inj (u64_toNat_lt n) (u64_toNat_lt m) h
      exact ⟨congrArg Value.u64 (UInt64.toNat_inj.1 hn), hst⟩
  | _ =>
      simp only [valueTag] at htag
      exact absurd htag (by decide)

theorem delimits_i64 (n : Int64) : Delimits Short encodeValue (.i64 n) := by
  intro w hw s t h
  have htag := valueTag_eq_of_append h
  cases hw with
  | i64 m =>
      simp only [encodeValue, List.cons_append, List.cons.injEq, true_and] at h
      obtain ⟨hn, hst⟩ := beBytes_append_inj (u64_toNat_lt _) (u64_toNat_lt _) h
      obtain ⟨n⟩ := n
      obtain ⟨m⟩ := m
      obtain rfl : n = m := UInt64.toNat_inj.1 hn
      exact ⟨rfl, hst⟩
  | _ =>
      simp only [valueTag] at htag
      exact absurd htag (by decide)

theorem delimits_bool (b : Bool) : Delimits Short encodeValue (.bool b) := by
  intro w hw s t h
  have htag := valueTag_eq_of_append h
  cases hw with
  | bool c =>
      simp only [encodeValue, List.cons_append, List.cons.injEq, true_and, List.nil_append] at h
      refine ⟨?_, h.2⟩
      cases b <;> cases c <;> simp_all
  | _ =>
      simp only [valueTag] at htag
      exact absurd htag (by decide)

theorem delimits_str {x : String} (hx : (strBytes x).length < 2 ^ 16) :
    Delimits Short encodeValue (.str x) := by
  intro w hw s t h
  have htag := valueTag_eq_of_append h
  cases hw with
  | str y hy =>
      obtain ⟨hxy, hst⟩ := encodeLenPrefixed_append_inj hx hy h
      exact ⟨congrArg Value.str (strBytes_injective hxy), hst⟩
  | _ =>
      simp only [valueTag] at htag
      exact absurd htag (by decide)

/-- The counts of two lists agree, and then their elements delimit themselves one after the other. -/
theorem delimits_list {vs : List Value} (hlen : vs.length < 2 ^ 16)
    (hvs : ∀ v ∈ vs, Delimits Short encodeValue v) : Delimits Short encodeValue (.list vs) := by
  intro w hw s t h
  have htag := valueTag_eq_of_append h
  cases hw with
  | list ws hlen' hws =>
      simp only [encodeValue, clampU16_of_lt hlen, clampU16_of_lt hlen', encodeTake_length,
        List.cons_append, List.cons.injEq, true_and, List.append_assoc] at h
      obtain ⟨hcount, hrest⟩ := beBytes_append_inj (w := 2) (by omega) (by omega) h
      obtain ⟨rfl, hst⟩ := flatMap_inj_of_delimits vs ws hvs hws hcount s t hrest
      exact ⟨rfl, hst⟩
  | _ =>
      simp only [valueTag] at htag
      exact absurd htag (by decide)

/-- The encoding of a short value delimits itself among short values. -/
theorem encodeValue_selfDelimiting : SelfDelimiting Short encodeValue := by
  intro v hv
  induction v using Value.rec' with
  | hbytes b =>
      cases hv with
      | bytes _ hb => exact delimits_bytes hb
  | hu64 n => exact delimits_u64 n
  | hi64 n => exact delimits_i64 n
  | hbool b => exact delimits_bool b
  | hstr x =>
      cases hv with
      | str _ hx => exact delimits_str hx
  | hlist vs ih =>
      cases hv with
      | list _ hlen hvs => exact delimits_list hlen fun v hv => ih v hv (hvs v hv)

/-! ## Words

The encodings themselves, also those of values that are cut, delimit themselves: a cut value has the
word of what is left of it. -/

/-- A byte string that some value is encoded as. -/
def IsWord (w : KeyBuf) : Prop := ∃ v, encodeValue v = w

theorem clampU16_lt (n : Nat) : clampU16 n < 2 ^ 16 := by
  unfold clampU16
  split <;> omega

theorem clampU16_le (n : Nat) : clampU16 n ≤ n := by
  unfold clampU16
  split <;> omega

theorem encodeLenPrefixed_word_inj {tag : UInt8} {p q s t : List UInt8}
    (h : encodeLenPrefixed tag p ++ s = encodeLenPrefixed tag q ++ t) :
    encodeLenPrefixed tag p = encodeLenPrefixed tag q ∧ s = t := by
  simp only [encodeLenPrefixed, List.cons_append, List.cons.injEq, true_and, List.append_assoc] at h ⊢
  obtain ⟨hlen, hrest⟩ := beBytes_append_inj (w := 2) (clampU16_lt _) (clampU16_lt _) h
  have htaken : (p.take (clampU16 p.length)).length = (q.take (clampU16 q.length)).length := by
    rw [List.length_take_of_le (clampU16_le _), List.length_take_of_le (clampU16_le _), hlen]
  obtain ⟨hpayload, hst⟩ := List.append_inj hrest htaken
  rw [hlen] at hpayload ⊢
  exact ⟨by rw [hpayload], hst⟩

/-- Equally many encodings are taken off one after the other. -/
theorem encodeTake_word_inj {vs ws : List Value} (hvs : ∀ v ∈ vs, Delimits IsWord id (encodeValue v)) :
    ∀ {n : Nat}, n ≤ vs.length → n ≤ ws.length → ∀ {s t : List UInt8},
      encodeTake n vs ++ s = encodeTake n ws ++ t → encodeTake n vs = encodeTake n ws ∧ s = t := by
  induction vs generalizing ws with
  | nil =>
      intro n hn _ s t h
      obtain rfl := Nat.le_zero.1 hn
      simpa [encodeTake] using h
  | cons v vs ih =>
      intro n hn hm s t h
      cases n with
      | zero => simpa [encodeTake] using h
      | succ n =>
          cases ws with
          | nil => simp at hm
          | cons w ws =>
              simp only [encodeTake, List.append_assoc] at h ⊢
              obtain ⟨hword, hrest⟩ := hvs v List.mem_cons_self _ ⟨w, rfl⟩ _ _ h
              have hword' : encodeValue v = encodeValue w := hword
              obtain ⟨htake, hst⟩ := ih (fun x hx => hvs x (List.mem_cons_of_mem v hx))
                (Nat.le_of_succ_le_succ hn) (Nat.le_of_succ_le_succ hm) hrest
              exact ⟨by rw [hword', htake], hst⟩

/-- Words delimit themselves. -/
theorem word_selfDelimiting : SelfDelimiting IsWord (id : KeyBuf → KeyBuf) := by
  rintro _ ⟨v, rfl⟩
  -- the tag at the front tells the kind of the other value, and the words of one kind are told apart by themselves
  induction v using Value.rec' with
  | hbytes b =>
      rintro _ ⟨w, rfl⟩ s t h
      have htag := valueTag_eq_of_append h
      cases w with
      | bytes c => exact encodeLenPrefixed_word_inj h
      | _ =>
          simp only [valueTag] at htag
          exact absurd htag (by decide)
  | hu64 n =>
      rintro _ ⟨w, rfl⟩ s t h
      have htag := valueTag_eq_of_append h
      cases w with
      | u64 m => exact List.append_inj h (by simp [encodeValue])
      | _ =>
          simp only [valueTag] at htag
          exact absurd htag (by decide)
  | hi64 n =>
      rintro _ ⟨w, rfl⟩ s t h
      have htag := valueTag_eq_of_append h
      cases w with
      | i64 m => exact List.append_inj h (by simp [encodeValue])
      | _ =>
          simp only [valueTag] at htag
          exact absurd htag (by decide)
  | hbool b =>
      rintro _ ⟨w, rfl⟩ s t h
      have htag := valueTag_eq_of_append h
      cases w with
      | bool c => exact List.append_inj h (by simp [encodeValue])
      | _ =>
          simp only [valueTag] at htag
          exact absurd htag (by decide)
  | hstr x =>
      rintro _ ⟨w, rfl⟩ s t h
      have htag := valueTag_eq_of_append h
      cases w with
      | str y => exact encodeLenPrefixed_word_inj h
      | _ =>
          simp only [valueTag] at htag
          exact absurd htag (by decide)
  | hlist vs ih =>
      rintro _ ⟨w, rfl⟩ s t h
      have htag := valueTag_eq_of_append h
      cases w with
      | list ws =>
          simp only [id, encodeValue, List.cons_append, List.cons.injEq, true_and, List.append_assoc]
            at h ⊢
          obtain ⟨hcount, hrest⟩ := beBytes_append_inj (w := 2) (clampU16_lt _) (clampU16_lt _) h
          rw [← hcount] at hrest ⊢
          -- both lists have the same number of elements in front, each a word by induction
          obtain ⟨htake, hst⟩ := encodeTake_word_inj ih (clampU16_le _) (hcount ▸ clampU16_le _) hrest
          exact ⟨by rw [htake], hst⟩
      | _ =>
          simp only [valueTag] at htag
          exact absurd htag (by decide)

/-- A word at the front of a stream is told from the rest. -/
theorem encodeValue_append_inj {v w : Value} {s t : List UInt8}
    (h : encodeValue v ++ s = encodeValue w ++ t) : encodeValue v = encodeValue w ∧ s = t :=
  word_selfDelimiting _ ⟨v, rfl⟩ _ ⟨w, rfl⟩ s t h

end Pktflow.Flows

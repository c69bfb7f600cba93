import Mathlib.Data.List.Basic
import Mathlib.Data.List.TakeWhile

/-!
# Text as UTF-8

Text is a list of characters, its encoding the list of their UTF-8 bytes. `slice` takes a range of byte
offsets, and fails if an end of the range is past the text or inside a character. A scan over the bytes
that stops at bytes of a kind is compared with a scan over the characters: they stop at the same place if
all bytes of the characters passed are of the other kind (`takeWhile_encode`), and else the scan over the
bytes may stop inside a character (`takeWhile_encode_inside`), where no slice ends.
-/

set_option autoImplicit false

namespace Pktflow.Lib

/-- Characters in order. -/
abbrev Text := List Char

namespace Text

/-- The bytes of a text. -/
def encode (t : Text) : List UInt8 := t.flatMap String.utf8EncodeChar

/-- The number of bytes of a text. -/
def size (t : Text) : Nat := (encode t).length

/-- The characters in the first `n` bytes. -/
def takeBytes : Text → Nat → Option Text
  | _, 0 => some []
  | [], _ + 1 => none
  | c :: t, n + 1 =>
      if c.utf8Size ≤ n + 1 then (takeBytes t (n + 1 - c.utf8Size)).map (c :: ·) else none

/-- The characters after the first `n` bytes. -/
def dropBytes : Text → Nat → Option Text
  | t, 0 => some t
  | [], _ + 1 => none
  | c :: t, n + 1 => if c.utf8Size ≤ n + 1 then dropBytes t (n + 1 - c.utf8Size) else none

/-- The characters between two byte offsets. -/
def slice (t : Text) (start stop : Nat) : Option Text :=
  if start ≤ stop then (dropBytes t start).bind fun rest => takeBytes rest (stop - start) else none

@[simp] theorem encode_nil : encode [] = [] := rfl

@[simp] theorem encode_cons (c : Char) (t : Text) :
    encode (c :: t) = String.utf8EncodeChar c ++ encode t := rfl

@[simp] theorem encode_append (t u : Text) : encode (t ++ u) = encode t ++ encode u :=
  List.flatMap_append

@[simp] theorem size_nil : size [] = 0 := rfl

@[simp] theorem size_cons (c : Char) (t : Text) : size (c :: t) = c.utf8Size + size t := by
  simp [size]

@[simp] theorem size_append (t u : Text) : size (t ++ u) = size t + size u := by
  simp [size]

theorem size_eq_zero {t : Text} (h : size t = 0) : t = [] := by
  cases t with
  | nil => rfl
  | cons c t =>
      have hpos := Char.utf8Size_pos c
      rw [size_cons] at h
      omega

/-! ## Slices -/

theorem takeBytes_cons {c : Char} {t : Text} {n : Nat} (h : c.utf8Size ≤ n) :
    takeBytes (c :: t) n = (takeBytes t (n - c.utf8Size)).map (c :: ·) := by
  have hpos := Char.utf8Size_pos c
  obtain ⟨m, rfl⟩ : ∃ m, n = m + 1 := ⟨n - 1, by omega⟩
  rw [takeBytes, if_pos h]

theorem dropBytes_cons {c : Char} {t : Text} {n : Nat} (h : c.utf8Size ≤ n) :
    dropBytes (c :: t) n = dropBytes t (n - c.utf8Size) := by
  have hpos := Char.utf8Size_pos c
  obtain ⟨m, rfl⟩ : ∃ m, n = m + 1 := ⟨n - 1, by omega⟩
  rw [dropBytes, if_pos h]

theorem takeBytes_append (t u : Text) (n : Nat) :
    takeBytes (t ++ u) (size t + n) = (takeBytes u n).map (t ++ ·) := by
  induction t with
  | nil => simp
  | cons c t ih =>
      rw [List.cons_append, size_cons, takeBytes_cons (by omega)]
      have hsub : c.utf8Size + size t + n - c.utf8Size = size t + n := by omega
      rw [hsub, ih, Option.map_map]
      rfl

theorem dropBytes_append (t u : Text) (n : Nat) : dropBytes (t ++ u) (size t + n) = dropBytes u n := by
  induction t with
  | nil => simp
  | cons c t ih =>
      rw [List.cons_append, size_cons, dropBytes_cons (by omega)]
      have hsub : c.utf8Size + size t + n - c.utf8Size = size t + n := by omega
      rw [hsub, ih]

@[simp] theorem takeBytes_zero (t : Text) : takeBytes t 0 = some [] := by
  cases t <;> rfl

@[simp] theorem dropBytes_zero (t : Text) : dropBytes t 0 = some t := by
  cases t <;> rfl

@[simp] theorem takeBytes_size (t u : Text) : takeBytes (t ++ u) (size t) = some t := by
  have h := takeBytes_append t u 0
  rw [Nat.add_zero] at h
  rw [h]
  simp

@[simp] theorem dropBytes_size (t u : Text) : dropBytes (t ++ u) (size t) = some u := by
  have h := dropBytes_append t u 0
  rw [Nat.add_zero] at h
  rw [h, dropBytes_zero]

/-- Between characters a slice succeeds. -/
theorem slice_append (t u v : Text) : slice (t ++ (u ++ v)) (size t) (size t + size u) = some u := by
  rw [slice]
  rw [if_pos (by omega), dropBytes_size, Option.bind_some]
  have hsub : size t + size u - size t = size u := by omega
  rw [hsub, takeBytes_size]

/-- A slice does not end inside a character. -/
theorem slice_inside (t u v : Text) (c : Char) {n : Nat} (hpos : 0 < n) (hlt : n < c.utf8Size) :
    slice (t ++ (u ++ c :: v)) (size t) (size t + (size u + n)) = none := by
  rw [slice]
  rw [if_pos (by omega), dropBytes_size, Option.bind_some]
  have hsub : size t + (size u + n) - size t = size u + n := by omega
  rw [hsub, takeBytes_append]
  obtain ⟨m, rfl⟩ : ∃ m, n = m + 1 := ⟨n - 1, by omega⟩
  rw [takeBytes, if_neg (by omega), Option.map_none]

/-! ## Bytes of characters -/

/-- A character of one byte. -/
theorem encodeChar_of_ascii {c : Char} (h : c.toNat < 128) : String.utf8EncodeChar c = [c.val.toUInt8] := by
  refine String.utf8EncodeChar_eq_singleton (Char.utf8Size_eq_one_iff.2 ?_)
  rw [UInt32.le_iff_toNat_le]
  exact Nat.le_of_lt_succ h

theorem le_or_toNat (x y : UInt8) : y.toNat ≤ (x ||| y).toNat := by
  rw [UInt8.toNat_or]
  exact Nat.right_le_or

/-- The bytes of other characters are above the one-byte range. -/
theorem le_of_mem_encodeChar {c : Char} (h : 128 ≤ c.toNat) {b : UInt8}
    (hb : b ∈ String.utf8EncodeChar c) : 128 ≤ b.toNat := by
  have hone : c.utf8Size ≠ 1 := by
    intro heq
    have hle := Char.utf8Size_eq_one_iff.1 heq
    rw [UInt32.le_iff_toNat_le] at hle
    have hlt : c.toNat ≤ 127 := hle
    omega
  have hor : ∀ {x y : UInt8}, 128 ≤ y.toNat → 128 ≤ (x ||| y).toNat := fun hy =>
    Nat.le_trans hy (le_or_toNat _ _)
  have hpos := Char.utf8Size_pos c
  have hfour := Char.utf8Size_le_four c
  obtain hsize | hsize | hsize : c.utf8Size = 2 ∨ c.utf8Size = 3 ∨ c.utf8Size = 4 := by omega
  · rw [String.utf8EncodeChar_eq_cons_cons hsize] at hb
    simp only [List.mem_cons, List.not_mem_nil, or_false] at hb
    rcases hb with rfl | rfl <;> exact hor (by decide)
  · rw [String.utf8EncodeChar_eq_cons_cons_cons hsize] at hb
    simp only [List.mem_cons, List.not_mem_nil, or_false] at hb
    rcases hb with rfl | rfl | rfl <;> exact hor (by decide)
  · rw [String.utf8EncodeChar_eq_cons_cons_cons_cons hsize] at hb
    simp only [List.mem_cons, List.not_mem_nil, or_false] at hb
    rcases hb with rfl | rfl | rfl | rfl <;> exact hor (by decide)

/-- The first byte of a character. -/
theorem exists_first (c : Char) :
    ∃ b bs, String.utf8EncodeChar c = b :: bs ∧ b.IsUTF8FirstByte := by
  cases h : String.utf8EncodeChar c with
  | nil => exact absurd h String.utf8EncodeChar_ne_nil
  | cons b bs =>
      refine ⟨b, bs, rfl, ?_⟩
      have hfirst := @UInt8.isUTF8FirstByte_getElem_zero_utf8EncodeChar c
      simpa [h] using hfirst

/-! ## Scans -/

section Scan

variable {P : UInt8 → Bool} {Q : Char → Bool}

/-- A scan over the bytes that passes whole characters stops where the scan over the characters does. -/
theorem takeWhile_encode {t : Text}
    (hpass : ∀ c ∈ t.takeWhile Q, ∀ b ∈ String.utf8EncodeChar c, P b = true)
    (hstop : ∀ c, Q c = false → ∀ b bs, String.utf8EncodeChar c = b :: bs → P b = false) :
    (encode t).takeWhile P = encode (t.takeWhile Q) := by
  induction t with
  | nil => rfl
  | cons c t ih =>
      cases hc : Q c with
      | false =>
          obtain ⟨b, bs, heq, -⟩ := exists_first c
          have hb := hstop c hc b bs heq
          simp [hc, heq, hb]
      | true =>
          have htake : (c :: t).takeWhile Q = c :: t.takeWhile Q := by simp [hc]
          rw [htake] at hpass ⊢
          rw [encode_cons, encode_cons,
            List.takeWhile_append_of_pos (hpass c List.mem_cons_self),
            ih fun d hd => hpass d (List.mem_cons_of_mem _ hd)]

/-- A scan over the bytes that a character passed by the scan over the characters stops: it stops inside
the first such character. -/
theorem takeWhile_encode_inside {t : Text}
    (hfirst : ∀ c, Q c = true → ∀ b bs, String.utf8EncodeChar c = b :: bs → P b = true)
    (hdirty : ∃ c ∈ t.takeWhile Q, ∃ b ∈ String.utf8EncodeChar c, P b = false) :
    ∃ (u : Text) (c : Char) (v : Text) (n : Nat), t = u ++ c :: v ∧ 0 < n ∧ n < c.utf8Size ∧
      ((encode t).takeWhile P).length = size u + n := by
  induction t with
  | nil =>
      obtain ⟨c, hc, -⟩ := hdirty
      cases hc
  | cons d t ih =>
      cases hd : Q d with
      | false =>
          obtain ⟨c, hc, -⟩ := hdirty
          simp [hd] at hc
      | true =>
          -- the scan goes past `d`, or stops inside it
          by_cases hclean : ∀ b ∈ String.utf8EncodeChar d, P b = true
          · have htail : ∃ c ∈ t.takeWhile Q, ∃ b ∈ String.utf8EncodeChar c, P b = false := by
              obtain ⟨c, hc, b, hb, hPb⟩ := hdirty
              simp only [List.takeWhile_cons, hd, if_true, List.mem_cons] at hc
              rcases hc with rfl | hc
              · rw [hclean b hb] at hPb
                cases hPb
              · exact ⟨c, hc, b, hb, hPb⟩
            obtain ⟨u, c, v, n, rfl, hpos, hlt, hlen⟩ := ih htail
            refine ⟨d :: u, c, v, n, rfl, hpos, hlt, ?_⟩
            rw [encode_cons, List.takeWhile_append_of_pos hclean, List.length_append, hlen, size_cons,
              String.length_utf8EncodeChar, Nat.add_assoc]
          · -- the scan stops inside `d`, past its first byte
            obtain ⟨b, bs, heq, -⟩ := exists_first d
            have hPb := hfirst d hd b bs heq
            have hstop : ∃ x ∈ String.utf8EncodeChar d, ¬P x = true := by
              by_contra hall
              exact hclean fun x hx => by_contra fun hPx => hall ⟨x, hx, hPx⟩
            have hlt : ((String.utf8EncodeChar d).takeWhile P).length < d.utf8Size := by
              rw [← String.length_utf8EncodeChar]
              apply lt_of_le_of_ne (List.takeWhile_sublist P).length_le
              intro hlen
              have hall := List.takeWhile_eq_self_iff.1 ((List.takeWhile_sublist P).eq_of_length hlen)
              obtain ⟨x, hx, hPx⟩ := hstop
              exact hPx (hall x hx)
            refine ⟨[], d, t, ((String.utf8EncodeChar d).takeWhile P).length, rfl, ?_, hlt, ?_⟩
            · rw [heq, List.takeWhile_cons, if_pos hPb]
              exact Nat.succ_pos _
            · rw [encode_cons, List.takeWhile_append, if_neg, size_nil, Nat.zero_add]
              intro hlen
              rw [String.length_utf8EncodeChar] at hlen
              omega

end Scan

end Text

end Pktflow.Lib

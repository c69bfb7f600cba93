import Pktflow.Lib.Utf8

/-!
# Reading text from bytes

`fromUtf8` accepts the bytes of a text and no others; `lossy` reads any bytes and puts U+FFFD in the place of each
longest run that begins a character and does not end it. Both read a text back from its encoding.
-/

set_option autoImplicit false

namespace Pktflow.Lib.Text

/-- The character that the bytes begin with. -/
def firstChar? (bytes : List UInt8) : Option Char := bytes.toByteArray.utf8DecodeChar? 0

/-- The next byte of a character. -/
def isContinuation (b : UInt8) : Bool := 0x80 ≤ b ∧ b ≤ 0xBF

/-- The second byte may follow the first in a character of three bytes. -/
def beginsThree (b c : UInt8) : Bool :=
  (b = 0xE0 ∧ 0xA0 ≤ c ∧ c ≤ 0xBF) ∨ (0xE1 ≤ b ∧ b ≤ 0xEC ∧ isContinuation c) ∨
    (b = 0xED ∧ 0x80 ≤ c ∧ c ≤ 0x9F) ∨ (0xEE ≤ b ∧ b ≤ 0xEF ∧ isContinuation c)

/-- The second byte may follow the first in a character of four bytes. -/
def beginsFour (b c : UInt8) : Bool :=
  (b = 0xF0 ∧ 0x90 ≤ c ∧ c ≤ 0xBF) ∨ (0xF1 ≤ b ∧ b ≤ 0xF3 ∧ isContinuation c) ∨
    (b = 0xF4 ∧ 0x80 ≤ c ∧ c ≤ 0x8F)

/-- The bytes that one U+FFFD stands for where no character begins. -/
def invalidLen : List UInt8 → Nat
  | b :: c :: rest =>
      if beginsThree b c then 2
      else if beginsFour b c then (if (rest.head?.map isContinuation).getD false then 3 else 2)
      else 1
  | _ => 1

/-- The text that the bytes are the encoding of, for at most `n` characters. -/
def fromUtf8Aux : Nat → List UInt8 → Option Text
  | _, [] => some []
  | 0, _ :: _ => none
  | n + 1, b :: bs =>
      (firstChar? (b :: bs)).bind fun c => (fromUtf8Aux n ((b :: bs).drop c.utf8Size)).map (c :: ·)

/-- `str::from_utf8`. -/
def fromUtf8 (bytes : List UInt8) : Option Text := fromUtf8Aux bytes.length bytes

/-- At most `n` characters of what `lossy` reads. -/
def lossyAux : Nat → List UInt8 → Text
  | _, [] => []
  | 0, _ :: _ => []
  | n + 1, b :: bs =>
      match firstChar? (b :: bs) with
      | some c => c :: lossyAux n ((b :: bs).drop c.utf8Size)
      | none => '\uFFFD' :: lossyAux n ((b :: bs).drop (invalidLen (b :: bs)))

/-- `String::from_utf8_lossy`. -/
def lossy (bytes : List UInt8) : Text := lossyAux bytes.length bytes

theorem firstChar?_append (c : Char) (bs : List UInt8) : firstChar? (String.utf8EncodeChar c ++ bs) = some c := by
  rw [firstChar?, List.toByteArray_append]
  exact ByteArray.utf8DecodeChar?_utf8EncodeChar_append

/-- A character found is the one encoded in front. -/
theorem eq_append_of_firstChar? {bs : List UInt8} {c : Char} (h : firstChar? bs = some c) :
    bs = String.utf8EncodeChar c ++ bs.drop c.utf8Size := by
  obtain ⟨rest, hrest⟩ : ∃ rest, bs = String.utf8EncodeChar c ++ rest := by
    have hsplit := congrArg (fun b => b.data.toList) (ByteArray.eq_of_utf8DecodeChar?_eq_some h)
    simp only [List.data_toByteArray, ByteArray.data_append, Array.toList_append] at hsplit
    exact ⟨_, hsplit⟩
  rw [hrest, ← String.length_utf8EncodeChar c, List.drop_left]

theorem utf8EncodeChar_ne_nil (c : Char) : String.utf8EncodeChar c ≠ [] := by
  intro h
  have hlen := String.length_utf8EncodeChar c
  have hpos := Char.utf8Size_pos c
  rw [h, List.length_nil] at hlen
  omega

/-- The encoding of a text begins with its first character, and goes on with the encoding of the others. -/
theorem exists_encode_cons (c : Char) (t : Text) :
    ∃ b bs, encode (c :: t) = b :: bs ∧ firstChar? (b :: bs) = some c ∧ (b :: bs).drop c.utf8Size = encode t := by
  obtain ⟨b, bs, hb⟩ := List.exists_cons_of_ne_nil (utf8EncodeChar_ne_nil c)
  have hfirst := firstChar?_append c (encode t)
  have hdrop : (String.utf8EncodeChar c ++ encode t).drop c.utf8Size = encode t := by
    rw [← String.length_utf8EncodeChar c, List.drop_left]
  rw [hb] at hfirst hdrop
  refine ⟨b, bs ++ encode t, ?_, hfirst, hdrop⟩
  rw [encode_cons, hb]
  rfl

theorem fromUtf8Aux_encode {n : Nat} {t : Text} (h : size t ≤ n) : fromUtf8Aux n (encode t) = some t := by
  induction t generalizing n with
  | nil => cases n <;> rfl
  | cons c t ih =>
      have hpos := Char.utf8Size_pos c
      rw [size_cons] at h
      obtain ⟨n, rfl⟩ := Nat.exists_eq_add_one_of_ne_zero (show n ≠ 0 by omega)
      obtain ⟨b, bs, hencode, hfirst, hdrop⟩ := exists_encode_cons c t
      rw [hencode, fromUtf8Aux, hfirst, Option.bind_some, hdrop, ih (by omega)]
      rfl

/-- A text is read from its encoding. -/
theorem fromUtf8_encode (t : Text) : fromUtf8 (encode t) = some t := fromUtf8Aux_encode (Nat.le_refl _)

theorem encode_of_fromUtf8Aux {n : Nat} {bs : List UInt8} {t : Text} (h : fromUtf8Aux n bs = some t) :
    bs = encode t := by
  induction n generalizing bs t with
  | zero =>
      cases bs with
      | nil =>
          rw [fromUtf8Aux] at h
          rw [← Option.some.inj h]
          rfl
      | cons b bs => cases h
  | succ n ih =>
      cases bs with
      | nil =>
          rw [fromUtf8Aux] at h
          rw [← Option.some.inj h]
          rfl
      | cons b bs =>
          rw [fromUtf8Aux, Option.bind_eq_some_iff] at h
          obtain ⟨c, hc, hrest⟩ := h
          obtain ⟨u, hu, rfl⟩ := Option.map_eq_some_iff.1 hrest
          rw [eq_append_of_firstChar? hc, encode_cons, ih hu]

/-- The bytes that a text is read from are its encoding. -/
theorem fromUtf8_eq_some {bs : List UInt8} {t : Text} : fromUtf8 bs = some t ↔ bs = encode t := by
  constructor
  · exact encode_of_fromUtf8Aux
  · rintro rfl
    exact fromUtf8_encode t

theorem lossyAux_encode {n : Nat} {t : Text} (h : size t ≤ n) : lossyAux n (encode t) = t := by
  induction t generalizing n with
  | nil => cases n <;> rfl
  | cons c t ih =>
      have hpos := Char.utf8Size_pos c
      rw [size_cons] at h
      obtain ⟨n, rfl⟩ := Nat.exists_eq_add_one_of_ne_zero (show n ≠ 0 by omega)
      obtain ⟨b, bs, hencode, hfirst, hdrop⟩ := exists_encode_cons c t
      rw [hencode, lossyAux, hfirst]
      dsimp only
      rw [hdrop, ih (by omega)]

/-- Reading the encoding of a text loses nothing. -/
theorem lossy_encode (t : Text) : lossy (encode t) = t := lossyAux_encode (Nat.le_refl _)

/-! ## Characters of one byte -/

section Ascii

variable {c : Char}

/-- The byte of such a character stands in no other. -/
theorem count_encodeChar (h : c.toNat < 128) (d : Char) :
    (String.utf8EncodeChar d).count c.val.toUInt8 = if d = c then 1 else 0 := by
  have hc : c.val.toUInt8.toNat = c.toNat := by
    rw [UInt32.toNat_toUInt8]
    exact Nat.mod_eq_of_lt (Nat.lt_trans h (by decide))
  by_cases hd : d.toNat < 128
  · have hd' : d.val.toUInt8.toNat = d.toNat := by
      rw [UInt32.toNat_toUInt8]
      exact Nat.mod_eq_of_lt (Nat.lt_trans hd (by decide))
    have hiff : d.val.toUInt8 = c.val.toUInt8 ↔ d = c := by
      rw [← UInt8.toNat_inj, hc, hd']
      exact ⟨Char.toNat_inj.1, fun heq => by rw [heq]⟩
    rw [encodeChar_of_ascii hd, List.count_singleton]
    simp only [beq_iff_eq, hiff]
  · have hno : c.val.toUInt8 ∉ String.utf8EncodeChar d := by
      intro hmem
      have hle := le_of_mem_encodeChar (Nat.not_lt.1 hd) hmem
      omega
    rw [List.count_eq_zero_of_not_mem hno, if_neg]
    rintro rfl
    exact hd h

theorem le_of_isContinuation {d : UInt8} (h : isContinuation d = true) : 128 ≤ d.toNat := by
  rw [isContinuation, decide_eq_true_eq] at h
  exact h.1

theorem le_of_beginsThree {b d : UInt8} (h : beginsThree b d = true) : 128 ≤ d.toNat := by
  simp only [beginsThree, Bool.decide_or, Bool.or_eq_true, decide_eq_true_eq] at h
  rcases h with ⟨-, hd, -⟩ | ⟨-, -, hd⟩ | ⟨-, hd, -⟩ | ⟨-, -, hd⟩
  · exact Nat.le_trans (by decide) hd
  · exact le_of_isContinuation hd
  · exact hd
  · exact le_of_isContinuation hd

theorem le_of_beginsFour {b d : UInt8} (h : beginsFour b d = true) : 128 ≤ d.toNat := by
  simp only [beginsFour, Bool.decide_or, Bool.or_eq_true, decide_eq_true_eq] at h
  rcases h with ⟨-, hd, -⟩ | ⟨-, -, hd⟩ | ⟨-, hd, -⟩
  · exact Nat.le_trans (by decide) hd
  · exact le_of_isContinuation hd
  · exact hd

/-- Where no character begins, what U+FFFD stands for has no byte of that kind. -/
theorem count_take_invalidLen (h : c.toNat < 128) {b : UInt8} {bs : List UInt8} (hfirst : firstChar? (b :: bs) = none) :
    ((b :: bs).take (invalidLen (b :: bs))).count c.val.toUInt8 = 0 := by
  have hc : c.val.toUInt8.toNat < 128 := by
    rw [UInt32.toNat_toUInt8]
    exact Nat.lt_of_le_of_lt (Nat.mod_le _ _) h
  -- a byte below 128 is a character
  have hb : b ≠ c.val.toUInt8 := by
    rintro rfl
    have hread := firstChar?_append c bs
    rw [encodeChar_of_ascii h, List.singleton_append, hfirst] at hread
    cases hread
  have hnext : ∀ d : UInt8, 128 ≤ d.toNat → d ≠ c.val.toUInt8 := by
    rintro d hd rfl
    omega
  clear hc hfirst
  generalize c.val.toUInt8 = x at *
  cases bs with
  | nil => simp [invalidLen, hb]
  | cons d bs =>
      rw [invalidLen]
      split
      · rename_i hbegins
        simp [hb, hnext d (le_of_beginsThree hbegins)]
      · split
        · rename_i hbegins
          have hd := hnext d (le_of_beginsFour hbegins)
          cases bs with
          | nil => simp [hb, hd]
          | cons e bs =>
              by_cases he : isContinuation e = true
              · simp [he, hb, hd, hnext e (le_of_isContinuation he)]
              · simp [he, hb, hd]
        · simp [hb]

theorem count_lossyAux (h : c.toNat < 128) {n : Nat} {bytes : List UInt8} (hn : bytes.length ≤ n) :
    (lossyAux n bytes).count c = bytes.count c.val.toUInt8 := by
  induction n generalizing bytes with
  | zero =>
      rw [List.eq_nil_of_length_eq_zero (Nat.le_zero.1 hn)]
      rfl
  | succ n ih =>
      cases bytes with
      | nil => rfl
      | cons b bs =>
          rw [List.length_cons] at hn
          rw [lossyAux]
          cases hfirst : firstChar? (b :: bs) with
          | some d =>
              have hsplit := eq_append_of_firstChar? hfirst
              have hpos := Char.utf8Size_pos d
              have hrest : ((b :: bs).drop d.utf8Size).length ≤ n := by
                rw [List.length_drop, List.length_cons]
                omega
              have hcount := congrArg (List.count c.val.toUInt8) hsplit
              rw [List.count_append, count_encodeChar h] at hcount
              dsimp only
              rw [hcount, List.count_cons, ih hrest, Nat.add_comm]
              simp only [beq_iff_eq]
          | none =>
              have hpos : 1 ≤ invalidLen (b :: bs) := by
                cases bs with
                | nil => exact Nat.le_refl 1
                | cons d bs =>
                    rw [invalidLen]
                    split_ifs <;> omega
              have hrest : ((b :: bs).drop (invalidLen (b :: bs))).length ≤ n := by
                rw [List.length_drop, List.length_cons]
                omega
              have hsplit := congrArg (List.count c.val.toUInt8)
                (List.take_append_drop (invalidLen (b :: bs)) (b :: bs))
              rw [List.count_append, count_take_invalidLen h hfirst, Nat.zero_add] at hsplit
              have hne : '\uFFFD' ≠ c := by
                rintro rfl
                exact absurd h (by decide)
              dsimp only
              rw [List.count_cons_of_ne hne, ih hrest, hsplit]

/-- Whatever is lost, the characters of one byte are all read. -/
theorem count_lossy (h : c.toNat < 128) (bytes : List UInt8) : (lossy bytes).count c = bytes.count c.val.toUInt8 :=
  count_lossyAux h (Nat.le_refl _)

end Ascii

end Pktflow.Lib.Text

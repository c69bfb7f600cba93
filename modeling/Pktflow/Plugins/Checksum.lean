import Pktflow.Lib.OnesComplement
import Pktflow.Core.Framing

/-!
# The internet checksum

Model of `internet_checksum` of `ipv4.rs` in its machine integers. Below `2 ^ 17` bytes the accumulator does not
overflow (`accumulate_eq`), the carries are folded in finitely many turns (`foldLoop_eq_iterate`), and what is left
is the one's complement sum of the words. A checksum put into its field makes the whole sum to zero
(`internetChecksum_law`).
-/

set_option autoImplicit false

namespace Pktflow.Plugins.Checksum

open Pktflow.Core Pktflow.Core.ByteReader Pktflow.Lib

/-! ## The function -/

/-- The pairs of `chunks_exact(2)`, and the remainder with a zero byte behind. -/
def words : List UInt8 → List UInt16
  | [] => []
  | [last] => [UInt16.ofNat (fromBeBytes [last, 0])]
  | hi :: lo :: rest => UInt16.ofNat (fromBeBytes [hi, lo]) :: words rest

/-- `sum += u32::from(word)`, which panics when it leaves `u32`. -/
def addWord (sum : UInt32) (word : UInt16) : Option UInt32 :=
  if sum.toNat + word.toNat < 2 ^ 32 then some (sum + word.toUInt32) else none

/-- The accumulator behind the last word. -/
def accumulate (header : List UInt8) : Option UInt32 := (words header).foldlM addWord 0

/-- One turn of the folding loop. -/
def foldTurn (sum : UInt32) : UInt32 := (sum &&& (0xFFFF : UInt32)) + (sum >>> (16 : UInt32))

theorem toNat_foldTurn (sum : UInt32) : (foldTurn sum).toNat = sum.toNat % 2 ^ 16 + sum.toNat / 2 ^ 16 := by
  have hlt := sum.toNat_lt
  have hlow : (sum &&& (0xFFFF : UInt32)).toNat = sum.toNat % 2 ^ 16 := by
    rw [UInt32.toNat_and, show (0xFFFF : UInt32).toNat = 2 ^ 16 - 1 from rfl, Nat.and_two_pow_sub_one_eq_mod]
  have hhigh : (sum >>> (16 : UInt32)).toNat = sum.toNat / 2 ^ 16 := by
    rw [UInt32.toNat_shiftRight, show (16 : UInt32).toNat % 32 = 16 from rfl, Nat.shiftRight_eq_div_pow]
  rw [foldTurn, UInt32.toNat_add, hlow, hhigh]
  omega

/-- A turn that is taken makes the sum smaller. -/
theorem foldTurn_lt {sum : UInt32} (h : 0xFFFF < sum) : (foldTurn sum).toNat < sum.toNat := by
  have hsum : 0xFFFF < sum.toNat := h
  rw [toNat_foldTurn]
  omega

/-- `while sum > 0xFFFF`. -/
def foldLoop (sum : UInt32) : UInt32 :=
  if 0xFFFF < sum then foldLoop (foldTurn sum) else sum
termination_by sum.toNat
decreasing_by exact foldTurn_lt ‹_›

/-- `internet_checksum`. -/
def internetChecksum (header : List UInt8) : Option UInt16 :=
  (accumulate header).map fun sum => ~~~(foldLoop sum).toUInt16

/-! ## The accumulator -/

/-- The sum of the words, as a number. -/
def wordSum (header : List UInt8) : Nat := ((words header).map UInt16.toNat).sum

theorem length_words (header : List UInt8) : (words header).length = (header.length + 1) / 2 := by
  induction header using words.induct with
  | case1 => rfl
  | case2 last => simp [words]
  | case3 hi lo rest ih =>
      rw [words, List.length_cons, ih, List.length_cons, List.length_cons]
      omega

theorem sum_le_length (ws : List UInt16) : (ws.map UInt16.toNat).sum ≤ 65535 * ws.length := by
  induction ws with
  | nil => exact Nat.le_refl 0
  | cons w ws ih =>
      have hlt := w.toNat_lt
      rw [List.map_cons, List.sum_cons, List.length_cons]
      omega

theorem foldlM_addWord (ws : List UInt16) (sum : UInt32) (h : sum.toNat + (ws.map UInt16.toNat).sum < 2 ^ 32) :
    ∃ total, ws.foldlM addWord sum = some total ∧ total.toNat = sum.toNat + (ws.map UInt16.toNat).sum := by
  induction ws generalizing sum with
  | nil => exact ⟨sum, rfl, rfl⟩
  | cons w ws ih =>
      rw [List.map_cons, List.sum_cons] at h ⊢
      have hstep : addWord sum w = some (sum + w.toUInt32) := if_pos (by omega)
      have hsum : (sum + w.toUInt32).toNat = sum.toNat + w.toNat := by
        rw [UInt32.toNat_add, UInt16.toNat_toUInt32, Nat.mod_eq_of_lt (by omega)]
      obtain ⟨total, htotal, hvalue⟩ := ih (sum + w.toUInt32) (by omega)
      refine ⟨total, ?_, by omega⟩
      rw [List.foldlM_cons, hstep]
      exact htotal

/-- The accumulator holds the sum of the words. -/
theorem accumulate_eq {header : List UInt8} (h : header.length < 2 ^ 17) :
    ∃ sum, accumulate header = some sum ∧ sum.toNat = wordSum header := by
  have hle := sum_le_length (words header)
  rw [length_words] at hle
  obtain ⟨sum, hsum, hvalue⟩ := foldlM_addWord (words header) 0 (by
    rw [show (0 : UInt32).toNat = 0 from rfl]
    omega)
  refine ⟨sum, hsum, hvalue.trans ?_⟩
  rw [show (0 : UInt32).toNat = 0 from rfl, Nat.zero_add, wordSum]

/-! ## The folding loop -/

theorem toNat_foldTurn_modEq (sum : UInt32) : (foldTurn sum).toNat ≡ sum.toNat [MOD 65535] := by
  rw [toNat_foldTurn, Nat.ModEq]
  omega

/-- The loop is left after some turns, and not before the sum fits. -/
theorem foldLoop_eq_iterate (sum : UInt32) :
    ∃ n, foldLoop sum = foldTurn^[n] sum ∧ foldLoop sum ≤ 0xFFFF ∧ ∀ k < n, 0xFFFF < foldTurn^[k] sum := by
  induction sum using foldLoop.induct with
  | case1 sum h ih =>
      obtain ⟨n, hloop, hle, hbefore⟩ := ih
      rw [foldLoop, if_pos h]
      refine ⟨n + 1, hloop, hle, ?_⟩
      intro k hk
      cases k with
      | zero => exact h
      | succ k => exact hbefore k (Nat.lt_of_succ_lt_succ hk)
  | case2 sum h =>
      rw [foldLoop, if_neg h]
      exact ⟨0, rfl, UInt32.not_lt.1 h, fun k hk => absurd hk (Nat.not_lt_zero k)⟩

/-- What is left of a sum is its one's complement representative. -/
theorem toNat_foldLoop (sum : UInt32) : (foldLoop sum).toNat = onesRep 65535 sum.toNat := by
  induction sum using foldLoop.induct with
  | case1 sum h ih =>
      have hsum : 0xFFFF < sum.toNat := h
      have hturn := toNat_foldTurn sum
      rw [foldLoop, if_pos h, ih]
      refine onesRep_unique (by decide) (onesRep_le (by decide)) ?_ (onesRep_modEq.trans (toNat_foldTurn_modEq sum))
      rw [onesRep_eq_zero]
      omega
  | case2 sum h =>
      have hle : sum.toNat ≤ 65535 := UInt32.not_lt.1 h
      rw [foldLoop, if_neg h, onesRep_of_le hle]

/-! ## The checksum -/

/-- The one's complement sum of the words. -/
def onesWords (header : List UInt8) : Nat := onesSum 65535 ((words header).map UInt16.toNat)

theorem onesWords_eq (header : List UInt8) : onesWords header = onesRep 65535 (wordSum header) := by
  apply onesSum_eq (by decide)
  intro n hn
  obtain ⟨w, -, rfl⟩ := List.mem_map.1 hn
  exact Nat.le_of_lt_succ w.toNat_lt

theorem onesWords_le (header : List UInt8) : onesWords header ≤ 65535 := by
  rw [onesWords_eq]
  exact onesRep_le (by decide)

theorem internetChecksum_eq {header : List UInt8} (h : header.length < 2 ^ 17) :
    internetChecksum header = some (~~~UInt16.ofNat (onesWords header)) := by
  obtain ⟨sum, hsum, hvalue⟩ := accumulate_eq h
  have hle := onesWords_le header
  have hfold : (foldLoop sum).toUInt16 = UInt16.ofNat (onesWords header) := by
    apply UInt16.toNat_inj.1
    rw [UInt32.toNat_toUInt16, toNat_foldLoop, hvalue, ← onesWords_eq, UInt16.toNat_ofNat']
  rw [internetChecksum, hsum, Option.map_some, hfold]

theorem toNat_compl {n : Nat} (h : n ≤ 65535) : (~~~UInt16.ofNat n).toNat = 65535 - n := by
  have hn : (UInt16.ofNat n).toNat = n := UInt16.toNat_ofNat_of_lt' (show n < 65536 by omega)
  rw [UInt16.toNat_not, hn]
  rfl

/-- A string sums to zero when its words do, and are not all zero. -/
theorem internetChecksum_eq_zero {header : List UInt8} (h : header.length < 2 ^ 17) :
    internetChecksum header = some 0 ↔ wordSum header ≠ 0 ∧ wordSum header ≡ 0 [MOD 65535] := by
  have hle := onesWords_le header
  rw [internetChecksum_eq h, Option.some.injEq, ← onesRep_eq_self_iff (by decide), ← onesWords_eq, ← UInt16.toNat_inj,
    toNat_compl hle, show (0 : UInt16).toNat = 0 from rfl]
  omega

/-! ## The field of a checksum -/

/-- A string shorter than `2 ^ 17` bytes around an aligned field of 16 bits. -/
structure FieldString where
  front : List UInt8
  back : List UInt8
  aligned : front.length % 2 = 0
  short : front.length + 2 + back.length < 2 ^ 17

/-- The string with this word in its field. -/
def FieldString.withField (s : FieldString) (w : UInt16) : List UInt8 := s.front ++ (beBytes 2 w.toNat ++ s.back)

/-- The second string has the words of the first, but for one that differs modulo `2 ^ 16 - 1`. -/
def ChangesWord (bytes changed : List UInt8) : Prop :=
  changed.length = bytes.length ∧ ∃ front w w' back, words bytes = front ++ w :: back ∧
    words changed = front ++ w' :: back ∧ ¬w'.toNat ≡ w.toNat [MOD 65535]

theorem length_withField (s : FieldString) (w : UInt16) :
    (s.withField w).length = s.front.length + 2 + s.back.length := by
  rw [FieldString.withField, List.length_append, List.length_append, length_beBytes, Nat.add_assoc]

theorem words_append {front : List UInt8} (h : front.length % 2 = 0) (rest : List UInt8) :
    words (front ++ rest) = words front ++ words rest := by
  induction front using words.induct with
  | case1 => rfl
  | case2 last => simp at h
  | case3 hi lo front ih =>
      rw [List.length_cons, List.length_cons] at h
      rw [List.cons_append, List.cons_append, words, ih (by omega), words, List.cons_append]

theorem words_withField (s : FieldString) (w : UInt16) :
    words (s.withField w) = words s.front ++ w :: words s.back := by
  obtain ⟨hi, lo, hbytes⟩ := List.length_eq_two.1 (length_beBytes 2 w.toNat)
  have hword : UInt16.ofNat (fromBeBytes [hi, lo]) = w := by
    rw [← hbytes, fromBeBytes_beBytes, Nat.mod_eq_of_lt (show w.toNat < 256 ^ 2 from w.toNat_lt), UInt16.ofNat_toNat]
  rw [FieldString.withField, words_append s.aligned, hbytes, List.cons_append, List.cons_append, List.nil_append, words,
    hword]

theorem wordSum_split {bytes : List UInt8} {front back : List UInt16} {w : UInt16}
    (h : words bytes = front ++ w :: back) :
    wordSum bytes = (front.map UInt16.toNat).sum + (w.toNat + (back.map UInt16.toNat).sum) := by
  rw [wordSum, h, List.map_append, List.map_cons, List.sum_append, List.sum_cons]

theorem onesRep_add_compl {m n : Nat} (hm : 0 < m) : n + (m - onesRep m n) ≠ 0 ∧ n + (m - onesRep m n) ≡ 0 [MOD m] := by
  have hle := onesRep_le (n := n) hm
  have hzero := onesRep_eq_zero (m := m) (n := n)
  refine ⟨by omega, ?_⟩
  calc n + (m - onesRep m n) ≡ onesRep m n + (m - onesRep m n) [MOD m] := onesRep_modEq.symm.add_right _
    _ = m := by omega
    _ ≡ 0 [MOD m] := Nat.mod_self m

/-- The checksum of a string whose field is zero, put into the field, sums with the rest to zero. -/
theorem internetChecksum_withField (s : FieldString) :
    ∃ c, internetChecksum (s.withField 0) = some c ∧ internetChecksum (s.withField c) = some 0 := by
  have hshort : ∀ w, (s.withField w).length < 2 ^ 17 := fun w => (length_withField s w).symm ▸ s.short
  refine ⟨_, internetChecksum_eq (hshort 0), (internetChecksum_eq_zero (hshort _)).2 ?_⟩
  have hrest := wordSum_split (words_withField s 0)
  rw [wordSum_split (words_withField s _), toNat_compl (onesWords_le _), onesWords_eq]
  have hsum : wordSum (s.withField 0) =
      ((words s.front).map UInt16.toNat).sum + ((words s.back).map UInt16.toNat).sum := by
    rw [hrest, show (0 : UInt16).toNat = 0 from rfl, Nat.zero_add]
  have hcompl := onesRep_add_compl (m := 65535) (n := wordSum (s.withField 0)) (by decide)
  have hassoc : ((words s.front).map UInt16.toNat).sum +
      (65535 - onesRep 65535 (wordSum (s.withField 0)) + ((words s.back).map UInt16.toNat).sum) =
        wordSum (s.withField 0) + (65535 - onesRep 65535 (wordSum (s.withField 0))) := by
    omega
  rwa [hassoc]

/-- A word that changes changes the sum from zero. -/
theorem internetChecksum_changed {bytes changed : List UInt8} (h : bytes.length < 2 ^ 17)
    (hzero : internetChecksum bytes = some 0) (hchange : ChangesWord bytes changed) :
    ∃ d, internetChecksum changed = some d ∧ d ≠ 0 := by
  obtain ⟨hlen, front, w, w', back, hwords, hwords', hne⟩ := hchange
  have h' : changed.length < 2 ^ 17 := hlen ▸ h
  refine ⟨_, internetChecksum_eq h', ?_⟩
  intro hd
  have hsum := ((internetChecksum_eq_zero h).1 hzero).2
  have hsum' := ((internetChecksum_eq_zero h').1 ((internetChecksum_eq h').trans (congrArg some hd))).2
  rw [wordSum_split hwords] at hsum
  rw [wordSum_split hwords'] at hsum'
  -- the words around it cancel
  have hmid := Nat.ModEq.add_left_cancel' _ (hsum'.trans hsum.symm)
  exact hne (Nat.ModEq.add_right_cancel' _ hmid)

/-- What the function does with a string: the accumulator holds the sum of its words, the loop folds it and ends, and
the result is the complement of the one's complement sum. -/
structure SumsWords (header : List UInt8) : Prop where
  accumulates : ∃ sum, accumulate header = some sum ∧ sum.toNat = wordSum header ∧
    ∃ n, foldLoop sum = foldTurn^[n] sum ∧ foldLoop sum ≤ 0xFFFF ∧ ∀ k < n, 0xFFFF < foldTurn^[k] sum
  result : internetChecksum header = some (~~~UInt16.ofNat (onesWords header))

/-- The checksum of every short string, and of one with a field for it. -/
theorem internetChecksum_law :
    (∀ header : List UInt8, header.length < 2 ^ 17 → SumsWords header) ∧
      ∀ s : FieldString, ∃ c, internetChecksum (s.withField 0) = some c ∧ internetChecksum (s.withField c) = some 0 ∧
        ∀ changed, ChangesWord (s.withField c) changed → ∃ d, internetChecksum changed = some d ∧ d ≠ 0 := by
  constructor
  · intro header h
    obtain ⟨sum, hsum, hvalue⟩ := accumulate_eq h
    exact ⟨⟨sum, hsum, hvalue, foldLoop_eq_iterate sum⟩, internetChecksum_eq h⟩
  · intro s
    obtain ⟨c, hc, hzero⟩ := internetChecksum_withField s
    refine ⟨c, hc, hzero, ?_⟩
    have hshort : (s.withField c).length < 2 ^ 17 := (length_withField s c).symm ▸ s.short
    intro changed hchange
    exact internetChecksum_changed hshort hzero hchange

end Pktflow.Plugins.Checksum

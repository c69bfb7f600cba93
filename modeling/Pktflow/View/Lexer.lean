import Pktflow.View.Query

/-!
# The lexer and character boundaries

The lexer reads the bytes of the input as characters of their own. Two of them, `0x85` and `0xA0`, are
white space when read so and are also inner bytes of longer characters, so a bare word with such a
character is cut inside it and the slice panics. `Clean` says that no bare word has one; then every slice
ends between characters and every token lies in the input (`lexesTo_lex`).
-/

set_option autoImplicit false

namespace Pktflow.View

open Pktflow.Lib Pktflow.Lib.Text

/-! ## Where a character stands -/

/-- The backslash. -/
def backslash : Char := Char.ofNat 92

/-- The places of a character in the input. -/
inductive Place where
  | between
  | word
  | quoted (quote : Char)
  | regex
  | escape
  deriving DecidableEq

/-- White space of one byte. -/
def isSpace (c : Char) : Bool := decide (c.toNat < 128) && isWhitespace c

/-- The characters that end a word, as long as bytes are not mistaken for characters. -/
def endsBare (c : Char) : Bool := isSpace c || c == '(' || c == ')' || c == doubleQuote || c == singleQuote

/-- The place of a character, by the place of the one before it. -/
def Place.next : Place → Char → Place
  | .between, c =>
      if c = doubleQuote ∨ c = singleQuote then .quoted c
      else if endsBare c then .between
      else if c = '/' then .regex
      else .word
  | .word, c =>
      if c = doubleQuote ∨ c = singleQuote then .quoted c
      else if endsBare c then .between
      else .word
  | .quoted quote, c => if c = quote then .between else .quoted quote
  | .regex, c => if c = '/' then .between else if c = backslash then .escape else .regex
  | .escape, c => if c = '/' then .regex else if c = backslash then .escape else .regex

/-- The characters that stand in bare words: outside quotes and regex literals. -/
def bareChars : Place → Text → List Char
  | _, [] => []
  | place, c :: t =>
      if place.next c = .word then c :: bareChars (place.next c) t else bareChars (place.next c) t

/-- One of the bytes of the character is white space when it is read as a character. -/
def hasSpaceByte (c : Char) : Bool := (String.utf8EncodeChar c).any fun b => b == 0x85 || b == 0xA0

/-- No character of a bare word has a byte that is read as white space. -/
def Clean (place : Place) (t : Text) : Prop := ∀ c ∈ bareChars place t, hasSpaceByte c = false

instance (place : Place) (t : Text) : Decidable (Clean place t) :=
  List.decidableBAll (fun c => hasSpaceByte c = false) (bareChars place t)

/-! ## Bytes read as characters -/

theorem toNat_asChar (b : UInt8) : (asChar b).toNat = b.toNat := by
  have hlt := b.toNat_lt
  have hvalid : b.toNat.isValidChar := .inl (by omega)
  rw [asChar, Char.ofNat, dif_pos hvalid]
  rfl

theorem asChar_of_ascii {c : Char} (h : c.toNat < 128) : asChar c.val.toUInt8 = c := by
  have hmod : c.val.toUInt8.toNat = c.toNat := by
    rw [UInt32.toNat_toUInt8]
    exact Nat.mod_eq_of_lt (by have : c.val.toNat = c.toNat := rfl; omega)
  rw [asChar]
  rw [hmod, Char.ofNat_toNat]

theorem eq_of_toNat {c : Char} {n : Nat} (h : c.toNat = n) : c = Char.ofNat n := by
  rw [← h, Char.ofNat_toNat]

/-- A byte above the one-byte range that is not one of the two ends no word. -/
theorem endsWord_asChar_of_le {b : UInt8} (h : 128 ≤ b.toNat) :
    endsWord (asChar b) = (b == 0x85 || b == 0xA0) := by
  have hlt := b.toNat_lt
  have hne : ∀ c : Char, c.toNat < 128 → (asChar b == c) = false := by
    intro c hc
    rw [beq_eq_false_iff_ne]
    rintro rfl
    rw [toNat_asChar] at hc
    omega
  have hspace : isWhitespace (asChar b) = (b == 0x85 || b == 0xA0) := by
    rw [isWhitespace]
    rw [toNat_asChar, Bool.eq_iff_iff]
    simp only [Bool.or_eq_true, decide_eq_true_eq, beq_iff_eq, ← UInt8.toNat_inj]
    have h1 : (0x85 : UInt8).toNat = 133 := rfl
    have h2 : (0xA0 : UInt8).toNat = 160 := rfl
    omega
  rw [endsWord]
  rw [hspace, hne '(' (by decide), hne ')' (by decide), hne doubleQuote (by decide),
    hne singleQuote (by decide)]
  simp

theorem endsWord_of_ascii {c : Char} (h : c.toNat < 128) : endsWord c = endsBare c := by
  simp [endsWord, endsBare, isSpace, h]

theorem endsBare_of_le {c : Char} (h : 128 ≤ c.toNat) : endsBare c = false := by
  have hne : ∀ d : Char, d.toNat < 128 → (c == d) = false := by
    intro d hd
    rw [beq_eq_false_iff_ne]
    rintro rfl
    omega
  rw [endsBare, isSpace]
  rw [hne '(' (by decide), hne ')' (by decide), hne doubleQuote (by decide), hne singleQuote (by decide)]
  simp [Nat.not_lt.2 h]

/-- The first byte of a character is no white space unless the character is. -/
theorem first_ne_space {c : Char} {b : UInt8} {bs : List UInt8} (h : String.utf8EncodeChar c = b :: bs) :
    (b == 0x85 || b == 0xA0) = false := by
  obtain ⟨b', bs', heq, hfirst⟩ := exists_first c
  rw [h] at heq
  obtain ⟨rfl, -⟩ := List.cons.inj heq
  rw [Bool.or_eq_false_iff, beq_eq_false_iff_ne, beq_eq_false_iff_ne]
  constructor
  · rintro rfl
    exact absurd hfirst (by decide)
  · rintro rfl
    exact absurd hfirst (by decide)

/-- At the first byte of a character the lexer sees a word end exactly if the character is one. -/
theorem endsWord_first {c : Char} {b : UInt8} {bs : List UInt8} (h : String.utf8EncodeChar c = b :: bs) :
    endsWord (asChar b) = endsBare c := by
  by_cases hc : c.toNat < 128
  · rw [encodeChar_of_ascii hc] at h
    obtain ⟨rfl, -⟩ := List.cons.inj h
    rw [asChar_of_ascii hc, endsWord_of_ascii hc]
  · have hle : 128 ≤ c.toNat := Nat.le_of_not_lt hc
    have hb : 128 ≤ b.toNat := le_of_mem_encodeChar hle (h ▸ List.mem_cons_self)
    rw [endsWord_asChar_of_le hb, first_ne_space h, endsBare_of_le hle]

/-- A character of a bare word is passed byte by byte exactly if none of its bytes is white space. -/
theorem passes_iff {c : Char} (hc : endsBare c = false) :
    (∀ b ∈ String.utf8EncodeChar c, (!endsWord (asChar b)) = true) ↔ hasSpaceByte c = false := by
  rw [hasSpaceByte]
  rw [List.any_eq_false]
  by_cases hlt : c.toNat < 128
  · rw [encodeChar_of_ascii hlt]
    simp only [List.mem_singleton, forall_eq, asChar_of_ascii hlt, endsWord_of_ascii hlt, hc]
    refine iff_of_true rfl ?_
    have hbyte : c.val.toUInt8.toNat = c.toNat := by rw [← toNat_asChar, asChar_of_ascii hlt]
    simp only [Bool.or_eq_true, beq_iff_eq, ← UInt8.toNat_inj, hbyte]
    have h1 : (0x85 : UInt8).toNat = 133 := rfl
    have h2 : (0xA0 : UInt8).toNat = 160 := rfl
    omega
  · have hle : 128 ≤ c.toNat := Nat.le_of_not_lt hlt
    refine forall₂_congr fun b hb => ?_
    rw [endsWord_asChar_of_le (le_of_mem_encodeChar hle hb)]
    simp

/-! ## Words -/

/-- The word at the front of a text. -/
def bareWord (t : Text) : Text := t.takeWhile fun c => !endsBare c

/-- A word without such bytes is scanned to its end. -/
theorem scanTo_word {t : Text} (h : ∀ c ∈ bareWord t, hasSpaceByte c = false) :
    scanTo (fun d => endsWord (asChar d)) t.encode = size (bareWord t) := by
  rw [scanTo]
  rw [takeWhile_encode (Q := fun c => !endsBare c)]
  · rfl
  · intro c hc
    have hends : endsBare c = false := by simpa using List.mem_takeWhile_imp hc
    exact (passes_iff hends).2 (h c hc)
  · intro c hc b bs heq
    show (!endsWord (asChar b)) = false
    rw [endsWord_first heq]
    exact hc

/-- A word with such a byte is cut inside a character. -/
theorem slice_dirty (before : Text) {t : Text} (h : ∃ c ∈ bareWord t, hasSpaceByte c = true) :
    sliceText (before ++ t) (size before)
      (size before + scanTo (fun d => endsWord (asChar d)) t.encode) = .error .panic := by
  obtain ⟨u, c, v, n, rfl, hpos, hlt, hlen⟩ := takeWhile_encode_inside
    (P := fun d => !endsWord (asChar d)) (Q := fun c => !endsBare c) (t := t)
    (by
      intro c hc b bs heq
      rw [endsWord_first heq]
      exact hc)
    (by
      obtain ⟨c, hc, hdirty⟩ := h
      have hends : endsBare c = false := by simpa using List.mem_takeWhile_imp hc
      by_contra hnone
      have hclean := (passes_iff hends).1 fun b hb => by
        by_contra hb'
        exact hnone ⟨c, hc, b, hb, by simpa using hb'⟩
      rw [hclean] at hdirty
      cases hdirty)
  rw [scanTo, sliceText]
  rw [hlen, slice_inside before u v c hpos hlt]

/-! ### Operators in a word -/

theorem findText_spec {sym : Text} : ∀ {t : Text} {p : Nat}, findText sym t = some p →
    ∃ u v, t = u ++ (sym ++ v) ∧ p = size u := by
  intro t
  induction t with
  | nil =>
      intro p h
      simp only [findText] at h
      split at h
      · rename_i hsym
        obtain ⟨v, hv⟩ := List.isPrefixOf_iff_prefix.1 hsym
        exact ⟨[], v, hv.symm, (Option.some.inj h).symm⟩
      · cases h
  | cons c t ih =>
      intro p h
      simp only [findText] at h
      split at h
      · rename_i hsym
        obtain ⟨v, hv⟩ := List.isPrefixOf_iff_prefix.1 hsym
        exact ⟨[], v, hv.symm, (Option.some.inj h).symm⟩
      · obtain ⟨q, hq, rfl⟩ := Option.map_eq_some_iff.1 h
        obtain ⟨u, v, rfl, rfl⟩ := ih hq
        exact ⟨c :: u, v, rfl, by rw [size_cons, Nat.add_comm]⟩

/-- A split stands between characters. -/
def Splits (word : Text) (s : OpSplit) : Prop :=
  ∃ u sym v, word = u ++ (sym ++ v) ∧ s.at_ = size u ∧ s.symLen = size sym

theorem splits_fold (word : Text) (ops : List (String × CmpOp)) (split : Option OpSplit)
    (h : ∀ s ∈ split, Splits word s) : ∀ s ∈ ops.foldl (betterSplit word) split, Splits word s := by
  induction ops generalizing split with
  | nil => exact h
  | cons e ops ih =>
      apply ih _
      rw [betterSplit]
      cases hfind : findText e.1.toList word with
      | none => exact h
      | some p =>
          obtain ⟨u, v, huv, rfl⟩ := findText_spec hfind
          have hnew : ∀ s ∈ some (⟨size u, e.2, size e.1.toList⟩ : OpSplit), Splits word s := by
            intro s hs
            obtain rfl := Option.some.inj hs
            exact ⟨u, _, v, huv, rfl, rfl⟩
          cases split with
          | none => exact hnew
          | some s =>
              dsimp only
              split
              · exact hnew
              · exact h

/-- The tokens lie in the first `n` bytes of the input. -/
def Within (n : Nat) (toks : List (Tok × Nat)) : Prop := ∀ t ∈ toks, t.2 ≤ n

theorem Within.snoc {n : Nat} {toks : List (Tok × Nat)} (h : Within n toks) {tok : Tok} {pos : Nat}
    (hpos : pos ≤ n) : Within n (toks ++ [(tok, pos)]) := by
  intro t ht
  rcases List.mem_append.1 ht with ht | ht
  · exact h t ht
  · obtain rfl := List.mem_singleton.1 ht
    exact hpos

theorem Within.pushWord {n : Nat} {toks : List (Tok × Nat)} (h : Within n toks) (word : Text) {pos : Nat}
    (hpos : pos ≤ n) : Within n (pushWord toks word pos) := by
  unfold View.pushWord
  dsimp only
  split
  · exact h.snoc hpos
  · split
    · exact h.snoc hpos
    · split
      · exact h.snoc hpos
      · split
        · exact h
        · split
          · exact h.snoc hpos
          · split
            · exact h.snoc hpos
            · exact h.snoc hpos

/-- A word is split without a panic, its tokens within it. -/
theorem lexWord_ok {n : Nat} {toks : List (Tok × Nat)} (h : Within n toks) (word : Text) (start : Nat)
    (hword : start + size word ≤ n) : ∃ toks', lexWord toks word start = .ok toks' ∧ Within n toks' := by
  rw [lexWord]
  cases hsplit : wordOps.foldl (betterSplit word) none with
  | none => exact ⟨_, rfl, h.pushWord word (by omega)⟩
  | some s =>
      obtain ⟨u, sym, v, rfl, hat, hlen⟩ := splits_fold word wordOps none (by simp) s hsplit
      simp only [size_append] at hword
      -- both slices end where the symbol begins or ends
      have hleft : sliceText (u ++ (sym ++ v)) 0 s.at_ = .ok u := by
        have hslice := slice_append [] u (sym ++ v)
        simp only [List.nil_append, size_nil, Nat.zero_add] at hslice
        rw [sliceText]
        rw [hat, hslice]
      have hright : sliceText (u ++ (sym ++ v)) (s.at_ + s.symLen) (size (u ++ (sym ++ v))) = .ok v := by
        have hslice := slice_append (u ++ sym) v []
        simp only [List.append_nil, List.append_assoc, size_append] at hslice
        rw [sliceText]
        rw [hat, hlen, size_append, size_append, ← Nat.add_assoc, hslice]
      have hfront : ∃ toks', pushLeft toks (u ++ (sym ++ v)) start s.at_ = .ok toks' ∧ Within n toks' := by
        rw [pushLeft]
        split
        · rw [hleft]
          exact ⟨_, rfl, h.pushWord u (by omega)⟩
        · exact ⟨toks, rfl, h⟩
      obtain ⟨front, hfront, hwithin⟩ := hfront
      dsimp only
      rw [hfront, hright]
      have hop : Within n (front ++ [(.op s.op, start + s.at_)]) := hwithin.snoc (by omega)
      by_cases hv : v = []
      · refine ⟨_, ?_, hop⟩
        subst hv
        rfl
      · have hvalue : Within n (front ++ [(.op s.op, start + s.at_)] ++ [(.str v, start + s.at_ + s.symLen)]) :=
          hop.snoc (by omega)
        refine ⟨_, ?_, hvalue⟩
        simp only [bind, Except.bind, hv, if_false]
        rfl

/-! ## The places along a text -/

theorem next_word {c : Char} (h : endsBare c = false) : Place.next .word c = .word := by
  have hquote : ¬(c = doubleQuote ∨ c = singleQuote) := by
    rintro (rfl | rfl)
    · exact absurd h (by decide)
    · exact absurd h (by decide)
  simp [Place.next, hquote, h]

theorem next_between {c : Char} (h : endsBare c = false) (hslash : c ≠ '/') :
    Place.next .between c = .word := by
  have hquote : ¬(c = doubleQuote ∨ c = singleQuote) := by
    rintro (rfl | rfl)
    · exact absurd h (by decide)
    · exact absurd h (by decide)
  simp [Place.next, hquote, h, hslash]

/-- The rest of a word. -/
theorem bareChars_word {w : Text} (hw : ∀ c ∈ w, endsBare c = false) (t : Text) :
    bareChars .word (w ++ t) = w ++ bareChars .word t := by
  induction w with
  | nil => rfl
  | cons c w ih =>
      have hc := next_word (hw c List.mem_cons_self)
      rw [List.cons_append, bareChars, if_pos hc, hc, ih fun d hd => hw d (List.mem_cons_of_mem _ hd)]
      rfl

/-- After a word the next token begins. -/
theorem bareChars_after_word {t : Text} (h : ∀ c ∈ t.head?, endsBare c = true) :
    bareChars .word t = bareChars .between t := by
  cases t with
  | nil => rfl
  | cons c t =>
      have hc : endsBare c = true := h c rfl
      have hnext : Place.next .word c = Place.next .between c := by simp [Place.next, hc]
      unfold bareChars
      rw [hnext]

/-- A whole word. -/
theorem bareChars_bareWord {c : Char} {t : Text} (hc : endsBare c = false) (hslash : c ≠ '/') :
    bareChars .between (c :: t) =
      bareWord (c :: t) ++ bareChars .between ((c :: t).dropWhile fun d => !endsBare d) := by
  have hw : ∀ d ∈ bareWord t, endsBare d = false := by
    intro d hd
    simpa using List.mem_takeWhile_imp hd
  have hsplit : t = bareWord t ++ t.dropWhile fun d => !endsBare d := List.takeWhile_append_dropWhile.symm
  have hafter : ∀ d ∈ (t.dropWhile fun d => !endsBare d).head?, endsBare d = true := by
    intro d hd
    have hnot := List.head?_dropWhile_not (fun d => !endsBare d) t
    rw [Option.mem_def.1 hd] at hnot
    simpa using hnot
  have hnext := next_between hc hslash
  rw [bareChars, if_pos hnext, hnext]
  conv_lhs => rw [hsplit, bareChars_word hw, bareChars_after_word hafter]
  simp [bareWord, hc]

theorem bareChars_quoted {quote : Char} {u : Text} (h : ∀ c ∈ u, c ≠ quote) (t : Text) :
    bareChars (.quoted quote) (u ++ t) = bareChars (.quoted quote) t := by
  induction u with
  | nil => rfl
  | cons c u ih =>
      have hc : Place.next (.quoted quote) c = .quoted quote := by
        simp [Place.next, h c List.mem_cons_self]
      rw [List.cons_append, bareChars, hc, ih fun d hd => h d (List.mem_cons_of_mem _ hd)]
      rfl

/-- In a regex literal an escape matters before a slash only. -/
theorem bareChars_escape {t : Text} (h : ∀ c ∈ t.head?, c ≠ '/') : bareChars .escape t = bareChars .regex t := by
  cases t with
  | nil => rfl
  | cons c t =>
      have hc : c ≠ '/' := h c rfl
      have hnext : Place.next .escape c = Place.next .regex c := by simp [Place.next, hc]
      unfold bareChars
      rw [hnext]

/-! ## Quotes and regex literals -/

/-- A quoted string is scanned to its closing quote. -/
theorem scanTo_quote {quote : Char} (hquote : quote.toNat < 128) (t : Text) :
    scanTo (fun d => asChar d == quote) t.encode = size (t.takeWhile fun c => !(c == quote)) := by
  rw [scanTo]
  rw [takeWhile_encode (Q := fun c => !(c == quote))]
  · rfl
  · intro c hc b hb
    have hne : c ≠ quote := by simpa using List.mem_takeWhile_imp hc
    by_cases hlt : c.toNat < 128
    · rw [encodeChar_of_ascii hlt, List.mem_singleton] at hb
      subst hb
      show (!(asChar c.val.toUInt8 == quote)) = true
      rw [asChar_of_ascii hlt]
      simpa using hne
    · have hle := le_of_mem_encodeChar (Nat.le_of_not_lt hlt) hb
      have hb' : asChar b ≠ quote := by
        rintro rfl
        rw [toNat_asChar] at hquote
        omega
      simpa using hb'
  · intro c hc b bs heq
    have hcq : c = quote := by simpa using hc
    subst hcq
    rw [encodeChar_of_ascii hquote] at heq
    obtain ⟨rfl, -⟩ := List.cons.inj heq
    show (!(asChar c.val.toUInt8 == c)) = false
    rw [asChar_of_ascii hquote]
    simp

/-- A byte of the pattern. -/
theorem scanRegex_cons {b : UInt8} {tail : List UInt8} (hslash : b ≠ 47)
    (hescape : b = 92 → tail.head? ≠ some 47) :
    scanRegex (b :: tail) = (scanRegex tail).map fun r => (asChar b :: r.1, r.2 + 1) := by
  cases tail with
  | nil => simp [scanRegex, hslash]
  | cons c tail =>
      have hnot : ¬(b = 92 ∧ c = 47) := by
        rintro ⟨hb, rfl⟩
        exact hescape hb rfl
      simp [scanRegex, hslash, hnot]

/-- Bytes that are neither slash nor backslash. -/
theorem scanRegex_skip {bs : List UInt8} (h : ∀ b ∈ bs, 128 ≤ b.toNat) (rest : List UInt8) :
    scanRegex (bs ++ rest) = (scanRegex rest).map fun r => (bs.map asChar ++ r.1, r.2 + bs.length) := by
  induction bs with
  | nil => simp
  | cons b bs ih =>
      have hb : 128 ≤ b.toNat := h b List.mem_cons_self
      have hslash : b ≠ 47 := by
        rintro rfl
        exact absurd hb (by decide)
      have hback : b ≠ 92 := by
        rintro rfl
        exact absurd hb (by decide)
      rw [List.cons_append, scanRegex_cons hslash fun heq => absurd heq hback, ih fun d hd => h d (List.mem_cons_of_mem _ hd), Option.map_map]
      congr 1

theorem utf8Size_of_ascii {c : Char} (h : c.toNat < 128) : c.utf8Size = 1 := by
  rw [← String.length_utf8EncodeChar, encodeChar_of_ascii h]
  rfl

theorem byte_of_ascii {c : Char} (h : c.toNat < 128) : c.val.toUInt8.toNat = c.toNat := by
  rw [← toNat_asChar, asChar_of_ascii h]

/-- What the scan of a regex literal finds. -/
def RegexScan (t : Text) : Option (Text × Nat) → Prop
  | none => bareChars .regex t = []
  | some r => ∃ u v, t = u ++ '/' :: v ∧ size u = r.2 ∧ bareChars .regex t = bareChars .between v

theorem RegexScan.cons {c : Char} {t : Text} {r : Option (Text × Nat)}
    (hbare : bareChars .regex (c :: t) = bareChars .regex t) (h : RegexScan t r) (pattern : Text) :
    RegexScan (c :: t) (r.map fun x => (pattern ++ x.1, x.2 + c.utf8Size)) := by
  cases r with
  | none => exact hbare.trans h
  | some x =>
      obtain ⟨u, v, rfl, hsize, hv⟩ := h
      exact ⟨c :: u, v, rfl, by rw [size_cons, hsize, Nat.add_comm], hbare.trans hv⟩

theorem RegexScan.escaped {t : Text} {r : Option (Text × Nat)} (h : RegexScan t r) :
    RegexScan (backslash :: '/' :: t) (r.map fun x => (asChar 47 :: x.1, x.2 + 2)) := by
  cases r with
  | none => exact h
  | some x =>
      obtain ⟨u, v, rfl, hsize, hv⟩ := h
      refine ⟨backslash :: '/' :: u, v, rfl, ?_, hv⟩
      rw [size_cons, size_cons, hsize]
      show 1 + (1 + x.2) = x.2 + 2
      omega

/-- The first byte tells a character of one byte. -/
theorem eq_of_first {c d : Char} (hd : d.toNat < 128) {b : UInt8} {bs : List UInt8}
    (h : String.utf8EncodeChar c = b :: bs) (hb : b.toNat = d.toNat) : c = d := by
  by_cases hlt : c.toNat < 128
  · rw [encodeChar_of_ascii hlt] at h
    have hbyte := byte_of_ascii hlt
    rw [(List.cons.inj h).1, hb] at hbyte
    rw [eq_of_toNat hbyte.symm, Char.ofNat_toNat]
  · have hle := le_of_mem_encodeChar (Nat.le_of_not_lt hlt) (h ▸ List.mem_cons_self)
    omega

theorem head?_encode_ne_slash {t : Text} (h : ∀ c ∈ t.head?, c ≠ '/') : (encode t).head? ≠ some 47 := by
  cases t with
  | nil => simp
  | cons c t =>
      obtain ⟨b, bs, heq, -⟩ := exists_first c
      rw [encode_cons, heq, List.cons_append, List.head?_cons]
      intro hb
      obtain rfl := Option.some.inj hb
      exact h c rfl (eq_of_first (by decide) heq rfl)

/-- A character of the pattern that is not escaped. -/
theorem RegexScan.plain {c : Char} {t : Text} (hslash : c ≠ '/')
    (hescape : c = backslash → ∀ d ∈ t.head?, d ≠ '/') (h : RegexScan t (scanRegex t.encode)) :
    RegexScan (c :: t) (scanRegex (encode (c :: t))) := by
  have hbare : bareChars .regex (c :: t) = bareChars .regex t := by
    by_cases hback : c = backslash
    · subst hback
      exact bareChars_escape (hescape rfl)
    · have hnext : Place.next .regex c = .regex := by simp [Place.next, hslash, hback]
      rw [bareChars, hnext]
      rfl
  by_cases hlt : c.toNat < 128
  · have hsize := utf8Size_of_ascii hlt
    have hfirst := encodeChar_of_ascii hlt
    rw [encode_cons, hfirst, List.singleton_append, scanRegex_cons, ← hsize]
    · exact h.cons hbare [_]
    · intro heq
      rw [heq] at hfirst
      exact hslash (eq_of_first (by decide) hfirst rfl)
    · intro heq
      rw [heq] at hfirst
      exact head?_encode_ne_slash (hescape (eq_of_first (by decide) hfirst rfl))
  · -- no byte of the character is a slash or a backslash
    rw [encode_cons, scanRegex_skip fun b hb => le_of_mem_encodeChar (Nat.le_of_not_lt hlt) hb,
      String.length_utf8EncodeChar]
    exact h.cons hbare _

theorem regexScan_encode (t : Text) : RegexScan t (scanRegex t.encode) := by
  induction hn : t.length using Nat.strong_induction_on generalizing t with
  | _ n ih =>
  cases t with
  | nil => rfl
  | cons c t =>
      have iht := ih t.length (by rw [← hn]; exact Nat.lt_succ_self _) t rfl
      by_cases hslash : c = '/'
      · -- the literal is closed
        subst hslash
        have hscan : ∀ tail, scanRegex (47 :: tail) = some ([], 0) := by
          intro tail
          cases tail <;> simp [scanRegex]
        show RegexScan _ (scanRegex (47 :: encode t))
        rw [hscan]
        exact ⟨[], t, rfl, rfl, rfl⟩
      · by_cases hescaped : c = backslash ∧ t.head? = some '/'
        · obtain ⟨rfl, hhead⟩ := hescaped
          obtain ⟨u, rfl⟩ : ∃ u, t = '/' :: u := by
            cases t with
            | nil => cases hhead
            | cons d u =>
                obtain rfl := Option.some.inj hhead
                exact ⟨u, rfl⟩
          have ihu := ih u.length (by rw [← hn, List.length_cons, List.length_cons]; omega) u rfl
          have hscan : scanRegex (92 :: 47 :: encode u) =
              (scanRegex (encode u)).map fun r => (asChar 47 :: r.1, r.2 + 2) := by
            simp [scanRegex]
          show RegexScan _ (scanRegex (92 :: 47 :: encode u))
          rw [hscan]
          exact ihu.escaped
        · refine iht.plain hslash fun hback d hd hslash' => hescaped ⟨hback, ?_⟩
          rw [Option.mem_def.1 hd, hslash']

/-! ## The loop -/

/-- Tokens or an error, with positions in the input. -/
def Lexed (n : Nat) : Except Failure (List (Tok × Nat)) → Prop
  | .ok toks => Within n toks
  | .error (.query e) => e.position ≤ n
  | .error _ => False

/-- Clean text is lexed, other text is not. -/
def LexesTo (n : Nat) (rest : Text) (r : Except Failure (List (Tok × Nat))) : Prop :=
  (Clean .between rest → Lexed n r) ∧ (¬Clean .between rest → r = .error .panic)

theorem LexesTo.of_iff {n : Nat} {rest rest' : Text} {r : Except Failure (List (Tok × Nat))}
    (hiff : Clean .between rest' ↔ Clean .between rest) (h : LexesTo n rest r) : LexesTo n rest' r :=
  ⟨fun hc => h.1 (hiff.1 hc), fun hc => h.2 fun hc' => hc (hiff.2 hc')⟩

theorem drop_encode (before rest : Text) : (encode (before ++ rest)).drop (size before) = encode rest := by
  rw [encode_append]
  exact List.drop_left

theorem drop_ascii {before t : Text} {c : Char} (h : c.toNat < 128) :
    (encode (before ++ c :: t)).drop (size before) = c.val.toUInt8 :: encode t := by
  rw [drop_encode, encode_cons, encodeChar_of_ascii h]
  rfl

theorem size_le_append (before rest : Text) : size before ≤ size (before ++ rest) := by
  rw [size_append]
  omega

theorem clean_cons {c : Char} {t : Text} (h : Place.next .between c = .between) :
    Clean .between (c :: t) ↔ Clean .between t := by
  rw [Clean]
  rw [bareChars, h]
  rfl

/-- The characters that end a word have one byte. -/
theorem ascii_of_endsBare {c : Char} (h : endsBare c = true) : c.toNat < 128 := by
  by_contra hle
  rw [endsBare_of_le (Nat.le_of_not_lt hle)] at h
  cases h

/-- The lexer from the offset of a character on. -/
def lexRest (before rest : Text) (fuel : Nat) (toks : List (Tok × Nat)) : Except Failure (List (Tok × Nat)) :=
  lexFrom (before ++ rest) (encode (before ++ rest)) fuel (size before) toks

/-- The loop at a later offset. -/
theorem lexRest_append (before u v : Text) (fuel : Nat) (toks : List (Tok × Nat)) :
    lexRest (before ++ u) v fuel toks =
      lexFrom (before ++ (u ++ v)) (encode (before ++ (u ++ v))) fuel (size before + size u) toks := by
  rw [lexRest]
  rw [List.append_assoc, size_append before u]

/-- What is to be shown of the loop with some fuel. -/
def LoopSafe (fuel : Nat) : Prop :=
  ∀ before rest toks, size rest ≤ fuel → Within (size (before ++ rest)) toks →
    LexesTo (size (before ++ rest)) rest (lexRest before rest fuel toks)

/-- The loop goes on at a later offset. -/
theorem LoopSafe.skip {fuel : Nat} (h : LoopSafe fuel) (before u v : Text) {toks : List (Tok × Nat)}
    (hfuel : size v ≤ fuel) (hw : Within (size (before ++ (u ++ v))) toks) :
    LexesTo (size (before ++ (u ++ v))) v
      (lexFrom (before ++ (u ++ v)) (encode (before ++ (u ++ v))) fuel (size before + size u) toks) := by
  have hnext := h (before ++ u) v toks hfuel
  rw [lexRest_append, List.append_assoc] at hnext
  exact hnext hw

section Branches

variable {fuel : Nat} {before t : Text} {c : Char} {toks : List (Tok × Nat)}

/-- White space and parentheses. -/
theorem lexesTo_single (h : LoopSafe fuel) (hfuel : size (c :: t) ≤ fuel + 1) (hc : endsBare c = true)
    (hquote : ¬(c = doubleQuote ∨ c = singleQuote)) (hw : Within (size (before ++ c :: t)) toks) :
    LexesTo (size (before ++ c :: t)) (c :: t) (lexRest before (c :: t) (fuel + 1) toks) := by
  have hlt := ascii_of_endsBare hc
  have hone := utf8Size_of_ascii hlt
  have hbetween : Place.next .between c = .between := by simp [Place.next, hquote, hc]
  have hnext : ∀ toks', Within (size (before ++ c :: t)) toks' →
      LexesTo (size (before ++ c :: t)) (c :: t)
        (lexFrom (before ++ c :: t) (encode (before ++ c :: t)) fuel (size before + 1) toks') := by
    intro toks' hw'
    apply LexesTo.of_iff (clean_cons hbetween)
    have hskip := h.skip before [c] t (by rw [size_cons] at hfuel; omega) hw'
    rw [size_cons, size_nil, hone] at hskip
    exact hskip
  have hpos := size_le_append before (c :: t)
  rw [lexRest]
  rw [lexFrom, drop_ascii hlt]
  simp only [asChar_of_ascii hlt]
  split
  · exact hnext toks hw
  · split
    · exact hnext _ (hw.snoc hpos)
    · split
      · exact hnext _ (hw.snoc hpos)
      · -- nothing else ends a word
        rename_i hspace hopen hclose
        apply absurd hc
        rw [endsBare, isSpace]
        simp [hspace, hopen, hclose, not_or.1 hquote]

/-- A quote opens a quoted string. -/
theorem bareChars_quote (hc : c = doubleQuote ∨ c = singleQuote) (t : Text) :
    bareChars .between (c :: t) = bareChars (.quoted c) t := by
  have hnext : Place.next .between c = .quoted c := by simp [Place.next, hc]
  rw [bareChars, hnext]
  rfl

/-- A string that is not closed runs to the end of the text. -/
theorem clean_unclosed (hc : c = doubleQuote ∨ c = singleQuote) {u : Text} (hu : ∀ d ∈ u, d ≠ c) :
    Clean .between (c :: u) := by
  unfold Clean
  rw [bareChars_quote hc, ← List.append_nil u, bareChars_quoted hu]
  intro d hd
  cases hd

/-- A closed string is passed over. -/
theorem clean_closed (hc : c = doubleQuote ∨ c = singleQuote) {u : Text} (hu : ∀ d ∈ u, d ≠ c) (w : Text) :
    Clean .between (c :: (u ++ c :: w)) ↔ Clean .between w := by
  unfold Clean
  rw [bareChars_quote hc, bareChars_quoted hu, bareChars]
  simp [Place.next]

/-- The text of a string, between its quotes. -/
theorem sliceText_closed (hone : c.utf8Size = 1) (u w : Text) :
    sliceText (before ++ c :: (u ++ c :: w)) (size before + 1) (size before + 1 + size u) = .ok u := by
  have happend := slice_append (before ++ [c]) u (c :: w)
  rw [size_append, size_cons, size_nil, hone, List.append_assoc, List.singleton_append] at happend
  unfold sliceText
  rw [happend]

/-- Quoted strings. -/
theorem lexesTo_quote (h : LoopSafe fuel) (hfuel : size (c :: t) ≤ fuel + 1)
    (hc : c = doubleQuote ∨ c = singleQuote) (hw : Within (size (before ++ c :: t)) toks) :
    LexesTo (size (before ++ c :: t)) (c :: t) (lexRest before (c :: t) (fuel + 1) toks) := by
  have hlt : c.toNat < 128 := by rcases hc with rfl | rfl <;> decide
  have hone := utf8Size_of_ascii hlt
  have hplain : isWhitespace c = false ∧ c ≠ '(' ∧ c ≠ ')' := by rcases hc with rfl | rfl <;> decide
  have hlen : (encode (before ++ c :: t)).length = size before + 1 + size t := by
    show size (before ++ c :: t) = _
    rw [size_append, size_cons, hone, Nat.add_assoc]
  have hpos := size_le_append before (c :: t)
  -- the string and what follows it
  obtain ⟨u, hu⟩ : ∃ u, u = t.takeWhile fun d => !(d == c) := ⟨_, rfl⟩
  obtain ⟨v, hv⟩ : ∃ v, v = t.dropWhile fun d => !(d == c) := ⟨_, rfl⟩
  have hsplit : t = u ++ v := by rw [hu, hv, List.takeWhile_append_dropWhile]
  have hnotMem : ∀ d ∈ u, d ≠ c := by
    intro d hd
    rw [hu] at hd
    simpa using List.mem_takeWhile_imp hd
  have hscan : scanTo (fun d => asChar d == c) (encode t) = size u := by rw [scanTo_quote hlt, hu]
  unfold lexRest
  rw [lexFrom, drop_ascii hlt]
  simp only [asChar_of_ascii hlt, hplain, hc, if_true, if_false, Bool.false_eq_true, hscan, hlen]
  cases v with
  | nil =>
      rw [List.append_nil] at hsplit
      rw [if_pos (by rw [hsplit])]
      refine ⟨fun _ => hpos, fun hdirty => absurd ?_ hdirty⟩
      rw [hsplit]
      exact clean_unclosed hc hnotMem
  | cons d w =>
      have hd : d = c := by
        have hhead := List.head?_dropWhile_not (fun d => !(d == c)) t
        rw [← hv] at hhead
        simpa using hhead
      subst hd
      have hsize : size t = size u + (1 + size w) := by rw [hsplit, size_append, size_cons, hone]
      rw [if_neg (by omega)]
      have hslice : sliceText (before ++ d :: t) (size before + 1) (size before + 1 + size u) = .ok u := by
        rw [hsplit]
        exact sliceText_closed hone u w
      rw [hslice]
      have hiff : Clean .between (d :: t) ↔ Clean .between w := by
        rw [hsplit]
        exact clean_closed hc hnotMem w
      apply LexesTo.of_iff hiff
      have hskip := @LoopSafe.skip fuel h before (d :: (u ++ [d])) w (toks ++ [(.str u, size before)])
      have heq : d :: (u ++ [d]) ++ w = d :: t := by rw [hsplit]; simp
      have hoffset : size (d :: (u ++ [d])) = 1 + size u + 1 := by
        rw [size_cons, size_append, size_cons, size_nil, hone]
        omega
      rw [heq, hoffset] at hskip
      rw [size_cons, hone] at hfuel
      have hres := hskip (by omega) (hw.snoc hpos)
      rw [← Nat.add_assoc, ← Nat.add_assoc] at hres
      exact hres

/-- Regex literals. -/
theorem lexesTo_regex (h : LoopSafe fuel) (hfuel : size ('/' :: t) ≤ fuel + 1)
    (hw : Within (size (before ++ '/' :: t)) toks) :
    LexesTo (size (before ++ '/' :: t)) ('/' :: t) (lexRest before ('/' :: t) (fuel + 1) toks) := by
  have hlt : Char.toNat '/' < 128 := by decide
  have hpos := size_le_append before ('/' :: t)
  have hbare : bareChars .between ('/' :: t) = bareChars .regex t := rfl
  have hplain : isWhitespace '/' = false := by decide
  have hquote : ¬('/' = doubleQuote ∨ '/' = singleQuote) := by decide
  have hscan := regexScan_encode t
  unfold lexRest
  rw [lexFrom, drop_ascii hlt]
  simp only [asChar_of_ascii hlt, hplain, hquote, if_true, if_false, Bool.false_eq_true,
    show ('/' : Char) ≠ '(' by decide, show ('/' : Char) ≠ ')' by decide]
  cases hr : scanRegex (encode t) with
  | none =>
      rw [hr] at hscan
      refine ⟨fun _ => hpos, fun hdirty => absurd ?_ hdirty⟩
      unfold Clean
      rw [hbare, hscan]
      intro d hd
      cases hd
  | some r =>
      rw [hr] at hscan
      obtain ⟨u, v, rfl, hsize, hv⟩ := hscan
      have hiff : Clean .between ('/' :: (u ++ '/' :: v)) ↔ Clean .between v := by
        unfold Clean
        rw [hbare, hv]
      apply LexesTo.of_iff hiff
      have hskip := @LoopSafe.skip fuel h before ('/' :: (u ++ ['/'])) v (toks ++ [(.regex r.1, size before)])
      have heq : '/' :: (u ++ ['/']) ++ v = '/' :: (u ++ '/' :: v) := by simp
      have hoffset : size ('/' :: (u ++ ['/'])) = 1 + r.2 + 1 := by
        rw [size_cons, size_append, size_cons, size_nil, hsize, utf8Size_of_ascii hlt]
        omega
      rw [heq, hoffset] at hskip
      rw [size_cons, size_append, size_cons, utf8Size_of_ascii hlt] at hfuel
      have hres := hskip (by omega) (hw.snoc hpos)
      rw [← Nat.add_assoc, ← Nat.add_assoc] at hres
      exact hres

/-- The branch of the lexer for words. -/
theorem lexRest_bare (hc : endsBare c = false) (hslash : c ≠ '/') :
    lexRest before (c :: t) (fuel + 1) toks =
      (sliceText (before ++ c :: t) (size before)
        (size before + scanTo (fun d => endsWord (asChar d)) (encode (c :: t)))).bind fun word =>
        (lexWord toks word (size before)).bind fun toks' =>
          lexFrom (before ++ c :: t) (encode (before ++ c :: t)) fuel
            (size before + scanTo (fun d => endsWord (asChar d)) (encode (c :: t))) toks' := by
  obtain ⟨b, bs, heq, -⟩ := exists_first c
  -- the first byte is none of those the other branches look for
  have hends : endsWord (asChar b) = false := (endsWord_first heq).trans hc
  simp only [endsWord, Bool.or_eq_false_iff, beq_eq_false_iff_ne] at hends
  obtain ⟨⟨⟨⟨hspace, hopen⟩, hclose⟩, hdouble⟩, hsingle⟩ := hends
  have hslash' : asChar b ≠ '/' := by
    intro hb
    refine hslash (eq_of_first (by decide) heq ?_)
    rw [← toNat_asChar, hb]
  have hdrop : (encode (before ++ c :: t)).drop (size before) = b :: (bs ++ encode t) := by
    rw [drop_encode, encode_cons, heq]
    rfl
  have hbytes : encode (c :: t) = b :: (bs ++ encode t) := by
    rw [encode_cons, heq]
    rfl
  rw [lexRest]
  rw [lexFrom, hdrop, hbytes]
  simp only [hspace, hopen, hclose, hdouble, hsingle, hslash', if_false, Bool.false_eq_true, or_self]
  rfl

/-- A word without such bytes is taken whole. -/
theorem lexRest_word (hc : endsBare c = false) (hslash : c ≠ '/')
    (hclean : ∀ d ∈ bareWord (c :: t), hasSpaceByte d = false) :
    lexRest before (c :: t) (fuel + 1) toks = (lexWord toks (bareWord (c :: t)) (size before)).bind fun toks' =>
      lexRest (before ++ bareWord (c :: t)) ((c :: t).dropWhile fun d => !endsBare d) fuel toks' := by
  have hsplit : c :: t = bareWord (c :: t) ++ (c :: t).dropWhile fun d => !endsBare d :=
    List.takeWhile_append_dropWhile.symm
  have hslice : sliceText (before ++ c :: t) (size before) (size before + size (bareWord (c :: t))) =
      .ok (bareWord (c :: t)) := by
    have happend := slice_append before (bareWord (c :: t)) ((c :: t).dropWhile fun d => !endsBare d)
    rw [← hsplit] at happend
    rw [sliceText]
    rw [happend]
  have hnext : ∀ toks', lexRest (before ++ bareWord (c :: t)) ((c :: t).dropWhile fun d => !endsBare d) fuel toks' =
      lexFrom (before ++ c :: t) (encode (before ++ c :: t)) fuel (size before + size (bareWord (c :: t)))
        toks' := by
    intro toks'
    rw [lexRest_append, ← hsplit]
  simp only [hnext]
  rw [lexRest_bare hc hslash, scanTo_word hclean, hslice]
  rfl

/-- Words. -/
theorem lexesTo_word (h : LoopSafe fuel) (hfuel : size (c :: t) ≤ fuel + 1) (hc : endsBare c = false)
    (hslash : c ≠ '/') (hw : Within (size (before ++ c :: t)) toks) :
    LexesTo (size (before ++ c :: t)) (c :: t) (lexRest before (c :: t) (fuel + 1) toks) := by
  have hclean : Clean .between (c :: t) ↔ (∀ d ∈ bareWord (c :: t), hasSpaceByte d = false) ∧
      Clean .between ((c :: t).dropWhile fun d => !endsBare d) := by
    rw [Clean]
    rw [bareChars_bareWord hc hslash]
    exact List.forall_mem_append
  by_cases hword : ∀ d ∈ bareWord (c :: t), hasSpaceByte d = false
  · have hsplit : c :: t = bareWord (c :: t) ++ (c :: t).dropWhile fun d => !endsBare d :=
      List.takeWhile_append_dropWhile.symm
    have hne : 0 < size (bareWord (c :: t)) := by
      rw [bareWord]
      simp only [List.takeWhile_cons, hc, Bool.not_false, if_true, size_cons]
      have := Char.utf8Size_pos c
      omega
    have hrest : Clean .between (c :: t) ↔
        Clean .between ((c :: t).dropWhile fun d => !endsBare d) := by
      rw [hclean]
      exact ⟨fun hboth => hboth.2, fun hafter => ⟨hword, hafter⟩⟩
    rw [lexRest_word hc hslash hword]
    generalize bareWord (c :: t) = w at hsplit hne
    generalize (c :: t).dropWhile (fun d => !endsBare d) = v at hsplit hrest
    refine LexesTo.of_iff hrest ?_
    rw [hsplit] at hw hfuel ⊢
    rw [size_append] at hfuel
    obtain ⟨toks', htoks, hwithin⟩ := lexWord_ok hw w (size before)
      (by rw [size_append, size_append]; omega)
    rw [htoks]
    rw [← List.append_assoc] at hwithin ⊢
    exact h (before ++ w) v toks' (by omega) hwithin
  · have hdirty : ∃ d ∈ bareWord (c :: t), hasSpaceByte d = true := by
      by_contra hnone
      refine hword fun d hd => ?_
      by_contra hd'
      exact hnone ⟨d, hd, by simpa using hd'⟩
    rw [lexRest_bare hc hslash, slice_dirty before hdirty]
    exact ⟨fun hall => absurd (hclean.1 hall).1 hword, fun _ => rfl⟩

end Branches

theorem loopSafe (fuel : Nat) : LoopSafe fuel := by
  induction fuel with
  | zero =>
      intro before rest toks hfuel hw
      obtain rfl := size_eq_zero (Nat.le_zero.1 hfuel)
      refine ⟨fun _ => ?_, fun hdirty => absurd (by intro d hd; cases hd) hdirty⟩
      have hlen : ¬size before < (encode (before ++ [])).length := by
        rw [List.append_nil]
        exact Nat.lt_irrefl _
      rw [lexRest]
      rw [lexFrom, if_neg hlen]
      exact hw
  | succ fuel ih =>
      intro before rest toks hfuel hw
      cases rest with
      | nil =>
          refine ⟨fun _ => ?_, fun hdirty => absurd (by intro d hd; cases hd) hdirty⟩
          rw [lexRest]
          rw [lexFrom, drop_encode]
          exact hw
      | cons c t =>
          cases hc : endsBare c with
          | true =>
              by_cases hquote : c = doubleQuote ∨ c = singleQuote
              · exact lexesTo_quote ih hfuel hquote hw
              · exact lexesTo_single ih hfuel hc hquote hw
          | false =>
              by_cases hslash : c = '/'
              · subst hslash
                exact lexesTo_regex ih hfuel hw
              · exact lexesTo_word ih hfuel hc hslash hw

/-- The lexer on a whole input. -/
theorem lexesTo_lex (input : Text) : LexesTo input.size input (lex input) := by
  have h := loopSafe input.size [] input [] (Nat.le_refl _) fun _ ht => (by cases ht)
  exact h

end Pktflow.View

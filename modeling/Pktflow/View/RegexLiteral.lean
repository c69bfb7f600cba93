import Pktflow.View.Hugging

/-!
# Regex literals

The branch of `lex` (`query.rs`) that reads `/…/` rebuilds the pattern from the bytes of the input, each taken
for a character, where its sibling for quoted text slices the input. What it finds is the text between the
slashes with the escapes undone, byte for byte (`scanRegex_body`), so it is that text exactly if it is ASCII
(`lexesLiteral_iff`).
-/

set_option autoImplicit false

namespace Pktflow.View

open Pktflow.Lib Pktflow.Lib.Text

/-- Each escaped slash becomes a slash, every other character stays. -/
def unescape : Text → Text
  | c :: d :: t => if c = backslash ∧ d = '/' then '/' :: unescape t else c :: unescape (d :: t)
  | t => t

/-- The text may stand between the slashes of a literal: it does not end in a backslash, and each slash in it
follows one. -/
structure IsBody (p : Text) : Prop where
  last : p.getLast? ≠ some backslash
  slashes : ∀ u v, p = u ++ '/' :: v → u.getLast? = some backslash

/-- The literal lexes to one token with this pattern, alone and in a query, where the loop goes on behind the
closing slash. -/
structure LexesLiteral (p pattern : Text) : Prop where
  alone : lex ('/' :: (p ++ ['/'])) = .ok [(.regex pattern, 0)]
  within : ∀ before after fuel toks, lexRest before ('/' :: (p ++ '/' :: after)) (fuel + 1) toks =
    lexRest (before ++ '/' :: (p ++ ['/'])) after fuel (toks ++ [(.regex pattern, size before)])

/-- The text is ASCII. -/
def IsAscii (p : Text) : Prop := ∀ c ∈ p, c.toNat < 128

section Bodies

variable {c d : Char} {t p : Text}

theorem IsBody.nil : IsBody [] where
  last := by simp
  slashes := by
    intro u v h
    simp at h

/-- Behind an escaped slash. -/
theorem IsBody.of_escaped (h : IsBody (backslash :: '/' :: t)) : IsBody t where
  last := by
    intro hlast
    apply h.last
    rw [List.getLast?_cons_cons, List.getLast?_cons, hlast]
    rfl
  slashes := by
    rintro u v rfl
    have hback := h.slashes (backslash :: '/' :: u) v rfl
    cases u with
    | nil => exact absurd hback (by decide)
    | cons e u =>
        rw [List.getLast?_cons_cons, List.getLast?_cons_cons] at hback
        exact hback

/-- A character that is not part of an escape is no slash, and nothing escapes the one behind it. -/
theorem IsBody.of_plain (h : IsBody (c :: t)) (hplain : ¬(c = backslash ∧ t.head? = some '/')) :
    c ≠ '/' ∧ (c = backslash → t ≠ []) ∧ IsBody t := by
  refine ⟨?_, ?_, ?_, ?_⟩
  · rintro rfl
    have hback := h.slashes [] t rfl
    cases hback
  · rintro rfl rfl
    exact h.last rfl
  · intro hlast
    apply h.last
    rw [List.getLast?_cons, hlast]
    rfl
  · rintro u v rfl
    have hback := h.slashes (c :: u) v rfl
    cases u with
    | nil => exact absurd ⟨Option.some.inj hback, rfl⟩ hplain
    | cons e u =>
        rw [List.getLast?_cons_cons] at hback
        exact hback

theorem unescape_escaped (t : Text) : unescape (backslash :: '/' :: t) = '/' :: unescape t := by
  rw [unescape, if_pos ⟨rfl, rfl⟩]

theorem unescape_plain (hplain : ¬(c = backslash ∧ t.head? = some '/')) : unescape (c :: t) = c :: unescape t := by
  cases t with
  | nil => rfl
  | cons d t =>
      rw [unescape, if_neg]
      rintro ⟨hc, rfl⟩
      exact hplain ⟨hc, rfl⟩

/-- The bytes of a text, each taken for a character. -/
def asChars (t : Text) : Text := (encode t).map asChar

/-- One character of a body, behind which the scan goes on. -/
theorem scanRegex_plain {tail : List UInt8} (hslash : c ≠ '/') (hback : c = backslash → tail.head? ≠ some 47) :
    scanRegex (String.utf8EncodeChar c ++ tail) =
      (scanRegex tail).map fun r => (asChars [c] ++ r.1, r.2 + c.utf8Size) := by
  have hone : asChars [c] = (String.utf8EncodeChar c).map asChar := by
    rw [asChars]
    rw [encode_cons, encode_nil, List.append_nil]
  rw [hone, ← String.length_utf8EncodeChar c]
  by_cases hlt : c.toNat < 128
  · rw [encodeChar_of_ascii hlt, List.singleton_append, scanRegex_cons]
    · rfl
    · intro hb
      apply hslash
      rw [← asChar_of_ascii hlt, hb]
      rfl
    · intro hb
      apply hback
      rw [← asChar_of_ascii hlt, hb]
      rfl
  · exact scanRegex_skip (fun b hb => le_of_mem_encodeChar (Nat.le_of_not_lt hlt) hb) tail

/-- The scan of a body finds its bytes, with the escapes undone. -/
theorem scanRegex_body (h : IsBody p) (after : Text) :
    scanRegex (encode (p ++ '/' :: after)) = some (asChars (unescape p), size p) := by
  induction p using unescape.induct with
  | case1 c d t hesc ih =>
      obtain ⟨rfl, rfl⟩ := hesc
      have hrest := ih h.of_escaped
      have hstep : ∀ tail, scanRegex (92 :: 47 :: tail) = (scanRegex tail).map fun r => (asChar 47 :: r.1, r.2 + 2) := by
        intro tail
        simp [scanRegex]
      rw [unescape_escaped]
      show scanRegex (92 :: 47 :: encode (t ++ '/' :: after)) = _
      rw [hstep, hrest]
      have hsize : size (backslash :: '/' :: t) = size t + 2 := by
        rw [size_cons, size_cons, utf8Size_of_ascii (by decide), utf8Size_of_ascii (by decide)]
        omega
      rw [hsize]
      rfl
  | case2 c d t hesc ih =>
      have hplain : ¬(c = backslash ∧ (d :: t).head? = some '/') := by
        rintro ⟨hc, hd⟩
        exact hesc ⟨hc, Option.some.inj hd⟩
      obtain ⟨hslash, -, hbody⟩ := h.of_plain hplain
      rw [unescape_plain hplain, List.cons_append, encode_cons, scanRegex_plain hslash, ih hbody]
      · show some (asChars [c] ++ asChars (unescape (d :: t)), _) = _
        rw [size_cons c, Nat.add_comm, asChars, asChars, asChars, ← List.map_append, ← encode_append]
        rfl
      · intro hc
        apply head?_encode_ne_slash
        intro e he
        obtain rfl := Option.some.inj he
        rintro rfl
        exact hesc ⟨hc, rfl⟩
  | case3 p hnot =>
      -- the closing slash
      have hend : scanRegex (encode ([] ++ '/' :: after)) = some ([], 0) := by
        show scanRegex (47 :: encode after) = _
        cases encode after <;> rfl
      cases p with
      | nil => exact hend
      | cons c t =>
          cases t with
          | cons d t => exact absurd rfl (hnot c d t)
          | nil =>
              obtain ⟨hslash, hback, -⟩ := h.of_plain (by rintro ⟨-, hnil⟩; cases hnil)
              rw [List.cons_append, encode_cons, scanRegex_plain hslash fun hc => absurd rfl (hback hc), hend,
                size_cons]
              show some (asChars [c] ++ [], _) = _
              rw [List.append_nil, Nat.add_comm]
              rfl

end Bodies

/-! ## ASCII -/

section Ascii

variable {t p : Text}

theorem asChars_of_ascii (h : IsAscii t) : asChars t = t := by
  induction t with
  | nil => rfl
  | cons c t ih =>
      have hc := h c List.mem_cons_self
      have hrest := ih fun d hd => h d (List.mem_cons_of_mem c hd)
      rw [asChars] at hrest ⊢
      rw [encode_cons, encodeChar_of_ascii hc, List.singleton_append, List.map_cons, hrest, asChar_of_ascii hc]

/-- A character that is not ASCII has more than one byte. -/
theorem ascii_of_asChars (h : asChars t = t) : IsAscii t := by
  have hlen : size t = t.length := by
    have hmap := congrArg List.length h
    rw [asChars, List.length_map] at hmap
    exact hmap
  clear h
  -- each character has a byte at least, so that none has more
  have hle : ∀ u : Text, u.length ≤ size u := by
    intro u
    induction u with
    | nil => exact Nat.zero_le _
    | cons c u ih =>
        have hpos := Char.utf8Size_pos c
        rw [size_cons, List.length_cons]
        omega
  induction t with
  | nil =>
      intro c hc
      cases hc
  | cons c t ih =>
      have hpos := Char.utf8Size_pos c
      have ht := hle t
      rw [size_cons, List.length_cons] at hlen
      intro d hd
      rcases List.mem_cons.1 hd with rfl | hd
      · have hone : d.utf8Size = 1 := by omega
        exact Nat.lt_succ_of_le (UInt32.le_iff_toNat_le.1 (Char.utf8Size_eq_one_iff.1 hone))
      · exact ih (by omega) d hd

/-- Undoing the escapes takes nothing away but backslashes. -/
theorem isAscii_unescape (t : Text) : IsAscii (unescape t) ↔ IsAscii t := by
  induction t using unescape.induct with
  | case1 c d t hesc ih =>
      obtain ⟨rfl, rfl⟩ := hesc
      rw [unescape_escaped]
      unfold IsAscii at ih ⊢
      simp only [List.forall_mem_cons, ih]
      have hback : backslash.toNat < 128 := by decide
      simp [hback]
  | case2 c d t hesc ih =>
      rw [unescape, if_neg hesc]
      unfold IsAscii at ih ⊢
      rw [List.forall_mem_cons, ih, List.forall_mem_cons (a := c)]
  | case3 t hnot =>
      rw [unescape]
      exact hnot

end Ascii

/-- A regex literal lexes to the text between its slashes, with the escapes undone, exactly if the text is
ASCII. -/
theorem lexesLiteral_iff {p : Text} (h : IsBody p) : LexesLiteral p (unescape p) ↔ IsAscii p := by
  have hscan := scanRegex_body h
  have hregex : lex ('/' :: (p ++ ['/'])) = .ok [(.regex (asChars (unescape p)), 0)] :=
    IsRegex.lexes ⟨p, rfl, hscan []⟩
  rw [← isAscii_unescape]
  constructor
  · intro hlexes
    have heq := hregex.symm.trans hlexes.alone
    simp only [Except.ok.injEq, List.cons.injEq, Prod.mk.injEq, Tok.regex.injEq, and_true] at heq
    exact ascii_of_asChars heq
  · intro hascii
    have hsame := asChars_of_ascii hascii
    rw [hsame] at hscan hregex
    exact ⟨hregex, fun before after fuel toks => lexRest_regex (hscan after) fuel⟩

/-- An escaped slash between letters. -/
theorem lexesLiteral_slash :
    LexesLiteral ['a', backslash, '/', 'b'] ['a', '/', 'b'] := by
  have hbody : IsBody ['a', backslash, '/', 'b'] := by
    refine ⟨by decide, fun u v h => ?_⟩
    match u, h with
    | [], h => exact absurd (List.cons.inj h).1 (by decide)
    | [_], h => exact absurd (List.cons.inj (List.cons.inj h).2).1 (by decide)
    | [_, e], h =>
        obtain ⟨rfl, -⟩ := List.cons.inj (List.cons.inj h).2
        rfl
    | [_, _, _], h => exact absurd (List.cons.inj (List.cons.inj (List.cons.inj (List.cons.inj h).2).2).2).1 (by decide)
    | _ :: _ :: _ :: _ :: _, h =>
        have hlen := congrArg List.length h
        simp at hlen
  have hascii : IsAscii ['a', backslash, '/', 'b'] := by
    intro c hc
    simp only [List.mem_cons, List.not_mem_nil, or_false] at hc
    rcases hc with rfl | rfl | rfl | rfl <;> decide
  exact (lexesLiteral_iff hbody).2 hascii

/-- The pattern of a literal with one letter that has two bytes has two characters. -/
theorem lexesLiteral_fails :
    IsBody [Char.ofNat 0xE9] ∧ unescape [Char.ofNat 0xE9] = [Char.ofNat 0xE9] ∧
      lex ['/', Char.ofNat 0xE9, '/'] = .ok [(.regex [Char.ofNat 0xC3, Char.ofNat 0xA9], 0)] ∧
      ¬LexesLiteral [Char.ofNat 0xE9] [Char.ofNat 0xE9] := by
  have hlex : lex ['/', Char.ofNat 0xE9, '/'] = .ok [(.regex [Char.ofNat 0xC3, Char.ofNat 0xA9], 0)] := by
    decide +kernel
  refine ⟨⟨by decide, fun u v h => ?_⟩, rfl, hlex, fun h => ?_⟩
  · match u, h with
    | [], h => exact absurd (List.cons.inj h).1 (by decide)
    | _ :: u, h =>
        have hlen := congrArg List.length h
        simp at hlen
  · have heq := hlex.symm.trans h.alone
    simp only [Except.ok.injEq, List.cons.injEq, Prod.mk.injEq, Tok.regex.injEq] at heq
    cases heq.1.1.2

end Pktflow.View

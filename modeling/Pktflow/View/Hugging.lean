import Pktflow.View.Grammar

/-!
# Operators that hug their operands

`f op v` is lexed token by token, `fopv` as one word that is split at its first operator. For a word on the
right the two give the same query with every operator but `=`, which is not among `WORD_OPS`; a regex literal
on the right is taken literally when it is hugged (`hugs_iff`).
-/

set_option autoImplicit false

namespace Pktflow.View

open Pktflow.Lib Pktflow.Lib.Text

/-! ## The loop, piece by piece -/

/-- The loop from the offset of `rest` on gives `r`, with any fuel that is enough. -/
def LexesAs (before rest : Text) (toks : List (Tok × Nat)) (r : Except Failure (List (Tok × Nat))) : Prop :=
  ∀ fuel, size rest ≤ fuel → lexRest before rest fuel toks = r

theorem LexesAs.lex_eq {input : Text} {r : Except Failure (List (Tok × Nat))} (h : LexesAs [] input [] r) :
    lex input = r := h input.size (Nat.le_refl _)

section Pieces

variable {before u v t : Text} {c : Char} {toks toks' : List (Tok × Nat)}
  {r : Except Failure (List (Tok × Nat))}

theorem LexesAs.done : LexesAs before [] toks (.ok toks) := by
  intro fuel _
  rw [lexRest]
  cases fuel with
  | zero =>
      have hlen : ¬size before < (encode (before ++ [])).length := by
        rw [List.append_nil]
        exact Nat.lt_irrefl _
      rw [lexFrom, if_neg hlen]
  | succ fuel => rw [lexFrom, drop_encode]; rfl

theorem LexesAs.space (hc : isSpace c = true) (h : LexesAs (before ++ [c]) t toks r) :
    LexesAs before (c :: t) toks r := by
  obtain ⟨hlt, hwhite⟩ : c.toNat < 128 ∧ isWhitespace c = true := by simpa [isSpace] using hc
  have hone := utf8Size_of_ascii hlt
  intro fuel hfuel
  rw [size_cons, hone] at hfuel
  obtain ⟨n, rfl⟩ : ∃ n, fuel = n + 1 := ⟨fuel - 1, by omega⟩
  have hnext := h n (by omega)
  rw [lexRest_append, size_cons, size_nil, hone] at hnext
  rw [lexRest]
  rw [lexFrom, drop_ascii hlt]
  simp only [asChar_of_ascii hlt, hwhite, if_true]
  exact hnext

theorem bareWord_append (hu : ∀ d ∈ u, endsBare d = false) : bareWord (u ++ v) = u ++ bareWord v := by
  induction u with
  | nil => rfl
  | cons d u ih =>
      have hd := hu d List.mem_cons_self
      have ihu := ih fun x hx => hu x (List.mem_cons_of_mem d hx)
      rw [bareWord] at ihu ⊢
      rw [List.cons_append, List.takeWhile_cons, hd, ihu]
      rfl

theorem dropWhile_append_bare (hu : ∀ d ∈ u, endsBare d = false) :
    (u ++ v).dropWhile (fun d => !endsBare d) = v.dropWhile fun d => !endsBare d := by
  induction u with
  | nil => rfl
  | cons d u ih =>
      have hd := hu d List.mem_cons_self
      rw [List.cons_append, List.dropWhile_cons, hd]
      exact ih fun x hx => hu x (List.mem_cons_of_mem d hx)

/-- A word up to a blank or the end. -/
theorem LexesAs.word (hne : u ≠ []) (hbare : ∀ d ∈ u, endsBare d = false ∧ hasSpaceByte d = false)
    (hslash : u.head? ≠ some '/') (hv : bareWord v = []) (hword : lexWord toks u (size before) = .ok toks')
    (h : LexesAs (before ++ u) v toks' r) : LexesAs before (u ++ v) toks r := by
  have hends : ∀ d ∈ u, endsBare d = false := fun d hd => (hbare d hd).1
  have hwhole : bareWord (u ++ v) = u := by rw [bareWord_append hends, hv, List.append_nil]
  have hrest : v.dropWhile (fun d => !endsBare d) = v := by
    have hsplit : bareWord v ++ v.dropWhile (fun d => !endsBare d) = v := List.takeWhile_append_dropWhile
    rw [hv] at hsplit
    exact hsplit
  intro fuel hfuel
  rw [size_append] at hfuel
  cases u with
  | nil => exact absurd rfl hne
  | cons c u =>
      have hpos := Char.utf8Size_pos c
      rw [size_cons] at hfuel
      obtain ⟨n, rfl⟩ : ∃ n, fuel = n + 1 := ⟨fuel - 1, by omega⟩
      rw [List.cons_append] at hwhole ⊢
      rw [lexRest_word (hends c List.mem_cons_self) (by rintro rfl; exact hslash rfl)
        (by rw [hwhole]; exact fun d hd => (hbare d hd).2), hwhole, hword,
        ← List.cons_append, dropWhile_append_bare hends, hrest]
      exact h n (by omega)

/-- The loop at a regex literal: its token is pushed, and the loop goes on behind the closing slash. -/
theorem lexRest_regex {pattern : Text} (hscan : scanRegex (encode (u ++ '/' :: v)) = some (pattern, size u))
    (fuel : Nat) :
    lexRest before ('/' :: (u ++ '/' :: v)) (fuel + 1) toks =
      lexRest (before ++ '/' :: (u ++ ['/'])) v fuel (toks ++ [(.regex pattern, size before)]) := by
  have hlt : Char.toNat '/' < 128 := by decide
  have hplain : isWhitespace '/' = false := by decide
  have hquote : ¬('/' = doubleQuote ∨ '/' = singleQuote) := by decide
  have heq : '/' :: (u ++ ['/']) ++ v = '/' :: (u ++ '/' :: v) := by simp
  have hoffset : size before + size ('/' :: (u ++ ['/'])) = size before + 1 + size u + 1 := by
    rw [size_cons, size_append, size_cons, size_nil, utf8Size_of_ascii hlt]
    omega
  rw [lexRest_append, heq, hoffset]
  rw [lexRest]
  rw [lexFrom, drop_ascii hlt]
  simp only [asChar_of_ascii hlt, hplain, hquote, if_true, if_false, Bool.false_eq_true,
    show ('/' : Char) ≠ '(' by decide, show ('/' : Char) ≠ ')' by decide, hscan]

/-- A regex literal. -/
theorem LexesAs.regex {pattern : Text} (hscan : scanRegex (encode (u ++ '/' :: v)) = some (pattern, size u))
    (h : LexesAs (before ++ '/' :: (u ++ ['/'])) v (toks ++ [(.regex pattern, size before)]) r) :
    LexesAs before ('/' :: (u ++ '/' :: v)) toks r := by
  have hone : Char.utf8Size '/' = 1 := rfl
  intro fuel hfuel
  rw [size_cons, size_append, size_cons, hone] at hfuel
  obtain ⟨n, rfl⟩ : ∃ n, fuel = n + 1 := ⟨fuel - 1, by omega⟩
  rw [lexRest_regex hscan]
  exact h n (by omega)

end Pieces

/-! ### The tokens only grow -/

theorem prefix_pushWord (toks : List (Tok × Nat)) (word : Text) (pos : Nat) :
    toks <+: pushWord toks word pos := by
  unfold pushWord
  dsimp only
  repeat' split
  all_goals first
    | exact List.prefix_append _ _
    | exact List.prefix_rfl

theorem prefix_lexWord {toks toks' : List (Tok × Nat)} {word : Text} {start : Nat}
    (h : lexWord toks word start = .ok toks') : toks <+: toks' := by
  rw [lexWord] at h
  split at h
  · obtain rfl := Except.ok.inj h
    exact prefix_pushWord toks word start
  · obtain ⟨left, hleft, h⟩ := bind_ok h
    have hgrow : toks <+: left := by
      rw [pushLeft] at hleft
      split at hleft
      · cases hslice : sliceText word 0 _ with
        | error e =>
            rw [hslice] at hleft
            cases hleft
        | ok front =>
            rw [hslice] at hleft
            obtain rfl := Except.ok.inj hleft
            exact prefix_pushWord toks front start
      · obtain rfl := Except.ok.inj hleft
        exact List.prefix_rfl
    obtain ⟨rest, -, h⟩ := bind_ok h
    split at h
    · obtain rfl := Except.ok.inj h
      exact hgrow.trans (List.prefix_append _ _)
    · obtain rfl := Except.ok.inj h
      rw [List.append_assoc]
      exact hgrow.trans (List.prefix_append _ _)

theorem prefix_lexFrom {input : Text} {bytes : List UInt8} {fuel i : Nat} {toks out : List (Tok × Nat)}
    (h : lexFrom input bytes fuel i toks = .ok out) : toks <+: out := by
  induction fuel generalizing i toks with
  | zero =>
      rw [lexFrom] at h
      split at h
      · cases h
      · obtain rfl := Except.ok.inj h
        exact List.prefix_rfl
  | succ fuel ih =>
      have hsnoc : ∀ {j : Nat} {tok : Tok × Nat}, lexFrom input bytes fuel j (toks ++ [tok]) = .ok out →
          toks <+: out := fun hnext => (List.prefix_append _ _).trans (ih hnext)
      rw [lexFrom] at h
      split at h
      · obtain rfl := Except.ok.inj h
        exact List.prefix_rfl
      · dsimp only at h
        split at h
        · exact ih h
        split at h
        · exact hsnoc h
        split at h
        · exact hsnoc h
        split at h
        · split at h
          · cases h
          · obtain ⟨quoted, -, h⟩ := bind_ok h
            exact hsnoc h
        split at h
        · split at h
          · cases h
          · exact hsnoc h
        · obtain ⟨word, -, h⟩ := bind_ok h
          obtain ⟨toks', hword, h⟩ := bind_ok h
          exact (prefix_lexWord hword).trans (ih h)

/-- The tokens of the first word stand first. -/
theorem lex_first {c : Char} {t : Text} {out : List (Tok × Nat)} (hc : endsBare c = false) (hslash : c ≠ '/')
    (h : lex (c :: t) = .ok out) :
    ∃ toks, lexWord [] (bareWord (c :: t)) 0 = .ok toks ∧ toks <+: out := by
  have hclean : Clean .between (c :: t) := by
    by_contra hdirty
    rw [(lexesTo_lex (c :: t)).2 hdirty] at h
    cases h
  have hbytes : ∀ d ∈ bareWord (c :: t), hasSpaceByte d = false := by
    rw [Clean] at hclean
    rw [bareChars_bareWord hc hslash] at hclean
    exact (List.forall_mem_append.1 hclean).1
  have hpos := Char.utf8Size_pos c
  obtain ⟨n, hn⟩ : ∃ n, size (c :: t) = n + 1 := ⟨size (c :: t) - 1, by rw [size_cons]; omega⟩
  have hloop : lexRest [] (c :: t) (size (c :: t)) [] = .ok out := h
  rw [hn, lexRest_word hc hslash hbytes] at hloop
  obtain ⟨toks, hword, hrest⟩ := bind_ok hloop
  exact ⟨toks, hword, prefix_lexFrom hrest⟩

/-! ## Operators in a word -/

/-- The characters of the operators. -/
def isOpChar (c : Char) : Bool := c == '=' || c == '!' || c == '<' || c == '>' || c == '~'

/-- The symbolic operators of the language: those of `WORD_OPS`, and `=`. -/
def symbolOps : List (String × CmpOp) := ("=", .eq) :: wordOps

theorem isOpChar_of_mem {e : String × CmpOp} (he : e ∈ wordOps) {c : Char} (hc : c ∈ e.1.toList) :
    isOpChar c = true := by
  have hall : (wordOps.all fun e => e.1.toList.all isOpChar) = true := by decide
  exact List.all_eq_true.1 (List.all_eq_true.1 hall e he) c hc

theorem exists_head {e : String × CmpOp} (he : e ∈ wordOps) : ∃ c s, e.1.toList = c :: s := by
  revert he
  revert e
  simp [wordOps]

theorem fold_none {word : Text} {ops : List (String × CmpOp)}
    (h : ∀ e ∈ ops, findText e.1.toList word = none) : ops.foldl (betterSplit word) none = none := by
  induction ops with
  | nil => rfl
  | cons e ops ih =>
      have hstep : betterSplit word none e = none := by
        rw [betterSplit]
        rw [h e List.mem_cons_self]
      rw [List.foldl_cons, hstep]
      exact ih fun x hx => h x (List.mem_cons_of_mem e hx)

/-- A word without operator characters is not split. -/
theorem lexWord_plain {w : Text} (h : ∀ c ∈ w, isOpChar c = false) (toks : List (Tok × Nat)) (start : Nat) :
    lexWord toks w start = .ok (pushWord toks w start) := by
  have hnone : wordOps.foldl (betterSplit w) none = none := by
    apply fold_none
    intro e he
    cases hfind : findText e.1.toList w with
    | none => rfl
    | some p =>
        obtain ⟨u, v, rfl, -⟩ := findText_spec hfind
        obtain ⟨c, s, hcs⟩ := exists_head he
        have hc : c ∈ e.1.toList := by rw [hcs]; exact List.mem_cons_self
        have hop := isOpChar_of_mem he hc
        rw [h c (List.mem_append_right u (List.mem_append_left v hc))] at hop
        cases hop
  rw [lexWord]
  rw [hnone]

/-! ### The first operator of a word -/

/-- A split of the text after a character, seen from before it. -/
def OpSplit.shift (n : Nat) (s : OpSplit) : OpSplit := { s with at_ := s.at_ + n }

/-- Where no operator begins, the split is that of what follows. -/
theorem fold_skip {c : Char} {t : Text} {ops : List (String × CmpOp)} (split : Option OpSplit)
    (h : ∀ e ∈ ops, e.1.toList.isPrefixOf (c :: t) = false) :
    ops.foldl (betterSplit (c :: t)) (split.map (OpSplit.shift c.utf8Size)) =
      (ops.foldl (betterSplit t) split).map (OpSplit.shift c.utf8Size) := by
  induction ops generalizing split with
  | nil => rfl
  | cons e ops ih =>
      have hfind : findText e.1.toList (c :: t) = (findText e.1.toList t).map (· + c.utf8Size) := by
        rw [findText, h e List.mem_cons_self]
        rfl
      have hstep : betterSplit (c :: t) (split.map (OpSplit.shift c.utf8Size)) e =
          (betterSplit t split e).map (OpSplit.shift c.utf8Size) := by
        unfold betterSplit
        rw [hfind]
        cases findText e.1.toList t with
        | none => rfl
        | some p =>
            cases split with
            | none => rfl
            | some s =>
                have hiff : (p + c.utf8Size < s.at_ + c.utf8Size ∨
                    p + c.utf8Size = s.at_ + c.utf8Size ∧ s.symLen < size e.1.toList) ↔
                    (p < s.at_ ∨ p = s.at_ ∧ s.symLen < size e.1.toList) := by omega
                dsimp only [Option.map_some, OpSplit.shift]
                by_cases hbetter : p < s.at_ ∨ p = s.at_ ∧ s.symLen < size e.1.toList
                · rw [if_pos (hiff.2 hbetter), if_pos hbetter]
                  rfl
                · rw [if_neg fun hc => hbetter (hiff.1 hc), if_neg hbetter]
                  rfl
      rw [List.foldl_cons, List.foldl_cons, hstep]
      exact ih _ fun x hx => h x (List.mem_cons_of_mem e hx)

/-- No operator begins at a character that is in none. -/
theorem not_prefix_plain {c : Char} {t : Text} (hc : isOpChar c = false) {e : String × CmpOp}
    (he : e ∈ wordOps) : e.1.toList.isPrefixOf (c :: t) = false := by
  obtain ⟨d, s, hds⟩ := exists_head he
  have hd : isOpChar d = true := isOpChar_of_mem he (by rw [hds]; exact List.mem_cons_self)
  have hne : (d == c) = false := by
    rw [beq_eq_false_iff_ne]
    rintro rfl
    rw [hc] at hd
    cases hd
  rw [hds, List.isPrefixOf, hne]
  rfl

theorem fold_append {u t : Text} (hu : ∀ c ∈ u, isOpChar c = false) :
    wordOps.foldl (betterSplit (u ++ t)) none =
      (wordOps.foldl (betterSplit t) none).map (OpSplit.shift (size u)) := by
  induction u with
  | nil =>
      have hid : OpSplit.shift (size []) = id := rfl
      rw [hid, Option.map_id]
      rfl
  | cons c u ih =>
      have hskip := @fold_skip c (u ++ t) wordOps none fun e he =>
        not_prefix_plain (hu c List.mem_cons_self) he
      rw [List.cons_append]
      apply hskip.trans
      rw [ih fun x hx => hu x (List.mem_cons_of_mem c hx), Option.map_map, size_cons]
      congr 1
      funext s
      simp only [Function.comp, OpSplit.shift]
      congr 1
      omega

/-- A split at the front with a longer symbol stays. -/
theorem betterSplit_keep {word : Text} {op : CmpOp} {n : Nat} {e : String × CmpOp}
    (h : findText e.1.toList word = some 0 → size e.1.toList ≤ n) :
    betterSplit word (some ⟨0, op, n⟩) e = some ⟨0, op, n⟩ := by
  rw [betterSplit]
  cases hp : findText e.1.toList word with
  | none => rfl
  | some p =>
      apply if_neg
      rintro (hlt | ⟨rfl, hlt⟩)
      · exact absurd hlt (Nat.not_lt_zero p)
      · exact absurd hlt (Nat.not_lt_of_le (h hp))

/-- The split is later, or at the front with a symbol shorter than `n`. -/
def Worse (n : Nat) (split : Option OpSplit) : Prop := ∀ s ∈ split, 0 < s.at_ ∨ s.symLen < n

theorem betterSplit_take {word : Text} {split : Option OpSplit} {e : String × CmpOp}
    (hfind : findText e.1.toList word = some 0) (h : Worse (size e.1.toList) split) :
    betterSplit word split e = some ⟨0, e.2, size e.1.toList⟩ := by
  rw [betterSplit, hfind]
  cases split with
  | none => rfl
  | some s =>
      have hs := h s rfl
      apply if_pos
      omega

theorem Worse.betterSplit {word : Text} {n : Nat} {split : Option OpSplit} (h : Worse n split)
    {e : String × CmpOp} (he : findText e.1.toList word = some 0 → size e.1.toList < n) :
    Worse n (betterSplit word split e) := by
  rw [View.betterSplit]
  cases hp : findText e.1.toList word with
  | none => exact h
  | some p =>
      have hthis : Worse n (some ⟨p, e.2, size e.1.toList⟩) := by
        intro s hs
        obtain rfl := Option.some.inj hs
        rcases Nat.eq_zero_or_pos p with rfl | hpos
        · exact .inr (he hp)
        · exact .inl hpos
      cases split with
      | none => exact hthis
      | some s =>
          dsimp only
          split
          · exact hthis
          · exact h

/-- An operator that begins the text and is longer than the others that do is taken. -/
theorem fold_first {word : Text} {op : CmpOp} {sym : String} {ops : List (String × CmpOp)}
    (hfind : findText sym.toList word = some 0)
    (hbest : ∀ e ∈ ops, e ≠ (sym, op) → findText e.1.toList word = some 0 →
      size e.1.toList < size sym.toList) :
    (ops.foldl (betterSplit word) (some ⟨0, op, size sym.toList⟩) = some ⟨0, op, size sym.toList⟩) ∧
      ∀ split : Option OpSplit, Worse (size sym.toList) split → (sym, op) ∈ ops →
        ops.foldl (betterSplit word) split = some ⟨0, op, size sym.toList⟩ := by
  induction ops with
  | nil => exact ⟨rfl, fun _ _ hmem => by cases hmem⟩
  | cons e ops ih =>
      obtain ⟨ihkeep, ihfind⟩ := ih fun x hx => hbest x (List.mem_cons_of_mem e hx)
      have hnew := hbest e List.mem_cons_self
      constructor
      · rw [List.foldl_cons, betterSplit_keep, ihkeep]
        intro hp
        by_cases heq : e = (sym, op)
        · rw [heq]
        · exact Nat.le_of_lt (hnew heq hp)
      · intro split hworse hmem
        rw [List.foldl_cons]
        by_cases heq : e = (sym, op)
        · subst heq
          rw [betterSplit_take (e := (sym, op)) hfind hworse, ihkeep]
        · exact ihfind _ (hworse.betterSplit (hnew heq)) ((List.mem_cons.1 hmem).resolve_left fun h => heq h.symm)

theorem prefix_of_findText {sym t : Text} (h : findText sym t = some 0) : sym <+: t := by
  cases t with
  | nil =>
      rw [findText] at h
      split at h
      · rename_i hsym
        exact List.isPrefixOf_iff_prefix.1 hsym
      · cases h
  | cons c t =>
      rw [findText] at h
      split at h
      · rename_i hsym
        exact List.isPrefixOf_iff_prefix.1 hsym
      · obtain ⟨q, -, hq⟩ := Option.map_eq_some_iff.1 h
        have hpos := Char.utf8Size_pos c
        omega

theorem findText_append (sym v : Text) : findText sym (sym ++ v) = some 0 := by
  have hpre : sym.isPrefixOf (sym ++ v) = true := List.isPrefixOf_iff_prefix.2 (List.prefix_append sym v)
  cases h : sym ++ v with
  | nil =>
      rw [h] at hpre
      rw [findText, hpre]
      rfl
  | cons c t =>
      rw [h] at hpre
      rw [findText, hpre]
      rfl

/-- Among the operators a longer one begins with the shorter. -/
theorem size_lt_of_prefix : ∀ e ∈ wordOps, ∀ e' ∈ wordOps, e ≠ e' → e.1.toList <+: e'.1.toList →
    size e.1.toList < size e'.1.toList := by
  decide

/-- The operator between two operands is the one a word is split at. -/
theorem fold_hugged {f v : Text} {e : String × CmpOp} (he : e ∈ wordOps)
    (hf : ∀ c ∈ f, isOpChar c = false) (hv : ∀ c ∈ v.head?, isOpChar c = false) :
    wordOps.foldl (betterSplit (f ++ (e.1.toList ++ v))) none =
      some ⟨size f, e.2, size e.1.toList⟩ := by
  have hfirst : wordOps.foldl (betterSplit (e.1.toList ++ v)) none = some ⟨0, e.2, size e.1.toList⟩ := by
    refine (fold_first (findText_append _ v) ?_).2 none (fun s hs => by cases hs) he
    intro e' he' hne hfind
    have hpre := prefix_of_findText hfind
    rcases List.prefix_or_prefix_of_prefix hpre (List.prefix_append e.1.toList v) with hshort | ⟨s, hs⟩
    · exact size_lt_of_prefix e' he' e he hne hshort
    · -- a longer operator would go on into the value
      rw [← hs, List.prefix_append_right_inj] at hpre
      cases s with
      | nil =>
          rw [List.append_nil] at hs
          exact size_lt_of_prefix e' he' e he hne (hs ▸ List.prefix_rfl)
      | cons c s =>
          obtain ⟨x, rfl⟩ := hpre
          have hplain := hv c rfl
          rw [isOpChar_of_mem he' (by rw [← hs]; simp)] at hplain
          cases hplain
  rw [fold_append hf, hfirst]
  simp [OpSplit.shift]

/-- A hugged comparison is split into its three parts. -/
theorem lexWord_hugged {f v : Text} {e : String × CmpOp} (he : e ∈ wordOps) (hne : f ≠ []) (hvne : v ≠ [])
    (hf : ∀ c ∈ f, isOpChar c = false) (hv : ∀ c ∈ v.head?, isOpChar c = false) (toks : List (Tok × Nat))
    (start : Nat) :
    lexWord toks (f ++ (e.1.toList ++ v)) start =
      .ok (pushWord toks f start ++ [(.op e.2, start + size f)] ++
        [(.str v, start + size f + size e.1.toList)]) := by
  have hleft : sliceText (f ++ (e.1.toList ++ v)) 0 (size f) = .ok f := by
    have hslice := slice_append [] f (e.1.toList ++ v)
    simp only [List.nil_append, size_nil, Nat.zero_add] at hslice
    rw [sliceText]
    rw [hslice]
  have hright : sliceText (f ++ (e.1.toList ++ v)) (size f + size e.1.toList)
      (size (f ++ (e.1.toList ++ v))) = .ok v := by
    have hslice := slice_append (f ++ e.1.toList) v []
    simp only [List.append_nil, List.append_assoc, size_append] at hslice
    rw [sliceText]
    rw [size_append, size_append, ← Nat.add_assoc, hslice]
  have hpos : 0 < size f := Nat.pos_of_ne_zero fun hzero => hne (size_eq_zero hzero)
  rw [lexWord]
  rw [fold_hugged he hf hv]
  dsimp only
  rw [pushLeft]
  rw [if_pos hpos, hleft, hright]
  simp only [Except.map, bind, Except.bind, hvne, if_false]
  rfl

/-- A symbol by itself is its operator. -/
theorem lexWord_symbol {e : String × CmpOp} (he : e ∈ symbolOps) (toks : List (Tok × Nat)) (start : Nat) :
    lexWord toks e.1.toList start = .ok (toks ++ [(.op e.2, start)]) := by
  simp only [symbolOps, wordOps, List.mem_cons, List.not_mem_nil, or_false] at he
  rcases he with rfl | rfl | rfl | rfl | rfl | rfl | rfl | rfl | rfl <;> rfl

/-! ## The operands -/

/-- A word by itself, without operator characters. -/
structure IsBareWord (w : Text) : Prop where
  lexes : lex w = .ok [(.word w, 0)]
  plain : ∀ c ∈ w, endsBare c = false ∧ isOpChar c = false

/-- A regex literal and its pattern. -/
def IsRegex (v pattern : Text) : Prop :=
  ∃ body, v = '/' :: (body ++ ['/']) ∧ scanRegex (encode (body ++ ['/'])) = some (pattern, size body)

/-- A regex literal lexes to one token. -/
theorem IsRegex.lexes {v pattern : Text} (h : IsRegex v pattern) : lex v = .ok [(.regex pattern, 0)] := by
  obtain ⟨body, rfl, hscan⟩ := h
  exact (LexesAs.regex hscan .done).lex_eq

/-- What begins with a slash begins with a regex. -/
theorem lex_slash {t : Text} {out : List (Tok × Nat)} (h : lex ('/' :: t) = .ok out) :
    ∃ pattern, [(.regex pattern, 0)] <+: out := by
  have hlt : Char.toNat '/' < 128 := by decide
  have hplain : isWhitespace '/' = false := by decide
  have hquote : ¬('/' = doubleQuote ∨ '/' = singleQuote) := by decide
  have hsize : size ('/' :: t) = size t + 1 := by rw [size_cons, utf8Size_of_ascii hlt, Nat.add_comm]
  have hdrop : (encode ('/' :: t)).drop 0 = _ := @drop_ascii [] t '/' hlt
  rw [lex] at h
  rw [hsize, lexFrom, hdrop] at h
  simp only [asChar_of_ascii hlt, hplain, hquote, if_true, if_false, Bool.false_eq_true,
    show ('/' : Char) ≠ '(' by decide, show ('/' : Char) ≠ ')' by decide] at h
  split at h
  · cases h
  · exact ⟨_, prefix_lexFrom h⟩

namespace IsBareWord

variable {w : Text} (h : IsBareWord w)

include h

theorem ne_nil : w ≠ [] := by
  rintro rfl
  have hlex := h.lexes
  cases hlex

theorem head_ne : w.head? ≠ some '/' := by
  intro hhead
  cases w with
  | nil => cases hhead
  | cons c t =>
      obtain rfl := Option.some.inj hhead
      obtain ⟨pattern, hpre⟩ := lex_slash h.lexes
      have heq := List.IsPrefix.eq_of_length hpre rfl
      cases heq

theorem ops : ∀ c ∈ w, isOpChar c = false := fun c hc => (h.plain c hc).2

theorem ends : ∀ c ∈ w, endsBare c = false := fun c hc => (h.plain c hc).1

theorem bareWord_eq : bareWord w = w := by
  have happend := bareWord_append (v := []) h.ends
  rw [List.append_nil] at happend
  rw [happend]
  exact List.append_nil w

theorem bytes : ∀ c ∈ w, hasSpaceByte c = false := by
  have hclean : Clean .between w := by
    by_contra hdirty
    have hlex := h.lexes
    rw [(lexesTo_lex w).2 hdirty] at hlex
    cases hlex
  cases hw : w with
  | nil =>
      intro c hc
      cases hc
  | cons c t =>
      have hc : endsBare c = false := h.ends c (by rw [hw]; exact List.mem_cons_self)
      have hslash : c ≠ '/' := by
        rintro rfl
        exact h.head_ne (by rw [hw]; rfl)
      rw [Clean] at hclean
      rw [hw, bareChars_bareWord hc hslash, ← hw, h.bareWord_eq] at hclean
      rw [← hw]
      exact (List.forall_mem_append.1 hclean).1

theorem bare : ∀ c ∈ w, endsBare c = false ∧ hasSpaceByte c = false := fun c hc => ⟨h.ends c hc, h.bytes c hc⟩

/-- It is no keyword. -/
theorem pushed (toks : List (Tok × Nat)) (pos : Nat) : pushWord toks w pos = toks ++ [(.word w, pos)] := by
  have hlex : lex w = .ok (pushWord [] w 0) := by
    have hword : LexesAs [] (w ++ []) [] (.ok (pushWord [] w 0)) :=
      .word h.ne_nil h.bare h.head_ne rfl (lexWord_plain h.ops [] 0) .done
    rw [List.append_nil] at hword
    exact hword.lex_eq
  have hself := Except.ok.inj (hlex.symm.trans h.lexes)
  unfold pushWord at hself ⊢
  dsimp only at hself ⊢
  grind

end IsBareWord

/-! ### The pattern of a regex literal -/

theorem asChar_eq_slash {b : UInt8} : asChar b = '/' ↔ b = 47 := by
  constructor
  · intro h
    have hnat : b.toNat = 47 := by rw [← toNat_asChar, h]; rfl
    exact UInt8.toNat_inj.1 hnat
  · rintro rfl
    rfl

/-- The pattern has the slashes of the literal's body, and its other characters but for backslashes. -/
theorem scanRegex_chars {bytes : List UInt8} {pattern : Text} {n : Nat}
    (h : scanRegex bytes = some (pattern, n)) :
    pattern.count '/' = (bytes.take n).count 47 ∧ ∀ b ∈ bytes.take n, b ≠ 92 → asChar b ∈ pattern := by
  induction bytes using scanRegex.induct generalizing pattern n with
  | case1 => cases h
  | case2 =>
      obtain ⟨rfl, rfl⟩ := Prod.mk.inj (Option.some.inj h)
      exact ⟨rfl, fun b hb => by cases hb⟩
  | case3 b hb =>
      rw [scanRegex, if_neg hb] at h
      cases h
  | case4 b c bytes hesc ih =>
      rw [scanRegex, if_pos hesc] at h
      obtain ⟨⟨p, m⟩, hscan, heq⟩ := Option.map_eq_some_iff.1 h
      obtain ⟨rfl, rfl⟩ := Prod.mk.inj heq
      obtain ⟨rfl, rfl⟩ := hesc
      -- an escape leaves its slash and drops the backslash
      obtain ⟨hcount, hmem⟩ := ih hscan
      have hslash : asChar 47 = '/' := rfl
      rw [List.take_succ_cons, List.take_succ_cons]
      constructor
      · rw [hslash, List.count_cons_self, List.count_cons_of_ne (by decide), List.count_cons_self, hcount]
      · intro b hb hne
        rcases List.mem_cons.1 hb with rfl | hb
        · exact absurd rfl hne
        · rcases List.mem_cons.1 hb with rfl | hb
          · exact List.mem_cons_self
          · exact List.mem_cons_of_mem _ (hmem b hb hne)
  | case5 c bytes hesc =>
      rw [scanRegex, if_neg hesc, if_pos rfl] at h
      obtain ⟨rfl, rfl⟩ := Prod.mk.inj (Option.some.inj h)
      exact ⟨rfl, fun b hb => by cases hb⟩
  | case6 b c bytes hesc hb ih =>
      rw [scanRegex, if_neg hesc, if_neg hb] at h
      obtain ⟨⟨p, m⟩, hscan, heq⟩ := Option.map_eq_some_iff.1 h
      obtain ⟨rfl, rfl⟩ := Prod.mk.inj heq
      obtain ⟨hcount, hmem⟩ := ih hscan
      rw [List.take_succ_cons]
      constructor
      · rw [List.count_cons_of_ne fun heq => hb (asChar_eq_slash.1 heq), List.count_cons_of_ne hb, hcount]
      · intro d hd hne
        rcases List.mem_cons.1 hd with rfl | hd
        · exact List.mem_cons_self
        · exact List.mem_cons_of_mem _ (hmem d hd hne)

theorem count_encode (t : Text) : (encode t).count 47 = t.count '/' := by
  induction t with
  | nil => rfl
  | cons c t ih =>
      rw [encode_cons, List.count_append, ih]
      by_cases hc : c = '/'
      · subst hc
        rw [List.count_cons_self, encodeChar_of_ascii (by decide), Nat.add_comm]
        rfl
      · have hzero : (String.utf8EncodeChar c).count 47 = 0 := by
          rw [List.count_eq_zero]
          intro hmem
          by_cases hlt : c.toNat < 128
          · rw [encodeChar_of_ascii hlt, List.mem_singleton] at hmem
            apply hc
            rw [← asChar_of_ascii hlt, ← hmem]
            rfl
          · have hle := le_of_mem_encodeChar (Nat.le_of_not_lt hlt) hmem
            exact absurd hle (by decide)
        rw [hzero, List.count_cons_of_ne hc, Nat.zero_add]

theorem mem_encode {t : Text} {c : Char} (hlt : c.toNat < 128) (hc : c ∈ t) : c.val.toUInt8 ∈ encode t := by
  rw [encode]
  rw [List.mem_flatMap]
  refine ⟨c, hc, ?_⟩
  rw [encodeChar_of_ascii hlt]
  exact List.mem_singleton_self _

/-- The word that a hugged regex literal begins with is never its pattern. -/
theorem IsRegex.bareWord_ne {v pattern : Text} (h : IsRegex v pattern) : bareWord v ≠ pattern := by
  obtain ⟨body, rfl, hscan⟩ := h
  obtain ⟨hcount, hmem⟩ := scanRegex_chars hscan
  have htake : (encode (body ++ ['/'])).take (size body) = encode body := by
    rw [encode_append]
    exact List.take_left
  rw [htake] at hcount hmem
  rw [count_encode] at hcount
  intro heq
  by_cases hends : ∀ d ∈ body, endsBare d = false
  · -- the slashes around the body are not in the pattern
    have hwhole : bareWord ('/' :: (body ++ ['/'])) = '/' :: (body ++ ['/']) := by
      have hall := bareWord_append (u := '/' :: (body ++ ['/'])) (v := []) (by
        intro d hd
        rcases List.mem_cons.1 hd with rfl | hd
        · decide
        · rcases List.mem_append.1 hd with hd | hd
          · exact hends d hd
          · obtain rfl := List.mem_singleton.1 hd
            decide)
      rw [List.append_nil] at hall
      rw [hall]
      exact List.append_nil _
    rw [← heq, hwhole, List.count_cons_self, List.count_append, List.count_singleton_self] at hcount
    omega
  · -- the pattern goes on after the character that ends the word
    obtain ⟨d, hd, hdends⟩ : ∃ d ∈ body, endsBare d = true := by
      by_contra hnone
      apply hends
      intro d hd
      by_contra hne
      exact hnone ⟨d, hd, by simpa using hne⟩
    have hlt := ascii_of_endsBare hdends
    have hne : d.val.toUInt8 ≠ 92 := by
      intro hback
      have hchar : d = asChar 92 := by rw [← hback, asChar_of_ascii hlt]
      rw [hchar] at hdends
      exact absurd hdends (by decide)
    have hin := hmem _ (mem_encode hlt hd) hne
    rw [asChar_of_ascii hlt, ← heq] at hin
    have hout := List.mem_takeWhile_imp (p := fun c => !endsBare c) hin
    rw [hdends] at hout
    cases hout

/-! ## The two texts -/

/-- The operator between blanks. -/
def spaced (f sym v : Text) : Text := f ++ ' ' :: (sym ++ ' ' :: v)

/-- The operator without blanks. -/
def hugged (f sym v : Text) : Text := f ++ (sym ++ v)

theorem bare_symbol {e : String × CmpOp} (he : e ∈ symbolOps) :
    e.1.toList ≠ [] ∧ e.1.toList.head? ≠ some '/' ∧
      ∀ c ∈ e.1.toList, endsBare c = false ∧ hasSpaceByte c = false := by
  have hall : (symbolOps.all fun e => e.1.toList.all fun c => !endsBare c && !hasSpaceByte c) = true := by decide
  have hhead : ∀ e ∈ symbolOps, e.1.toList ≠ [] ∧ e.1.toList.head? ≠ some '/' := by decide
  refine ⟨(hhead e he).1, (hhead e he).2, fun c hc => ?_⟩
  simpa using List.all_eq_true.1 (List.all_eq_true.1 hall e he) c hc

section Texts

variable {f v pattern : Text} {e : String × CmpOp}

/-- The field and the operator before a value that stands by itself. -/
theorem LexesAs.spaced (he : e ∈ symbolOps) (hf : IsBareWord f) {tok : Tok}
    (hv : ∀ before toks, LexesAs before v toks (.ok (toks ++ [(tok, size before)]))) :
    ∃ toks, lex (spaced f e.1.toList v) = .ok toks ∧
      toks.map Prod.fst = [.word f, .op e.2, tok] := by
  obtain ⟨hne, hslash, hbare⟩ := bare_symbol he
  have hspace : isSpace ' ' = true := by decide
  have hvalue : LexesAs (f ++ [' ']) (e.1.toList ++ ' ' :: v) [(.word f, 0)]
      (.ok ([(.word f, 0)] ++ [(.op e.2, size (f ++ [' ']))] ++
        [(tok, size (f ++ [' '] ++ e.1.toList ++ [' ']))])) :=
    .word hne hbare hslash rfl (lexWord_symbol he _ _) (.space hspace (hv _ _))
  have hfield : lexWord [] f (size []) = .ok [(.word f, 0)] := by
    rw [lexWord_plain hf.ops, hf.pushed]
    rfl
  have hwhole := LexesAs.word hf.ne_nil hf.bare hf.head_ne rfl hfield (.space hspace hvalue)
  exact ⟨_, hwhole.lex_eq, rfl⟩

theorem lex_spaced_word (he : e ∈ symbolOps) (hf : IsBareWord f) (hv : IsBareWord v) :
    ∃ toks, lex (spaced f e.1.toList v) = .ok toks ∧ toks.map Prod.fst = [.word f, .op e.2, .word v] := by
  apply LexesAs.spaced he hf
  intro before toks
  have hword : LexesAs before (v ++ []) toks (.ok (toks ++ [(.word v, size before)])) := by
    refine .word hv.ne_nil hv.bare hv.head_ne rfl ?_ .done
    rw [lexWord_plain hv.ops, hv.pushed]
  rw [List.append_nil] at hword
  exact hword

theorem lex_spaced_regex (he : e ∈ symbolOps) (hf : IsBareWord f) (hv : IsRegex v pattern) :
    ∃ toks, lex (spaced f e.1.toList v) = .ok toks ∧
      toks.map Prod.fst = [.word f, .op e.2, .regex pattern] := by
  obtain ⟨body, rfl, hscan⟩ := hv
  exact LexesAs.spaced he hf fun before toks => .regex hscan .done

theorem lex_hugged_word (he : e ∈ wordOps) (hf : IsBareWord f) (hv : IsBareWord v) :
    ∃ toks, lex (hugged f e.1.toList v) = .ok toks ∧ toks.map Prod.fst = [.word f, .op e.2, .str v] := by
  obtain ⟨hne, hslash, hbare⟩ := bare_symbol (List.mem_cons_of_mem _ he)
  have hhead : ∀ c ∈ v.head?, isOpChar c = false := fun c hc => hv.ops c (List.mem_of_mem_head? hc)
  refine ⟨[(.word f, 0), (.op e.2, 0 + size f), (.str v, 0 + size f + size e.1.toList)], ?_, rfl⟩
  have hword : LexesAs [] (f ++ (e.1.toList ++ v) ++ []) []
      (.ok [(.word f, 0), (.op e.2, 0 + size f), (.str v, 0 + size f + size e.1.toList)]) := by
    refine .word (by simp [hf.ne_nil]) ?_ ?_ rfl ?_ .done
    · intro d hd
      rcases List.mem_append.1 hd with hd | hd
      · exact hf.bare d hd
      · rcases List.mem_append.1 hd with hd | hd
        · exact hbare d hd
        · exact hv.bare d hd
    · rw [List.head?_append_of_ne_nil _ hf.ne_nil]
      exact hf.head_ne
    · rw [lexWord_hugged he hf.ne_nil hv.ne_nil hf.ops hhead, hf.pushed]
      rfl
  rw [List.append_nil] at hword
  exact hword.lex_eq

/-- The first tokens of a hugged text are those of its first word. -/
theorem lex_hugged_front (hf : IsBareWord f) {sym v : Text} {out : List (Tok × Nat)}
    (hlex : lex (hugged f sym v) = .ok out) :
    ∃ toks, lexWord [] (f ++ bareWord (sym ++ v)) 0 = .ok toks ∧ toks <+: out := by
  obtain ⟨c, t, hct⟩ := List.exists_cons_of_ne_nil hf.ne_nil
  have htext : hugged f sym v = c :: (t ++ (sym ++ v)) := by
    rw [hugged]
    rw [hct]
    rfl
  have hc : endsBare c = false := hf.ends c (by rw [hct]; exact List.mem_cons_self)
  have hslash : c ≠ '/' := by
    rintro rfl
    exact hf.head_ne (by rw [hct]; rfl)
  have hbody : bareWord (c :: (t ++ (sym ++ v))) = f ++ bareWord (sym ++ v) := by
    rw [← htext]
    rw [hugged]
    exact bareWord_append hf.ends
  rw [← hbody]
  exact lex_first hc hslash (htext ▸ hlex)

/-- The first tokens of a hugged comparison with a regex literal. -/
theorem lex_hugged_regex (he : e ∈ wordOps) (hf : IsBareWord f) (hv : IsRegex v pattern)
    {out : List (Tok × Nat)} (hlex : lex (hugged f e.1.toList v) = .ok out) :
    [.word f, .op e.2, .str (bareWord v)] <+: out.map Prod.fst := by
  obtain ⟨-, -, hbare⟩ := bare_symbol (List.mem_cons_of_mem _ he)
  obtain ⟨toks, hword, hpre⟩ := lex_hugged_front hf hlex
  have hraw : bareWord v ≠ [] ∧ ∀ d ∈ (bareWord v).head?, isOpChar d = false := by
    obtain ⟨body, rfl, -⟩ := hv
    have hfirst : bareWord ('/' :: (body ++ ['/'])) = '/' :: bareWord (body ++ ['/']) := rfl
    rw [hfirst]
    refine ⟨List.cons_ne_nil _ _, ?_⟩
    intro d hd
    obtain rfl := Option.some.inj hd
    decide
  rw [bareWord_append fun d hd => (hbare d hd).1, lexWord_hugged he hf.ne_nil hraw.1 hf.ops hraw.2, hf.pushed] at hword
  obtain rfl := Except.ok.inj hword
  exact hpre.map Prod.fst

end Texts

/-! ### A hugged `=` -/

theorem mem_toAsciiLowercase {w : Text} (h : '=' ∈ w) : '=' ∈ toAsciiLowercase w := by
  rw [toAsciiLowercase]
  exact List.mem_map.2 ⟨'=', h, by decide⟩

/-- A word with an `=` is none of the words without. -/
theorem isOneOf_false {w : Text} (h : '=' ∈ w) {words : List String} (hwords : ∀ k ∈ words, '=' ∉ k.toList) :
    isOneOf (toAsciiLowercase w) words = false := by
  rw [isOneOf]
  rw [List.any_eq_false]
  intro k hk heq
  have hmem := mem_toAsciiLowercase h
  rw [← beq_iff_eq.1 heq] at hmem
  exact hwords k hk hmem

/-- It names no field of the streams. -/
theorem resolve_equals {w : Text} (h : '=' ∈ w) : Field.resolve w = .custom w := by
  have hnames : ∀ e ∈ fieldNames, ∀ k ∈ e.1, '=' ∉ k.toList := by decide
  have hnone : (fieldNames.find? fun e => isOneOf (toAsciiLowercase w) e.1) = none := by
    rw [List.find?_eq_none]
    intro e he
    rw [isOneOf_false h (hnames e he)]
    exact Bool.false_ne_true
  rw [Field.resolve]
  rw [hnone]

theorem resolve_eq_custom {f w : Text} (h : Field.resolve f = .custom w) : f = w := by
  rw [Field.resolve] at h
  split at h
  · rename_i e hfind
    have hnames : ∀ e ∈ fieldNames, ∀ w, e.2 ≠ .custom w := by
      simp [fieldNames]
    exact absurd h (hnames e (List.mem_of_find?_eq_some hfind) w)
  · exact Field.custom.inj h

theorem eq_of_toLower {c : Char} (h : c.toLower = '=') : c = '=' := by
  unfold Char.toLower at h
  split at h
  · rename_i hrange
    have hval : c.val + 32 = 61 := congrArg Char.val h
    obtain ⟨hlow, hhigh⟩ := hrange
    have hlow' : 65 ≤ c.val.toNat := hlow
    have hhigh' : c.val.toNat ≤ 90 := hhigh
    have hnat := congrArg UInt32.toNat hval
    rw [UInt32.toNat_add] at hnat
    have h32 : (32 : UInt32).toNat = 32 := rfl
    have h61 : (61 : UInt32).toNat = 61 := rfl
    omega
  · exact h

/-- A word with an `=` after other characters is no keyword. -/
theorem pushWord_equals {f u : Text} (hne : f ≠ []) (hf : ∀ c ∈ f, isOpChar c = false) :
    pushWord [] (f ++ '=' :: u) 0 = [(.word (f ++ '=' :: u), 0)] := by
  have hmem : '=' ∈ f ++ '=' :: u := by simp
  have hother := fun words => @isOneOf_false _ hmem words
  have hkeys : isOneOf (toAsciiLowercase (f ++ '=' :: u)) ["=", "==", "is"] = false := by
    obtain ⟨c, t, rfl⟩ := List.exists_cons_of_ne_nil hne
    rw [isOneOf]
    rw [List.any_eq_false]
    intro k hk heq
    have hlower := beq_iff_eq.1 heq
    simp only [toAsciiLowercase, List.map_append, List.map_cons, List.cons_append] at hlower
    -- the first character would be an operator's
    have hhead : k.toList.head? = some c.toLower := by rw [hlower]; rfl
    have hop : c.toLower ≠ '=' := by
      intro hc
      have hplain := hf c List.mem_cons_self
      rw [eq_of_toLower hc] at hplain
      cases hplain
    simp only [List.mem_cons, List.not_mem_nil, or_false] at hk
    rcases hk with rfl | rfl | rfl
    · exact hop (Option.some.inj hhead).symm
    · exact hop (Option.some.inj hhead).symm
    · have hmem' := mem_toAsciiLowercase hmem
      rw [← beq_iff_eq.1 heq] at hmem'
      exact absurd hmem' (by decide)
  rw [pushWord]
  simp only [hother ["and", "&&"] (by decide),
    hother ["or", "||"] (by decide),
    hother ["not", "!"] (by decide), hother ["where"] (by decide),
    hother ["contains", "has"] (by decide), hkeys]
  rfl

/-- No operator begins at an `=` before another character. -/
theorem not_prefix_equals {d : Char} {t : Text} (hd : isOpChar d = false) :
    ∀ e ∈ wordOps, e.1.toList.isPrefixOf ('=' :: d :: t) = false := by
  have hne : ∀ c, isOpChar c = true → (c == d) = false := by
    intro c hc
    rw [beq_eq_false_iff_ne]
    rintro rfl
    rw [hd] at hc
    cases hc
  have htilde := hne '~' rfl
  have hequals := hne '=' rfl
  simp [wordOps, List.isPrefixOf, htilde, hequals]

/-- The first token of a word with a hugged `=`. -/
theorem lexWord_equals {f t : Text} {d : Char} (hne : f ≠ []) (hf : ∀ c ∈ f, isOpChar c = false)
    (hd : isOpChar d = false) {toks : List (Tok × Nat)}
    (h : lexWord [] (f ++ '=' :: d :: t) 0 = .ok toks) :
    ∃ u, [(.word (f ++ '=' :: u), 0)] <+: toks := by
  -- no operator begins in `f` or at the `=`, so the splits are those of what is behind
  have hfold : wordOps.foldl (betterSplit (f ++ '=' :: d :: t)) none =
      (wordOps.foldl (betterSplit (d :: t)) none).map (OpSplit.shift (size (f ++ ['=']))) := by
    have hskip := fold_skip none (not_prefix_equals (t := t) hd)
    rw [fold_append hf, ← Option.map_none (OpSplit.shift ('=' : Char).utf8Size), hskip, Option.map_map,
      size_append]
    congr 1
    funext s
    simp only [Function.comp, OpSplit.shift]
    congr 1
    have hone : size ['='] = ('=' : Char).utf8Size := rfl
    omega
  rw [lexWord] at h
  rw [hfold] at h
  cases hsplit : wordOps.foldl (betterSplit (d :: t)) none with
  | none =>
      rw [hsplit] at h
      obtain rfl := Except.ok.inj h
      rw [pushWord_equals hne hf]
      exact ⟨d :: t, List.prefix_rfl⟩
  | some s =>
      obtain ⟨u, sym, v, huv, hat, -⟩ := splits_fold (d :: t) wordOps none (by simp) s hsplit
      rw [hsplit] at h
      obtain ⟨left, hleft, h⟩ := bind_ok h
      obtain ⟨rest, -, h⟩ := bind_ok h
      -- the left side of the split is the word with the `=` in it
      have hslice : sliceText (f ++ '=' :: d :: t) 0 (OpSplit.shift (size (f ++ ['='])) s).at_ =
          .ok (f ++ '=' :: u) := by
        have happend := slice_append [] (f ++ '=' :: u) (sym ++ v)
        have htext : [] ++ (f ++ '=' :: u ++ (sym ++ v)) = f ++ '=' :: d :: t := by
          rw [huv]
          simp
        have hstop : size [] + size (f ++ '=' :: u) = (OpSplit.shift (size (f ++ ['='])) s).at_ := by
          show _ = s.at_ + size (f ++ ['='])
          rw [hat, size_append, size_append, size_cons, size_cons, size_nil]
          omega
        rw [htext, hstop, size_nil] at happend
        rw [sliceText]
        rw [happend]
      have hpos : 0 < (OpSplit.shift (size (f ++ ['='])) s).at_ := by
        show 0 < s.at_ + size (f ++ ['='])
        rw [size_append]
        have hone : size ['='] = 1 := rfl
        omega
      rw [pushLeft] at hleft
      rw [if_pos hpos, hslice] at hleft
      have hfront : left = pushWord [] (f ++ '=' :: u) 0 := (Except.ok.inj hleft).symm
      rw [hfront, pushWord_equals hne hf] at h
      refine ⟨u, ?_⟩
      split at h
      · obtain rfl := Except.ok.inj h
        exact List.prefix_append _ _
      · obtain rfl := Except.ok.inj h
        rw [List.append_assoc]
        exact List.prefix_append _ _

/-- The first token of a text with a hugged `=`. -/
theorem lex_hugged_equals {f v : Text} {d : Char} (hf : IsBareWord f) (hv : v.head? = some d)
    (hd : endsBare d = false ∧ isOpChar d = false) {out : List (Tok × Nat)}
    (hlex : lex (hugged f ['='] v) = .ok out) : ∃ u, [.word (f ++ '=' :: u)] <+: out.map Prod.fst := by
  obtain ⟨x, rfl⟩ := List.head?_eq_some_iff.1 hv
  obtain ⟨toks, hword, hpre⟩ := lex_hugged_front hf hlex
  have hends : ∀ y ∈ ['=', d], endsBare y = false := by
    intro y hy
    rcases List.mem_cons.1 hy with rfl | hy
    · decide
    · obtain rfl := List.mem_singleton.1 hy
      exact hd.1
  have hbody : bareWord (['='] ++ d :: x) = '=' :: d :: bareWord x := bareWord_append hends
  rw [hbody] at hword
  obtain ⟨u, hu⟩ := lexWord_equals hf.ne_nil hf.ops hd.2 hword
  exact ⟨u, (hu.trans hpre).map Prod.fst⟩

/-! ## Meanings -/

/-- A comparison that is a whole query is its three tokens. -/
theorem Derives.cmp_tokens {env : QueryEnv} {allows : CmpOp → Bool} {level : Level} {ts : List Tok}
    {field : Field} {op : CmpOp} {value : Literal} (h : Derives env allows level ts (.cmp field op value))
    (hhead : ts.head? ≠ some .lparen) :
    ∃ name o tok, ts = [.word name, .op o, tok] ∧ field = Field.resolve name ∧
      (tok = .word value.raw ∨ tok = .str value.raw ∨ tok = .regex value.raw) := by
  generalize hq : Expr.cmp field op value = q at h
  induction h with
  | orOne _ ih => exact ih hhead hq
  | andOne _ ih => exact ih hhead hq
  | one _ ih => exact ih hhead hq
  | paren _ _ => exact absurd rfl hhead
  | @compare name raw o tok hv _ _ =>
      obtain ⟨rfl, rfl, rfl⟩ := Expr.cmp.inj hq
      exact ⟨name, op, tok, rfl, rfl, hv.imp_right .inl⟩
  | @compareRegex name pattern o _ _ =>
      obtain ⟨rfl, rfl, rfl⟩ := Expr.cmp.inj hq
      exact ⟨name, o, _, rfl, rfl, .inr (.inr rfl)⟩
  | or | and | juxtapose | not | flag | text | quoted | regex => cases hq

theorem parseQuery_iff_derives {env : QueryEnv} {input : Text} {toks : List (Tok × Nat)} {q : Expr}
    (hlex : lex input = .ok toks) :
    parseQuery env input = .ok q ↔ Derives env anyOp .or (toks.map Prod.fst) q := by
  rw [parseQuery]
  rw [hlex]
  exact parseTokens_ok_iff env input.size toks q

/-- A value: a word or a regex literal. -/
def IsValue (v : Text) : Prop := IsBareWord v ∨ ∃ pattern, IsRegex v pattern

section Meaning

variable {env : QueryEnv} {f v : Text} {e : String × CmpOp} {q : Expr}

/-- The field and the operator stand together. -/
theorem split_front {ts us rest : List Tok} {o : CmpOp} (hne : ts ≠ []) (hus : NoOp us)
    (h : ts ++ us = .word f :: .op o :: rest) :
    ∃ ts', ts = .word f :: .op o :: ts' ∧ rest = ts' ++ us := by
  match ts, hne with
  | [t], _ =>
      obtain ⟨-, hop⟩ := List.cons.inj h
      have hhead : us.head? = some (.op o) := congrArg List.head? hop
      exact absurd (hus _ hhead) (by simp [Tok.isOp])
  | t :: t' :: ts', _ =>
      obtain ⟨ht, h⟩ := List.cons.inj h
      obtain ⟨ht', h⟩ := List.cons.inj h
      exact ⟨ts', by rw [ht, ht'], h.symm⟩

/-- A derivation begins with a comparison. -/
def Compared (env : QueryEnv) (allows : CmpOp → Bool) (f : Text) (o : CmpOp) (rest : List Tok) (q : Expr) : Prop :=
  ∃ tok rest' c, rest = tok :: rest' ∧ Derives env allows .primary [.word f, .op o, tok] c ∧
    (rest' = [] → q = c)

theorem Compared.append {allows : CmpOp → Bool} {o : CmpOp} {rest us : List Tok} {q' : Expr}
    (h : Compared env allows f o rest q) (hne : us ≠ []) : Compared env allows f o (rest ++ us) q' := by
  obtain ⟨tok, rest', c, rfl, hc, -⟩ := h
  refine ⟨tok, rest' ++ us, c, rfl, hc, ?_⟩
  intro hnil
  exact absurd (List.append_eq_nil_iff.1 hnil).2 hne

/-- A derivation that begins with a field and an operator begins with a comparison. -/
theorem Derives.compared {allows : CmpOp → Bool} {level : Level} {ts : List Tok}
    (h : Derives env allows level ts q) :
    ∀ o rest, ts = .word f :: .op o :: rest → Compared env allows f o rest q := by
  have hnonempty : ∀ {level : Level} {ts : List Tok} {q : Expr}, Derives env allows level ts q → ts ≠ [] := by
    intro level ts q h
    obtain ⟨t, ts', rfl, -⟩ := h.head
    exact List.cons_ne_nil t ts'
  induction h with
  | orOne _ ih | andOne _ ih | one _ ih => exact ih
  | @or ts us l r hl hr ihl _ | @and ts us l r hl hr ihl _ =>
      intro o rest heq
      obtain ⟨ts', hts, rfl⟩ := split_front (hnonempty hl) (by simp [NoOp, Tok.isOp]) heq
      exact (ihl o ts' hts).append (List.cons_ne_nil _ _)
  | @juxtapose ts us l r hl hr ihl _ =>
      intro o rest heq
      obtain ⟨t, us', rfl, hstart⟩ := hr.head
      obtain ⟨ts', hts, rfl⟩ := split_front (hnonempty hl) (noOp_of_startsTerm hstart) heq
      exact (ihl o ts' hts).append (List.cons_ne_nil _ _)
  | not | paren | flag | text | quoted | regex =>
      intro o rest heq
      cases heq
  | compare hv hnum hre =>
      intro o rest heq
      cases heq
      exact ⟨_, [], _, rfl, .compare hv hnum hre, fun _ => rfl⟩
  | compareRegex hop hre =>
      intro o rest heq
      cases heq
      exact ⟨_, [], _, rfl, .compareRegex hop hre, fun _ => rfl⟩

theorem derives_comparison {o : CmpOp} {tok : Tok} :
    Derives env anyOp .or [.word f, .op o, tok] q ↔ Derives env anyOp .primary [.word f, .op o, tok] q := by
  constructor
  · intro h
    obtain ⟨tok', rest', c, heq, hc, hq⟩ := h.compared o [tok] rfl
    obtain ⟨rfl, rfl⟩ := List.cons.inj heq
    rw [hq rfl]
    exact hc
  · intro h
    exact .orOne (.andOne (.one h))

theorem derives_cmp {o : CmpOp} {tok : Tok} (h : Derives env anyOp .primary [.word f, .op o, tok] q) :
    ∃ op value, q = .cmp (Field.resolve f) op value ∧ (∀ pattern, tok = .regex pattern → value.raw = pattern) := by
  cases h with
  | compare hv _ _ =>
      refine ⟨_, _, rfl, ?_⟩
      rintro pattern rfl
      rcases hv with hv | hv <;> cases hv
  | compareRegex _ _ =>
      refine ⟨_, _, rfl, ?_⟩
      intro pattern htok
      exact (Tok.regex.inj htok)

/-- A word and a string are compared alike. -/
theorem derives_word_iff_str {o : CmpOp} :
    Derives env anyOp .primary [.word f, .op o, .word v] q ↔
      Derives env anyOp .primary [.word f, .op o, .str v] q := by
  constructor
  · intro h
    cases h with
    | compare hv hnum hre =>
        obtain rfl := Tok.word.inj (hv.resolve_right (by simp))
        exact .compare (.inr rfl) hnum hre
  · intro h
    cases h with
    | compare hv hnum hre =>
        obtain rfl := Tok.str.inj (hv.resolve_left (by simp))
        exact .compare (.inl rfl) hnum hre

/-- Words, with the operators of `WORD_OPS`. -/
theorem hugs_word (he : e ∈ wordOps) (hf : IsBareWord f) (hv : IsBareWord v) :
    parseQuery env (spaced f e.1.toList v) = .ok q ↔ parseQuery env (hugged f e.1.toList v) = .ok q := by
  obtain ⟨toks, hlex, htoks⟩ := lex_spaced_word (List.mem_cons_of_mem _ he) hf hv
  obtain ⟨toks', hlex', htoks'⟩ := lex_hugged_word he hf hv
  rw [parseQuery_iff_derives hlex, parseQuery_iff_derives hlex', htoks, htoks', derives_comparison,
    derives_comparison]
  exact derives_word_iff_str

/-- What the spaced text means. -/
theorem spaced_cmp (he : e ∈ symbolOps) (hf : IsBareWord f) (hv : IsValue v)
    (h : parseQuery env (spaced f e.1.toList v) = .ok q) :
    ∃ op value, q = .cmp (Field.resolve f) op value ∧ ∀ pattern, IsRegex v pattern → value.raw = pattern := by
  rcases hv with hword | ⟨pattern, hregex⟩
  · obtain ⟨toks, hlex, htoks⟩ := lex_spaced_word he hf hword
    rw [parseQuery_iff_derives hlex, htoks, derives_comparison] at h
    obtain ⟨op, value, rfl, -⟩ := derives_cmp h
    refine ⟨op, value, rfl, ?_⟩
    rintro pattern ⟨body, rfl, -⟩
    exact absurd rfl hword.head_ne
  · obtain ⟨toks, hlex, htoks⟩ := lex_spaced_regex he hf hregex
    rw [parseQuery_iff_derives hlex, htoks, derives_comparison] at h
    obtain ⟨op, value, rfl, hraw⟩ := derives_cmp h
    refine ⟨op, value, rfl, ?_⟩
    intro pattern' hregex'
    have hsame := Except.ok.inj (hregex.lexes.symm.trans hregex'.lexes)
    obtain ⟨rfl⟩ : pattern = pattern' := by simpa using hsame
    exact hraw pattern rfl

/-- A hugged `=` compares nothing with the field. -/
theorem hugged_equals_ne {op : CmpOp} {value : Literal} (hf : IsBareWord f) (hv : IsValue v) :
    parseQuery env (hugged f ['='] v) ≠ .ok (.cmp (Field.resolve f) op value) := by
  intro h
  obtain ⟨out, hlex, -⟩ := bind_ok h
  obtain ⟨d, hd, hplain⟩ : ∃ d, v.head? = some d ∧ endsBare d = false ∧ isOpChar d = false := by
    rcases hv with hword | ⟨pattern, body, rfl, -⟩
    · obtain ⟨d, t, rfl⟩ := List.exists_cons_of_ne_nil hword.ne_nil
      exact ⟨d, rfl, hword.plain d List.mem_cons_self⟩
    · exact ⟨'/', rfl, by decide⟩
  obtain ⟨u, more, hout⟩ := lex_hugged_equals hf hd hplain hlex
  rw [parseQuery_iff_derives hlex, ← hout] at h
  obtain ⟨name, o, tok, htoks, hfield, -⟩ := h.cmp_tokens (by simp)
  obtain ⟨hname, -⟩ := List.cons.inj htoks
  obtain rfl := Tok.word.inj hname
  have hmem : '=' ∈ f ++ '=' :: u := List.mem_append_right f List.mem_cons_self
  rw [resolve_equals hmem] at hfield
  have hself := congrArg List.length (resolve_eq_custom hfield)
  rw [List.length_append, List.length_cons] at hself
  omega

/-- A hugged regex literal is not its pattern. -/
theorem hugged_regex_ne {op : CmpOp} {value : Literal} {pattern : Text} (he : e ∈ wordOps) (hf : IsBareWord f)
    (hv : IsRegex v pattern) (hraw : value.raw = pattern) :
    parseQuery env (hugged f e.1.toList v) ≠ .ok (.cmp (Field.resolve f) op value) := by
  intro h
  obtain ⟨out, hlex, -⟩ := bind_ok h
  obtain ⟨more, hout⟩ := lex_hugged_regex he hf hv hlex
  rw [parseQuery_iff_derives hlex, ← hout] at h
  obtain ⟨name, o, tok, htoks, -, hvalue⟩ := h.cmp_tokens (by simp)
  obtain ⟨-, -, rfl, -⟩ : f = name ∧ e.2 = o ∧ Tok.str (bareWord v) = tok ∧ more = [] := by simpa using htoks
  have hsame : bareWord v = value.raw := by simpa using hvalue
  exact hv.bareWord_ne (hsame.trans hraw)

end Meaning

/-- Hugging keeps the meaning of a query exactly if its value is a word and its operator is not `=`; with such
operands the two texts are the same query, or neither is one. -/
theorem hugs_iff (env : QueryEnv) (f v : Text) (e : String × CmpOp) (he : e ∈ symbolOps) (hf : IsBareWord f)
    (hv : IsValue v) :
    (∀ q, parseQuery env (spaced f e.1.toList v) = .ok q →
      (parseQuery env (hugged f e.1.toList v) = .ok q ↔ IsBareWord v ∧ e.1 ≠ "=")) ∧
    (IsBareWord v → e.1 ≠ "=" → ∀ q, parseQuery env (spaced f e.1.toList v) = .ok q ↔
      parseQuery env (hugged f e.1.toList v) = .ok q) := by
  have hwords : e.1 ≠ "=" → e ∈ wordOps := by
    intro hne
    rcases List.mem_cons.1 he with rfl | hmem
    · exact absurd rfl hne
    · exact hmem
  refine ⟨?_, fun hword hne q => hugs_word (hwords hne) hf hword⟩
  intro q hq
  constructor
  · intro hhug
    obtain ⟨op, value, rfl, hraw⟩ := spaced_cmp he hf hv hq
    have hne : e.1 ≠ "=" := by
      intro heq
      rw [heq] at hhug
      exact hugged_equals_ne hf hv hhug
    refine ⟨?_, hne⟩
    rcases hv with hword | ⟨pattern, hregex⟩
    · exact hword
    · exact absurd hhug (hugged_regex_ne (hwords hne) hf hregex (hraw pattern hregex))
  · rintro ⟨hword, hne⟩
    exact (hugs_word (hwords hne) hf hword).1 hq

/-- An environment in which every pattern compiles. -/
def lenientEnv : QueryEnv := ⟨toAsciiLowercase, fun _ => none⟩

theorem isBareWord_of_all {w : Text} (hlex : lex w = .ok [(.word w, 0)])
    (hall : (w.all fun c => !endsBare c && !isOpChar c) = true) : IsBareWord w := by
  refine ⟨hlex, fun c hc => ?_⟩
  simpa using List.all_eq_true.1 hall c hc

theorem isBareWord_bytes : IsBareWord "bytes".toList := isBareWord_of_all (by decide +kernel) (by decide)

theorem isBareWord_10k : IsBareWord "10k".toList := isBareWord_of_all (by decide +kernel) (by decide)

theorem hugs_iff_sample : parseQuery lenientEnv (hugged "bytes".toList ">=".toList "10k".toList) =
    .ok (.cmp .bytes .ge ⟨"10k".toList, some (10, "k".toList), none⟩) :=
  ((hugs_iff lenientEnv "bytes".toList "10k".toList (">=", .ge) (by decide) isBareWord_bytes (.inl isBareWord_10k)).2
    isBareWord_10k (by decide) _).1 (by decide +kernel)

/-- A hugged `=` makes a free text of the comparison, and a hugged regex literal is compared literally. -/
theorem hugging_differs :
    (IsBareWord "bytes".toList ∧ IsBareWord "10k".toList ∧ IsRegex "/u+/".toList "u+".toList) ∧
    (parseQuery lenientEnv (spaced "bytes".toList "=".toList "10k".toList) =
        .ok (.cmp .bytes .eq ⟨"10k".toList, some (10, "k".toList), none⟩) ∧
      parseQuery lenientEnv (hugged "bytes".toList "=".toList "10k".toList) =
        .ok (.freeText "bytes=10k".toList)) ∧
    parseQuery lenientEnv (spaced "bytes".toList "==".toList "/u+/".toList) =
        .ok (.cmp .bytes .re ⟨"u+".toList, none, some "u+".toList⟩) ∧
      parseQuery lenientEnv (hugged "bytes".toList "==".toList "/u+/".toList) =
        .ok (.cmp .bytes .eq ⟨"/u+/".toList, none, none⟩) := by
  refine ⟨⟨isBareWord_bytes, isBareWord_10k, "u+".toList, rfl, by decide⟩, ⟨?_, ?_⟩, ?_, ?_⟩
  all_goals decide +kernel

end Pktflow.View

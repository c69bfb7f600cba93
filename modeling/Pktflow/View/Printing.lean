import Pktflow.View.Grammar
import Mathlib.Data.List.Chain

/-!
# The documented grammar and printed trees

The documented grammar differs from what the parser accepts in one place: `>`, `>=`, `<` and `<=` compare
numbers only, and the parser takes a regex literal after them and matches it. `derives_documented_iff` finds
the difference in the tokens themselves. A tree printed with the parentheses it needs is derived at its own
level (`derives_print`), so the parser gives it back.
-/

set_option autoImplicit false

namespace Pktflow.View

open Pktflow.Lib

/-! ## Regex literals after ordering operators -/

/-- A regex literal. -/
def Tok.isRegex : Tok → Bool
  | .regex _ => true
  | _ => false

/-- An operator for numbers. -/
def Tok.isOrdering : Tok → Bool
  | .op cmp => cmp.isOrdering
  | _ => false

/-- An ordering operator does not stand before a regex literal. -/
def NumbersOnly (t u : Tok) : Prop := ¬(t.isOrdering = true ∧ u.isRegex = true)

instance : DecidableRel NumbersOnly := fun t u =>
  inferInstanceAs (Decidable (¬(t.isOrdering = true ∧ u.isRegex = true)))

section Ordering

variable {env : QueryEnv} {allows : CmpOp → Bool} {level : Level} {ts us : List Tok} {e : Expr}

/-- A derivation does not end with an operator. -/
theorem Derives.getLast (h : Derives env allows level ts e) : ∀ t ∈ ts.getLast?, t.isOrdering = false := by
  have happend : ∀ {us vs : List Tok}, vs ≠ [] → (∀ t ∈ vs.getLast?, t.isOrdering = false) →
      ∀ t ∈ (us ++ vs).getLast?, t.isOrdering = false := by
    intro us vs hne hvs t ht
    rw [List.getLast?_append_of_ne_nil _ hne] at ht
    exact hvs t ht
  have hcons : ∀ {s : Tok} {level : Level} {vs : List Tok} {e : Expr}, Derives env allows level vs e →
      (∀ t ∈ vs.getLast?, t.isOrdering = false) → ∀ t ∈ (s :: vs).getLast?, t.isOrdering = false := by
    intro s level vs e hvs hlast
    obtain ⟨t, rest, rfl, -⟩ := hvs.head
    exact hlast
  induction h with
  | orOne _ ih | andOne _ ih | one _ ih => exact ih
  | or _ hr _ ihr | and _ hr _ ihr => exact happend (List.cons_ne_nil _ _) (hcons hr ihr)
  | juxtapose _ hr _ ihr =>
      obtain ⟨t, rest, rfl, -⟩ := hr.head
      exact happend (List.cons_ne_nil _ _) ihr
  | not h ih => exact hcons h ih
  | paren _ _ =>
      rw [← List.cons_append]
      exact happend (List.cons_ne_nil _ _) (by simp [Tok.isOrdering])
  | flag | text | quoted | regex => simp [Tok.isOrdering]
  | compare hv => rcases hv with rfl | rfl <;> simp [Tok.isOrdering]
  | compareRegex => simp [Tok.isOrdering]

theorem isChain_append_of_derives {level' : Level} (h : Derives env allows level' ts e) :
    (ts ++ us).IsChain NumbersOnly ↔ ts.IsChain NumbersOnly ∧ us.IsChain NumbersOnly := by
  rw [List.isChain_append]
  constructor
  · rintro ⟨hts, hus, -⟩
    exact ⟨hts, hus⟩
  · rintro ⟨hts, hus⟩
    refine ⟨hts, hus, fun t ht u _ hbad => ?_⟩
    rw [h.getLast t ht] at hbad
    exact Bool.false_ne_true hbad.1

theorem isChain_cons_of_not {t : Tok} (h : t.isOrdering = false) :
    (t :: ts).IsChain NumbersOnly ↔ ts.IsChain NumbersOnly := by
  cases ts with
  | nil => simp
  | cons u ts =>
      rw [List.isChain_cons_cons]
      constructor
      · exact fun hc => hc.2
      · intro hc
        refine ⟨fun hbad => ?_, hc⟩
        rw [h] at hbad
        exact Bool.false_ne_true hbad.1

/-- The derivations of the documented grammar are those of the parser without a regex literal after an
ordering operator. -/
theorem derives_documented_iff :
    Derives env documented level ts e ↔ Derives env anyOp level ts e ∧ ts.IsChain NumbersOnly := by
  constructor
  · intro h
    refine ⟨h.mono fun _ _ => rfl, ?_⟩
    induction h with
    | orOne _ ih | andOne _ ih | one _ ih => exact ih
    | or hl _ ihl ihr | and hl _ ihl ihr =>
        exact (isChain_append_of_derives hl).2 ⟨ihl, (isChain_cons_of_not rfl).2 ihr⟩
    | juxtapose hl _ ihl ihr => exact (isChain_append_of_derives hl).2 ⟨ihl, ihr⟩
    | not _ ih => exact (isChain_cons_of_not rfl).2 ih
    -- no parenthesis or operator word is a regex behind an ordering operator
    | paren h ih =>
        refine (isChain_cons_of_not rfl).2 ((isChain_append_of_derives h).2 ⟨ih, ?_⟩)
        exact List.IsChain.singleton _
    | flag | text | quoted | regex => exact List.IsChain.singleton _
    | compare hv => rcases hv with rfl | rfl <;> simp [NumbersOnly, Tok.isRegex]
    | compareRegex hop => 
        simp [NumbersOnly, Tok.isOrdering, Tok.isRegex]
        simpa [documented] using hop
  · rintro ⟨h, hchain⟩
    induction h with
    | orOne _ ih => exact .orOne (ih hchain)
    | or hl _ ihl ihr =>
        obtain ⟨hleft, hright⟩ := (isChain_append_of_derives hl).1 hchain
        exact .or (ihl hleft) (ihr ((isChain_cons_of_not rfl).1 hright))
    | andOne _ ih => exact .andOne (ih hchain)
    | and hl _ ihl ihr =>
        obtain ⟨hleft, hright⟩ := (isChain_append_of_derives hl).1 hchain
        exact .and (ihl hleft) (ihr ((isChain_cons_of_not rfl).1 hright))
    | juxtapose hl _ ihl ihr =>
        obtain ⟨hleft, hright⟩ := (isChain_append_of_derives hl).1 hchain
        exact .juxtapose (ihl hleft) (ihr hright)
    | not _ ih => exact .not (ih ((isChain_cons_of_not rfl).1 hchain))
    | one _ ih => exact .one (ih hchain)
    | paren h ih =>
        obtain ⟨hinner, -⟩ := (isChain_append_of_derives h).1 ((isChain_cons_of_not rfl).1 hchain)
        exact .paren (ih hinner)
    | flag hw => exact .flag hw
    | text hw => exact .text hw
    | quoted => exact .quoted
    | regex hre => exact .regex hre
    | compare hv hnum hre => exact .compare hv hnum hre
    | @compareRegex name pattern op _ hre =>
        refine .compareRegex ?_ hre
        simp only [List.isChain_cons_cons] at hchain
        -- the pair of the operator and its regex is in the chain
        have hnot := hchain.2.1
        rw [NumbersOnly] at hnot
        rw [documented]
        cases hop : op.isOrdering with
        | false => rfl
        | true => exact absurd ⟨hop, rfl⟩ hnot

end Ordering

/-! ## Printing -/

namespace Expr

/-- The terms that are not put together from others. -/
def leaves : Expr → List Expr
  | .or l r => l.leaves ++ r.leaves
  | .and l r => l.leaves ++ r.leaves
  | .not inner => inner.leaves
  | .freeText needle => [.freeText needle]
  | .freeRegex pattern => [.freeRegex pattern]
  | .flag f => [.flag f]
  | .cmp field op value => [.cmp field op value]

/-- How tight the outermost connective binds. -/
def rank : Expr → Nat
  | .or _ _ => 0
  | .and _ _ => 1
  | _ => 2

/-- The tokens of a tree where only a tree of the rank may stand. -/
def wrap (rank : Nat) (e : Expr) (ts : List Tok) : List Tok :=
  if e.rank < rank then .lparen :: (ts ++ [.rparen]) else ts

/-- The tokens of a tree, with the parentheses it needs, by the tokens of its leaves. -/
def print (leaf : Expr → List Tok) : Expr → List Tok
  | .or l r => l.print leaf ++ .or :: r.wrap 1 (r.print leaf)
  | .and l r => l.wrap 1 (l.print leaf) ++ .and :: r.wrap 2 (r.print leaf)
  | .not inner => .not :: inner.wrap 2 (inner.print leaf)
  | .freeText needle => leaf (.freeText needle)
  | .freeRegex pattern => leaf (.freeRegex pattern)
  | .flag f => leaf (.flag f)
  | .cmp field op value => leaf (.cmp field op value)

end Expr

section Printing

variable {env : QueryEnv} {allows : CmpOp → Bool} {leaf : Expr → List Tok} {e : Expr} {ts : List Tok}

/-- The level of a tree by its outermost connective. -/
def Expr.level (e : Expr) : Level :=
  match e.rank with
  | 0 => .or
  | 1 => .and
  | _ => .unary

theorem derives_or_of_level (h : Derives env allows e.level ts e) : Derives env allows .or ts e := by
  rw [Expr.level] at h
  split at h
  · exact h
  · exact .orOne h
  · exact .orOne (.andOne h)

theorem derives_wrap_and (h : Derives env allows e.level ts e) : Derives env allows .and (e.wrap 1 ts) e := by
  rw [Expr.wrap]
  split
  · exact .andOne (.one (.paren (derives_or_of_level h)))
  · rename_i hrank
    rw [Expr.level] at h
    split at h
    · omega
    · exact h
    · exact .andOne h

theorem derives_wrap_unary (h : Derives env allows e.level ts e) :
    Derives env allows .unary (e.wrap 2 ts) e := by
  rw [Expr.wrap]
  split
  · exact .one (.paren (derives_or_of_level h))
  · rename_i hrank
    rw [Expr.level] at h
    split at h
    · omega
    · omega
    · exact h

/-- A printed tree derives the tree at its level. -/
theorem derives_print (hleaf : ∀ x ∈ e.leaves, Derives env allows .primary (leaf x) x) :
    Derives env allows e.level (e.print leaf) e := by
  induction e with
  | or l r ihl ihr =>
      have hl := ihl fun x hx => hleaf x (List.mem_append_left _ hx)
      have hr := ihr fun x hx => hleaf x (List.mem_append_right _ hx)
      exact .or (derives_or_of_level hl) (derives_wrap_and hr)
  | and l r ihl ihr =>
      have hl := ihl fun x hx => hleaf x (List.mem_append_left _ hx)
      have hr := ihr fun x hx => hleaf x (List.mem_append_right _ hx)
      exact .and (derives_wrap_and hl) (derives_wrap_unary hr)
  | not inner ih => exact .not (derives_wrap_unary (ih hleaf))
  | freeText | freeRegex | flag | cmp => exact .one (hleaf _ (List.mem_singleton_self _))

theorem documented_withRegex (op : CmpOp) : documented op.withRegex = true := by
  cases op <;> rfl

theorem withRegex_withRegex (op : CmpOp) : op.withRegex.withRegex = op.withRegex := by
  cases op <;> rfl

/-- The leaves of a tree that the parser returns can be written. -/
theorem Derives.writable {level : Level} (h : Derives env allows level ts e) :
    ∀ x ∈ e.leaves, ∃ us, Derives env documented .primary us x := by
  have happend : ∀ {l r : Expr}, (∀ x ∈ l.leaves, ∃ us, Derives env documented .primary us x) →
      (∀ x ∈ r.leaves, ∃ us, Derives env documented .primary us x) →
      ∀ x ∈ l.leaves ++ r.leaves, ∃ us, Derives env documented .primary us x := by
    intro l r hl hr x hx
    rcases List.mem_append.1 hx with hx | hx
    · exact hl x hx
    · exact hr x hx
  have hsingle : ∀ {x : Expr} {us : List Tok}, Derives env documented .primary us x →
      ∀ y ∈ [x], ∃ us, Derives env documented .primary us y := by
    intro x us hx y hy
    obtain rfl := List.mem_singleton.1 hy
    exact ⟨us, hx⟩
  induction h with
  | orOne _ ih | andOne _ ih | one _ ih | not _ ih | paren _ ih => exact ih
  | or _ _ ihl ihr | and _ _ ihl ihr | juxtapose _ _ ihl ihr => exact happend ihl ihr
  | flag hw => exact hsingle (.flag hw)
  | text hw => exact hsingle (.text hw)
  | quoted => exact hsingle .quoted
  | regex hre => exact hsingle (.regex hre)
  | compare hv hnum hre => exact hsingle (.compare hv hnum hre)
  | @compareRegex name pattern op _ hre =>
      -- the operator of the tree is one for regexes
      have hcmp : Derives env documented .primary [.word name, .op op.withRegex, .regex pattern]
          (.cmp (Field.resolve name) op.withRegex.withRegex ⟨pattern, none, some pattern⟩) :=
        .compareRegex (documented_withRegex op) hre
      rw [withRegex_withRegex] at hcmp
      exact hsingle hcmp

end Printing

/-! ## Result -/

/-- The parser does what the grammar says on the tokens: it returns a tree exactly if they derive it, and
they derive at most one. -/
def MeetsGrammar (env : QueryEnv) (inputLen : Nat) (toks : List (Tok × Nat)) : Prop :=
  (∀ e, parseTokens env inputLen toks = .ok e ↔ Derives env documented .or (toks.map Prod.fst) e) ∧
    ∀ e e', Derives env documented .or (toks.map Prod.fst) e →
      Derives env documented .or (toks.map Prod.fst) e' → e = e'

/-- The tokens could be a query, if a regex literal might follow any operator. -/
def Readable (env : QueryEnv) (ts : List Tok) : Prop := ∃ e, Derives env anyOp .or ts e

/-- The parser and the documented grammar differ exactly on the queries with a regex literal after an
ordering operator; printed trees come back. -/
theorem parser_meets_grammar_iff (env : QueryEnv) (inputLen : Nat) :
    (∀ toks : List (Tok × Nat), MeetsGrammar env inputLen toks ↔
      ((toks.map Prod.fst).IsChain NumbersOnly ∨ ¬Readable env (toks.map Prod.fst))) ∧
    (∀ (leaf : Expr → List Tok) (e : Expr), (∀ x ∈ e.leaves, Derives env documented .primary (leaf x) x) →
      ∀ toks : List (Tok × Nat), toks.map Prod.fst = e.print leaf →
        parseTokens env inputLen toks = .ok e) ∧
    ∀ (toks : List (Tok × Nat)) (e : Expr), parseTokens env inputLen toks = .ok e →
      ∀ x ∈ e.leaves, ∃ ts, Derives env documented .primary ts x := by
  refine ⟨fun toks => ⟨?_, ?_⟩, ?_, ?_⟩
  · rintro ⟨hiff, -⟩
    by_contra hnot
    obtain ⟨hchain, hread⟩ := not_or.1 hnot
    obtain ⟨e, he⟩ := not_not.1 hread
    have hdoc := (hiff e).1 ((parseTokens_ok_iff env inputLen toks e).2 he)
    exact hchain (derives_documented_iff.1 hdoc).2
  · intro hcond
    refine ⟨fun e => ?_, fun e e' h h' => h.unique h'⟩
    rw [parseTokens_ok_iff, derives_documented_iff]
    constructor
    · intro he
      refine ⟨he, ?_⟩
      rcases hcond with hchain | hread
      · exact hchain
      · exact absurd ⟨e, he⟩ hread
    · exact fun he => he.1
  · intro leaf e hleaf toks htoks
    rw [parseTokens_ok_iff, htoks]
    exact (derives_or_of_level (derives_print hleaf)).mono fun _ _ => rfl
  · intro toks e h
    exact ((parseTokens_ok_iff env inputLen toks e).1 h).writable

/-- `"dns" AND NOT (closed OR "udp")`, printed and parsed. -/
theorem parser_meets_grammar_iff_not_or :
    parseTokens ⟨toAsciiLowercase, fun _ => none⟩ 0
        [(.str "dns".toList, 0), (.and, 0), (.not, 0), (.lparen, 0), (.word "closed".toList, 0), (.or, 0),
          (.str "udp".toList, 0), (.rparen, 0)] =
      .ok (.and (.freeText "dns".toList) (.not (.or (.flag .closed) (.freeText "udp".toList)))) := by
  refine (parser_meets_grammar_iff ⟨toAsciiLowercase, fun _ => none⟩ 0).2.1
    (fun x => match x with
      | .freeText t => [.str t]
      | _ => [.word "closed".toList]) _ ?_ _ rfl
  intro x hx
  have hcases : x = .freeText "dns".toList ∨ x = .flag .closed ∨ x = .freeText "udp".toList := by
    simpa [Expr.leaves] using hx
  rcases hcases with rfl | rfl | rfl
  · exact .quoted
  · exact .flag rfl
  · exact .quoted

/-- `bytes > /x/` is parsed as a match, though `>` compares numbers only. -/
theorem parser_accepts_ordered_regex :
    ¬MeetsGrammar ⟨toAsciiLowercase, fun _ => none⟩ 11
      [(.word "bytes".toList, 0), (.op .gt, 6), (.regex "x".toList, 8)] := by
  rintro ⟨hiff, -⟩
  have hparse : parseTokens ⟨toAsciiLowercase, fun _ => none⟩ 11
      [(.word "bytes".toList, 0), (.op .gt, 6), (.regex "x".toList, 8)] =
        .ok (.cmp .bytes .re ⟨"x".toList, none, some "x".toList⟩) := by
    decide +kernel
  have hchain := (derives_documented_iff.1 ((hiff _).1 hparse)).2
  revert hchain
  decide

end Pktflow.View

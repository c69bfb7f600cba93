import Pktflow.View.Descent

/-!
# The grammar of the queries

The grammar of `docs/query-language.md` as derivations of token sequences, one constructor for each
production. The parser is compared with it from both sides: what it accepts is derivable
(`sound_parseGoal`), and what is derivable it accepts, with the tree of the derivation (`reads_of_derives`).
The parser also takes a regex literal after an ordering operator, which the grammar keeps for numbers;
`Derives` has the operators that may stand before a regex literal as a parameter.
-/

set_option autoImplicit false

namespace Pktflow.View

open Pktflow.Lib

/-! ## Derivations -/

/-- The nonterminals. -/
inductive Level where
  | or
  | and
  | unary
  | primary

/-- The bare flags. -/
def flagWords : List (String × Flag) :=
  [("closed", .closed), ("live", .live), ("open", .live), ("root", .root), ("leaf", .leaf),
    ("condensed", .condensed)]

/-- The flag a word stands for. -/
def Flag.ofWord (w : Text) : Option Flag :=
  (flagWords.find? fun e => e.1.toList == toAsciiLowercase w).map Prod.snd

/-- The literal of a comparison with a word or a string. -/
def Literal.plain (op : CmpOp) (raw : Text) : Literal :=
  ⟨raw, numberOf raw, if op.isRegex then some raw else none⟩

/-- The operators that the documentation lets stand before a regex literal: all but those for numbers. -/
def documented (op : CmpOp) : Bool := !op.isOrdering

/-- The operators that the parser lets stand before a regex literal. -/
def anyOp (_ : CmpOp) : Bool := true

/-- The grammar: the tokens derive the tree. Both chains associate to the left. -/
inductive Derives (env : QueryEnv) (allows : CmpOp → Bool) : Level → List Tok → Expr → Prop where
  | orOne {ts : List Tok} {e : Expr} : Derives env allows .and ts e → Derives env allows .or ts e
  | or {ts us : List Tok} {l r : Expr} :
      Derives env allows .or ts l → Derives env allows .and us r →
        Derives env allows .or (ts ++ .or :: us) (.or l r)
  | andOne {ts : List Tok} {e : Expr} : Derives env allows .unary ts e → Derives env allows .and ts e
  | and {ts us : List Tok} {l r : Expr} :
      Derives env allows .and ts l → Derives env allows .unary us r →
        Derives env allows .and (ts ++ .and :: us) (.and l r)
  | juxtapose {ts us : List Tok} {l r : Expr} :
      Derives env allows .and ts l → Derives env allows .unary us r →
        Derives env allows .and (ts ++ us) (.and l r)
  | not {ts : List Tok} {e : Expr} :
      Derives env allows .unary ts e → Derives env allows .unary (.not :: ts) (.not e)
  | one {ts : List Tok} {e : Expr} : Derives env allows .primary ts e → Derives env allows .unary ts e
  | paren {ts : List Tok} {e : Expr} :
      Derives env allows .or ts e → Derives env allows .primary (.lparen :: (ts ++ [.rparen])) e
  | flag {w : Text} {f : Flag} :
      Flag.ofWord w = some f → Derives env allows .primary [.word w] (.flag f)
  | text {w : Text} :
      Flag.ofWord w = none → Derives env allows .primary [.word w] (.freeText (env.toLowercase w))
  | quoted {s : Text} : Derives env allows .primary [.str s] (.freeText (env.toLowercase s))
  | regex {pattern : Text} :
      env.regexError pattern = none → Derives env allows .primary [.regex pattern] (.freeRegex pattern)
  | compare {name raw : Text} {op : CmpOp} {value : Tok} :
      value = .word raw ∨ value = .str raw → (op.isOrdering = true → numberOf raw ≠ none) →
      (op.isRegex = true → env.regexError raw = none) →
        Derives env allows .primary [.word name, .op op, value]
          (.cmp (Field.resolve name) op (Literal.plain op raw))
  | compareRegex {name pattern : Text} {op : CmpOp} :
      allows op = true → env.regexError pattern = none →
        Derives env allows .primary [.word name, .op op, .regex pattern]
          (.cmp (Field.resolve name) op.withRegex ⟨pattern, none, some pattern⟩)

/-- More operators before regex literals, more derivations. -/
theorem Derives.mono {env : QueryEnv} {allows allows' : CmpOp → Bool} {level : Level} {ts : List Tok}
    {e : Expr} (hle : ∀ op, allows op = true → allows' op = true) (h : Derives env allows level ts e) :
    Derives env allows' level ts e := by
  induction h with
  | orOne _ ih => exact .orOne ih
  | or _ _ ihl ihr => exact .or ihl ihr
  | andOne _ ih => exact .andOne ih
  | and _ _ ihl ihr => exact .and ihl ihr
  | juxtapose _ _ ihl ihr => exact .juxtapose ihl ihr
  | not _ ih => exact .not ih
  | one _ ih => exact .one ih
  | paren _ ih => exact .paren ih
  | flag hw => exact .flag hw
  | text hw => exact .text hw
  | quoted => exact .quoted
  | regex hre => exact .regex hre
  | compare hv hnum hre => exact .compare hv hnum hre
  | compareRegex hop hre => exact .compareRegex (hle _ hop) hre

theorem wordExpr_eq (env : QueryEnv) (w : Text) :
    wordExpr env w = match Flag.ofWord w with
      | some f => .flag f
      | none => .freeText (env.toLowercase w) := by
  unfold wordExpr Flag.ofWord flagWords isOneOf
  simp only [List.any_cons, List.any_nil, Bool.or_false, List.find?_cons, Bool.or_eq_true]
  grind

/-- A word by itself. -/
theorem derives_wordExpr {env : QueryEnv} {allows : CmpOp → Bool} (w : Text) :
    Derives env allows .primary [.word w] (wordExpr env w) := by
  rw [wordExpr_eq]
  cases hw : Flag.ofWord w with
  | some f => exact .flag hw
  | none => exact .text hw

/-! ## Tokens of a parser state -/

namespace Parser

/-- The tokens left, without their positions. -/
def toks (p : Parser) : List Tok := p.rest.map Prod.fst

theorem peek_eq (p : Parser) : p.peek = p.toks.head? := by
  rw [peek, toks]
  rw [List.head?_map]

theorem peek2_eq (p : Parser) : p.peek2 = p.toks.tail.head? := by
  rw [peek2, toks]
  rw [← List.map_tail, List.head?_map]

@[simp] theorem toks_bump (p : Parser) : p.bump.toks = p.toks.tail := by
  unfold bump toks
  cases h : p.rest with
  | nil => simp [h]
  | cons t rest => rfl

theorem toks_of_peek {p : Parser} {t : Tok} (h : p.peek = some t) : p.toks = t :: p.bump.toks := by
  obtain ⟨pos, rest, hrest⟩ := rest_of_peek h
  rw [toks_bump, toks, hrest]
  rfl

theorem peek_of_toks {p : Parser} {t : Tok} {ts : List Tok} (h : p.toks = t :: ts) :
    p.peek = some t ∧ p.bump.toks = ts := by
  rw [peek_eq, toks_bump, h]
  exact ⟨rfl, rfl⟩

end Parser

/-! ## What the parser accepts is derivable -/

/-- The outcome of a method that has succeeded: the tokens it took derive its tree, or extend the tree the
loop has begun with. -/
def Took (env : QueryEnv) (g : Goal) (ts : List Tok) (e : Expr) : Prop :=
  match g with
  | .or => Derives env anyOp .or ts e
  | .orTail left => ∀ us, Derives env anyOp .or us left → Derives env anyOp .or (us ++ ts) e
  | .and => Derives env anyOp .and ts e
  | .andTail left => ∀ us, Derives env anyOp .and us left → Derives env anyOp .and (us ++ ts) e
  | .unary => Derives env anyOp .unary ts e
  | .primary => Derives env anyOp .primary ts e

/-- The tokens between two states. -/
def Sound (env : QueryEnv) (g : Goal) (p : Parser) (r : Except Failure (Expr × Parser)) : Prop :=
  ∀ e q, r = .ok (e, q) → ∃ ts, p.toks = ts ++ q.toks ∧ Took env g ts e

section Soundness

variable {env : QueryEnv} {g : Goal} {p : Parser} {self : Methods}

theorem sound_error (f : Failure) : Sound env g p (.error f) := by
  intro e q h
  cases h

theorem bind_ok {α β : Type} {x : Except Failure α} {k : α → Except Failure β} {b : β}
    (h : (x >>= k) = .ok b) : ∃ a, x = .ok a ∧ k a = .ok b := by
  cases x with
  | ok a => exact ⟨a, rfl, h⟩
  | error e => cases h

theorem compile_ok {p : Parser} {pattern re : Text} (h : p.compile env pattern = .ok re) :
    env.regexError pattern = none ∧ re = pattern := by
  rw [Parser.compile] at h
  split at h
  · rename_i hnone
    exact ⟨hnone, (Except.ok.inj h).symm⟩
  · cases h

theorem parseOperand_ok {field : Field} {op : CmpOp} {raw : Text} {pos : Nat} {e : Expr} {q : Parser}
    (h : parseOperand env field op raw pos p = .ok (e, q)) :
    (op.isOrdering = true → numberOf raw ≠ none) ∧ (op.isRegex = true → env.regexError raw = none) ∧
      e = .cmp field op (Literal.plain op raw) ∧ q = p := by
  rw [parseOperand] at h
  rw [parseNumber_eq] at h
  obtain ⟨number, hnumber, h⟩ := bind_ok h
  obtain rfl := Except.ok.inj hnumber
  split at h
  · cases h
  · rename_i hcond
    obtain ⟨regex, hregex, h⟩ := bind_ok h
    obtain ⟨rfl, rfl⟩ := Prod.mk.inj (Except.ok.inj h)
    refine ⟨fun hop hnone => hcond ⟨hop, hnone⟩, ?_, ?_, rfl⟩
    · intro hop
      rw [operandRegex] at hregex
      rw [if_pos hop] at hregex
      rw [Parser.compile] at hregex
      cases herr : env.regexError raw with
      | none => rfl
      | some m =>
          rw [herr] at hregex
          cases hregex
    · rw [operandRegex, Parser.compile] at hregex
      rw [Literal.plain]
      cases hop : op.isRegex with
      | false =>
          rw [hop] at hregex
          obtain rfl := Except.ok.inj hregex
          rfl
      | true =>
          rw [hop] at hregex
          cases herr : env.regexError raw with
          | none =>
              rw [herr] at hregex
              obtain rfl := Except.ok.inj hregex
              rfl
          | some m =>
              rw [herr] at hregex
              cases hregex

theorem sound_comparison : Sound env .primary p (parseComparison env p) := by
  intro e q h
  rw [parseComparison] at h
  split at h
  · rename_i name hname
    split at h
    · rename_i op hop
      have htoks : p.toks = .word name :: .op op :: p.bump.bump.toks := by
        rw [Parser.toks_of_peek hname, Parser.toks_of_peek hop]
      dsimp only at h
      have hplain : ∀ raw value, p.bump.bump.peek = some value → (value = .word raw ∨ value = .str raw) →
          parseOperand env (Field.resolve name) op raw p.bump.bump.pos p.bump.bump.bump = .ok (e, q) →
          ∃ ts, p.toks = ts ++ q.toks ∧ Took env .primary ts e := by
        intro raw value hpeek hvalue hok
        obtain ⟨hnum, hre, rfl, rfl⟩ := parseOperand_ok hok
        refine ⟨[.word name, .op op, value], ?_, .compare hvalue hnum hre⟩
        rw [htoks, Parser.toks_of_peek hpeek]
        rfl
      split at h
      · rename_i raw hpeek
        exact hplain raw _ hpeek (.inl rfl) h
      · rename_i raw hpeek
        exact hplain raw _ hpeek (.inr rfl) h
      · rename_i pattern hpeek
        obtain ⟨re, hcompile, h⟩ := bind_ok h
        obtain ⟨hre, rfl⟩ := compile_ok hcompile
        obtain ⟨rfl, rfl⟩ := Prod.mk.inj (Except.ok.inj h)
        refine ⟨[.word name, .op op, .regex re], ?_, .compareRegex rfl hre⟩
        rw [htoks, Parser.toks_of_peek hpeek]
        rfl
      · cases h
    · cases h
  · cases h

theorem sound_or (h : ∀ g p, Sound env g p (self g p)) : Sound env .or p (parseOr self p) := by
  intro e q hok
  obtain ⟨⟨left, q'⟩, hleft, hok⟩ := bind_ok hok
  obtain ⟨ts, hts, hl⟩ := h _ _ _ _ hleft
  obtain ⟨us, hus, hr⟩ := h _ _ _ _ hok
  exact ⟨ts ++ us, by rw [hts, hus, List.append_assoc], hr ts (.orOne hl)⟩

theorem sound_orTail {left : Expr} (h : ∀ g p, Sound env g p (self g p)) :
    Sound env (.orTail left) p (parseOrTail self left p) := by
  intro e q hok
  rw [parseOrTail] at hok
  split at hok
  · rename_i hpeek
    obtain ⟨⟨right, q'⟩, hright, hok⟩ := bind_ok hok
    obtain ⟨ts, hts, hr⟩ := h _ _ _ _ hright
    obtain ⟨us, hus, hrest⟩ := h _ _ _ _ hok
    refine ⟨.or :: (ts ++ us), ?_, ?_⟩
    · rw [Parser.toks_of_peek hpeek, hts, hus]
      simp
    · intro vs hvs
      have hmore := hrest _ (Derives.or hvs hr)
      rw [List.append_assoc] at hmore
      exact hmore
  · obtain ⟨rfl, rfl⟩ := Prod.mk.inj (Except.ok.inj hok)
    refine ⟨[], rfl, ?_⟩
    intro us hus
    rw [List.append_nil]
    exact hus

theorem sound_and (h : ∀ g p, Sound env g p (self g p)) : Sound env .and p (parseAnd self p) := by
  intro e q hok
  obtain ⟨⟨left, q'⟩, hleft, hok⟩ := bind_ok hok
  obtain ⟨ts, hts, hl⟩ := h _ _ _ _ hleft
  obtain ⟨us, hus, hr⟩ := h _ _ _ _ hok
  exact ⟨ts ++ us, by rw [hts, hus, List.append_assoc], hr ts (.andOne hl)⟩

theorem sound_andTail {left : Expr} (h : ∀ g p, Sound env g p (self g p)) :
    Sound env (.andTail left) p (parseAndTail self left p) := by
  intro e q hok
  have hdone : (left, p) = (e, q) → ∃ ts, p.toks = ts ++ q.toks ∧ Took env (.andTail left) ts e := by
    intro heq
    obtain ⟨rfl, rfl⟩ := Prod.mk.inj heq
    refine ⟨[], rfl, ?_⟩
    intro us hus
    rw [List.append_nil]
    exact hus
  rw [parseAndTail] at hok
  dsimp only at hok
  split at hok
  · rename_i hpeek
    obtain ⟨⟨right, q'⟩, hright, hok⟩ := bind_ok hok
    obtain ⟨ts, hts, hr⟩ := h _ _ _ _ hright
    obtain ⟨us, hus, hrest⟩ := h _ _ _ _ hok
    refine ⟨.and :: (ts ++ us), ?_, ?_⟩
    · rw [Parser.toks_of_peek hpeek, hts, hus]
      simp
    · intro vs hvs
      have hmore := hrest _ (Derives.and hvs hr)
      rw [List.append_assoc] at hmore
      exact hmore
  · split at hok
    · obtain ⟨⟨right, q'⟩, hright, hok⟩ := bind_ok hok
      obtain ⟨ts, hts, hr⟩ := h _ _ _ _ hright
      obtain ⟨us, hus, hrest⟩ := h _ _ _ _ hok
      refine ⟨ts ++ us, by rw [hts, hus, List.append_assoc], ?_⟩
      intro vs hvs
      have hmore := hrest _ (Derives.juxtapose hvs hr)
      rw [List.append_assoc] at hmore
      exact hmore
    · exact hdone (Except.ok.inj hok)
  · exact hdone (Except.ok.inj hok)

theorem sound_unary (h : ∀ g p, Sound env g p (self g p)) : Sound env .unary p (parseUnary self p) := by
  intro e q hok
  rw [parseUnary] at hok
  split at hok
  · rename_i hpeek
    obtain ⟨⟨inner, q'⟩, hinner, hok⟩ := bind_ok hok
    obtain ⟨rfl, rfl⟩ := Prod.mk.inj (Except.ok.inj hok)
    obtain ⟨ts, hts, hi⟩ := h _ _ _ _ hinner
    exact ⟨.not :: ts, by rw [Parser.toks_of_peek hpeek, hts]; rfl, .not hi⟩
  · obtain ⟨ts, hts, hprimary⟩ := h _ _ _ _ hok
    exact ⟨ts, hts, .one hprimary⟩

theorem sound_primary (h : ∀ g p, Sound env g p (self g p)) :
    Sound env .primary p (parsePrimary env self p) := by
  intro e q hok
  rw [parsePrimary] at hok
  split at hok
  · rename_i hpeek
    obtain ⟨⟨inner, q'⟩, hinner, hok⟩ := bind_ok hok
    obtain ⟨ts, hts, hi⟩ := h _ _ _ _ hinner
    dsimp only at hok
    split at hok
    · rename_i hclose
      obtain ⟨rfl, rfl⟩ := Prod.mk.inj (Except.ok.inj hok)
      refine ⟨.lparen :: (ts ++ [Tok.rparen]), ?_, .paren hi⟩
      rw [Parser.toks_of_peek hpeek, hts, Parser.toks_of_peek hclose]
      simp
    · cases hok
  · rename_i pattern hpeek
    obtain ⟨re, hcompile, hret⟩ := bind_ok hok
    obtain ⟨hre, rfl⟩ := compile_ok hcompile
    obtain ⟨rfl, rfl⟩ := Prod.mk.inj (Except.ok.inj hret)
    exact ⟨[.regex re], Parser.toks_of_peek hpeek, .regex hre⟩
  · rename_i s hpeek
    obtain ⟨rfl, rfl⟩ := Prod.mk.inj (Except.ok.inj hok)
    exact ⟨[.str s], Parser.toks_of_peek hpeek, .quoted⟩
  · rename_i w hpeek
    split at hok
    · exact sound_comparison e q hok
    · obtain ⟨rfl, rfl⟩ := Prod.mk.inj (Except.ok.inj hok)
      exact ⟨[.word w], Parser.toks_of_peek hpeek, derives_wordExpr w⟩
  all_goals cases hok

theorem sound_parseGoal (env : QueryEnv) (n : Nat) : ∀ g p, Sound env g p (parseGoal env n g p) := by
  induction n with
  | zero =>
      intro g p
      exact sound_error _
  | succ n ih =>
      intro g p
      cases g with
      | or => exact sound_or ih
      | orTail left => exact sound_orTail ih
      | and => exact sound_and ih
      | andTail left => exact sound_andTail ih
      | unary => exact sound_unary ih
      | primary => exact sound_primary ih

end Soundness

/-! ## Fuel -/

/-- What the methods of the one return, those of the other return too. -/
def Extends (self self' : Methods) : Prop := ∀ g p, self g p ≠ .error .fuel → self' g p = self g p

section Fuel

variable {env : QueryEnv} {g : Goal} {p : Parser} {self self' : Methods}

theorem bind_extends {α β : Type} {x x' : Except Failure α} {k k' : α → Except Failure β}
    (hx : x ≠ .error .fuel → x' = x) (hk : ∀ a, k a ≠ .error .fuel → k' a = k a)
    (h : (x >>= k) ≠ .error .fuel) : (x' >>= k') = (x >>= k) := by
  cases x with
  | ok a =>
      rw [hx (by simp)]
      exact hk a h
  | error f =>
      have hf : (.error f : Except Failure α) ≠ .error .fuel := by
        intro hf
        obtain rfl := Except.error.inj hf
        exact h rfl
      rw [hx hf]
      rfl

/-- A method, and the methods after it. -/
theorem Extends.thenCall (h : Extends self self') (next : Expr → Goal)
    (hne : (self g p >>= fun r => self (next r.1) r.2) ≠ .error .fuel) :
    (self' g p >>= fun r => self' (next r.1) r.2) = (self g p >>= fun r => self (next r.1) r.2) :=
  bind_extends (h g p) (fun r => h (next r.1) r.2) hne

theorem extends_primary (h : Extends self self')
    (hne : parsePrimary env self p ≠ .error .fuel) :
    parsePrimary env self' p = parsePrimary env self p := by
  unfold parsePrimary at hne ⊢
  split
  · rename_i hpeek
    rw [hpeek] at hne
    exact bind_extends (h _ _) (fun _ _ => rfl) hne
  all_goals rfl

theorem extends_unary (h : Extends self self') (hne : parseUnary self p ≠ .error .fuel) :
    parseUnary self' p = parseUnary self p := by
  unfold parseUnary at hne ⊢
  split
  · rename_i hpeek
    rw [hpeek] at hne
    exact bind_extends (h _ _) (fun _ _ => rfl) hne
  · rename_i hpeek
    split at hne
    · exact absurd ‹_› hpeek
    · exact h _ _ hne

theorem extends_andTail {left : Expr} (h : Extends self self')
    (hne : parseAndTail self left p ≠ .error .fuel) : parseAndTail self' left p = parseAndTail self left p := by
  unfold parseAndTail at hne ⊢
  dsimp only at hne ⊢
  split
  · rename_i hpeek
    rw [hpeek] at hne
    exact h.thenCall (fun right => .andTail (.and left right)) hne
  · rename_i t hnot hpeek
    rw [hpeek] at hne
    split
    · rename_i hterm
      cases t <;> simp only [startsTerm, Bool.false_eq_true] at hterm hne <;>
        exact h.thenCall (fun right => .andTail (.and left right)) hne
    · rfl
  · rfl

theorem extends_orTail {left : Expr} (h : Extends self self')
    (hne : parseOrTail self left p ≠ .error .fuel) : parseOrTail self' left p = parseOrTail self left p := by
  unfold parseOrTail at hne ⊢
  split
  · rename_i hpeek
    rw [hpeek] at hne
    exact h.thenCall (fun right => .orTail (.or left right)) hne
  · rfl

theorem extends_succ (env : QueryEnv) (n : Nat) : Extends (parseGoal env n) (parseGoal env (n + 1)) := by
  induction n with
  | zero =>
      intro g p hne
      exact absurd rfl hne
  | succ n ih =>
      intro g p hne
      cases g with
      | or => exact ih.thenCall .orTail hne
      | orTail left => exact extends_orTail ih hne
      | and => exact ih.thenCall .andTail hne
      | andTail left => exact extends_andTail ih hne
      | unary => exact extends_unary ih hne
      | primary => exact extends_primary ih hne

theorem extends_of_le (env : QueryEnv) {n m : Nat} (hle : n ≤ m) :
    Extends (parseGoal env n) (parseGoal env m) := by
  induction hle with
  | refl =>
      intro g p _
      rfl
  | step _ ih =>
      intro g p hne
      have heq := ih g p hne
      rw [← heq]
      exact extends_succ env _ g p (by rw [heq]; exact hne)

end Fuel

/-! ## What is derivable is accepted -/

/-- The method returns, with some fuel. -/
def Returns (env : QueryEnv) (g : Goal) (p : Parser) (r : Expr × Parser) : Prop :=
  ∃ n, parseGoal env n g p = .ok r

/-- An operator. -/
def Tok.isOp : Tok → Bool
  | .op _ => true
  | _ => false

/-- The tokens do not turn the word before them into a comparison. -/
def NoOp (ts : List Tok) : Prop := ∀ t ∈ ts.head?, t.isOp = false

/-- The tokens end a chain of `AND`. -/
def EndsAnd (ts : List Tok) : Prop := ∀ t ∈ ts.head?, t = .or ∨ t = .rparen

theorem EndsAnd.noOp {ts : List Tok} (h : EndsAnd ts) : NoOp ts := by
  intro t ht
  rcases h t ht with rfl | rfl <;> rfl

section Returns

variable {env : QueryEnv} {g : Goal} {p q : Parser} {e : Expr} {r : Expr × Parser}

theorem Returns.of_le {n m : Nat} (h : parseGoal env n g p = .ok r) (hle : n ≤ m) :
    parseGoal env m g p = .ok r := by
  rw [extends_of_le env hle g p (by rw [h]; simp), h]

/-- Two calls, with fuel for both. -/
theorem Returns.both {g' : Goal} {p' : Parser} {r' : Expr × Parser} (h : Returns env g p r)
    (h' : Returns env g' p' r') : ∃ n, parseGoal env n g p = .ok r ∧ parseGoal env n g' p' = .ok r' := by
  obtain ⟨n, hn⟩ := h
  obtain ⟨m, hm⟩ := h'
  exact ⟨max n m, Returns.of_le hn (Nat.le_max_left n m), Returns.of_le hm (Nat.le_max_right n m)⟩

theorem exists_within (toks : List (Tok × Nat)) (inputLen : Nat) : ∃ b, Within b toks ∧ inputLen ≤ b := by
  induction toks with
  | nil => exact ⟨inputLen, fun t ht => (by cases ht), Nat.le_refl _⟩
  | cons t toks ih =>
      obtain ⟨b, hwithin, hle⟩ := ih
      refine ⟨t.2 + b, ?_, by omega⟩
      intro u hu
      rcases List.mem_cons.1 hu with rfl | hu
      · exact Nat.le_add_right _ _
      · exact Nat.le_trans (hwithin u hu) (Nat.le_add_left _ _)

/-- The fuel for all tokens is enough. -/
theorem Returns.tokens {inputLen : Nat} {toks : List (Tok × Nat)}
    (h : Returns env .or ⟨0, toks, inputLen⟩ r) :
    parseGoal env (4 * toks.length + 4) .or ⟨0, toks, inputLen⟩ = .ok r := by
  obtain ⟨n, hn⟩ := h
  obtain ⟨b, hwithin⟩ := exists_within toks inputLen
  have hcall := parseGoal_tokens env hwithin.1 hwithin.2
  have hne : parseGoal env (4 * toks.length + 4) .or ⟨0, toks, inputLen⟩ ≠ .error .fuel := by
    intro hfuel
    rw [hfuel] at hcall
    exact hcall
  rw [← extends_of_le env (Nat.le_max_left _ n) .or _ hne]
  exact Returns.of_le hn (Nat.le_max_right _ n)

theorem returns_or (h : Returns env .and p (e, q)) (h' : Returns env (.orTail e) q r) :
    Returns env .or p r := by
  obtain ⟨n, hfirst, hsecond⟩ := h.both h'
  refine ⟨n + 1, ?_⟩
  show (parseGoal env n .and p >>= _) = _
  rw [hfirst]
  exact hsecond

theorem returns_and (h : Returns env .unary p (e, q)) (h' : Returns env (.andTail e) q r) :
    Returns env .and p r := by
  obtain ⟨n, hfirst, hsecond⟩ := h.both h'
  refine ⟨n + 1, ?_⟩
  show (parseGoal env n .unary p >>= _) = _
  rw [hfirst]
  exact hsecond

theorem returns_orTail {left : Expr} (hpeek : p.peek = some .or) (h : Returns env .and p.bump (e, q))
    (h' : Returns env (.orTail (.or left e)) q r) : Returns env (.orTail left) p r := by
  obtain ⟨n, hfirst, hsecond⟩ := h.both h'
  refine ⟨n + 1, ?_⟩
  show parseOrTail _ left p = _
  rw [parseOrTail]
  rw [hpeek]
  show (parseGoal env n .and p.bump >>= _) = _
  rw [hfirst]
  exact hsecond

theorem returns_orTail_stop {left : Expr} (h : p.peek ≠ some .or) : Returns env (.orTail left) p (left, p) := by
  refine ⟨1, ?_⟩
  show parseOrTail _ left p = _
  rw [parseOrTail]
  split
  · exact absurd ‹_› h
  · rfl

theorem returns_andTail {left : Expr} (hpeek : p.peek = some .and) (h : Returns env .unary p.bump (e, q))
    (h' : Returns env (.andTail (.and left e)) q r) : Returns env (.andTail left) p r := by
  obtain ⟨n, hfirst, hsecond⟩ := h.both h'
  refine ⟨n + 1, ?_⟩
  show parseAndTail _ left p = _
  rw [parseAndTail]
  rw [hpeek]
  show (parseGoal env n .unary p.bump >>= _) = _
  rw [hfirst]
  exact hsecond

theorem returns_andTail_juxtapose {left : Expr} {t : Tok} (hpeek : p.peek = some t)
    (ht : startsTerm t = true) (h : Returns env .unary p (e, q))
    (h' : Returns env (.andTail (.and left e)) q r) : Returns env (.andTail left) p r := by
  obtain ⟨n, hfirst, hsecond⟩ := h.both h'
  have hcall : (parseGoal env n .unary p >>= fun r => parseGoal env n (.andTail (.and left r.1)) r.2) =
      .ok r := by
    rw [hfirst]
    exact hsecond
  refine ⟨n + 1, ?_⟩
  show parseAndTail _ left p = _
  rw [parseAndTail]
  rw [hpeek]
  cases t <;> simp only [startsTerm, Bool.false_eq_true] at ht <;> exact hcall

theorem returns_andTail_stop {left : Expr} (h : EndsAnd p.toks) :
    Returns env (.andTail left) p (left, p) := by
  refine ⟨1, ?_⟩
  show parseAndTail _ left p = _
  rw [parseAndTail]
  rw [Parser.peek_eq]
  cases hhead : p.toks.head? with
  | none => rfl
  | some t =>
      rcases h t hhead with rfl | rfl <;> rfl

theorem returns_not (hpeek : p.peek = some .not) (h : Returns env .unary p.bump (e, q)) :
    Returns env .unary p (.not e, q) := by
  obtain ⟨n, hn⟩ := h
  refine ⟨n + 1, ?_⟩
  show parseUnary _ p = _
  rw [parseUnary]
  rw [hpeek]
  show (parseGoal env n .unary p.bump >>= _) = _
  rw [hn]
  rfl

theorem returns_one (hpeek : p.peek ≠ some .not) (h : Returns env .primary p r) :
    Returns env .unary p r := by
  obtain ⟨n, hn⟩ := h
  refine ⟨n + 1, ?_⟩
  show parseUnary _ p = _
  rw [parseUnary]
  split
  · exact absurd ‹_› hpeek
  · exact hn

theorem returns_paren (hpeek : p.peek = some .lparen) (h : Returns env .or p.bump (e, q))
    (hclose : q.peek = some .rparen) : Returns env .primary p (e, q.bump) := by
  obtain ⟨n, hn⟩ := h
  refine ⟨n + 1, ?_⟩
  show parsePrimary env _ p = _
  rw [parsePrimary]
  rw [hpeek]
  show (parseGoal env n .or p.bump >>= _) = _
  rw [hn]
  dsimp only [bind, Except.bind]
  rw [hclose]
  rfl

/-- A primary that calls no method. -/
theorem returns_primary (h : ∀ self, parsePrimary env self p = .ok r) : Returns env .primary p r :=
  ⟨1, h _⟩

theorem compile_eq {p : Parser} {pattern : Text} (h : env.regexError pattern = none) :
    p.compile env pattern = .ok pattern := by
  rw [Parser.compile]
  rw [h]

theorem parseOperand_eq {field : Field} {op : CmpOp} {raw : Text} {pos : Nat}
    (hnum : op.isOrdering = true → numberOf raw ≠ none)
    (hre : op.isRegex = true → env.regexError raw = none) :
    parseOperand env field op raw pos p = .ok (.cmp field op (Literal.plain op raw), p) := by
  have hcond : ¬(op.isOrdering = true ∧ numberOf raw = none) := fun h => hnum h.1 h.2
  have hregex : operandRegex env op raw p = .ok (Literal.plain op raw).regex := by
    rw [operandRegex, Literal.plain]
    cases hop : op.isRegex with
    | false => rfl
    | true =>
        rw [compile_eq (hre hop)]
        rfl
  rw [parseOperand]
  rw [parseNumber_eq]
  show (if _ then _ else _) = _
  rw [if_neg hcond, hregex]
  rfl

/-- The three tokens of a comparison. -/
theorem peeks_of_toks {name : Text} {op : CmpOp} {value : Tok} {us : List Tok}
    (h : p.toks = .word name :: .op op :: value :: us) :
    p.peek = some (.word name) ∧ p.bump.peek = some (.op op) ∧ p.bump.bump.peek = some value ∧
      p.bump.bump.bump.toks = us := by
  obtain ⟨hname, hrest⟩ := Parser.peek_of_toks h
  obtain ⟨hop, hrest⟩ := Parser.peek_of_toks hrest
  obtain ⟨hvalue, hrest⟩ := Parser.peek_of_toks hrest
  exact ⟨hname, hop, hvalue, hrest⟩

end Returns

/-- The parser takes the tokens and builds the tree, whatever may follow them at the level. A chain is
followed by what its loop does with the tree. -/
def Reads (env : QueryEnv) (level : Level) (ts : List Tok) (e : Expr) : Prop :=
  ∀ p us, Parser.toks p = ts ++ us →
    match level with
    | .or => EndsAnd us → ∃ q, Parser.toks q = us ∧ ∀ r, Returns env (.orTail e) q r → Returns env .or p r
    | .and => NoOp us → ∃ q, Parser.toks q = us ∧ ∀ r, Returns env (.andTail e) q r → Returns env .and p r
    | .unary => NoOp us → ∃ q, Parser.toks q = us ∧ Returns env .unary p (e, q)
    | .primary => NoOp us → ∃ q, Parser.toks q = us ∧ Returns env .primary p (e, q)

section Completeness

variable {env : QueryEnv} {allows : CmpOp → Bool} {ts us : List Tok} {e l r : Expr}

theorem Derives.head {level : Level} (h : Derives env allows level ts e) :
    ∃ t rest, ts = t :: rest ∧ startsTerm t = true := by
  have happend : ∀ {us vs : List Tok}, (∃ t rest, us = t :: rest ∧ startsTerm t = true) →
      ∃ t rest, us ++ vs = t :: rest ∧ startsTerm t = true := by
    rintro us vs ⟨t, rest, rfl, ht⟩
    exact ⟨t, rest ++ vs, rfl, ht⟩
  induction h with
  | orOne _ ih | andOne _ ih | one _ ih => exact ih
  | or _ _ ihl _ | and _ _ ihl _ | juxtapose _ _ ihl _ => exact happend ihl
  | not | paren | flag | text | quoted | regex | compare | compareRegex => exact ⟨_, _, rfl, rfl⟩

theorem noOp_of_startsTerm {t : Tok} (h : startsTerm t = true) : NoOp (t :: us) := by
  intro t' ht'
  obtain rfl := Option.some.inj ht'
  cases t <;> simp_all [startsTerm, Tok.isOp]

theorem reads_orOne (h : Reads env .and ts e) : Reads env .or ts e := by
  intro p us htoks hends
  obtain ⟨q, hq, hand⟩ := h p us htoks hends.noOp
  refine ⟨q, hq, fun x hx => ?_⟩
  have hstop : Returns env (.andTail e) q (e, q) := returns_andTail_stop (by rw [hq]; exact hends)
  exact returns_or (hand _ hstop) hx

theorem reads_or (hl : Reads env .or ts l) (hr : Reads env .and us r) :
    Reads env .or (ts ++ .or :: us) (.or l r) := by
  intro p vs htoks hends
  rw [List.append_assoc] at htoks
  obtain ⟨q, hq, hleft⟩ := hl p _ htoks (by intro t ht; exact .inl (Option.some.inj ht).symm)
  obtain ⟨hpeek, hbump⟩ := Parser.peek_of_toks hq
  obtain ⟨q', hq', hright⟩ := hr q.bump vs hbump hends.noOp
  have hstop : Returns env (.andTail r) q' (r, q') := returns_andTail_stop (by rw [hq']; exact hends)
  exact ⟨q', hq', fun x hx => hleft x (returns_orTail hpeek (hright _ hstop) hx)⟩

theorem reads_andOne (h : Reads env .unary ts e) : Reads env .and ts e := by
  intro p us htoks hnot
  obtain ⟨q, hq, hunary⟩ := h p us htoks hnot
  exact ⟨q, hq, fun x hx => returns_and hunary hx⟩

theorem reads_and (hl : Reads env .and ts l) (hr : Reads env .unary us r) :
    Reads env .and (ts ++ .and :: us) (.and l r) := by
  intro p vs htoks hnot
  rw [List.append_assoc] at htoks
  obtain ⟨q, hq, hleft⟩ := hl p _ htoks (by intro t ht; obtain rfl := Option.some.inj ht; rfl)
  obtain ⟨hpeek, hbump⟩ := Parser.peek_of_toks hq
  obtain ⟨q', hq', hright⟩ := hr q.bump vs hbump hnot
  exact ⟨q', hq', fun x hx => hleft x (returns_andTail hpeek hright hx)⟩

theorem reads_juxtapose (hl : Reads env .and ts l) (hr : Reads env .unary us r)
    (hhead : ∃ t rest, us = t :: rest ∧ startsTerm t = true) :
    Reads env .and (ts ++ us) (.and l r) := by
  obtain ⟨t, rest, rfl, ht⟩ := hhead
  intro p vs htoks hnot
  rw [List.append_assoc] at htoks
  obtain ⟨q, hq, hleft⟩ := hl p _ htoks (noOp_of_startsTerm ht)
  obtain ⟨hpeek, -⟩ := Parser.peek_of_toks hq
  obtain ⟨q', hq', hright⟩ := hr q vs hq hnot
  exact ⟨q', hq', fun x hx => hleft x (returns_andTail_juxtapose hpeek ht hright hx)⟩

theorem reads_not (h : Reads env .unary ts e) : Reads env .unary (.not :: ts) (.not e) := by
  intro p us htoks hnot
  obtain ⟨hpeek, hbump⟩ := Parser.peek_of_toks htoks
  obtain ⟨q, hq, hunary⟩ := h p.bump us hbump hnot
  exact ⟨q, hq, returns_not hpeek hunary⟩

theorem reads_one (h : Reads env .primary ts e) (hhead : ts.head? ≠ some .not) (hne : ts ≠ []) :
    Reads env .unary ts e := by
  intro p us htoks hnot
  obtain ⟨q, hq, hprimary⟩ := h p us htoks hnot
  have hpeek : p.peek ≠ some .not := by
    rw [Parser.peek_eq, htoks, List.head?_append_of_ne_nil _ hne]
    exact hhead
  exact ⟨q, hq, returns_one hpeek hprimary⟩

theorem reads_paren (h : Reads env .or ts e) : Reads env .primary (.lparen :: (ts ++ [.rparen])) e := by
  intro p us htoks hnot
  rw [List.cons_append, List.append_assoc] at htoks
  obtain ⟨hpeek, hbump⟩ := Parser.peek_of_toks htoks
  have hends : EndsAnd ([.rparen] ++ us) := by
    intro t ht
    exact .inr (Option.some.inj ht).symm
  obtain ⟨q, hq, hor⟩ := h p.bump _ hbump hends
  obtain ⟨hclose, hrest⟩ := Parser.peek_of_toks hq
  have hstop : Returns env (.orTail e) q (e, q) := returns_orTail_stop (by rw [hclose]; simp)
  exact ⟨q.bump, hrest, returns_paren hpeek (hor _ hstop) hclose⟩

theorem reads_word (w : Text) : Reads env .primary [.word w] (wordExpr env w) := by
  intro p us htoks hnot
  obtain ⟨hpeek, hbump⟩ := Parser.peek_of_toks htoks
  refine ⟨p.bump, hbump, returns_primary fun self => ?_⟩
  rw [parsePrimary]
  rw [hpeek]
  dsimp only
  split
  · rename_i op hop
    rw [Parser.peek2_eq, htoks] at hop
    exact absurd (hnot _ hop) (by simp [Tok.isOp])
  · rfl

theorem reads_quoted (s : Text) : Reads env .primary [.str s] (.freeText (env.toLowercase s)) := by
  intro p us htoks hnot
  obtain ⟨hpeek, hbump⟩ := Parser.peek_of_toks htoks
  refine ⟨p.bump, hbump, returns_primary fun self => ?_⟩
  rw [parsePrimary]
  rw [hpeek]

theorem reads_regex {pattern : Text} (hre : env.regexError pattern = none) :
    Reads env .primary [.regex pattern] (.freeRegex pattern) := by
  intro p us htoks hnot
  obtain ⟨hpeek, hbump⟩ := Parser.peek_of_toks htoks
  refine ⟨p.bump, hbump, returns_primary fun self => ?_⟩
  rw [parsePrimary]
  rw [hpeek]
  show (p.bump.compile env pattern >>= _) = _
  rw [compile_eq hre]
  rfl

/-- A word before an operator begins a comparison. -/
theorem reads_comparison {name : Text} {op : CmpOp} {value : Tok}
    (h : ∀ p us, Parser.toks p = .word name :: .op op :: value :: us →
      parseComparison env p = .ok (e, p.bump.bump.bump)) :
    Reads env .primary [.word name, .op op, value] e := by
  intro p us htoks hnot
  obtain ⟨hname, hop, -, hrest⟩ := peeks_of_toks htoks
  refine ⟨p.bump.bump.bump, hrest, returns_primary fun self => ?_⟩
  have hpeek2 : p.peek2 = some (.op op) := by
    rw [Parser.peek2_eq, htoks]
    rfl
  rw [parsePrimary]
  rw [hname]
  dsimp only
  rw [hpeek2]
  exact h p us htoks

theorem reads_compare {name raw : Text} {op : CmpOp} {value : Tok}
    (hvalue : value = .word raw ∨ value = .str raw) (hnum : op.isOrdering = true → numberOf raw ≠ none)
    (hre : op.isRegex = true → env.regexError raw = none) :
    Reads env .primary [.word name, .op op, value]
      (.cmp (Field.resolve name) op (Literal.plain op raw)) := by
  apply reads_comparison
  intro p us htoks
  obtain ⟨hname, hop, hpeek, -⟩ := peeks_of_toks htoks
  rw [parseComparison]
  rw [hname]
  dsimp only
  rw [hop]
  dsimp only
  rw [hpeek]
  rcases hvalue with rfl | rfl
  · exact parseOperand_eq hnum hre
  · exact parseOperand_eq hnum hre

theorem reads_compareRegex {name pattern : Text} {op : CmpOp} (hre : env.regexError pattern = none) :
    Reads env .primary [.word name, .op op, .regex pattern]
      (.cmp (Field.resolve name) op.withRegex ⟨pattern, none, some pattern⟩) := by
  apply reads_comparison
  intro p us htoks
  obtain ⟨hname, hop, hpeek, -⟩ := peeks_of_toks htoks
  rw [parseComparison]
  rw [hname]
  dsimp only
  rw [hop]
  dsimp only
  rw [hpeek]
  dsimp only
  rw [compile_eq hre]
  rfl

theorem Derives.head_primary (h : Derives env allows .primary ts e) : ts.head? ≠ some .not ∧ ts ≠ [] := by
  cases h <;> simp

/-- The parser follows a derivation. -/
theorem reads_of_derives {level : Level} (h : Derives env allows level ts e) : Reads env level ts e := by
  induction h with
  | orOne _ ih => exact reads_orOne ih
  | or _ _ ihl ihr => exact reads_or ihl ihr
  | andOne _ ih => exact reads_andOne ih
  | and _ _ ihl ihr => exact reads_and ihl ihr
  | juxtapose _ hr ihl ihr => exact reads_juxtapose ihl ihr hr.head
  | not _ ih => exact reads_not ih
  | one hprimary ih => exact reads_one ih hprimary.head_primary.1 hprimary.head_primary.2
  | paren _ ih => exact reads_paren ih
  | @flag w f hw =>
      have hword : wordExpr env w = .flag f := by rw [wordExpr_eq, hw]
      rw [← hword]
      exact reads_word w
  | @text w hw =>
      have hword : wordExpr env w = .freeText (env.toLowercase w) := by rw [wordExpr_eq, hw]
      rw [← hword]
      exact reads_word w
  | quoted => exact reads_quoted _
  | regex hre => exact reads_regex hre
  | compare hv hnum hre => exact reads_compare hv hnum hre
  | compareRegex _ hre => exact reads_compareRegex hre

end Completeness

/-! ## The parser and the grammar -/

/-- The parser returns a tree exactly if the tokens derive it, with any operator before a regex literal. -/
theorem parseTokens_ok_iff (env : QueryEnv) (inputLen : Nat) (toks : List (Tok × Nat)) (e : Expr) :
    parseTokens env inputLen toks = .ok e ↔ Derives env anyOp .or (toks.map Prod.fst) e := by
  constructor
  · intro h
    rw [parseTokens] at h
    split at h
    · cases h
    · obtain ⟨⟨root, q⟩, hroot, h⟩ := bind_ok h
      obtain ⟨ts, hts, hderives⟩ := sound_parseGoal env _ _ _ _ _ hroot
      dsimp only at h
      split at h
      · rename_i hrest
        obtain rfl := Except.ok.inj h
        have hnil : q.toks = [] := by
          rw [Parser.toks]
          rw [hrest]
          rfl
        rw [hnil, List.append_nil] at hts
        have hall : toks.map Prod.fst = ts := hts
        rw [hall]
        exact hderives
      · cases h
  · intro h
    have hends : EndsAnd [] := by
      intro t ht
      cases ht
    -- the derivation is read to its end, where no `OR` goes on
    obtain ⟨q, hq, hor⟩ := reads_of_derives h ⟨0, toks, inputLen⟩ [] (List.append_nil _).symm hends
    have hpeek : q.peek ≠ some .or := by
      rw [Parser.peek_eq, hq]
      simp
    have hreturns : Returns env .or ⟨0, toks, inputLen⟩ (e, q) := hor (e, q) (returns_orTail_stop hpeek)
    have hcall := hreturns.tokens
    have hrest : q.rest = [] := List.map_eq_nil_iff.1 hq
    have hne : toks ≠ [] := by
      rintro rfl
      obtain ⟨t, rest, hnil, -⟩ := h.head
      cases hnil
    rw [parseTokens]
    rw [if_neg hne, hcall]
    show (if q.rest = [] then _ else _) = _
    rw [if_pos hrest]
    rfl

theorem Derives.unique {env : QueryEnv} {allows : CmpOp → Bool} {ts : List Tok} {e e' : Expr}
    (h : Derives env allows .or ts e) (h' : Derives env allows .or ts e') : e = e' := by
  have hparse : ∀ x, Derives env allows .or ts x → parseTokens env 0 (ts.map fun t => (t, 0)) = .ok x := by
    intro x hx
    rw [parseTokens_ok_iff, List.map_map]
    have hid : (Prod.fst ∘ fun t : Tok => (t, 0)) = id := rfl
    rw [hid, List.map_id]
    exact hx.mono fun _ _ => rfl
  have heq := (hparse e h).symm.trans (hparse e' h')
  exact Except.ok.inj heq

end Pktflow.View

import Pktflow.View.Lexer

/-!
# The parser returns

The methods of the descent return, with fuel for every token, an expression and fewer tokens, or an error
at a position of the input (`parseGoal_descends`). With the lexer's half this says when a query is answered
at all (`parse_answers_iff`).
-/

set_option autoImplicit false

namespace Pktflow.View

open Pktflow.Lib Pktflow.Lib.Text

/-! ## Numbers -/

/-- `parse_number` without its slices. -/
def numberOf (raw : Text) : Option (Rat × Text) :=
  if raw.takeWhile isMagnitude = [] then none
  else (parseF64 (raw.takeWhile isMagnitude)).bind fun mag =>
    if (raw.dropWhile isMagnitude).all Char.isAlpha then some (mag, raw.dropWhile isMagnitude) else none

/-- The slices of `parse_number` end between characters. -/
theorem parseNumber_eq (raw : Text) : parseNumber raw = .ok (numberOf raw) := by
  obtain ⟨u, hu⟩ : ∃ u, u = raw.takeWhile isMagnitude := ⟨_, rfl⟩
  obtain ⟨v, hv⟩ : ∃ v, v = raw.dropWhile isMagnitude := ⟨_, rfl⟩
  have hraw : raw = u ++ v := by rw [hu, hv, List.takeWhile_append_dropWhile]
  have hfront : sliceText raw 0 (size u) = .ok u := by
    have happend := slice_append [] u v
    simp only [List.nil_append, size_nil, Nat.zero_add] at happend
    rw [sliceText]
    rw [hraw, happend]
  have hback : sliceText raw (size u) (size raw) = .ok v := by
    have happend := slice_append u v []
    simp only [List.append_nil] at happend
    rw [sliceText]
    rw [hraw, size_append, happend]
  unfold parseNumber numberOf
  rw [← hu, ← hv]
  dsimp only
  by_cases hnil : u = []
  · subst hnil
    rfl
  · have hsize : size u ≠ 0 := fun h => hnil (size_eq_zero h)
    rw [if_neg hsize, if_neg hnil, hfront]
    cases hmag : parseF64 u with
    | none => simp [bind, Except.bind, hmag, pure, Except.pure]
    | some mag =>
        rw [hback]
        simp only [bind, Except.bind, hmag, pure, Except.pure, Option.bind_some]
        split <;> rfl

/-! ## Parser states -/

namespace Parser

/-- The positions a state can report are at most the bound. -/
structure InBounds (b : Nat) (p : Parser) : Prop where
  last : p.last ≤ b
  rest : Within b p.rest
  inputLen : p.inputLen ≤ b

theorem rest_of_peek {p : Parser} {t : Tok} (h : p.peek = some t) :
    ∃ pos rest, p.rest = (t, pos) :: rest := by
  rw [peek] at h
  cases hrest : p.rest with
  | nil => simp [hrest] at h
  | cons e rest =>
      rw [hrest] at h
      obtain rfl := Option.some.inj h
      exact ⟨e.2, rest, rfl⟩

theorem bump_of_rest {p : Parser} {t : Tok} {pos : Nat} {rest : List (Tok × Nat)}
    (h : p.rest = (t, pos) :: rest) : p.bump = ⟨pos, rest, p.inputLen⟩ := by
  rw [bump]
  rw [h]

theorem length_bump_le (p : Parser) : p.bump.rest.length ≤ p.rest.length := by
  rw [bump]
  cases h : p.rest with
  | nil => simp [h]
  | cons t rest => simp

theorem length_bump {p : Parser} {t : Tok} (h : p.peek = some t) :
    p.bump.rest.length + 1 = p.rest.length := by
  obtain ⟨pos, rest, hrest⟩ := rest_of_peek h
  rw [bump_of_rest hrest, hrest]
  rfl

theorem InBounds.bump {b : Nat} {p : Parser} (h : p.InBounds b) : p.bump.InBounds b := by
  cases hrest : p.rest with
  | nil =>
      have hbump : p.bump = p := by
        rw [Parser.bump]
        rw [hrest]
      rw [hbump]
      exact h
  | cons t rest =>
      rw [bump_of_rest (p := p) (t := t.1) hrest]
      refine ⟨?_, ?_, h.inputLen⟩
      · exact h.rest t (by rw [hrest]; exact List.mem_cons_self)
      · intro e he
        exact h.rest e (by rw [hrest]; exact List.mem_cons_of_mem _ he)

theorem InBounds.pos_le {b : Nat} {p : Parser} (h : p.InBounds b) : p.pos ≤ b := by
  rw [pos]
  cases hrest : p.rest with
  | nil => exact h.inputLen
  | cons t rest => exact h.rest t (by rw [hrest]; exact List.mem_cons_self)

end Parser

/-! ## The descent -/

/-- The methods take a term, the loops may take none. -/
def Goal.takes : Goal → Bool
  | .or | .and | .unary | .primary => true
  | .orTail _ | .andTail _ => false

/-- The fuel a method needs for the tokens that are left. -/
def Goal.need : Goal → Nat → Nat
  | .or, n => 4 * n + 4
  | .orTail _, n => 4 * n + 1
  | .and, n => 4 * n + 3
  | .andTail _, n => 4 * n + 3
  | .unary, n => 4 * n + 2
  | .primary, n => 4 * n + 1

/-- The state after a method that has succeeded. -/
structure Leaves (b : Nat) (g : Goal) (p q : Parser) : Prop where
  bounds : q.InBounds b
  le : q.rest.length ≤ p.rest.length
  lt : g.takes = true → q.rest.length < p.rest.length

/-- The outcome of a method: a later state, or an error in bounds. -/
def Descends (b : Nat) (g : Goal) (p : Parser) : Except Failure (Expr × Parser) → Prop
  | .ok r => Leaves b g p r.2
  | .error (.query e) => e.position ≤ b
  | .error _ => False

section Descent

variable {b : Nat} {g g' : Goal} {p p' q : Parser} {r : Except Failure (Expr × Parser)}

/-- An error does not depend on the state. -/
theorem Descends.mono (h : Descends b g' p' r) (hleaves : ∀ q, Leaves b g' p' q → Leaves b g p q) :
    Descends b g p r := by
  cases r with
  | ok x => exact hleaves x.2 h
  | error e =>
      cases e with
      | query e => exact h
      | panic => exact h
      | fuel => exact h

/-- A call in the middle of a method. -/
theorem Descends.bind {k : Expr × Parser → Except Failure (Expr × Parser)} (h : Descends b g' p' r)
    (hk : ∀ e q, Leaves b g' p' q → Descends b g p (k (e, q))) : Descends b g p (r >>= k) := by
  cases r with
  | ok x => exact hk x.1 x.2 h
  | error e =>
      cases e with
      | query e => exact h
      | panic => exact h
      | fuel => exact h

theorem descends_compile {env : QueryEnv} {pattern : Text} {k : Text → Except Failure (Expr × Parser)}
    (hp' : p'.InBounds b) (hk : Descends b g p (k pattern)) :
    Descends b g p (p'.compile env pattern >>= k) := by
  rw [Parser.compile]
  cases env.regexError pattern with
  | none => exact hk
  | some e => exact hp'.last

theorem descends_err (hp' : p'.InBounds b) (message : String) : Descends b g p (.error (p'.err message)) :=
  hp'.pos_le

theorem leaves_bump (hp : p.InBounds b) {t : Tok} (h : p.peek = some t) : Leaves b g p p.bump where
  bounds := hp.bump
  le := p.length_bump_le
  lt := fun _ => by
    have := Parser.length_bump h
    omega

theorem Leaves.trans (h : Leaves b g p p') (hq : q.InBounds b) (hle : q.rest.length ≤ p'.rest.length) :
    Leaves b g p q where
  bounds := hq
  le := Nat.le_trans hle h.le
  lt := fun ht => Nat.lt_of_le_of_lt hle (h.lt ht)

theorem Leaves.bump (h : Leaves b g p q) : Leaves b g p q.bump := h.trans h.bounds.bump q.length_bump_le

/-- A call that takes a term, from a state not before this one. -/
theorem Leaves.later (h : Leaves b g' p' q) (ht : g'.takes = true)
    (hle : p'.rest.length ≤ p.rest.length) : Leaves b g p q where
  bounds := h.bounds
  le := Nat.le_trans h.le hle
  lt := fun _ => Nat.lt_of_lt_of_le (h.lt ht) hle

/-- The end of a comparison. -/
theorem descends_operand {env : QueryEnv} {field : Field} {op : CmpOp} {raw : Text} {valuePos : Nat}
    (hpos : valuePos ≤ b) (hleaves : Leaves b g p p') :
    Descends b g p (parseOperand env field op raw valuePos p') := by
  rw [parseOperand]
  rw [parseNumber_eq]
  show Descends b g p (if _ then _ else _)
  split
  · exact hpos
  · rw [operandRegex]
    split
    · rw [Parser.compile]
      cases env.regexError raw with
      | none => exact hleaves
      | some e => exact hleaves.bounds.last
    · exact hleaves

theorem descends_comparison {env : QueryEnv} (hp : p.InBounds b) :
    Descends b g p (parseComparison env p) := by
  rw [parseComparison]
  cases hname : p.peek with
  | none => exact descends_err hp.bump _
  | some t =>
      have hvalue : Leaves b g p p.bump.bump.bump := (leaves_bump hp hname).bump.bump
      have hpos : p.bump.bump.pos ≤ b := hp.bump.bump.pos_le
      split
      · split
        · dsimp only
          split
          · exact descends_operand hpos hvalue
          · exact descends_operand hpos hvalue
          · exact descends_compile hp.bump.bump.bump hvalue
          · exact hpos
        · exact descends_err hp.bump.bump _
      · exact descends_err hp.bump _

/-- The methods with some fuel, for the calls among them. -/
def Safe (b : Nat) (self : Methods) (n : Nat) : Prop :=
  ∀ g p, Parser.InBounds b p → g.need p.rest.length ≤ n → Descends b g p (self g p)

variable {self : Methods} {n : Nat} {env : QueryEnv}

/-- A term, and the rest of the loop after it. -/
theorem descends_then (left : Expr → Goal) (h : Safe b self n) (hp' : p'.InBounds b)
    (ht : g'.takes = true) (hle : p'.rest.length ≤ p.rest.length) (hn : g'.need p'.rest.length ≤ n)
    (hleft : ∀ e m, m < p'.rest.length → (left e).need m ≤ n) :
    Descends b g p (self g' p' >>= fun r => self (left r.1) r.2) := by
  apply (h g' p' hp' hn).bind
  intro e q hq
  have hcall : Descends b (left e) q (self (left e) q) := h (left e) q hq.bounds (hleft e _ (hq.lt ht))
  exact hcall.mono fun x hx => (hq.later ht hle).trans hx.bounds hx.le

theorem descends_or (h : Safe b self n) (hp : p.InBounds b)
    (hn : Goal.need .or p.rest.length ≤ n + 1) : Descends b .or p (parseOr self p) := by
  simp only [Goal.need] at hn
  refine descends_then .orTail h hp rfl (Nat.le_refl _) ?_ ?_
  · simp only [Goal.need]
    omega
  · intro e m hm
    simp only [Goal.need]
    omega

theorem descends_orTail {left : Expr} (h : Safe b self n) (hp : p.InBounds b)
    (hn : (Goal.orTail left).need p.rest.length ≤ n + 1) :
    Descends b (.orTail left) p (parseOrTail self left p) := by
  simp only [Goal.need] at hn
  rw [parseOrTail]
  split
  · rename_i hpeek
    have hlt := Parser.length_bump hpeek
    refine descends_then (fun right => .orTail (.or left right)) h hp.bump rfl p.length_bump_le ?_ ?_
    · simp only [Goal.need]
      omega
    · intro e m hm
      simp only [Goal.need]
      omega
  · exact ⟨hp, Nat.le_refl _, fun ht => by simp [Goal.takes] at ht⟩

theorem descends_and (h : Safe b self n) (hp : p.InBounds b)
    (hn : Goal.need .and p.rest.length ≤ n + 1) : Descends b .and p (parseAnd self p) := by
  simp only [Goal.need] at hn
  refine descends_then .andTail h hp rfl (Nat.le_refl _) ?_ ?_
  · simp only [Goal.need]
    omega
  · intro e m hm
    simp only [Goal.need]
    omega

theorem descends_andTail {left : Expr} (h : Safe b self n) (hp : p.InBounds b)
    (hn : (Goal.andTail left).need p.rest.length ≤ n + 1) :
    Descends b (.andTail left) p (parseAndTail self left p) := by
  simp only [Goal.need] at hn
  have hdone : Descends b (.andTail left) p (.ok (left, p)) :=
    ⟨hp, Nat.le_refl _, fun ht => by simp [Goal.takes] at ht⟩
  -- a further term, after `AND` or at once
  have hnext : ∀ p' : Parser, p'.InBounds b → p'.rest.length ≤ p.rest.length →
      Descends b (.andTail left) p (self .unary p' >>= fun r => self (.andTail (.and left r.1)) r.2) := by
    intro p' hp' hle
    refine descends_then (fun right => .andTail (.and left right)) h hp' rfl hle ?_ ?_
    · simp only [Goal.need]
      omega
    · intro e m hm
      simp only [Goal.need]
      omega
  rw [parseAndTail]
  dsimp only
  split
  · exact hnext p.bump hp.bump p.length_bump_le
  · split
    · exact hnext p hp (Nat.le_refl _)
    · exact hdone
  · exact hdone

theorem descends_unary (h : Safe b self n) (hp : p.InBounds b)
    (hn : Goal.need .unary p.rest.length ≤ n + 1) : Descends b .unary p (parseUnary self p) := by
  simp only [Goal.need] at hn
  rw [parseUnary]
  split
  · rename_i hpeek
    have hlt := Parser.length_bump hpeek
    have hcall : Descends b .unary p.bump (self .unary p.bump) :=
      h .unary p.bump hp.bump (by simp only [Goal.need]; omega)
    apply hcall.bind
    intro e q hq
    exact hq.later rfl p.length_bump_le
  · have hcall : Descends b .primary p (self .primary p) := h .primary p hp (by simp only [Goal.need]; omega)
    exact hcall.mono fun q hq => hq.later rfl (Nat.le_refl _)

theorem descends_primary (h : Safe b self n) (hp : p.InBounds b)
    (hn : Goal.need .primary p.rest.length ≤ n + 1) :
    Descends b .primary p (parsePrimary env self p) := by
  simp only [Goal.need] at hn
  rw [parsePrimary]
  split
  · rename_i hpeek
    have hlt := Parser.length_bump hpeek
    have hcall : Descends b .or p.bump (self .or p.bump) :=
      h .or p.bump hp.bump (by simp only [Goal.need]; omega)
    apply hcall.bind
    intro inner q hq
    have hleaves : Leaves b .primary p q := hq.later rfl p.length_bump_le
    dsimp only
    split
    · exact hleaves.bump
    · exact descends_err hq.bounds.bump _
  · rename_i hpeek
    exact descends_compile hp.bump (leaves_bump hp hpeek)
  · rename_i hpeek
    exact leaves_bump hp hpeek
  · rename_i hpeek
    split
    · exact descends_comparison hp
    · exact leaves_bump hp hpeek
  all_goals exact descends_err hp _

/-- With its fuel each method returns. -/
theorem parseGoal_descends (env : QueryEnv) (b n : Nat) : Safe b (parseGoal env n) n := by
  induction n with
  | zero =>
      intro g p hp hn
      cases g <;> simp [Goal.need] at hn
  | succ n ih =>
      intro g p hp hn
      cases g with
      | or => exact descends_or ih hp hn
      | orTail left => exact descends_orTail ih hp hn
      | and => exact descends_and ih hp hn
      | andTail left => exact descends_andTail ih hp hn
      | unary => exact descends_unary ih hp hn
      | primary => exact descends_primary ih hp hn

/-- The call of `parse_or` on all tokens. -/
theorem parseGoal_tokens (env : QueryEnv) {inputLen : Nat} {toks : List (Tok × Nat)} (h : Within b toks)
    (hlen : inputLen ≤ b) :
    Descends b .or ⟨0, toks, inputLen⟩ (parseGoal env (4 * toks.length + 4) .or ⟨0, toks, inputLen⟩) :=
  parseGoal_descends env b _ .or _ ⟨Nat.zero_le _, h, hlen⟩ (Nat.le_refl _)

end Descent

/-! ## Queries -/

/-- The outcome of a parse of an input of so many bytes: a tree, or an error at a position of the input. -/
def Answers (inputLen : Nat) : Except Failure Expr → Prop
  | .ok _ => True
  | .error (.query e) => e.position ≤ inputLen
  | .error _ => False

/-- The parser answers on all tokens. -/
theorem parseTokens_answers (env : QueryEnv) {inputLen : Nat} {toks : List (Tok × Nat)}
    (h : Within inputLen toks) : Answers inputLen (parseTokens env inputLen toks) := by
  rw [parseTokens]
  split
  · exact Nat.zero_le _
  · have hcall := parseGoal_tokens env h (Nat.le_refl inputLen)
    cases hr : parseGoal env (4 * toks.length + 4) .or ⟨0, toks, inputLen⟩ with
    | error e =>
        rw [hr] at hcall
        cases e with
        | query e => exact hcall
        | panic => exact hcall
        | fuel => exact hcall
    | ok r =>
        rw [hr] at hcall
        have hleaves : Leaves inputLen .or ⟨0, toks, inputLen⟩ r.2 := hcall
        show Answers inputLen (if _ then _ else _)
        split
        · trivial
        · exact hleaves.bounds.pos_le

/-- A bare word that is cut inside a character ends the parse. -/
theorem parseQuery_panics (env : QueryEnv) {input : Text} (h : ¬Clean .between input) :
    parseQuery env input = .error .panic := by
  rw [parseQuery]
  rw [(lexesTo_lex input).2 h]
  rfl

theorem parseQuery_answers (env : QueryEnv) {input : Text} (h : Clean .between input) :
    Answers input.size (parseQuery env input) := by
  have hlexed := (lexesTo_lex input).1 h
  rw [parseQuery]
  cases hlex : lex input with
  | ok toks =>
      rw [hlex] at hlexed
      exact parseTokens_answers env hlexed
  | error e =>
      rw [hlex] at hlexed
      cases e with
      | query e => exact hlexed
      | panic => exact hlexed
      | fuel => exact hlexed

/-- A query is answered exactly if no character of a bare word has a byte that is read as white space. -/
theorem parse_answers_iff (env : QueryEnv) (input : Text) :
    Answers input.size (parseQuery env input) ↔ Clean .between input := by
  constructor
  · intro h
    by_contra hdirty
    rw [parseQuery_panics env hdirty] at h
    exact h
  · intro h
    exact parseQuery_answers env h

/-- The letter `à` alone, bytes `0xC3 0xA0`: the word ends before its second byte. -/
theorem parse_panics_inside_char :
    parseQuery ⟨toAsciiLowercase, fun _ => none⟩ [Char.ofNat 0xE0] = .error .panic ∧
      ¬Answers 2 (parseQuery ⟨toAsciiLowercase, fun _ => none⟩ [Char.ofNat 0xE0]) := by
  have hpanic : parseQuery ⟨toAsciiLowercase, fun _ => none⟩ [Char.ofNat 0xE0] = .error .panic := by
    decide +kernel
  refine ⟨hpanic, ?_⟩
  rw [hpanic]
  exact id

end Pktflow.View

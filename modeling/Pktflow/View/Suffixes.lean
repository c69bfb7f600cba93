import Pktflow.View.Index
import Pktflow.View.Printing

/-!
# Numbers with suffixes

Model of `Field::suffix_scale` and `compare` (`query.rs`). A number is split from its suffix when the query is
parsed, and the suffix is looked up for the field when the query is evaluated; one that the field does not know
makes the comparison false on every candidate. The comparisons of a parsed query are those that stand in its
tokens (`mem_leaves_iff`), so it compares numbers throughout exactly if each suffix written in it is one of its
field (`comparesNumbers_iff`).
-/

set_option autoImplicit false

namespace Pktflow.View

open Pktflow.Lib

/-- The suffixes of a duration, in seconds. -/
def durationScales : List (List String × Rat) := [(["ms"], 1 / 1000), (["s"], 1), (["m"], 60), (["h"], 3600)]

/-- The suffixes of any other field. -/
def sizeScales : List (List String × Rat) :=
  [(["k", "kb"], 10 ^ 3), (["m", "mb"], 10 ^ 6), (["g", "gb"], 10 ^ 9), (["t", "tb"], 10 ^ 12)]

/-- The suffixes that a field scales. -/
def Field.scales (field : Field) : List (List String × Rat) :=
  if field = .duration then durationScales else sizeScales

/-- `Field::suffix_scale`. -/
def Field.suffixScale (field : Field) (suffix : Text) : Option Rat :=
  let s := toAsciiLowercase suffix
  if s = [] then some 1 else (field.scales.find? fun e => isOneOf s e.1).map Prod.snd

/-- `Candidate`. -/
structure FieldCandidate where
  text : Text
  number : Option Rat

/-- The comparison of two numbers that an ordering operator stands for. -/
def CmpOp.holds (op : CmpOp) (lhs rhs : Rat) : Bool :=
  match op with
  | .gt => rhs < lhs
  | .ge => rhs ≤ lhs
  | .lt => lhs < rhs
  | .le => lhs ≤ rhs
  | _ => false

/-- The number of a literal, as the field scales it; `round` is the rounding of `f64`. -/
def Literal.scaled (round : Rat → Rat) (value : Literal) (field : Field) : Option Rat :=
  value.number.bind fun number => (field.suffixScale number.2).map fun scale => round (round number.1 * round scale)

/-- `compare`. -/
def compare (env : QueryEnv) (reMatch : Text → Text → Bool) (round : Rat → Rat) (c : FieldCandidate) (op : CmpOp)
    (value : Literal) (field : Field) : Bool :=
  let rhsNum := value.scaled round field
  let equal := match c.number, rhsNum with
    | some lhs, some rhs => lhs == rhs
    | _, _ => toAsciiLowercase c.text == toAsciiLowercase value.raw
  let matched := match value.regex with
    | some re => reMatch re c.text
    | none => false
  match op with
  | .gt | .ge | .lt | .le =>
      match c.number, rhsNum with
      | some lhs, some rhs => op.holds lhs rhs
      | _, _ => false
  | .eq => equal
  | .ne => !equal
  | .contains => containsText (env.toLowercase c.text) (env.toLowercase value.raw)
  | .re => matched
  | .notRe => !matched

/-- Every ordering comparison of the query has a value that its field scales, and compares it with the number of
a candidate that has one. -/
def ComparesNumbers (env : QueryEnv) (reMatch : Text → Text → Bool) (round : Rat → Rat) (e : Expr) : Prop :=
  ∀ field op value, Expr.cmp field op value ∈ e.leaves → op.isOrdering = true →
    ∃ mag suffix scale, value.number = some (mag, suffix) ∧ field.suffixScale suffix = some scale ∧
      ∀ c lhs, FieldCandidate.number c = some lhs →
        compare env reMatch round c op value field = op.holds lhs (round (round mag * round scale))

/-! ## What is written -/

/-- A field, an operator and a value stand in a row. -/
def Stands (ts : List Tok) (name : Text) (op : CmpOp) (raw : Text) : Prop :=
  ∃ i, ts[i]? = some (.word name) ∧ ts[i + 1]? = some (.op op) ∧
    (ts[i + 2]? = some (.word raw) ∨ ts[i + 2]? = some (.str raw))

/-- The letters behind the number: nothing, or a suffix of the field in either case of letters. -/
def knownSuffix (field : Field) (suffix : Text) : Bool :=
  suffix.isEmpty || (field.scales.flatMap Prod.fst).any fun s => s.toList == toAsciiLowercase suffix

/-- Every number that is compared in these tokens has a suffix that its field knows. -/
def SuffixesKnown (ts : List Tok) : Prop :=
  ∀ name op raw, op.isOrdering = true → Stands ts name op raw →
    knownSuffix (Field.resolve name) (raw.dropWhile isMagnitude) = true

section Rows

variable {ts us : List Tok} {name raw : Text} {op : CmpOp}

theorem Stands.append_left (h : Stands ts name op raw) (us : List Tok) : Stands (ts ++ us) name op raw := by
  obtain ⟨i, h₀, h₁, h₂⟩ := h
  have hle : ∀ {j : Nat} {t : Tok}, ts[j]? = some t → (ts ++ us)[j]? = some t := by
    intro j t hj
    obtain ⟨hlt, -⟩ := List.getElem?_eq_some_iff.1 hj
    rw [List.getElem?_append_left hlt]
    exact hj
  exact ⟨i, hle h₀, hle h₁, h₂.imp hle hle⟩

theorem Stands.append_right (h : Stands us name op raw) (ts : List Tok) : Stands (ts ++ us) name op raw := by
  obtain ⟨i, h₀, h₁, h₂⟩ := h
  have hge : ∀ j : Nat, (ts ++ us)[ts.length + j]? = us[j]? := by
    intro j
    rw [List.getElem?_append_right (Nat.le_add_right _ _), Nat.add_sub_cancel_left]
  refine ⟨ts.length + i, ?_, ?_, ?_⟩
  · rw [hge]
    exact h₀
  · rw [Nat.add_assoc, hge]
    exact h₁
  · rw [Nat.add_assoc, hge]
    exact h₂

/-- A row in two lists put together is in one of them, unless the first ends with its operator or the second
begins with it. -/
theorem stands_append_cases (h : Stands (ts ++ us) name op raw) :
    Stands ts name op raw ∨ Stands us name op raw ∨ ts.getLast? = some (.op op) ∨ us.head? = some (.op op) := by
  obtain ⟨i, h₀, h₁, h₂⟩ := h
  rw [List.getElem?_append] at h₀ h₁ h₂
  rcases Nat.lt_trichotomy (i + 1) ts.length with hlt | heq | hgt
  · -- the operator is in the first list, and the value is there too or the operator is its last
    rw [if_pos (by omega)] at h₀ h₁
    by_cases hall : i + 2 < ts.length
    · rw [if_pos hall] at h₂
      exact .inl ⟨i, h₀, h₁, h₂⟩
    · have hlast : ts.length - 1 = i + 1 := by omega
      exact .inr (.inr (.inl (by rw [List.getLast?_eq_getElem?, hlast]; exact h₁)))
  · -- the operator begins the second list
    rw [if_neg (by omega), ← heq, Nat.sub_self] at h₁
    exact .inr (.inr (.inr (by rw [List.head?_eq_getElem?]; exact h₁)))
  · rw [if_neg (by omega)] at h₀ h₁ h₂
    right
    left
    refine ⟨i - ts.length, h₀, ?_, ?_⟩
    · rw [show i - ts.length + 1 = i + 1 - ts.length by omega]
      exact h₁
    · rw [show i - ts.length + 2 = i + 2 - ts.length by omega]
      exact h₂

/-- A row does not begin with another token. -/
theorem Stands.of_cons {t : Tok} (h : Stands (t :: us) name op raw) (hword : ∀ w, t ≠ .word w) :
    Stands us name op raw := by
  obtain ⟨i, h₀, h₁, h₂⟩ := h
  cases i with
  | zero => exact absurd (Option.some.inj h₀) (hword name)
  | succ i => exact ⟨i, h₀, h₁, h₂⟩

theorem Stands.length_le (h : Stands ts name op raw) : 3 ≤ ts.length := by
  obtain ⟨i, -, -, h₂ | h₂⟩ := h
  · obtain ⟨hlt, -⟩ := List.getElem?_eq_some_iff.1 h₂
    omega
  · obtain ⟨hlt, -⟩ := List.getElem?_eq_some_iff.1 h₂
    omega

/-- The row in three tokens. -/
theorem stands_three {name' : Text} {op' : CmpOp} {value : Tok} (h : Stands [.word name', .op op', value] name op raw) :
    name' = name ∧ op' = op ∧ (value = .word raw ∨ value = .str raw) := by
  have hlen := h.length_le
  obtain ⟨i, h₀, h₁, h₂⟩ := h
  have hi : i = 0 := by
    rcases h₂ with h₂ | h₂
    · obtain ⟨hlt, -⟩ := List.getElem?_eq_some_iff.1 h₂
      simp only [List.length_cons, List.length_nil] at hlt
      omega
    · obtain ⟨hlt, -⟩ := List.getElem?_eq_some_iff.1 h₂
      simp only [List.length_cons, List.length_nil] at hlt
      omega
  subst hi
  refine ⟨?_, ?_, ?_⟩
  · injection Option.some.inj h₀
  · injection Option.some.inj h₁
  · exact h₂.imp Option.some.inj Option.some.inj

end Rows

/-! ## The comparisons of a query -/

/-- The comparison stands in the tokens. -/
def Written (ts : List Tok) (field : Field) (op : CmpOp) (value : Literal) : Prop :=
  ∃ name raw, Stands ts name op raw ∧ field = Field.resolve name ∧ value = Literal.plain op raw

section Comparisons

variable {env : QueryEnv} {level : Level} {ts us : List Tok} {e : Expr} {field : Field} {op : CmpOp} {value : Literal}

theorem written_append (hop : op.isOrdering = true) (hlast : ∀ t ∈ ts.getLast?, t.isOrdering = false)
    (hhead : ∀ t ∈ us.head?, t.isOrdering = false) :
    Written (ts ++ us) field op value ↔ Written ts field op value ∨ Written us field op value := by
  have hno : (Tok.op op).isOrdering ≠ false := by
    rw [Tok.isOrdering, hop]
    decide
  constructor
  · rintro ⟨name, raw, hstands, heq⟩
    rcases stands_append_cases hstands with h | h | h | h
    · exact .inl ⟨name, raw, h, heq⟩
    · exact .inr ⟨name, raw, h, heq⟩
    · exact absurd (hlast _ h) hno
    · exact absurd (hhead _ h) hno
  · rintro (⟨name, raw, hstands, heq⟩ | ⟨name, raw, hstands, heq⟩)
    · exact ⟨name, raw, hstands.append_left us, heq⟩
    · exact ⟨name, raw, hstands.append_right ts, heq⟩

theorem written_cons {t : Tok} (hword : ∀ w, t ≠ .word w) :
    Written (t :: us) field op value ↔ Written us field op value := by
  constructor
  · rintro ⟨name, raw, hstands, heq⟩
    exact ⟨name, raw, hstands.of_cons hword, heq⟩
  · rintro ⟨name, raw, hstands, heq⟩
    exact ⟨name, raw, hstands.append_right [t], heq⟩

/-- Fewer than three tokens have no comparison. -/
theorem not_written (h : ts.length < 3) : ¬Written ts field op value := by
  rintro ⟨name, raw, hstands, -⟩
  exact absurd hstands.length_le (by omega)

theorem Derives.head_isOrdering (h : Derives env anyOp level ts e) : ∀ t ∈ ts.head?, t.isOrdering = false := by
  obtain ⟨t, rest, rfl, hstarts⟩ := h.head
  intro t' ht'
  obtain rfl := Option.some.inj ht'
  revert hstarts
  cases t <;> simp [startsTerm, Tok.isOrdering]

/-- The ordering comparisons of a tree are those that stand in its tokens. -/
theorem mem_leaves_iff (h : Derives env anyOp level ts e) (hop : op.isOrdering = true) :
    Expr.cmp field op value ∈ e.leaves ↔ Written ts field op value := by
  induction h with
  | orOne _ ih | andOne _ ih | one _ ih => exact ih
  | @or ts us l r hl _ ihl ihr =>
      rw [Expr.leaves, List.mem_append, ihl, ihr, written_append hop hl.getLast (by simp [Tok.isOrdering]),
        written_cons (by simp)]
  | @and ts us l r hl _ ihl ihr =>
      rw [Expr.leaves, List.mem_append, ihl, ihr, written_append hop hl.getLast (by simp [Tok.isOrdering]),
        written_cons (by simp)]
  -- no operand ends or begins with an ordering operator, so no row stands across two of them
  | juxtapose hl hr ihl ihr =>
      rw [Expr.leaves, List.mem_append, ihl, ihr, written_append hop hl.getLast hr.head_isOrdering]
  | not _ ih => rw [Expr.leaves, ih, written_cons (by simp)]
  | @paren ts e h ih =>
      rw [ih, written_cons (by simp), written_append hop h.getLast (by simp [Tok.isOrdering]),
        or_iff_left (not_written (by simp))]
  | flag | text | quoted | regex =>
      rw [Expr.leaves]
      exact iff_of_false (by simp) (not_written (by simp))
  | @compare name raw op' v hv _ _ =>
      rw [Expr.leaves, List.mem_singleton]
      constructor
      · rintro heq
        injection heq with hfield hop' hvalue
        subst hop'
        exact ⟨name, raw, ⟨0, rfl, rfl, hv.imp (congrArg some) (congrArg some)⟩, hfield, hvalue⟩
      · rintro ⟨name', raw', hstands, rfl, rfl⟩
        obtain ⟨rfl, rfl, hv'⟩ := stands_three hstands
        -- the value is one token
        have hraw : raw = raw' := by
          rcases hv with rfl | rfl <;> rcases hv' with hv' | hv'
          · injection hv'
          · cases hv'
          · cases hv'
          · injection hv'
        rw [hraw]
  | @compareRegex name pattern op' _ _ =>
      rw [Expr.leaves, List.mem_singleton]
      apply iff_of_false
      · intro heq
        injection heq with _ hop' _
        have hnot : op'.withRegex.isOrdering = false := by cases op' <;> rfl
        rw [hop', hnot] at hop
        cases hop
      · rintro ⟨name', raw', hstands, -⟩
        obtain ⟨-, -, hv | hv⟩ := stands_three hstands
        · cases hv
        · cases hv

/-- A value after an ordering operator is a number. -/
theorem number_of_written (h : Derives env anyOp level ts e) (hop : op.isOrdering = true)
    (hmem : Expr.cmp field op value ∈ e.leaves) : value.number ≠ none := by
  induction h with
  | orOne _ ih | andOne _ ih | one _ ih | not _ ih | paren _ ih => exact ih hmem
  | or _ _ ihl ihr | and _ _ ihl ihr | juxtapose _ _ ihl ihr =>
      rcases List.mem_append.1 hmem with hmem | hmem
      · exact ihl hmem
      · exact ihr hmem
  | flag | text | quoted | regex => simp [Expr.leaves] at hmem
  | compare _ hnum _ =>
      injection List.mem_singleton.1 hmem with _ hop' hvalue
      subst hop'
      rw [hvalue]
      exact hnum hop
  | @compareRegex _ _ op' _ _ =>
      injection List.mem_singleton.1 hmem with _ hop' _
      have hnot : op'.withRegex.isOrdering = false := by cases op' <;> rfl
      rw [hop', hnot] at hop
      cases hop

end Comparisons

/-! ## Evaluation -/

section Evaluation

variable {env : QueryEnv} {reMatch : Text → Text → Bool} {round : Rat → Rat} {field : Field} {op : CmpOp}
  {value : Literal} {mag : Rat} {suffix : Text}

/-- The suffix of a number is the text behind its digits. -/
theorem suffix_of_number {raw : Text} (hnum : (Literal.plain op raw).number = some (mag, suffix)) :
    suffix = raw.dropWhile isMagnitude := by
  change numberOf raw = some (mag, suffix) at hnum
  rw [numberOf] at hnum
  split at hnum
  · cases hnum
  · obtain ⟨mag', -, hrest⟩ := Option.bind_eq_some_iff.1 hnum
    split at hrest
    · cases hrest
      rfl
    · cases hrest

/-- The suffixes that a field scales are those it knows. -/
theorem suffixScale_isSome (field : Field) (suffix : Text) :
    (field.suffixScale suffix).isSome = knownSuffix field suffix := by
  rw [Field.suffixScale, knownSuffix]
  have hempty : toAsciiLowercase suffix = [] ↔ suffix = [] := List.map_eq_nil_iff
  by_cases hnil : suffix = []
  · rw [if_pos (hempty.2 hnil), hnil]
    rfl
  · rw [if_neg (hempty.not.2 hnil)]
    have hisEmpty : suffix.isEmpty = false := by simpa using hnil
    rw [hisEmpty, Bool.false_or, Option.isSome_map, Bool.eq_iff_iff, List.find?_isSome, List.any_flatMap,
      List.any_eq_true]
    rfl

/-- An ordering operator compares with the number that the field scales. -/
theorem compare_ordering (hop : op.isOrdering = true) (hnum : value.number = some (mag, suffix)) {scale : Rat}
    (hscale : field.suffixScale suffix = some scale) {c : FieldCandidate} {lhs : Rat} (hc : c.number = some lhs) :
    compare env reMatch round c op value field = op.holds lhs (round (round mag * round scale)) := by
  have hscaled : value.scaled round field = some (round (round mag * round scale)) := by
    rw [Literal.scaled, hnum, Option.bind_some, hscale]
    rfl
  unfold compare
  rw [hscaled, hc]
  cases op <;> first | rfl | cases hop

/-- Without a scale it is false on every candidate. -/
theorem compare_unscaled (hop : op.isOrdering = true) (hnum : value.number = some (mag, suffix))
    (hscale : field.suffixScale suffix = none) (c : FieldCandidate) :
    compare env reMatch round c op value field = false := by
  have hscaled : value.scaled round field = none := by
    rw [Literal.scaled, hnum, Option.bind_some, hscale]
    rfl
  unfold compare
  rw [hscaled]
  cases op <;> first | (cases c.number <;> rfl) | cases hop

/-- A query that parses compares numbers throughout exactly if every suffix that is written in it behind an
ordering operator is one of its field. -/
theorem comparesNumbers_iff (env : QueryEnv) (reMatch : Text → Text → Bool) (round : Rat → Rat) {input : Text}
    {e : Expr} {toks : List (Tok × Nat)} (hlex : lex input = .ok toks) (h : parseQuery env input = .ok e) :
    ComparesNumbers env reMatch round e ↔ SuffixesKnown (toks.map Prod.fst) := by
  have hparse : parseTokens env input.size toks = .ok e := by
    rw [parseQuery] at h
    rw [hlex] at h
    exact h
  have hderives := (parseTokens_ok_iff env input.size toks e).1 hparse
  constructor
  · intro hnumbers name op raw hop hstands
    have hmem := (mem_leaves_iff hderives hop).2 ⟨name, raw, hstands, rfl, rfl⟩
    obtain ⟨mag, suffix, scale, hnum, hscale, -⟩ := hnumbers _ _ _ hmem hop
    have hsuffix := suffix_of_number hnum
    rw [← suffixScale_isSome, ← hsuffix, hscale]
    rfl
  · intro hknown field op value hmem hop
    obtain ⟨name, raw, hstands, rfl, rfl⟩ := (mem_leaves_iff hderives hop).1 hmem
    have hne := number_of_written hderives hop hmem
    obtain ⟨⟨mag, suffix⟩, hnum⟩ := Option.ne_none_iff_exists'.1 hne
    have hsuffix := suffix_of_number hnum
    have hsome := hknown name op raw hop hstands
    rw [← suffixScale_isSome, ← hsuffix] at hsome
    obtain ⟨scale, hscale⟩ := Option.isSome_iff_exists.1 hsome
    exact ⟨mag, suffix, scale, hnum, hscale, fun c lhs hc => compare_ordering hop hnum hscale hc⟩

end Evaluation

theorem comparesNumbers_iff_kilo :
    ComparesNumbers ⟨toAsciiLowercase, fun _ => none⟩ (fun _ _ => false) id
      (.cmp .bytes .gt (Literal.plain .gt "5k".toList)) := by
  have hlex : lex "bytes > 5k".toList =
      .ok [(.word "bytes".toList, 0), (.op .gt, 6), (.word "5k".toList, 8)] := by decide +kernel
  have hparse : parseQuery ⟨toAsciiLowercase, fun _ => none⟩ "bytes > 5k".toList =
      .ok (.cmp .bytes .gt (Literal.plain .gt "5k".toList)) := by decide +kernel
  apply (comparesNumbers_iff _ _ id hlex hparse).2
  intro name op raw _ hstands
  obtain ⟨rfl, rfl, hraw | hraw⟩ := stands_three hstands
  · cases hraw
    decide
  · cases hraw

/-- A suffix that no field has is accepted, and the comparison is false on every candidate. -/
theorem comparesNumbers_fails :
    parseQuery ⟨toAsciiLowercase, fun _ => none⟩ "bytes > 5q".toList =
        .ok (.cmp .bytes .gt (Literal.plain .gt "5q".toList)) ∧
      (∀ c, compare ⟨toAsciiLowercase, fun _ => none⟩ (fun _ _ => false) id c .gt (Literal.plain .gt "5q".toList)
        .bytes = false) ∧
      ¬ComparesNumbers ⟨toAsciiLowercase, fun _ => none⟩ (fun _ _ => false) id
        (.cmp .bytes .gt (Literal.plain .gt "5q".toList)) := by
  have hnum : (Literal.plain .gt "5q".toList).number = some (5, ['q']) := by decide +kernel
  refine ⟨by decide +kernel, compare_unscaled rfl hnum (by decide), fun h => ?_⟩
  obtain ⟨mag, suffix, scale, hnum', hscale, -⟩ := h _ _ _ (List.mem_singleton_self _) rfl
  obtain ⟨rfl, rfl⟩ := Prod.mk.inj (Option.some.inj (hnum.symm.trans hnum'))
  cases hscale

end Pktflow.View

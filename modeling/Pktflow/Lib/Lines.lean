import Mathlib.Data.List.DropRight
import Mathlib.Data.List.Infix

/-!
# Lines

Lists cut at a pair `cr, lf` of different elements. A line without the pair is found again in front of one
(`position_line`), and lines that are not empty have two pairs in a row at the end of the block only
(`position_block`). `splitn` and `trim` are the cuts at one element.
-/

set_option autoImplicit false

namespace Pktflow.Lib

variable {α : Type}

/-! ## Breaks -/

section Breaks

variable {cr lf : α} {line rest : List α} {lines : List (List α)}

/-- There is no pair in the line. -/
def NoBreak (cr lf : α) (line : List α) : Prop := ¬[cr, lf] <:+: line

/-- The lines with pairs between them. -/
def joinLines (cr lf : α) : List (List α) → List α
  | [] => []
  | [line] => line
  | line :: lines => line ++ cr :: lf :: joinLines cr lf lines

theorem joinLines_cons (hlines : lines ≠ []) :
    joinLines cr lf (line :: lines) = line ++ cr :: lf :: joinLines cr lf lines := by
  rw [joinLines]
  exact hlines

theorem NoBreak.tail {a : α} (h : NoBreak cr lf (a :: line)) : NoBreak cr lf line :=
  fun hbreak => h (List.infix_cons hbreak)

/-- A pair that begins in a line begins behind its end, whatever stands there but the second of the pair. -/
theorem NoBreak.not_prefix {a b : α} (h : NoBreak cr lf (a :: line)) (hb : b ≠ lf) :
    ¬[cr, lf] <+: a :: (line ++ b :: rest) := by
  rw [List.cons_prefix_cons]
  rintro ⟨rfl, hprefix⟩
  cases line with
  | nil => exact hb (List.cons_prefix_cons.1 hprefix).1.symm
  | cons c line =>
      obtain ⟨rfl, -⟩ := List.cons_prefix_cons.1 hprefix
      exact h ⟨[], line, rfl⟩

theorem NoBreak.append {b : α} {more : List α} (h : NoBreak cr lf line) (hb : b ≠ lf) (hb' : b ≠ cr)
    (hmore : NoBreak cr lf more) : NoBreak cr lf (line ++ b :: more) := by
  induction line with
  | nil =>
      rw [NoBreak, List.nil_append, List.infix_cons_iff, not_or]
      exact ⟨fun hprefix => hb' (List.cons_prefix_cons.1 hprefix).1.symm, hmore⟩
  | cons a line ih =>
      rw [NoBreak, List.cons_append, List.infix_cons_iff, not_or]
      exact ⟨h.not_prefix hb, ih h.tail⟩

/-- Elements of which none begins a pair leave no pair at their side. -/
theorem NoBreak.append_left {blank : List α} (hblank : ∀ b ∈ blank, b ≠ cr) (h : NoBreak cr lf line) :
    NoBreak cr lf (blank ++ line) := by
  induction blank with
  | nil => exact h
  | cons b blank ih =>
      obtain ⟨hb, hblank⟩ := List.forall_mem_cons.1 hblank
      rw [NoBreak, List.cons_append, List.infix_cons_iff, not_or]
      exact ⟨fun hprefix => hb (List.cons_prefix_cons.1 hprefix).1.symm, ih hblank⟩

theorem noBreak_of_notMem (h : cr ∉ line) : NoBreak cr lf line :=
  fun hbreak => h (hbreak.subset List.mem_cons_self)

theorem NoBreak.append_right {blank : List α} (hblank : ∀ b ∈ blank, b ≠ cr ∧ b ≠ lf) (h : NoBreak cr lf line) :
    NoBreak cr lf (line ++ blank) := by
  cases blank with
  | nil => rwa [List.append_nil]
  | cons b blank =>
      obtain ⟨hb, hblank⟩ := List.forall_mem_cons.1 hblank
      have hrest : NoBreak cr lf blank := noBreak_of_notMem fun hcr => (hblank cr hcr).1 rfl
      exact h.append hb.2 hb.1 hrest

/-- Two pairs in a row do not begin in a line, unless the second stands behind its end. -/
theorem NoBreak.not_infix (hne : cr ≠ lf) (h : NoBreak cr lf line) (hrest : ¬[cr, lf, cr, lf] <:+: rest)
    (hfront : ¬[cr, lf] <+: rest) : ¬[cr, lf, cr, lf] <:+: line ++ cr :: lf :: rest := by
  induction line with
  | nil =>
      rw [List.nil_append, List.infix_cons_iff, List.infix_cons_iff, not_or, not_or]
      refine ⟨?_, ?_, hrest⟩
      · intro hprefix
        exact hfront (List.cons_prefix_cons.1 (List.cons_prefix_cons.1 hprefix).2).2
      · intro hprefix
        exact hne (List.cons_prefix_cons.1 hprefix).1
  | cons a line ih =>
      rw [List.cons_append, List.infix_cons_iff, not_or]
      refine ⟨?_, ih h.tail⟩
      intro hprefix
      have hpair : [cr, lf] <+: [cr, lf, cr, lf] := ⟨[cr, lf], rfl⟩
      exact h.not_prefix hne (hpair.trans hprefix)

/-- A block of lines of which only the first may be empty has no two pairs in a row, also with a pair and a half
behind it. -/
theorem not_infix_joinLines (hne : cr ≠ lf) (hlines : lines ≠ []) (hbreak : ∀ line ∈ lines, NoBreak cr lf line)
    (hempty : ∀ line ∈ lines.tail, line ≠ []) : ¬[cr, lf, cr, lf] <:+: joinLines cr lf lines ++ [cr, lf, cr] := by
  induction lines with
  | nil => exact absurd rfl hlines
  | cons line lines ih =>
      obtain ⟨hline, hbreak⟩ := List.forall_mem_cons.1 hbreak
      cases lines with
      | nil =>
          refine hline.not_infix hne ?_ ?_
          · intro h
            exact absurd h.length_le (by simp)
          · intro h
            exact absurd h.length_le (by simp)
      | cons next lines =>
          obtain ⟨hnext, hempty⟩ := List.forall_mem_cons.1 hempty
          rw [joinLines_cons (List.cons_ne_nil _ _), List.append_assoc, List.cons_append, List.cons_append]
          apply hline.not_infix hne (ih (List.cons_ne_nil _ _) hbreak hempty)
          obtain ⟨b, next, rfl⟩ := List.exists_cons_of_ne_nil hnext
          have hnext := (List.forall_mem_cons.1 hbreak).1
          cases lines with
          | nil => exact hnext.not_prefix hne
          | cons third lines =>
              rw [joinLines_cons (List.cons_ne_nil _ _), List.append_assoc]
              exact hnext.not_prefix hne

/-- Lines with a pair behind each and one more are the block with two pairs behind it. -/
theorem flatMap_append_break (hlines : lines ≠ []) :
    lines.flatMap (· ++ [cr, lf]) ++ [cr, lf] = joinLines cr lf lines ++ [cr, lf, cr, lf] := by
  induction lines with
  | nil => exact absurd rfl hlines
  | cons line lines ih =>
      rw [List.flatMap_cons, List.append_assoc]
      cases lines with
      | nil => rw [joinLines, List.flatMap_nil, List.nil_append, List.append_assoc]; rfl
      | cons next lines =>
          rw [ih (List.cons_ne_nil _ _), joinLines_cons (List.cons_ne_nil _ _), List.append_assoc, List.append_assoc]
          rfl

end Breaks

/-! ## Cuts -/

variable [DecidableEq α]

/-- Where the pattern stands first. -/
def position (pat : List α) : List α → Option Nat
  | [] => none
  | a :: l => if pat <+: a :: l then some 0 else (position pat l).map (· + 1)

/-- At most `n` cuts at a pair. -/
def splitLinesAux (cr lf : α) : Nat → List α → List (List α)
  | 0, rest => [rest]
  | n + 1, rest =>
      match position [cr, lf] rest with
      | some pos => rest.take pos :: splitLinesAux cr lf n (rest.drop (pos + 2))
      | none => [rest]

/-- The lines between the pairs. -/
def splitLines (cr lf : α) (block : List α) : List (List α) := splitLinesAux cr lf block.length block

/-- The parts between the first separators, at most `n`. -/
def splitn (sep : α) : Nat → List α → List (List α)
  | 0, _ => []
  | 1, l => [l]
  | n + 2, l =>
      match l.dropWhile (· ≠ sep) with
      | [] => [l]
      | _ :: rest => l.takeWhile (· ≠ sep) :: splitn sep (n + 1) rest

/-- What is left without the elements `a` at both ends. -/
def trim (a : α) (l : List α) : List α := (l.dropWhile (· = a)).rdropWhile (· = a)

section Position

variable {pat l more : List α} {a : α}

theorem position_eq_none (hpat : pat ≠ []) : position pat l = none ↔ ¬pat <:+: l := by
  induction l with
  | nil =>
      rw [position, List.infix_nil]
      exact ⟨fun _ => hpat, fun _ => rfl⟩
  | cons a l ih =>
      rw [position, List.infix_cons_iff, not_or]
      split
      · rename_i h
        exact ⟨nofun, fun hno => absurd h hno.1⟩
      · rename_i h
        rw [Option.map_eq_none_iff, ih]
        exact ⟨fun hno => ⟨h, hno⟩, fun hno => hno.2⟩

/-- The pattern is found where it stands, if it did not begin before. -/
theorem position_append (hpat : pat ≠ []) (h : ¬pat <:+: (l ++ pat).dropLast) :
    position pat (l ++ (pat ++ more)) = some l.length := by
  induction l with
  | nil =>
      obtain ⟨p, ps, rfl⟩ := List.exists_cons_of_ne_nil hpat
      rw [List.nil_append, List.cons_append, position, if_pos ⟨more, rfl⟩]
      rfl
  | cons a l ih =>
      have hne : l ++ pat ≠ [] := List.append_ne_nil_of_right_ne_nil l hpat
      rw [List.cons_append, List.dropLast_cons_of_ne_nil hne, List.infix_cons_iff, not_or] at h
      have hno : ¬pat <+: a :: (l ++ (pat ++ more)) := by
        intro hprefix
        apply h.1
        -- a pattern that begins here ends before the last element of the other
        have hlen : pat.length ≤ (a :: (l ++ pat).dropLast).length := by
          rw [List.length_cons, List.length_dropLast, List.length_append]
          have := List.length_pos_of_ne_nil hpat
          omega
        have hfront : a :: (l ++ pat).dropLast <+: a :: (l ++ (pat ++ more)) := by
          rw [← List.append_assoc]
          exact List.cons_prefix_cons.2 ⟨rfl, (List.dropLast_prefix _).trans (List.prefix_append _ _)⟩
        exact List.prefix_of_prefix_length_le hprefix hfront hlen
      rw [List.cons_append, position, if_neg hno, ih h.2]
      rfl

end Position

/-! ## Lines and blocks -/

section Blocks

variable {cr lf : α} {line rest : List α} {lines : List (List α)}

theorem position_line (hne : cr ≠ lf) (h : NoBreak cr lf line) :
    position [cr, lf] (line ++ cr :: lf :: rest) = some line.length := by
  induction line with
  | nil =>
      rw [List.nil_append, position, if_pos ⟨rest, rfl⟩]
      rfl
  | cons a line ih =>
      rw [List.cons_append, position, if_neg (h.not_prefix hne), ih h.tail]
      rfl

/-- The block ends where two pairs stand in a row. -/
theorem position_block (hne : cr ≠ lf) (hlines : lines ≠ []) (hbreak : ∀ line ∈ lines, NoBreak cr lf line)
    (hempty : ∀ line ∈ lines.tail, line ≠ []) (more : List α) :
    position [cr, lf, cr, lf] (joinLines cr lf lines ++ ([cr, lf, cr, lf] ++ more)) =
      some (joinLines cr lf lines).length := by
  apply position_append (List.cons_ne_nil _ _)
  rw [List.dropLast_append_of_ne_nil (List.cons_ne_nil _ _)]
  exact not_infix_joinLines hne hlines hbreak hempty

/-- No strict prefix of the block with its end has two pairs in a row. -/
theorem position_block_take (hne : cr ≠ lf) (hlines : lines ≠ []) (hbreak : ∀ line ∈ lines, NoBreak cr lf line)
    (hempty : ∀ line ∈ lines.tail, line ≠ []) {n : Nat}
    (hn : n < (joinLines cr lf lines ++ [cr, lf, cr, lf]).length) :
    position [cr, lf, cr, lf] ((joinLines cr lf lines ++ [cr, lf, cr, lf]).take n) = none := by
  rw [position_eq_none (List.cons_ne_nil _ _)]
  intro h
  have hprefix : (joinLines cr lf lines ++ [cr, lf, cr, lf]).take n <+: joinLines cr lf lines ++ [cr, lf, cr] := by
    have hlast : (joinLines cr lf lines ++ [cr, lf, cr, lf]).dropLast = joinLines cr lf lines ++ [cr, lf, cr] := by
      rw [List.dropLast_append_of_ne_nil (List.cons_ne_nil _ _)]
      rfl
    rw [← hlast, List.dropLast_eq_take]
    exact List.take_prefix_take_left (by omega)
  exact not_infix_joinLines hne hlines hbreak hempty (h.trans hprefix.isInfix)

theorem splitLinesAux_joinLines (hne : cr ≠ lf) (hlines : lines ≠ []) (hbreak : ∀ line ∈ lines, NoBreak cr lf line)
    {n : Nat} (hn : (joinLines cr lf lines).length ≤ n) : splitLinesAux cr lf n (joinLines cr lf lines) = lines := by
  induction lines generalizing n with
  | nil => exact absurd rfl hlines
  | cons line lines ih =>
      obtain ⟨hline, hbreak⟩ := List.forall_mem_cons.1 hbreak
      cases lines with
      | nil =>
          have hnone : position [cr, lf] line = none := (position_eq_none (List.cons_ne_nil _ _)).2 hline
          cases n with
          | zero => rfl
          | succ n => rw [joinLines, splitLinesAux, hnone]
      | cons next lines =>
          have hjoin : joinLines cr lf (line :: next :: lines) = line ++ cr :: lf :: joinLines cr lf (next :: lines) :=
            joinLines_cons (List.cons_ne_nil _ _)
          rw [hjoin, List.length_append, List.length_cons, List.length_cons] at hn
          obtain ⟨n, rfl⟩ := Nat.exists_eq_add_one_of_ne_zero (show n ≠ 0 by omega)
          rw [hjoin, splitLinesAux, position_line hne hline]
          dsimp only
          rw [List.take_left, List.drop_append, List.drop_eq_nil_of_le (by omega), Nat.add_sub_cancel_left,
            List.nil_append]
          exact congrArg _ (ih (List.cons_ne_nil _ _) hbreak (by omega))

/-- The lines are what the block is split into. -/
theorem splitLines_joinLines (hne : cr ≠ lf) (hlines : lines ≠ []) (hbreak : ∀ line ∈ lines, NoBreak cr lf line) :
    splitLines cr lf (joinLines cr lf lines) = lines :=
  splitLinesAux_joinLines hne hlines hbreak (Nat.le_refl _)

end Blocks

/-! ## Cuts at one element -/

section Cuts

variable {sep a : α} {front rest l : List α}

theorem takeWhile_append_sep (h : sep ∉ front) : (front ++ sep :: rest).takeWhile (· ≠ sep) = front := by
  rw [List.takeWhile_append_of_pos (fun b hb => by simpa using fun heq : b = sep => h (heq ▸ hb))]
  simp

theorem dropWhile_append_sep (h : sep ∉ front) : (front ++ sep :: rest).dropWhile (· ≠ sep) = sep :: rest := by
  rw [List.dropWhile_append_of_pos (fun b hb => by simpa using fun heq : b = sep => h (heq ▸ hb))]
  simp

theorem findIdx?_append_sep (h : sep ∉ front) : (front ++ sep :: rest).findIdx? (· = sep) = some front.length := by
  induction front with
  | nil =>
      rw [List.nil_append, List.findIdx?_cons, if_pos (by simp)]
      rfl
  | cons b front ih =>
      rw [List.mem_cons, not_or] at h
      rw [List.cons_append, List.findIdx?_cons, ih h.2, if_neg (by simpa using Ne.symm h.1)]
      rfl

theorem splitn_append (h : sep ∉ front) (n : Nat) :
    splitn sep (n + 2) (front ++ sep :: rest) = front :: splitn sep (n + 1) rest := by
  rw [splitn, dropWhile_append_sep h]
  dsimp only
  rw [takeWhile_append_sep h]

theorem splitn_of_notMem (h : sep ∉ l) (n : Nat) : splitn sep (n + 2) l = [l] := by
  have hdrop : l.dropWhile (· ≠ sep) = [] := by
    rw [List.dropWhile_eq_nil_iff]
    intro b hb
    simpa using fun heq : b = sep => h (heq ▸ hb)
  rw [splitn, hdrop]

/-- Elements other than `a` are all kept. -/
theorem count_trim {b : α} (hb : b ≠ a) : (trim a l).count b = l.count b := by
  have hdrop : ∀ l : List α, (l.dropWhile (· = a)).count b = l.count b := by
    intro l
    induction l with
    | nil => rfl
    | cons c l ih =>
        rw [List.dropWhile_cons]
        split
        · rename_i hc
          have hcb : c ≠ b := by
            rintro rfl
            exact hb (of_decide_eq_true hc)
          rw [ih, List.count_cons_of_ne hcb]
        · rfl
  rw [trim, List.rdropWhile, List.count_reverse, hdrop, List.count_reverse, hdrop]

/-- What has other ends is what is left of it among the elements `a`. -/
theorem trim_append {front back : List α} (hfront : ∀ b ∈ front, b = a) (hback : ∀ b ∈ back, b = a)
    (hhead : ∀ b ∈ l.head?, b ≠ a) (hlast : ∀ b ∈ l.getLast?, b ≠ a) : trim a (front ++ (l ++ back)) = l := by
  have hdrop : ∀ (front l : List α), (∀ b ∈ front, b = a) → (∀ b ∈ l.head?, b ≠ a) →
      (front ++ l).dropWhile (· = a) = l := by
    intro front l hfront hhead
    rw [List.dropWhile_append_of_pos (fun b hb => by simpa using hfront b hb)]
    cases l with
    | nil => rfl
    | cons c l => exact List.dropWhile_cons_of_neg (by simpa using hhead c rfl)
  cases l with
  | nil =>
      have hall : (front ++ ([] ++ back)).dropWhile (· = a) = [] := by
        rw [List.dropWhile_eq_nil_iff]
        intro b hb
        rw [List.nil_append] at hb
        rcases List.mem_append.1 hb with hb | hb
        · simpa using hfront b hb
        · simpa using hback b hb
      rw [trim, hall]
      rfl
  | cons c l =>
      have hrest : ∀ b ∈ ((c :: l) ++ back).head?, b ≠ a := fun b hb => hhead b hb
      have hback' : ∀ b ∈ back.reverse, b = a := fun b hb => hback b (List.mem_reverse.1 hb)
      have hlast' : ∀ b ∈ (c :: l).reverse.head?, b ≠ a := by
        rw [List.head?_reverse]
        exact hlast
      rw [trim, hdrop front _ hfront hrest, List.rdropWhile, List.reverse_append, hdrop _ _ hback' hlast',
        List.reverse_reverse]

end Cuts

end Pktflow.Lib

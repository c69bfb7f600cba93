import Mathlib.Data.List.Sort
import Mathlib.Data.List.Nodup
import Mathlib.Data.Prod.Lex

/-!
# Stable sorts by key and collected maps

A stable sort leaves elements of equal keys in the order they were in. If that order is by a rank, the
result is in the order of key and rank together (`pairwise_sortByKey`), and a list is determined by its
elements and such an order (`eq_of_ordered`): sorting a part and taking a part of what is sorted agree.
-/

set_option autoImplicit false

namespace Pktflow.Lib

universe u v

section KeySort

variable {α : Type u} {κ : Type v} [LinearOrder κ]

/-- A stable sort by key. -/
def sortByKey (key : α → κ) (l : List α) : List α := l.insertionSort fun x y => key x ≤ key y

theorem perm_sortByKey (key : α → κ) (l : List α) : (sortByKey key l).Perm l := List.perm_insertionSort _ l

theorem mem_sortByKey {key : α → κ} {l : List α} {x : α} : x ∈ sortByKey key l ↔ x ∈ l :=
  (perm_sortByKey key l).mem_iff

theorem map_sortByKey {β : Type u} (key : α → κ) (f : β → α) (l : List β) :
    (sortByKey (fun x => key (f x)) l).map f = sortByKey key (l.map f) :=
  List.map_insertionSort _ _ f l fun _ _ _ _ => Iff.rfl

/-- In the order of the keys, and of the ranks where keys are equal. -/
def Ordered (key : α → κ) (rank : α → Nat) (x y : α) : Prop := key x < key y ∨ key x = key y ∧ rank x < rank y

theorem Ordered.asymm {key : α → κ} {rank : α → Nat} {x y : α} (h : Ordered key rank x y) :
    ¬Ordered key rank y x := by
  rintro (h' | ⟨heq', h'⟩)
  · rcases h with h | ⟨heq, -⟩
    · exact lt_asymm h h'
    · exact absurd heq.symm (ne_of_lt h')
  · rcases h with h | ⟨-, h⟩
    · exact absurd heq'.symm (ne_of_lt h)
    · omega

theorem pairwise_keys (key : α → κ) (l : List α) : (sortByKey key l).Pairwise fun x y => key x ≤ key y := by
  have : Std.Total fun x y : α => key x ≤ key y := ⟨fun x y => le_total (key x) (key y)⟩
  have : IsTrans α fun x y => key x ≤ key y := ⟨fun _ _ _ => le_trans⟩
  exact List.pairwise_insertionSort _ l

/-- An element of lower rank is inserted before the first key that is not smaller. -/
theorem pairwise_orderedInsert {key : α → κ} {rank : α → Nat} {a : α} {l : List α}
    (hrank : ∀ x ∈ l, rank a < rank x) (hl : l.Pairwise (Ordered key rank)) :
    (l.orderedInsert (fun x y => key x ≤ key y) a).Pairwise (Ordered key rank) := by
  induction l with
  | nil => exact List.pairwise_singleton _ _
  | cons b l ih =>
      obtain ⟨hb, hrest⟩ := List.pairwise_cons.1 hl
      by_cases hle : key a ≤ key b
      · rw [List.orderedInsert_cons_of_le _ l hle]
        refine List.pairwise_cons.2 ⟨fun x hx => ?_, hl⟩
        have hkey : key a ≤ key x := by
          rcases List.mem_cons.1 hx with rfl | hx
          · exact hle
          · rcases hb x hx with hlt | ⟨heq, -⟩
            · exact le_trans hle (le_of_lt hlt)
            · exact heq ▸ hle
        rcases lt_or_eq_of_le hkey with hlt | heq
        · exact .inl hlt
        · exact .inr ⟨heq, hrank x hx⟩
      · rw [List.orderedInsert_of_not_le _ l hle]
        refine List.pairwise_cons.2
          ⟨fun x hx => ?_, ih (fun x hx => hrank x (List.mem_cons_of_mem _ hx)) hrest⟩
        rcases List.mem_cons.1 ((List.perm_orderedInsert _ a l).mem_iff.1 hx) with rfl | hx
        · exact .inl (lt_of_not_ge hle)
        · exact hb x hx

/-- Sorting a list in the order of the ranks orders it by key and rank. -/
theorem pairwise_sortByKey {key : α → κ} {rank : α → Nat} {l : List α}
    (h : l.Pairwise fun x y => rank x < rank y) : (sortByKey key l).Pairwise (Ordered key rank) := by
  induction l with
  | nil => exact List.Pairwise.nil
  | cons a l ih =>
      obtain ⟨hhead, htail⟩ := List.pairwise_cons.1 h
      exact pairwise_orderedInsert (fun x hx => hhead x (mem_sortByKey.1 hx)) (ih htail)

/-- Elements and order determine a list. -/
theorem eq_of_ordered {key : α → κ} {rank : α → Nat} {l m : List α} (hl : l.Pairwise (Ordered key rank))
    (hm : m.Pairwise (Ordered key rank)) (hmem : ∀ x, x ∈ l ↔ x ∈ m) : l = m := by
  have hnodup : ∀ {k : List α}, k.Pairwise (Ordered key rank) → k.Nodup := by
    intro k hk
    apply hk.imp
    rintro x y h rfl
    exact h.asymm h
  have hperm : l.Perm m := (List.perm_ext_iff_of_nodup (hnodup hl) (hnodup hm)).2 hmem
  exact hperm.eq_of_pairwise (fun x y _ _ h h' => absurd h' h.asymm) hl hm

/-- The merge sort is the same stable sort. -/
theorem mergeSort_eq_sortByKey (key : α → κ) (l : List α) :
    (l.mergeSort fun x y => key x ≤ key y) = sortByKey key l := by
  have htrans : ∀ a b c : α, decide (key a ≤ key b) = true → decide (key b ≤ key c) = true →
      decide (key a ≤ key c) = true := by
    simp only [decide_eq_true_eq]
    exact fun _ _ _ => le_trans
  have htotal : ∀ a b : α, (decide (key a ≤ key b) || decide (key b ≤ key a)) = true := by
    simp only [Bool.or_eq_true, decide_eq_true_eq]
    exact fun a b => le_total (key a) (key b)
  induction l with
  | nil => exact List.mergeSort_nil
  | cons a l ih =>
      obtain ⟨before, behind, hcons, hrest, hbefore⟩ := List.mergeSort_cons htrans htotal a l
      have hsorted := List.pairwise_mergeSort htrans htotal (a :: l)
      rw [hcons] at hsorted ⊢
      have hbehind : ∀ x ∈ behind, key a ≤ key x := by
        intro x hx
        have hax := (List.pairwise_cons.1 (List.pairwise_append.1 hsorted).2.1).1 x hx
        exact of_decide_eq_true hax
      have hlt : ∀ x ∈ before, ¬key a ≤ key x := by
        intro x hx
        have hax := hbefore x hx
        simpa using hax
      -- the place of the merge sort is the first one with a key that is not smaller
      show _ = (sortByKey key l).orderedInsert (fun x y => key x ≤ key y) a
      rw [← ih, hrest]
      clear hcons hrest hbefore hsorted
      induction before with
      | nil =>
          cases behind with
          | nil => rfl
          | cons x behind =>
              rw [List.nil_append, List.nil_append,
                List.orderedInsert_cons_of_le _ behind (hbehind x List.mem_cons_self)]
      | cons x before ihb =>
          rw [List.cons_append, List.cons_append,
            List.orderedInsert_of_not_le _ (before ++ behind) (hlt x List.mem_cons_self),
            ← ihb fun y hy => hlt y (List.mem_cons_of_mem _ hy)]

/-- The first element of the least key is sorted to the front. -/
theorem sortByKey_first {key : α → κ} {before behind : List α} {x : α} (hbefore : ∀ y ∈ before, key x < key y)
    (hbehind : ∀ y ∈ behind, key x ≤ key y) :
    sortByKey key (before ++ x :: behind) = x :: sortByKey key (before ++ behind) := by
  induction before with
  | nil =>
      show (sortByKey key behind).orderedInsert (fun x y => key x ≤ key y) x = x :: sortByKey key behind
      cases hsort : sortByKey key behind with
      | nil => rfl
      | cons y l =>
          have hy : y ∈ behind := mem_sortByKey.1 (hsort ▸ List.mem_cons_self)
          exact List.orderedInsert_cons_of_le _ l (hbehind y hy)
  | cons a before ih =>
      have hrest := ih fun y hy => hbefore y (List.mem_cons_of_mem _ hy)
      have ha : ¬key a ≤ key x := not_le_of_gt (hbefore a List.mem_cons_self)
      show (sortByKey key (before ++ x :: behind)).orderedInsert (fun x y => key x ≤ key y) a = _
      rw [hrest]
      exact List.orderedInsert_of_not_le (fun x y : α => key x ≤ key y) (sortByKey key (before ++ behind)) ha

/-- Sorting keeps the order of what is filtered. -/
theorem filter_sortByKey (key : α → κ) (p : α → Bool) (l : List α) :
    (sortByKey key l).filter p = sortByKey key (l.filter p) := by
  induction l with
  | nil => rfl
  | cons a l ih =>
      have hinsert : ∀ m : List α, m.Pairwise (fun x y => key x ≤ key y) →
          (m.orderedInsert (fun x y => key x ≤ key y) a).filter p =
            if p a then (m.filter p).orderedInsert (fun x y => key x ≤ key y) a else m.filter p := by
        intro m hm
        induction m with
        | nil => cases hp : p a <;> simp [hp]
        | cons b m ihm =>
            obtain ⟨hb, hm'⟩ := List.pairwise_cons.1 hm
            by_cases hle : key a ≤ key b
            · rw [List.orderedInsert_cons_of_le _ m hle]
              have hall : ∀ x ∈ (b :: m).filter p, key a ≤ key x := by
                intro x hx
                rcases List.mem_cons.1 (List.mem_filter.1 hx).1 with rfl | hx
                · exact hle
                · exact le_trans hle (hb x hx)
              rw [List.filter_cons]
              split
              · cases hf : (b :: m).filter p with
                | nil => rfl
                | cons y k =>
                    exact (List.orderedInsert_cons_of_le _ k (hall y (hf ▸ List.mem_cons_self))).symm
              · rfl
            · rw [List.orderedInsert_of_not_le _ m hle]
              cases hp : p b with
              | false => rw [List.filter_cons_of_neg (by simp [hp]), List.filter_cons_of_neg (by simp [hp]), ihm hm']
              | true =>
                  rw [List.filter_cons_of_pos hp, List.filter_cons_of_pos hp, ihm hm',
                    List.orderedInsert_of_not_le (fun x y : α => key x ≤ key y) (m.filter p) hle]
                  split <;> rfl
      have hcons : sortByKey key (a :: l) = (sortByKey key l).orderedInsert (fun x y => key x ≤ key y) a := rfl
      rw [hcons, hinsert _ (pairwise_keys key l), ih, List.filter_cons]
      split <;> rfl

end KeySort

section Collect

variable {κ : Type u} {β : Type v} [DecidableEq κ]

/-- A map collected from its entries: of entries with one key, the last counts. -/
def collect (entries : List (κ × β)) (k : κ) : Option β :=
  (entries.reverse.find? fun e => e.1 = k).map Prod.snd

theorem collect_eq_some {entries : List (κ × β)} (h : (entries.map Prod.fst).Nodup) {k : κ} {v : β} :
    collect entries k = some v ↔ (k, v) ∈ entries := by
  rw [collect]
  constructor
  · intro hsome
    obtain ⟨e, he, rfl⟩ := Option.map_eq_some_iff.1 hsome
    have hkey : e.1 = k := by simpa using List.find?_some he
    rw [← hkey]
    exact List.mem_reverse.1 (List.mem_of_find?_eq_some he)
  · intro hmem
    cases hfind : entries.reverse.find? fun e => e.1 = k with
    | none =>
        have hnone := List.find?_eq_none.1 hfind (k, v) (List.mem_reverse.2 hmem)
        simp at hnone
    | some e =>
        have hkey : e.1 = k := by simpa using List.find?_some hfind
        have he := List.mem_reverse.1 (List.mem_of_find?_eq_some hfind)
        have heq := List.inj_on_of_nodup_map h he hmem hkey
        rw [heq]
        rfl

end Collect

end Pktflow.Lib

import Mathlib.Order.Lattice
import Mathlib.Data.List.Induction
import Mathlib.Data.List.Nodup

/-!
# Maps sorted by key

A map as the list of its entries in key order, the shape of a B-tree map that is read from front to
back. `insert` replaces the value of a key that is there; `ofList` collects entries, a later one for a
key replacing an earlier one. The map collected from a list has as many entries as the list exactly if
no key stands twice (`length_ofList_eq_iff`).
-/

set_option autoImplicit false

namespace Pktflow.Lib

universe u v

/-- The entries of a map, in key order. -/
abbrev SortedMap (K : Type u) (V : Type v) := List (K × V)

namespace SortedMap

variable {K : Type u} {V : Type v} [LinearOrder K]

/-- The value of a key. -/
def get (m : SortedMap K V) (k : K) : Option V := (m.find? fun e => e.1 = k).map Prod.snd

/-- Files a value under its key. -/
def insert (m : SortedMap K V) (k : K) (v : V) : SortedMap K V :=
  match m with
  | [] => [(k, v)]
  | e :: rest =>
      if k < e.1 then (k, v) :: e :: rest
      else if k = e.1 then (k, v) :: rest
      else e :: insert rest k v

/-- The map of a list of entries. -/
def ofList (l : List (K × V)) : SortedMap K V := l.foldl (fun m e => m.insert e.1 e.2) []

/-- Keys increase strictly. -/
def Sorted (m : SortedMap K V) : Prop := m.Pairwise fun x y => x.1 < y.1

@[simp] theorem get_nil (k : K) : get ([] : SortedMap K V) k = none := rfl

theorem get_cons (e : K × V) (m : SortedMap K V) (k : K) :
    get (e :: m) k = if e.1 = k then some e.2 else get m k := by
  unfold get
  rw [List.find?_cons]
  by_cases h : e.1 = k
  · simp [h]
  · simp [h]

theorem get_insert (m : SortedMap K V) (k : K) (v : V) (k' : K) :
    get (m.insert k v) k' = if k' = k then some v else get m k' := by
  induction m with
  | nil => simp [insert, get_cons, eq_comm]
  | cons e rest ih =>
      rw [insert]
      split
      · rw [get_cons]
        simp only [eq_comm]
      · split
        · rename_i heq
          rw [get_cons, get_cons]
          by_cases h : k' = k
          · simp [h]
          · rw [if_neg (Ne.symm h), if_neg h, if_neg (by rw [← heq]; exact Ne.symm h)]
        · rename_i hne
          rw [get_cons, get_cons, ih]
          by_cases h : k' = k
          · subst h
            rw [if_neg (Ne.symm hne), if_pos rfl, if_pos rfl]
          · rw [if_neg h, if_neg h]

theorem mem_insert {m : SortedMap K V} {k : K} {v : V} {e : K × V} (h : e ∈ m.insert k v) :
    e = (k, v) ∨ e ∈ m := by
  induction m with
  | nil => exact .inl (List.mem_singleton.1 h)
  | cons e' rest ih =>
      rw [insert] at h
      split at h
      · exact List.mem_cons.1 h
      · split at h
        · exact (List.mem_cons.1 h).imp_right (List.mem_cons_of_mem _)
        · rcases List.mem_cons.1 h with rfl | h
          · exact .inr List.mem_cons_self
          · exact (ih h).imp_right (List.mem_cons_of_mem _)

theorem Sorted.insert {m : SortedMap K V} (h : Sorted m) (k : K) (v : V) : Sorted (m.insert k v) := by
  unfold Sorted at h ⊢
  induction m with
  | nil => exact List.pairwise_singleton _ _
  | cons e rest ih =>
      obtain ⟨hhead, htail⟩ := List.pairwise_cons.1 h
      rw [SortedMap.insert]
      split
      · rename_i hlt
        refine List.pairwise_cons.2 ⟨fun x hx => ?_, h⟩
        rcases List.mem_cons.1 hx with rfl | hx
        · exact hlt
        · exact lt_trans hlt (hhead x hx)
      · split
        · rename_i heq
          exact List.pairwise_cons.2 ⟨fun x hx => heq ▸ hhead x hx, htail⟩
        · rename_i hle hne
          refine List.pairwise_cons.2 ⟨fun x hx => ?_, ih htail⟩
          rcases mem_insert hx with rfl | hx
          · exact lt_of_le_of_ne (not_lt.1 hle) (Ne.symm hne)
          · exact hhead x hx

theorem length_insert {m : SortedMap K V} (h : Sorted m) (k : K) (v : V) :
    (m.insert k v).length = if (get m k).isSome then m.length else m.length + 1 := by
  rw [Sorted] at h
  induction m with
  | nil => rfl
  | cons e rest ih =>
      obtain ⟨hhead, htail⟩ := List.pairwise_cons.1 h
      rw [insert]
      rw [get_cons]
      split
      · -- past its place the key does not occur
        rename_i hlt
        have hnone : get rest k = none := by
          rw [get]
          rw [Option.map_eq_none_iff, List.find?_eq_none]
          intro x hx
          simpa using ne_of_gt (lt_trans hlt (hhead x hx))
        rw [if_neg (ne_of_gt hlt), hnone]
        rfl
      · split
        · rename_i heq
          rw [if_pos heq.symm]
          rfl
        · rename_i hne
          rw [if_neg (Ne.symm hne), List.length_cons, ih htail, List.length_cons]
          split <;> rfl

theorem ofList_snoc (l : List (K × V)) (e : K × V) : ofList (l ++ [e]) = (ofList l).insert e.1 e.2 := by
  simp [ofList]

theorem sorted_ofList (l : List (K × V)) : Sorted (ofList l) := by
  induction l using List.reverseRecOn with
  | nil => exact List.Pairwise.nil
  | append_singleton l e ih =>
      rw [ofList_snoc]
      exact ih.insert e.1 e.2

/-- A key of the list is a key of its map. -/
theorem isSome_get_ofList (l : List (K × V)) (k : K) : (get (ofList l) k).isSome ↔ k ∈ l.map Prod.fst := by
  induction l using List.reverseRecOn with
  | nil => simp [ofList]
  | append_singleton l e ih =>
      rw [ofList_snoc, get_insert, List.map_append, List.mem_append, ← ih]
      by_cases h : k = e.1
      · simp [h]
      · simp [h]

/-- The value of a key is that of its last entry. -/
theorem get_ofList_of_split {l before after : List (K × V)} {e : K × V} (hl : l = before ++ e :: after)
    (hlast : e.1 ∉ after.map Prod.fst) : get (ofList l) e.1 = some e.2 := by
  subst hl
  induction after using List.reverseRecOn with
  | nil => rw [ofList_snoc, get_insert, if_pos rfl]
  | append_singleton after x ih =>
      rw [List.map_append, List.mem_append, not_or] at hlast
      have hassoc : before ++ e :: (after ++ [x]) = before ++ e :: after ++ [x] := by simp
      rw [hassoc, ofList_snoc, get_insert, if_neg (by simpa using hlast.2)]
      exact ih hlast.1

theorem get_ofList {l : List (K × V)} (hl : (l.map Prod.fst).Nodup) {e : K × V} (he : e ∈ l) :
    get (ofList l) e.1 = some e.2 := by
  obtain ⟨before, after, rfl⟩ := List.append_of_mem he
  apply get_ofList_of_split rfl
  rw [List.map_append, List.map_cons] at hl
  exact (List.nodup_cons.1 (List.nodup_append.1 hl).2.1).1

theorem length_ofList_le (l : List (K × V)) : (ofList l).length ≤ l.length := by
  induction l using List.reverseRecOn with
  | nil => exact Nat.le_refl _
  | append_singleton l e ih =>
      rw [ofList_snoc, length_insert (sorted_ofList l), List.length_append, List.length_singleton]
      split <;> omega

/-- One entry for each entry of the list exactly if no key stands twice. -/
theorem length_ofList_eq_iff (l : List (K × V)) :
    (ofList l).length = l.length ↔ (l.map Prod.fst).Nodup := by
  induction l using List.reverseRecOn with
  | nil => exact iff_of_true rfl List.nodup_nil
  | append_singleton l e ih =>
      have hle := length_ofList_le l
      have hmem := isSome_get_ofList l e.1
      rw [ofList_snoc, length_insert (sorted_ofList l), List.length_append, List.length_singleton,
        List.map_append, List.map_cons, List.map_nil, List.nodup_append]
      split
      · rename_i hsome
        apply iff_of_false (by omega)
        intro h
        exact h.2.2 e.1 (hmem.1 hsome) e.1 (List.mem_singleton.2 rfl) rfl
      · rename_i hnone
        rw [Nat.add_right_cancel_iff, ih]
        constructor
        · intro h
          refine ⟨h, List.nodup_singleton _, fun k hk k' hk' heq => hnone (hmem.2 ?_)⟩
          rw [List.mem_singleton] at hk'
          rw [← hk', ← heq]
          exact hk
        · exact fun h => h.1

end SortedMap

end Pktflow.Lib

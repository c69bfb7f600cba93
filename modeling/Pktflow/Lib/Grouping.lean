import Mathlib.Data.List.Basic
import Mathlib.Data.List.Nodup
import Mathlib.Data.List.Forall2
import Mathlib.Data.List.Induction
import Mathlib.Logic.Function.Basic

/-!
# Groups by key

The elements of a list grouped by a key, the groups in the order in which their keys first occur. Two loops
compute them: one that looks for the row of a key in the list of rows (`forall₂_foldl_upsert`), one that keeps
a map of groups and the order of their keys beside it (`foldl_collectGroup`).
-/

set_option autoImplicit false

namespace Pktflow.Lib

universe u v w

section Grouping

variable {α : Type u} {κ : Type v} {ρ : Type w} [DecidableEq κ] (key : α → κ)

/-- The elements of a key. -/
def ofKey (l : List α) (k : κ) : List α := l.filter fun a => key a = k

/-- One element more. -/
def addKey (ks : List κ) (a : α) : List κ := if key a ∈ ks then ks else ks ++ [key a]

/-- The keys of a list, in the order in which they first occur. -/
def firstKeys (l : List α) : List κ := l.foldl (addKey key) []

/-- The groups of a list. -/
def groups (l : List α) : List (List α) := (firstKeys key l).map (ofKey key l)

variable {key}

theorem firstKeys_snoc (l : List α) (a : α) : firstKeys key (l ++ [a]) = addKey key (firstKeys key l) a := by
  rw [firstKeys, List.foldl_append]
  rfl

theorem ofKey_snoc (l : List α) (a : α) (k : κ) :
    ofKey key (l ++ [a]) k = if key a = k then ofKey key l k ++ [a] else ofKey key l k := by
  rw [ofKey, List.filter_append]
  split
  · rename_i h
    have hone : [a].filter (fun a => decide (key a = k)) = [a] := by simp [h]
    rw [hone, ofKey]
  · rename_i h
    have hnone : [a].filter (fun a => decide (key a = k)) = [] := by simp [h]
    rw [hnone, List.append_nil, ofKey]

theorem mem_ofKey {l : List α} {k : κ} {a : α} : a ∈ ofKey key l k ↔ a ∈ l ∧ key a = k := by
  rw [ofKey, List.mem_filter, decide_eq_true_eq]

theorem mem_firstKeys {l : List α} {k : κ} : k ∈ firstKeys key l ↔ ∃ a ∈ l, key a = k := by
  induction l using List.reverseRecOn with
  | nil => simp [firstKeys]
  | append_singleton l a ih =>
      have hold : (∃ b ∈ l ++ [a], key b = k) ↔ k ∈ firstKeys key l ∨ key a = k := by
        rw [ih]
        simp [or_and_right, exists_or]
      rw [firstKeys_snoc, hold, addKey]
      split
      · rename_i hin
        constructor
        · exact .inl
        · rintro (h | rfl)
          · exact h
          · exact hin
      · rw [List.mem_append, List.mem_singleton, eq_comm]

theorem nodup_firstKeys (l : List α) : (firstKeys key l).Nodup := by
  induction l using List.reverseRecOn with
  | nil => exact List.nodup_nil
  | append_singleton l a ih =>
      rw [firstKeys_snoc, addKey]
      split
      · exact ih
      · rename_i hout
        refine List.nodup_append.2 ⟨ih, List.nodup_singleton _, ?_⟩
        rintro x hx y hy rfl
        exact hout (List.mem_singleton.1 hy ▸ hx)

theorem ofKey_ne_nil {l : List α} {k : κ} (h : k ∈ firstKeys key l) : ofKey key l k ≠ [] := by
  obtain ⟨a, ha, hk⟩ := mem_firstKeys.1 h
  exact List.ne_nil_of_mem (mem_ofKey.2 ⟨ha, hk⟩)

theorem ofKey_eq_nil {l : List α} {k : κ} (h : k ∉ firstKeys key l) : ofKey key l k = [] := by
  apply List.eq_nil_iff_forall_not_mem.2
  intro a ha
  exact h (mem_firstKeys.2 ⟨a, mem_ofKey.1 ha⟩)

/-- Every element is in one group. -/
theorem flatten_groups_perm (l : List α) : (groups key l).flatten.Perm l := by
  have hcount : ∀ ks : List κ, ks.Nodup → (∀ a ∈ l, key a ∈ ks) → (ks.map (ofKey key l)).flatten.Perm l := by
    intro ks hks hall
    induction ks generalizing l with
    | nil =>
        have hnil : l = [] := List.eq_nil_iff_forall_not_mem.2 fun a ha => absurd (hall a ha) List.not_mem_nil
        rw [hnil]
        rfl
    | cons k ks ih =>
        obtain ⟨hk, hrest⟩ := List.nodup_cons.1 hks
        -- the elements of the other keys are grouped by these
        have hother := ih (l := l.filter fun a => key a ≠ k) hrest (by
          intro a ha
          obtain ⟨hmem, hne⟩ := List.mem_filter.1 ha
          rcases List.mem_cons.1 (hall a hmem) with heq | hin
          · exact absurd heq (of_decide_eq_true hne)
          · exact hin)
        have hsame : ks.map (ofKey key (l.filter fun a => key a ≠ k)) = ks.map (ofKey key l) := by
          apply List.map_congr_left
          intro k' hk'
          rw [ofKey, List.filter_filter, ofKey]
          apply List.filter_congr
          intro a _
          by_cases h : key a = k'
          · have hne : k' ≠ k := fun heq => hk (heq ▸ hk')
            simp [h, hne]
          · simp [h]
        rw [hsame] at hother
        rw [List.map_cons, List.flatten_cons]
        apply (hother.append_left _).trans
        have hsplit := List.filter_append_perm (fun a => decide (key a = k)) l
        simpa [ofKey] using hsplit
  exact hcount _ (nodup_firstKeys l) fun a ha => mem_firstKeys.2 ⟨a, ha, rfl⟩

theorem head?_ofKey_snoc {l : List α} {k : κ} (h : k ∈ firstKeys key l) (a : α) :
    (ofKey key (l ++ [a]) k).head? = (ofKey key l k).head? := by
  rw [ofKey_snoc]
  split
  · exact List.head?_append_of_ne_nil _ (ofKey_ne_nil h)
  · rfl

/-- The first elements of the groups stand in the list in the order of the groups. -/
theorem heads_sublist (key : α → κ) (l : List α) :
    ((firstKeys key l).filterMap fun k => (ofKey key l k).head?).Sublist l := by
  induction l using List.reverseRecOn with
  | nil => exact .slnil
  | append_singleton l a ih =>
      have hold : ((firstKeys key l).filterMap fun k => (ofKey key (l ++ [a]) k).head?) =
          (firstKeys key l).filterMap fun k => (ofKey key l k).head? :=
        List.filterMap_congr fun k hk => head?_ofKey_snoc hk a
      rw [firstKeys_snoc, addKey]
      by_cases hin : key a ∈ firstKeys key l
      · rw [if_pos hin, hold]
        exact ih.trans (List.sublist_append_left l [a])
      · have hnew : (ofKey key (l ++ [a]) (key a)).head? = some a := by
          rw [ofKey_snoc, if_pos rfl, ofKey_eq_nil hin]
          rfl
        rw [if_neg hin, List.filterMap_append, hold]
        apply ih.append
        have hone : ([key a].filterMap fun k => (ofKey key (l ++ [a]) k).head?) = [a] := by
          rw [List.filterMap_cons, hnew]
          rfl
        rw [hone]

/-! ## Rows of groups -/

/-- The first row that passes is updated, or a new one added at the end. -/
def upsert (p : ρ → Bool) (update : ρ → ρ) (new : ρ) : List ρ → List ρ
  | [] => [new]
  | r :: rows => if p r then update r :: rows else r :: upsert p update new rows

variable {rowKey : ρ → κ} {R : List α → ρ → Prop} {absorb : ρ → α → ρ} {single : α → ρ}

theorem upsert_new {p : ρ → Bool} {update : ρ → ρ} {new : ρ} {rows : List ρ} (h : ∀ r ∈ rows, p r = false) :
    upsert p update new rows = rows ++ [new] := by
  induction rows with
  | nil => rfl
  | cons r rows ih =>
      rw [upsert, h r List.mem_cons_self, if_neg Bool.false_ne_true, ih fun r' hr' => h r' (List.mem_cons_of_mem r hr'),
        List.cons_append]

/-- The rows are those of the keys. -/
def RowsOf (rowKey : ρ → κ) (R : List α → ρ → Prop) (key : α → κ) (l : List α) (ks : List κ) (rows : List ρ) : Prop :=
  List.Forall₂ (fun k r => rowKey r = k ∧ R (ofKey key l k) r) ks rows

/-- An element of another key leaves the rows. -/
theorem RowsOf.other {l : List α} {ks : List κ} {rows : List ρ} {a : α} (h : RowsOf rowKey R key l ks rows)
    (hout : key a ∉ ks) : RowsOf rowKey R key (l ++ [a]) ks rows := by
  induction h with
  | nil => exact .nil
  | @cons k r ks rows hr _ ih =>
      have hne : key a ≠ k := fun heq => hout (heq ▸ List.mem_cons_self)
      refine .cons ⟨hr.1, ?_⟩ (ih fun hin => hout (List.mem_cons_of_mem k hin))
      rw [ofKey_snoc, if_neg hne]
      exact hr.2

/-- The row of an element's key takes it in, the others stay. -/
theorem RowsOf.upsert_old {l : List α} {ks : List κ} {rows : List ρ} {a : α} (h : RowsOf rowKey R key l ks rows)
    (hks : ks.Nodup) (hin : key a ∈ ks) (hkey : ∀ r, rowKey (absorb r a) = rowKey r)
    (habsorb : ∀ g r, R g r → rowKey r = key a → R (g ++ [a]) (absorb r a)) :
    RowsOf rowKey R key (l ++ [a]) ks
      (upsert (fun r => decide (rowKey r = key a)) (fun r => absorb r a) (single a) rows) := by
  induction h with
  | nil => cases hin
  | @cons k r ks rows hr hrows ih =>
      obtain ⟨hk, hnodup⟩ := List.nodup_cons.1 hks
      by_cases heq : rowKey r = key a
      · have hka : key a = k := heq.symm.trans hr.1
        rw [upsert, decide_eq_true heq, if_pos rfl]
        refine .cons ⟨(hkey r).trans hr.1, ?_⟩ (RowsOf.other hrows (hka ▸ hk))
        rw [ofKey_snoc, if_pos hka]
        exact habsorb _ _ hr.2 heq
      · have hne : key a ≠ k := fun h => heq (hr.1.trans h.symm)
        rw [upsert, decide_eq_false heq, if_neg Bool.false_ne_true]
        refine .cons ⟨hr.1, ?_⟩ (ih hnodup ((List.mem_cons.1 hin).resolve_left hne))
        rw [ofKey_snoc, if_neg hne]
        exact hr.2

/-- The keys of the rows, in order. -/
theorem RowsOf.map_key {l : List α} {ks : List κ} {rows : List ρ} (h : RowsOf rowKey R key l ks rows) :
    rows.map rowKey = ks := by
  induction h with
  | nil => rfl
  | cons hr _ ih => rw [List.map_cons, hr.1, ih]

theorem RowsOf.key_mem {l : List α} {ks : List κ} {rows : List ρ} (h : RowsOf rowKey R key l ks rows) {r : ρ}
    (hr : r ∈ rows) : rowKey r ∈ ks := by
  rw [← h.map_key]
  exact List.mem_map_of_mem hr

/-- The loop that looks for the row of a key makes one row of each group. -/
theorem rowsOf_foldl_upsert (hkey : ∀ r a, rowKey (absorb r a) = rowKey r) (hnew : ∀ a, rowKey (single a) = key a)
    (hsingle : ∀ a, R [a] (single a)) (habsorb : ∀ g r a, R g r → rowKey r = key a → R (g ++ [a]) (absorb r a))
    (l : List α) :
    RowsOf rowKey R key l (firstKeys key l)
      (l.foldl (fun rows a =>
        upsert (fun r => decide (rowKey r = key a)) (fun r => absorb r a) (single a) rows) []) := by
  induction l using List.reverseRecOn with
  | nil => exact .nil
  | append_singleton l a ih =>
      rw [List.foldl_append, firstKeys_snoc, addKey]
      by_cases hin : key a ∈ firstKeys key l
      · rw [if_pos hin]
        exact ih.upsert_old (nodup_firstKeys l) hin (fun r => hkey r a) fun g r => habsorb g r a
      · rw [if_neg hin]
        have hnone : ∀ r ∈ l.foldl (fun rows a =>
            upsert (fun r => decide (rowKey r = key a)) (fun r => absorb r a) (single a) rows) [],
            decide (rowKey r = key a) = false := by
          intro r hr
          apply decide_eq_false
          intro heq
          exact hin (heq ▸ ih.key_mem hr)
        rw [List.foldl_cons, List.foldl_nil, upsert_new hnone]
        refine List.rel_append (ih.other hin) (.cons ⟨hnew a, ?_⟩ .nil)
        rw [ofKey_snoc, if_pos rfl, ofKey_eq_nil hin]
        exact hsingle a

/-- Rows of the keys are rows of the groups. -/
theorem RowsOf.forall₂ {l : List α} {ks : List κ} {rows : List ρ} (h : RowsOf rowKey R key l ks rows) :
    List.Forall₂ R (ks.map (ofKey key l)) rows := by
  rw [List.forall₂_map_left_iff]
  exact h.imp fun _ _ hr => hr.2

/-! ## A map of groups -/

/-- One element of the loop: it is pushed to the group of its key, which is new if it was empty. -/
def collectGroup (key : α → κ) (st : List κ × (κ → List α)) (a : α) : List κ × (κ → List α) :=
  (if (st.2 (key a)).isEmpty then st.1 ++ [key a] else st.1,
    Function.update st.2 (key a) (st.2 (key a) ++ [a]))

/-- The loop that keeps a map finds the keys and their elements. -/
theorem foldl_collectGroup (l : List α) :
    l.foldl (collectGroup key) ([], fun _ => []) = (firstKeys key l, ofKey key l) := by
  induction l using List.reverseRecOn with
  | nil => rfl
  | append_singleton l a ih =>
      rw [List.foldl_append, ih, List.foldl_cons, List.foldl_nil, collectGroup, firstKeys_snoc, addKey]
      refine Prod.ext ?_ ?_
      · by_cases hin : key a ∈ firstKeys key l
        · have hne : (ofKey key l (key a)).isEmpty = false := by simpa using ofKey_ne_nil hin
          simp [hin, hne]
        · simp [hin, ofKey_eq_nil hin]
      · funext k
        dsimp only
        rw [ofKey_snoc]
        by_cases h : key a = k
        · rw [if_pos h, ← h]
          exact Function.update_self _ _ _
        · rw [if_neg h]
          exact Function.update_of_ne (Ne.symm h) _ _

end Grouping

end Pktflow.Lib

import Mathlib.Data.List.Basic
import Mathlib.Data.List.Nodup
import Mathlib.Logic.Function.Basic

/-!
# Ranked forests in a partial map

A forest is a partial map from identifiers to nodes, each with an optional parent, a list of children
and a rank, together with the list of its roots. It is well formed when the parent and child links
mirror each other, ranks grow from parents to children, no two nodes share a rank, and children and
roots are listed in the order of their ranks, hence without repetition.

Adding a node of the next rank below a node of the forest (or as a root) and removing a leaf keep a
forest well formed (`WellFormed.addNode`, `WellFormed.removeLeaf`).
-/

set_option autoImplicit false

namespace Pktflow.Lib.Forest

universe u

variable {κ : Type u}

/-- A node: its links and its rank. -/
@[ext]
structure Node (κ : Type u) where
  parent : Option κ
  children : List κ
  rank : Nat

/-- `c` has a smaller rank than `d` if both are nodes. -/
def RankLt (σ : κ → Option (Node κ)) (c d : κ) : Prop :=
  ∀ m n, σ c = some m → σ d = some n → m.rank < n.rank

/-- A well-formed forest whose ranks are below `bound`. -/
structure WellFormed (σ : κ → Option (Node κ)) (roots : List κ) (bound : Nat) : Prop where
  rank_lt : ∀ {h n}, σ h = some n → n.rank < bound
  rank_inj : ∀ {h k m n}, σ h = some m → σ k = some n → m.rank = n.rank → h = k
  parent_node : ∀ {h n p}, σ h = some n → n.parent = some p →
    ∃ m, σ p = some m ∧ m.rank < n.rank ∧ h ∈ m.children
  child_node : ∀ {h n c}, σ h = some n → c ∈ n.children → ∃ m, σ c = some m ∧ m.parent = some h
  children_sorted : ∀ {h n}, σ h = some n → n.children.Pairwise (RankLt σ)
  mem_roots : ∀ {h}, h ∈ roots ↔ ∃ n, σ h = some n ∧ n.parent = none
  roots_sorted : roots.Pairwise (RankLt σ)

/-- A list in rank order of identifiers that are nodes has no repetition. -/
theorem nodup_of_sorted {σ : κ → Option (Node κ)} {l : List κ} (hs : l.Pairwise (RankLt σ))
    (hn : ∀ h ∈ l, ∃ n, σ h = some n) : l.Nodup := by
  apply hs.imp_of_mem
  intro c d hc _ hlt hcd
  subst hcd
  obtain ⟨n, hσ⟩ := hn c hc
  exact Nat.lt_irrefl _ (hlt n n hσ hσ)

/-- A node is not at an identifier without one. -/
theorem ne_of_fresh {σ : κ → Option (Node κ)} {h i : κ} {n : Node κ} (hi : σ i = none)
    (hn : σ h = some n) : h ≠ i := by
  rintro rfl
  rw [hi] at hn
  cases hn

namespace WellFormed

variable {σ : κ → Option (Node κ)} {roots : List κ} {bound : Nat}

theorem children_nodup (h : WellFormed σ roots bound) {i : κ} {n : Node κ} (hi : σ i = some n) :
    n.children.Nodup := by
  apply nodup_of_sorted (h.children_sorted hi)
  intro c hc
  obtain ⟨m, hm, -⟩ := h.child_node hi hc
  exact ⟨m, hm⟩

theorem roots_nodup (h : WellFormed σ roots bound) : roots.Nodup := by
  apply nodup_of_sorted h.roots_sorted
  intro c hc
  obtain ⟨m, hm, -⟩ := h.mem_roots.1 hc
  exact ⟨m, hm⟩

/-- A child has a larger rank than its parent. -/
theorem rank_lt_child (h : WellFormed σ roots bound) {i c : κ} {n m : Node κ} (hi : σ i = some n)
    (hc : c ∈ n.children) (hm : σ c = some m) : n.rank < m.rank := by
  obtain ⟨m', hm', hp⟩ := h.child_node hi hc
  rw [hm'] at hm
  obtain rfl := Option.some.inj hm
  obtain ⟨n', hn', hlt, -⟩ := h.parent_node hm' hp
  rw [hi] at hn'
  obtain rfl := Option.some.inj hn'
  exact hlt

/-- A node of greatest rank is a leaf. -/
theorem leaf_of_max (h : WellFormed σ roots bound) {i : κ} {n : Node κ} (hi : σ i = some n)
    (hmax : ∀ k m, σ k = some m → m.rank ≤ n.rank) : n.children = [] := by
  cases hc : n.children with
  | nil => rfl
  | cons c cs =>
      have hmem : c ∈ n.children := by rw [hc]; exact List.mem_cons_self
      obtain ⟨m, hm, -⟩ := h.child_node hi hmem
      have hlt := h.rank_lt_child hi hmem hm
      have hle := hmax c m hm
      omega

/-- A node that names a leaf as its parent would be listed among the leaf's children. -/
theorem parent_ne_leaf (w : WellFormed σ roots bound) {i : κ} {n : Node κ}
    (hi : σ i = some n) (hleaf : n.children = []) {h : κ} {m : Node κ} (hm : σ h = some m) :
    m.parent ≠ some i := by
  intro hmp
  obtain ⟨n', hn', -, hmem⟩ := w.parent_node hm hmp
  rw [hi] at hn'
  obtain rfl := Option.some.inj hn'
  rw [hleaf] at hmem
  cases hmem

theorem empty : WellFormed (fun _ : κ => none) [] 0 where
  rank_lt := by intro h n hn; cases hn
  rank_inj := by intro h k m n hm; cases hm
  parent_node := by intro h n p hn; cases hn
  child_node := by intro h n c hn; cases hn
  children_sorted := by intro h n hn; cases hn
  mem_roots := by simp
  roots_sorted := List.Pairwise.nil

end WellFormed

section Operations

variable [DecidableEq κ]

/-- The map with a new leaf `i` of rank `r`; the parent lists it last. -/
def addNode (σ : κ → Option (Node κ)) (i : κ) (parent : Option κ) (r : Nat) : κ → Option (Node κ) :=
  fun h =>
    if h = i then some ⟨parent, [], r⟩
    else if parent = some h then (σ h).map fun n => { n with children := n.children ++ [i] }
    else σ h

/-- The map without the leaf `i`; the parent's list loses it. -/
def removeLeaf (σ : κ → Option (Node κ)) (i : κ) (parent : Option κ) : κ → Option (Node κ) :=
  fun h =>
    if h = i then none
    else if parent = some h then
      (σ h).map fun n => { n with children := n.children.filter fun c => c ≠ i }
    else σ h

variable {σ : κ → Option (Node κ)} {roots : List κ} {bound : Nat} {i : κ} {parent : Option κ}

@[simp] theorem addNode_self (r : Nat) : addNode σ i parent r i = some ⟨parent, [], r⟩ := if_pos rfl

/-- What an old node looks like after the addition. -/
theorem addNode_of_ne {r : Nat} {h : κ} (hi : h ≠ i) {n : Node κ} (hn : addNode σ i parent r h = some n) :
    ∃ m, σ h = some m ∧ n.parent = m.parent ∧ n.rank = m.rank ∧
      n.children = if parent = some h then m.children ++ [i] else m.children := by
  rw [addNode] at hn
  rw [if_neg hi] at hn
  by_cases hp : parent = some h
  · rw [if_pos hp] at hn
    obtain ⟨m, hm, rfl⟩ := Option.map_eq_some_iff.1 hn
    exact ⟨m, hm, rfl, rfl, by rw [if_pos hp]⟩
  · rw [if_neg hp] at hn
    exact ⟨n, hn, rfl, rfl, by rw [if_neg hp]⟩

/-- Every old node is still there after the addition. -/
theorem exists_addNode (parent : Option κ) (r : Nat) {h : κ} (hi : h ≠ i) {m : Node κ} (hm : σ h = some m) :
    ∃ n, addNode σ i parent r h = some n ∧ n.parent = m.parent ∧ n.rank = m.rank ∧
      n.children = if parent = some h then m.children ++ [i] else m.children := by
  rw [addNode]
  rw [if_neg hi]
  by_cases hp : parent = some h
  · exact ⟨{ m with children := m.children ++ [i] }, by rw [if_pos hp, hm]; rfl, rfl, rfl,
      by rw [if_pos hp]⟩
  · exact ⟨m, by rw [if_neg hp, hm], rfl, rfl, by rw [if_neg hp]⟩

/-- What a remaining node looked like before the removal. -/
theorem removeLeaf_of_some {h : κ} {n : Node κ} (hn : removeLeaf σ i parent h = some n) :
    h ≠ i ∧ ∃ m, σ h = some m ∧ n.parent = m.parent ∧ n.rank = m.rank ∧
      n.children = if parent = some h then m.children.filter (fun c => c ≠ i) else m.children := by
  rw [removeLeaf] at hn
  by_cases hi : h = i
  · rw [if_pos hi] at hn
    cases hn
  · rw [if_neg hi] at hn
    refine ⟨hi, ?_⟩
    by_cases hp : parent = some h
    · rw [if_pos hp] at hn
      obtain ⟨m, hm, rfl⟩ := Option.map_eq_some_iff.1 hn
      exact ⟨m, hm, rfl, rfl, by rw [if_pos hp]⟩
    · rw [if_neg hp] at hn
      exact ⟨n, hn, rfl, rfl, by rw [if_neg hp]⟩

/-- Every other node is still there after the removal. -/
theorem exists_removeLeaf (parent : Option κ) {h : κ} (hi : h ≠ i) {m : Node κ} (hm : σ h = some m) :
    ∃ n, removeLeaf σ i parent h = some n ∧ n.parent = m.parent ∧ n.rank = m.rank ∧
      n.children = if parent = some h then m.children.filter (fun c => c ≠ i) else m.children := by
  rw [removeLeaf]
  rw [if_neg hi]
  by_cases hp : parent = some h
  · exact ⟨{ m with children := m.children.filter fun c => c ≠ i }, by rw [if_pos hp, hm]; rfl, rfl,
      rfl, by rw [if_pos hp]⟩
  · exact ⟨m, by rw [if_neg hp, hm], rfl, rfl, by rw [if_neg hp]⟩

/-- Rank comparisons of old nodes survive the addition of a node that is not among them. -/
theorem RankLt.addNode {r : Nat} {c d : κ} (hc : c ≠ i) (hd : d ≠ i) (h : RankLt σ c d) :
    RankLt (addNode σ i parent r) c d := by
  intro m n hm hn
  obtain ⟨m', hm', -, hr, -⟩ := addNode_of_ne hc hm
  obtain ⟨n', hn', -, hr', -⟩ := addNode_of_ne hd hn
  rw [hr, hr']
  exact h m' n' hm' hn'

/-- The new node has a larger rank than every old one. -/
theorem WellFormed.rankLt_new (w : WellFormed σ roots bound) (parent : Option κ) {c : κ} (hc : c ≠ i) :
    RankLt (Forest.addNode σ i parent bound) c i := by
  intro m n hm hn
  obtain ⟨m', hm', -, hr, -⟩ := addNode_of_ne hc hm
  rw [addNode_self] at hn
  obtain rfl := Option.some.inj hn
  rw [hr]
  exact w.rank_lt hm'

theorem RankLt.removeLeaf {c d : κ} (h : RankLt σ c d) (i : κ) (parent : Option κ) :
    RankLt (Forest.removeLeaf σ i parent) c d := by
  intro m n hm hn
  obtain ⟨-, m', hm', -, hr, -⟩ := removeLeaf_of_some hm
  obtain ⟨-, n', hn', -, hr', -⟩ := removeLeaf_of_some hn
  rw [hr, hr']
  exact h m' n' hm' hn'

section Adding

/-- After the addition a node is the new one or an old one. -/
theorem addNode_cases {r : Nat} {h : κ} {n : Node κ} (hn : addNode σ i parent r h = some n) :
    (h = i ∧ n = ⟨parent, [], r⟩) ∨
      (h ≠ i ∧ ∃ m, σ h = some m ∧ n.parent = m.parent ∧ n.rank = m.rank ∧
        n.children = if parent = some h then m.children ++ [i] else m.children) := by
  by_cases hh : h = i
  · subst hh
    rw [addNode_self] at hn
    exact .inl ⟨rfl, (Option.some.inj hn).symm⟩
  · exact .inr ⟨hh, addNode_of_ne hh hn⟩

/-- Old nodes in rank order stay in rank order. -/
theorem sorted_addNode (hi : σ i = none) {r : Nat} {l : List κ} (hl : ∀ c ∈ l, ∃ n, σ c = some n)
    (hs : l.Pairwise (RankLt σ)) : l.Pairwise (RankLt (addNode σ i parent r)) := by
  apply hs.imp_of_mem
  intro c d hc hd hlt
  obtain ⟨m, hm⟩ := hl c hc
  obtain ⟨n, hn⟩ := hl d hd
  exact hlt.addNode (ne_of_fresh hi hm) (ne_of_fresh hi hn)

/-- The new node may be listed after any old nodes in rank order. -/
theorem WellFormed.sorted_snoc_new (w : WellFormed σ roots bound) (hi : σ i = none) {l : List κ}
    (hl : ∀ c ∈ l, ∃ n, σ c = some n) (hs : l.Pairwise (RankLt σ)) :
    (l ++ [i]).Pairwise (RankLt (Forest.addNode σ i parent bound)) := by
  rw [List.pairwise_append]
  refine ⟨sorted_addNode hi hl hs, List.pairwise_singleton _ _, ?_⟩
  intro c hc d hd
  obtain rfl := List.mem_singleton.1 hd
  obtain ⟨m, hm⟩ := hl c hc
  exact w.rankLt_new parent (ne_of_fresh hi hm)

theorem WellFormed.rank_inj_addNode (w : WellFormed σ roots bound) {h k : κ} {m n : Node κ}
    (hm : Forest.addNode σ i parent bound h = some m) (hn : Forest.addNode σ i parent bound k = some n)
    (hr : m.rank = n.rank) : h = k := by
  rcases addNode_cases hm with ⟨rfl, rfl⟩ | ⟨-, m', hm', -, hrm, -⟩
  · rcases addNode_cases hn with ⟨rfl, -⟩ | ⟨-, n', hn', -, hrn, -⟩
    · rfl
    · -- the new rank is above every old one
      have hlt := w.rank_lt hn'
      rw [← hrn, ← hr] at hlt
      exact absurd hlt (Nat.lt_irrefl bound)
  · rcases addNode_cases hn with ⟨rfl, rfl⟩ | ⟨-, n', hn', -, hrn, -⟩
    · have hlt := w.rank_lt hm'
      rw [← hrm, hr] at hlt
      exact absurd hlt (Nat.lt_irrefl bound)
    · exact w.rank_inj hm' hn' (by rw [← hrm, ← hrn, hr])

theorem WellFormed.parent_node_addNode (w : WellFormed σ roots bound) (hi : σ i = none)
    (hp : ∀ p, parent = some p → ∃ m, σ p = some m) {h p : κ} {n : Node κ}
    (hn : Forest.addNode σ i parent bound h = some n) (hnp : n.parent = some p) :
    ∃ m, Forest.addNode σ i parent bound p = some m ∧ m.rank < n.rank ∧ h ∈ m.children := by
  rcases addNode_cases hn with ⟨rfl, rfl⟩ | ⟨-, n', hn', hpar, hr, -⟩
  · -- the new node: its parent lists it last
    obtain ⟨m, hm⟩ := hp p hnp
    obtain ⟨m', hm', -, hr, hc⟩ := exists_addNode parent bound (ne_of_fresh hi hm) hm
    refine ⟨m', hm', ?_, ?_⟩
    · rw [hr]
      exact w.rank_lt hm
    · rw [hc, if_pos hnp]
      exact List.mem_append_right _ List.mem_cons_self
  · rw [hpar] at hnp
    obtain ⟨m, hm, hlt, hmem⟩ := w.parent_node hn' hnp
    obtain ⟨m', hm', -, hr', hc⟩ := exists_addNode parent bound (ne_of_fresh hi hm) hm
    refine ⟨m', hm', ?_, ?_⟩
    · rw [hr, hr']
      exact hlt
    · rw [hc]
      split
      · exact List.mem_append_left _ hmem
      · exact hmem

theorem WellFormed.child_node_addNode (w : WellFormed σ roots bound) (hi : σ i = none) {h c : κ}
    {n : Node κ} (hn : Forest.addNode σ i parent bound h = some n) (hc : c ∈ n.children) :
    ∃ m, Forest.addNode σ i parent bound c = some m ∧ m.parent = some h := by
  rcases addNode_cases hn with ⟨rfl, rfl⟩ | ⟨-, n', hn', -, -, hch⟩
  · cases hc
  · -- an old child, or the new node below the parent it was given
    have hmem : c ∈ n'.children ∨ (c = i ∧ parent = some h) := by
      rw [hch] at hc
      split at hc
      · rename_i hpar
        rcases List.mem_append.1 hc with hc | hc
        · exact .inl hc
        · exact .inr ⟨List.mem_singleton.1 hc, hpar⟩
      · exact .inl hc
    rcases hmem with hmem | ⟨rfl, hpar⟩
    · obtain ⟨m, hm, hmp⟩ := w.child_node hn' hmem
      obtain ⟨m', hm', hpar, -, -⟩ := exists_addNode parent bound (ne_of_fresh hi hm) hm
      exact ⟨m', hm', by rw [hpar, hmp]⟩
    · exact ⟨_, addNode_self bound, hpar⟩

theorem WellFormed.children_sorted_addNode (w : WellFormed σ roots bound) (hi : σ i = none) {h : κ}
    {n : Node κ} (hn : Forest.addNode σ i parent bound h = some n) :
    n.children.Pairwise (RankLt (Forest.addNode σ i parent bound)) := by
  rcases addNode_cases hn with ⟨rfl, rfl⟩ | ⟨-, n', hn', -, -, hch⟩
  · exact List.Pairwise.nil
  · have hl : ∀ c ∈ n'.children, ∃ m, σ c = some m := by
      intro c hc
      obtain ⟨m, hm, -⟩ := w.child_node hn' hc
      exact ⟨m, hm⟩
    rw [hch]
    split
    · exact w.sorted_snoc_new hi hl (w.children_sorted hn')
    · exact sorted_addNode hi hl (w.children_sorted hn')

theorem WellFormed.mem_roots_addNode (w : WellFormed σ roots bound) (hi : σ i = none) {h : κ} :
    (h ∈ if parent = none then roots ++ [i] else roots) ↔
      ∃ n, Forest.addNode σ i parent bound h = some n ∧ n.parent = none := by
  by_cases hh : h = i
  · subst hh
    have hroots : h ∉ roots := by
      intro hmem
      obtain ⟨n, hn, -⟩ := w.mem_roots.1 hmem
      exact ne_of_fresh hi hn rfl
    by_cases hpar : parent = none
    · simp [hpar]
    · simp [hpar, hroots]
  · have hold : (∃ n, Forest.addNode σ i parent bound h = some n ∧ n.parent = none) ↔ h ∈ roots := by
      rw [w.mem_roots]
      constructor
      · rintro ⟨n, hn, hnp⟩
        obtain ⟨m, hm, hpar, -, -⟩ := addNode_of_ne hh hn
        exact ⟨m, hm, by rw [← hpar, hnp]⟩
      · rintro ⟨m, hm, hmp⟩
        obtain ⟨n, hn, hpar, -, -⟩ := exists_addNode parent bound hh hm
        exact ⟨n, hn, by rw [hpar, hmp]⟩
    rw [hold]
    split
    · simp [hh]
    · rfl

/-- Adding a node of the next rank, as a root or below a node of the forest. -/
theorem WellFormed.addNode (w : WellFormed σ roots bound) (hi : σ i = none)
    (hp : ∀ p, parent = some p → ∃ m, σ p = some m) :
    WellFormed (Forest.addNode σ i parent bound) (if parent = none then roots ++ [i] else roots)
      (bound + 1) where
  rank_lt := by
    intro h n hn
    rcases addNode_cases hn with ⟨-, rfl⟩ | ⟨-, m, hm, -, hr, -⟩
    · exact Nat.lt_succ_self bound
    · rw [hr]
      exact Nat.lt_succ_of_lt (w.rank_lt hm)
  rank_inj := w.rank_inj_addNode
  parent_node := w.parent_node_addNode hi hp
  child_node := w.child_node_addNode hi
  children_sorted := w.children_sorted_addNode hi
  mem_roots := w.mem_roots_addNode hi
  roots_sorted := by
    have hl : ∀ c ∈ roots, ∃ m, σ c = some m := by
      intro c hc
      obtain ⟨m, hm, -⟩ := w.mem_roots.1 hc
      exact ⟨m, hm⟩
    split
    · exact w.sorted_snoc_new hi hl w.roots_sorted
    · exact sorted_addNode hi hl w.roots_sorted

end Adding

section Removing

variable {n : Node κ}

theorem WellFormed.parent_node_removeLeaf (w : WellFormed σ roots bound) (hi : σ i = some n)
    (hleaf : n.children = []) {h p : κ} {m : Node κ}
    (hm : Forest.removeLeaf σ i n.parent h = some m) (hmp : m.parent = some p) :
    ∃ q, Forest.removeLeaf σ i n.parent p = some q ∧ q.rank < m.rank ∧ h ∈ q.children := by
  obtain ⟨hne, m', hm', hpar, hr, -⟩ := removeLeaf_of_some hm
  rw [hpar] at hmp
  obtain ⟨q, hq, hlt, hmem⟩ := w.parent_node hm' hmp
  have hpi : p ≠ i := by
    rintro rfl
    exact w.parent_ne_leaf hi hleaf hm' hmp
  obtain ⟨q', hq', -, hr', hc⟩ := exists_removeLeaf n.parent hpi hq
  refine ⟨q', hq', ?_, ?_⟩
  · rw [hr, hr']
    exact hlt
  · rw [hc]
    split
    · exact List.mem_filter.2 ⟨hmem, by simpa using hne⟩
    · exact hmem

theorem WellFormed.child_node_removeLeaf (w : WellFormed σ roots bound) (hi : σ i = some n) {h c : κ}
    {m : Node κ} (hm : Forest.removeLeaf σ i n.parent h = some m) (hc : c ∈ m.children) :
    ∃ q, Forest.removeLeaf σ i n.parent c = some q ∧ q.parent = some h := by
  obtain ⟨-, m', hm', -, -, hch⟩ := removeLeaf_of_some hm
  -- a child other than `i` was a child before; `i` is filtered out of its parent's list
  have hmem : c ∈ m'.children ∧ c ≠ i := by
    rw [hch] at hc
    split at hc
    · simpa using List.mem_filter.1 hc
    · rename_i hnp
      refine ⟨hc, ?_⟩
      rintro rfl
      obtain ⟨q, hq, hqp⟩ := w.child_node hm' hc
      rw [hi] at hq
      obtain rfl := Option.some.inj hq
      exact hnp hqp
  obtain ⟨q, hq, hqp⟩ := w.child_node hm' hmem.1
  obtain ⟨q', hq', hpar, -, -⟩ := exists_removeLeaf n.parent hmem.2 hq
  exact ⟨q', hq', by rw [hpar, hqp]⟩

theorem WellFormed.mem_roots_removeLeaf (w : WellFormed σ roots bound) (hi : σ i = some n) {h : κ} :
    (h ∈ if n.parent = none then roots.filter (fun r => r ≠ i) else roots) ↔
      ∃ m, Forest.removeLeaf σ i n.parent h = some m ∧ m.parent = none := by
  have hold : (∃ m, Forest.removeLeaf σ i n.parent h = some m ∧ m.parent = none) ↔
      h ≠ i ∧ h ∈ roots := by
    rw [w.mem_roots]
    constructor
    · rintro ⟨m, hm, hmp⟩
      obtain ⟨hne, m', hm', hpar, -, -⟩ := removeLeaf_of_some hm
      exact ⟨hne, m', hm', by rw [← hpar, hmp]⟩
    · rintro ⟨hne, m, hm, hmp⟩
      obtain ⟨m', hm', hpar, -, -⟩ := exists_removeLeaf n.parent hne hm
      exact ⟨m', hm', by rw [hpar, hmp]⟩
  rw [hold]
  split
  · simp [and_comm]
  · -- a leaf below a parent is no root, so nothing has to go
    rename_i hnp
    have hiroots : i ∉ roots := by
      intro hmem
      obtain ⟨m, hm, hmp⟩ := w.mem_roots.1 hmem
      rw [hi] at hm
      obtain rfl := Option.some.inj hm
      exact hnp hmp
    constructor
    · intro hmem
      exact ⟨fun hhi => hiroots (hhi ▸ hmem), hmem⟩
    · exact fun hmem => hmem.2

/-- Removing a leaf. -/
theorem WellFormed.removeLeaf (w : WellFormed σ roots bound) (hi : σ i = some n)
    (hleaf : n.children = []) :
    WellFormed (Forest.removeLeaf σ i n.parent)
      (if n.parent = none then roots.filter (fun r => r ≠ i) else roots) bound where
  rank_lt := by
    intro h m hm
    obtain ⟨-, m', hm', -, hr, -⟩ := removeLeaf_of_some hm
    rw [hr]
    exact w.rank_lt hm'
  rank_inj := by
    intro h k m n' hm hn' hr
    obtain ⟨-, m₁, hm₁, -, hr₁, -⟩ := removeLeaf_of_some hm
    obtain ⟨-, m₂, hm₂, -, hr₂, -⟩ := removeLeaf_of_some hn'
    exact w.rank_inj hm₁ hm₂ (by rw [← hr₁, ← hr₂, hr])
  parent_node := w.parent_node_removeLeaf hi hleaf
  child_node := w.child_node_removeLeaf hi
  children_sorted := by
    intro h m hm
    obtain ⟨-, m', hm', -, -, hch⟩ := removeLeaf_of_some hm
    have hs := (w.children_sorted hm').imp fun {c d} hlt => hlt.removeLeaf i n.parent
    rw [hch]
    split
    · exact hs.filter _
    · exact hs
  mem_roots := w.mem_roots_removeLeaf hi
  roots_sorted := by
    have hs := w.roots_sorted.imp fun {c d} hlt => hlt.removeLeaf i n.parent
    split
    · exact hs.filter _
    · exact hs

end Removing

end Operations

end Pktflow.Lib.Forest

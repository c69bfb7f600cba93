import Mathlib.Logic.Relation
import Mathlib.Data.List.Nodup

/-!
# Walks over a forest

A node of a forest is walked before the nodes below it, the children of a node in the order they are
listed. With fuel above the height of a node, its walk lists exactly what lies below it (`Forest.mem_walk`);
and as no node has two parents, nothing twice (`Forest.nodup_walks`). A walk that stops at a number of rows
lists the first rows (`capped_foldl`).
-/

set_option autoImplicit false

namespace Pktflow.Lib.Preorder

universe u v w

variable {α : Type u}

/-- The walk from a node, with fuel for its height. -/
def walk (kids : α → List α) : Nat → α → List α
  | 0, _ => []
  | n + 1, a => a :: (kids a).flatMap (walk kids n)

/-- The walks from the roots. -/
def walks (kids : α → List α) (n : Nat) (roots : List α) : List α := roots.flatMap (walk kids n)

/-- `b` lies below `a`, or is `a`, by nodes of the forest. -/
def Below (P : α → Prop) (kids : α → List α) (a b : α) : Prop :=
  Relation.ReflTransGen (fun p c => P p ∧ c ∈ kids p) a b

/-- A forest of the nodes `P`: children are lower nodes, and have one parent each and one place. -/
structure Forest (P : α → Prop) (kids : α → List α) (height : α → Nat) : Prop where
  closed : ∀ {p c : α}, P p → c ∈ kids p → P c
  lower : ∀ {p c : α}, P p → c ∈ kids p → height c < height p
  nodup : ∀ {p : α}, P p → (kids p).Nodup
  unique : ∀ {p q c : α}, P p → P q → c ∈ kids p → c ∈ kids q → p = q

section Walk

variable {P : α → Prop} {kids kids' : α → List α} {height : α → Nat} {a b c : α} {n : Nat} {roots : List α}

/-- Walks agree where the children do. -/
theorem walk_congr (hclosed : ∀ {p c : α}, P p → c ∈ kids p → P c) (hkids : ∀ p, P p → kids p = kids' p)
    (n : Nat) (ha : P a) : walk kids n a = walk kids' n a := by
  induction n generalizing a with
  | zero => rfl
  | succ n ih =>
      rw [walk, walk, ← hkids a ha]
      congr 1
      apply List.flatMap_congr
      intro c hc
      exact ih (hclosed ha hc)

theorem walks_congr (hclosed : ∀ {p c : α}, P p → c ∈ kids p → P c) (hkids : ∀ p, P p → kids p = kids' p)
    (n : Nat) (hroots : ∀ r ∈ roots, P r) : walks kids n roots = walks kids' n roots := by
  apply List.flatMap_congr
  intro r hr
  exact walk_congr hclosed hkids n (hroots r hr)

/-- A walk that does not go below the nodes of `cut` lists the nodes without such a node above, where `p`
says which nodes these are. -/
theorem walk_pruned {cut p : α → Bool} (hclosed : ∀ {a c : α}, P a → c ∈ kids a → P c)
    (hp : ∀ {a c : α}, P a → c ∈ kids a → (p c = true ↔ p a = true ∧ cut a = false)) (n : Nat) (ha : P a) :
    (p a = true → walk (fun a => if cut a then [] else kids a) n a = (walk kids n a).filter p) ∧
      (p a = false → (walk kids n a).filter p = []) := by
  induction n generalizing a with
  | zero => exact ⟨fun _ => rfl, fun _ => rfl⟩
  | succ n ih =>
      -- below a node that is cut or hidden nothing is listed
      have hhidden : (p a = false ∨ cut a = true) → (kids a).flatMap (fun c => (walk kids n c).filter p) = [] := by
        intro hcut
        rw [List.flatMap_eq_nil_iff]
        intro c hc
        apply (ih (hclosed ha hc)).2
        rw [Bool.eq_false_iff]
        intro hpc
        obtain ⟨hpa, hca⟩ := (hp ha hc).1 hpc
        rcases hcut with hfalse | htrue
        · rw [hpa] at hfalse
          cases hfalse
        · rw [hca] at htrue
          cases htrue
      simp only [walk]
      refine ⟨fun hpa => ?_, fun hpa => ?_⟩
      · rw [List.filter_cons_of_pos hpa, List.filter_flatMap]
        congr 1
        cases hcut : cut a with
        | true =>
            rw [hhidden (.inr hcut)]
            rfl
        | false =>
            rw [if_neg Bool.false_ne_true]
            apply List.flatMap_congr
            intro c hc
            exact (ih (hclosed ha hc)).1 ((hp ha hc).2 ⟨hpa, hcut⟩)
      · rw [List.filter_cons_of_neg (by simp [hpa]), List.filter_flatMap]
        exact hhidden (.inl hpa)

theorem walks_pruned {cut p : α → Bool} (hclosed : ∀ {a c : α}, P a → c ∈ kids a → P c)
    (hp : ∀ {a c : α}, P a → c ∈ kids a → (p c = true ↔ p a = true ∧ cut a = false)) (n : Nat)
    (hroots : ∀ r ∈ roots, P r ∧ p r = true) :
    walks (fun a => if cut a then [] else kids a) n roots = (walks kids n roots).filter p := by
  rw [walks, walks, List.filter_flatMap]
  apply List.flatMap_congr
  intro r hr
  exact (walk_pruned hclosed hp n (hroots r hr).1).1 (hroots r hr).2

namespace Forest

theorem below_height (h : Forest P kids height) (hb : Below P kids a b) : height b ≤ height a := by
  induction hb with
  | refl => exact Nat.le_refl _
  | tail _ hc ih => exact Nat.le_trans (Nat.le_of_lt (h.lower hc.1 hc.2)) ih

/-- The walk lists what lies below. -/
theorem mem_walk (h : Forest P kids height) (ha : P a) (hn : height a < n) :
    b ∈ walk kids n a ↔ Below P kids a b := by
  induction n generalizing a with
  | zero => exact absurd hn (Nat.not_lt_zero _)
  | succ n ih =>
      have hstep : b ∈ walk kids (n + 1) a ↔ a = b ∨ ∃ c, c ∈ kids a ∧ b ∈ walk kids n c := by
        simp only [walk, List.mem_cons, List.mem_flatMap]
        exact or_congr_left eq_comm
      rw [hstep, Below, Relation.ReflTransGen.cases_head_iff]
      apply or_congr_right
      apply exists_congr
      intro c
      rw [and_iff_right ha]
      apply and_congr_right
      intro hc
      have hheight := h.lower ha hc
      exact ih (h.closed ha hc) (by omega)

/-- Of two nodes above one node, one is above the other. -/
theorem below_total (h : Forest P kids height) {p q : α} (hp : Below P kids p b) (hq : Below P kids q b) :
    Below P kids p q ∨ Below P kids q p := by
  have hunique : Relator.RightUnique (Function.swap fun p c => P p ∧ c ∈ kids p) := by
    intro c p q hp hq
    exact h.unique hp.1 hq.1 hp.2 hq.2
  have htotal := Relation.ReflTransGen.total_of_right_unique hunique (Relation.reflTransGen_swap.2 hp)
    (Relation.reflTransGen_swap.2 hq)
  rcases htotal with hpq | hqp
  · exact .inr (Relation.reflTransGen_swap.1 hpq)
  · exact .inl (Relation.reflTransGen_swap.1 hqp)

/-- A child of a node is not below another one. -/
theorem siblings (h : Forest P kids height) (ha : P a) (hb : b ∈ kids a) (hc : c ∈ kids a)
    (hbelow : Below P kids b c) : b = c := by
  rcases Relation.ReflTransGen.cases_tail hbelow with heq | ⟨d, hd, hcd⟩
  · exact heq.symm
  · have heq : a = d := h.unique ha hcd.1 hc hcd.2
    rw [← heq] at hd
    have hle : height a ≤ height b := h.below_height hd
    have hlt := h.lower ha hb
    omega

/-- The walks from nodes of which none is below another. -/
theorem nodup_flatMap_walk (h : Forest P kids height) {l : List α} (hl : ∀ x ∈ l, P x ∧ height x < n)
    (hnodup : l.Nodup) (hwalk : ∀ x ∈ l, (walk kids n x).Nodup)
    (hbelow : ∀ x ∈ l, ∀ y ∈ l, Below P kids x y → x = y) : (l.flatMap (walk kids n)).Nodup := by
  refine List.nodup_flatMap.2 ⟨hwalk, ?_⟩
  apply hnodup.imp_of_mem
  intro x y hx hy hne z hz hz'
  have hzx := (h.mem_walk (hl x hx).1 (hl x hx).2).1 hz
  have hzy := (h.mem_walk (hl y hy).1 (hl y hy).2).1 hz'
  rcases h.below_total hzx hzy with hxy | hyx
  · exact hne (hbelow x hx y hy hxy)
  · exact hne (hbelow y hy x hx hyx).symm

theorem nodup_walk (h : Forest P kids height) (ha : P a) (hn : height a < n) : (walk kids n a).Nodup := by
  induction n generalizing a with
  | zero => exact absurd hn (Nat.not_lt_zero _)
  | succ n ih =>
      have hkid : ∀ c ∈ kids a, P c ∧ height c < n := by
        intro c hc
        have hlt := h.lower ha hc
        exact ⟨h.closed ha hc, by omega⟩
      refine List.nodup_cons.2 ⟨?_, h.nodup_flatMap_walk hkid (h.nodup ha) ?_ ?_⟩
      · intro hmem
        obtain ⟨c, hc, hac⟩ := List.mem_flatMap.1 hmem
        have hle := h.below_height ((h.mem_walk (hkid c hc).1 (hkid c hc).2).1 hac)
        have hlt := h.lower ha hc
        omega
      · exact fun c hc => ih (hkid c hc).1 (hkid c hc).2
      · exact fun x hx y hy => h.siblings ha hx hy

theorem mem_walks (h : Forest P kids height) (hroots : ∀ r ∈ roots, P r ∧ height r < n) :
    b ∈ walks kids n roots ↔ ∃ r ∈ roots, Below P kids r b := by
  rw [walks, List.mem_flatMap]
  apply exists_congr
  intro r
  apply and_congr_right
  intro hr
  exact h.mem_walk (hroots r hr).1 (hroots r hr).2

/-- The walks from roots, which are nobody's children. -/
theorem nodup_walks (h : Forest P kids height) (hroots : ∀ r ∈ roots, P r ∧ height r < n)
    (hnodup : roots.Nodup) (htop : ∀ r ∈ roots, ∀ p, P p → r ∉ kids p) : (walks kids n roots).Nodup := by
  apply h.nodup_flatMap_walk hroots hnodup (fun r hr => h.nodup_walk (hroots r hr).1 (hroots r hr).2)
  intro x _ y hy hxy
  rcases Relation.ReflTransGen.cases_tail hxy with heq | ⟨d, -, hd⟩
  · exact heq.symm
  · exact absurd hd.2 (htop y hy d hd.1)

end Forest

end Walk

/-! ## Rows -/

/-- Numbers beside the elements do not change what is listed. -/
theorem flatMap_zipIdx {β : Type v} (l : List β) (f : β → List α) :
    l.zipIdx.flatMap (fun e => f e.1) = l.flatMap f := by
  conv_rhs => rw [← List.zipIdx_map_fst 0 l]
  rw [List.flatMap_map]

/-- A loop whose steps add rows of their own. -/
theorem foldl_rows {ρ : Type v} {β : Type w} {proj : ρ → α} {f : List ρ → β → List ρ} (own : β → List α)
    (hf : ∀ rows b, (f rows b).map proj = rows.map proj ++ own b) (l : List β) (rows : List ρ) :
    (l.foldl f rows).map proj = rows.map proj ++ l.flatMap own := by
  induction l generalizing rows with
  | nil => simp
  | cons b l ih => rw [List.foldl_cons, ih, hf, List.flatMap_cons, List.append_assoc]

/-! ## A cap on the rows -/

/-- The rows after a step are those before it and the step's own, up to the cap. -/
def Caps {ρ : Type v} (cap : Nat) (proj : ρ → α) (before after : List ρ) (own : List α) : Prop :=
  after.length ≤ cap ∧ after.map proj = (before.map proj ++ own).take cap

theorem Caps.full {ρ : Type v} {cap : Nat} {proj : ρ → α} {rows : List ρ} (h : rows.length ≤ cap)
    (hfull : cap ≤ rows.length) (own : List α) : Caps cap proj rows rows own := by
  refine ⟨h, ?_⟩
  rw [List.take_append_of_le_length (by simpa using hfull), List.take_of_length_le (by simpa using h)]

theorem take_take_append (n : Nat) (l m : List α) : (l.take n ++ m).take n = (l ++ m).take n := by
  rw [List.take_append, List.take_take, Nat.min_self, List.length_take, List.take_append]
  congr 2
  omega

/-- A loop that stops when the rows are full. -/
theorem capped_foldl {ρ : Type v} {β : Type w} {cap : Nat} {proj : ρ → α} {f : List ρ → β → List ρ}
    (own : β → List α) (hf : ∀ rows b, rows.length ≤ cap → Caps cap proj rows (f rows b) (own b))
    (l : List β) (rows : List ρ) (h : rows.length ≤ cap) :
    Caps cap proj rows (l.foldl (fun rows b => if cap ≤ rows.length then rows else f rows b) rows)
      (l.flatMap own) := by
  induction l generalizing rows with
  | nil => exact ⟨h, by rw [List.flatMap_nil, List.append_nil, List.take_of_length_le (by simpa using h)]; rfl⟩
  | cons b l ih =>
      rw [List.foldl_cons, List.flatMap_cons]
      by_cases hfull : cap ≤ rows.length
      · rw [if_pos hfull]
        obtain ⟨hlen, hmap⟩ := ih rows h
        refine ⟨hlen, ?_⟩
        rw [hmap, List.take_append_of_le_length (by simpa using hfull),
          List.take_append_of_le_length (by simpa using hfull)]
      · rw [if_neg hfull]
        obtain ⟨hlen, hmap⟩ := hf rows b h
        obtain ⟨hlen', hmap'⟩ := ih (f rows b) hlen
        refine ⟨hlen', ?_⟩
        -- what the first step had no room for, the others have none for either
        rw [hmap', hmap, ← List.append_assoc, take_take_append]

end Pktflow.Lib.Preorder

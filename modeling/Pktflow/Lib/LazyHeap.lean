import Pktflow.Lib.MinHeap
import Mathlib.Algebra.Order.BigOperators.Group.List
import Mathlib.Algebra.Ring.Nat

/-!
# Lazily maintained priority queues

A heap whose entries are not updated when the value they were pushed for changes. `cur` gives the
current value of each key that matters; an entry names a key and may be out of date, may name a key
that no longer matters, and may have duplicates. What makes such a heap usable is that no key is
forgotten: `Covers` says that each key has an entry in the relation `R` to its current value. With `R`
the order, an entry that is popped is below every current value (`Covers.exists_of_pop`).
-/

set_option autoImplicit false

namespace Pktflow.Lib.LazyHeap

universe u v w

variable {ε : Type u} {κ : Type v} {β : Type w} [LinearOrder ε]

/-- Each key with a current value has an entry that is in the relation `R` to it. -/
def Covers (name : ε → κ) (R : ε → β → Prop) (h : MinHeap ε) (cur : κ → Option β) : Prop :=
  ∀ k b, cur k = some b → ∃ e ∈ h.entries, name e = k ∧ R e b

namespace Covers

variable {name : ε → κ} {R : ε → β → Prop} {h t : MinHeap ε} {cur cur' : κ → Option β}

/-- Without current values there is nothing to cover. -/
theorem of_none (h : MinHeap ε) (hcur : ∀ k, cur k = none) : Covers name R h cur := by
  intro k b hb
  rw [hcur] at hb
  cases hb

/-- The current values may move as long as the entries stay related to them. -/
theorem mono (hc : Covers name R h cur)
    (hcur : ∀ k b, cur' k = some b → ∃ b₀, cur k = some b₀ ∧ ∀ e, R e b₀ → R e b) :
    Covers name R h cur' := by
  intro k b hb
  obtain ⟨b₀, hb₀, hR⟩ := hcur k b hb
  obtain ⟨e, he, hk, hRe⟩ := hc k b₀ hb₀
  exact ⟨e, he, hk, hR e hRe⟩

/-- More entries cover no less. -/
theorem push (hc : Covers name R h cur) (e : ε) : Covers name R (h.push e) cur := by
  intro k b hb
  obtain ⟨x, hx, hk, hR⟩ := hc k b hb
  exact ⟨x, MinHeap.mem_push.2 (.inr hx), hk, hR⟩

/-- A push pays for one key whose value is new. -/
theorem push_new (hc : Covers name R h cur) (e : ε)
    (hcur : ∀ k b, cur' k = some b → cur k = some b ∨ (name e = k ∧ R e b)) :
    Covers name R (h.push e) cur' := by
  intro k b hb
  rcases hcur k b hb with hold | ⟨hk, hR⟩
  · exact hc.push e k b hold
  · exact ⟨e, MinHeap.mem_push.2 (.inl rfl), hk, hR⟩

/-- After a pop the keys other than the popped one are still covered. -/
theorem pop {x : ε} (hc : Covers name R h cur) (hp : h.pop = some (x, t))
    (hcur : ∀ k b, cur' k = some b → k ≠ name x ∧ cur k = some b) : Covers name R t cur' := by
  intro k b hb
  obtain ⟨hne, hold⟩ := hcur k b hb
  obtain ⟨e, he, hk, hR⟩ := hc k b hold
  rcases (MinHeap.mem_of_pop hp).1 he with rfl | he
  · exact absurd hk.symm hne
  · exact ⟨e, he, hk, hR⟩

/-- A popped entry whose key has no current value is not missed. -/
theorem pop_dead {x : ε} (hc : Covers name R h cur) (hp : h.pop = some (x, t))
    (hx : cur (name x) = none) : Covers name R t cur := by
  refine hc.pop hp fun k b hb => ⟨?_, hb⟩
  rintro rfl
  rw [hx] at hb
  cases hb

/-- A popped entry may be replaced by one that is related to the current value of its key. -/
theorem pop_push {x y : ε} {b : β} (hc : Covers name R h cur) (hp : h.pop = some (x, t))
    (hx : cur (name x) = some b) (hy : name y = name x) (hR : R y b) :
    Covers name R (t.push y) cur := by
  intro k c hk
  obtain ⟨e, he, hek, hRe⟩ := hc k c hk
  rcases (MinHeap.mem_of_pop hp).1 he with rfl | he
  · -- the key lost its entry and gets the new one
    subst hek
    rw [hx] at hk
    obtain rfl := Option.some.inj hk
    exact ⟨y, MinHeap.mem_push.2 (.inl rfl), hy, hR⟩
  · exact ⟨e, MinHeap.mem_push.2 (.inr he), hek, hRe⟩

/-- The entry of a key comes no earlier than the popped one. -/
theorem exists_of_pop {x : ε} (hc : Covers name R h cur) (hp : h.pop = some (x, t)) {k : κ} {b : β}
    (hk : cur k = some b) : ∃ e, name e = k ∧ x ≤ e ∧ R e b := by
  obtain ⟨e, he, hek, hR⟩ := hc k b hk
  exact ⟨e, hek, MinHeap.le_of_pop hp he, hR⟩

end Covers

/-! ## Weights -/

/-- The sum of a weight over the entries of a heap. -/
def weight (f : ε → Nat) (h : MinHeap ε) : Nat := (h.entries.map f).sum

variable {f : ε → Nat} {h t : MinHeap ε} {x : ε}

theorem weight_push (f : ε → Nat) (h : MinHeap ε) (x : ε) : weight f (h.push x) = f x + weight f h := by
  unfold weight
  rw [((h.perm_push x).map f).sum_eq, List.map_cons, List.sum_cons]

theorem weight_of_pop (f : ε → Nat) (hp : h.pop = some (x, t)) : weight f h = f x + weight f t := by
  unfold weight
  rw [MinHeap.entries_of_pop hp, List.map_cons, List.sum_cons]

/-- Entries of weight at most `n`. -/
theorem weight_le (n : Nat) (hf : ∀ e, f e ≤ n) (h : MinHeap ε) : weight f h ≤ n * h.length := by
  unfold weight MinHeap.length
  induction h.entries with
  | nil => exact Nat.le_refl _
  | cons e l ih =>
      rw [List.map_cons, List.sum_cons, List.length_cons, Nat.mul_succ]
      have he := hf e
      omega

end Pktflow.Lib.LazyHeap

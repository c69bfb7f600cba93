import Mathlib.Data.List.Sort
import Mathlib.Order.Lattice

/-!
# Min-heaps as sorted lists

A priority queue over a linear order: `push` adds an entry, `pop` removes a least one. The entries
are kept as a sorted list, duplicates included, and the sortedness is a field, so the head of the
list is a least entry (`le_of_pop`).
-/

set_option autoImplicit false

namespace Pktflow.Lib

universe u

/-- A multiset of entries, listed in nondecreasing order. -/
structure MinHeap (α : Type u) [LinearOrder α] where
  entries : List α
  sorted : entries.Pairwise (· ≤ ·)

namespace MinHeap

variable {α : Type u} [LinearOrder α]

/-- The heap without entries. -/
def empty : MinHeap α := ⟨[], List.Pairwise.nil⟩

/-- Adds one entry. -/
def push (h : MinHeap α) (x : α) : MinHeap α :=
  ⟨h.entries.orderedInsert (· ≤ ·) x, h.sorted.orderedInsert x h.entries⟩

/-- A least entry and the heap without it. -/
def pop (h : MinHeap α) : Option (α × MinHeap α) :=
  match h with
  | ⟨[], _⟩ => none
  | ⟨x :: xs, hs⟩ => some (x, ⟨xs, hs.of_cons⟩)

/-- The heap of the entries of a list. -/
def ofList (l : List α) : MinHeap α :=
  ⟨l.insertionSort (· ≤ ·), List.pairwise_insertionSort (· ≤ ·) l⟩

/-- Number of entries. -/
def length (h : MinHeap α) : Nat := h.entries.length

@[simp] theorem mem_push {h : MinHeap α} {x y : α} : y ∈ (h.push x).entries ↔ y = x ∨ y ∈ h.entries := by
  simp [push]

@[simp] theorem mem_ofList {l : List α} {x : α} : x ∈ (ofList l).entries ↔ x ∈ l := by
  simp [ofList]

@[simp] theorem length_push (h : MinHeap α) (x : α) : (h.push x).length = h.length + 1 := by
  simp [push, length, List.orderedInsert_length]

@[simp] theorem length_ofList (l : List α) : (ofList l).length = l.length := by
  simp [ofList, length, List.length_insertionSort]

/-- The entries of a push, up to their order. -/
theorem perm_push (h : MinHeap α) (x : α) : (h.push x).entries.Perm (x :: h.entries) :=
  List.perm_orderedInsert _ x h.entries

/-- A pop splits the entry list at its head. -/
theorem entries_of_pop {h t : MinHeap α} {x : α} (hp : h.pop = some (x, t)) :
    h.entries = x :: t.entries := by
  rcases h with ⟨l, hl⟩
  cases l with
  | nil => simp [pop] at hp
  | cons y ys =>
      simp only [pop, Option.some.injEq, Prod.mk.injEq] at hp
      obtain ⟨rfl, rfl⟩ := hp
      rfl

/-- Only the empty heap has nothing to pop. -/
theorem pop_eq_none {h : MinHeap α} : h.pop = none ↔ h.entries = [] := by
  rcases h with ⟨l, hl⟩
  cases l with
  | nil => simp [pop]
  | cons y ys => simp [pop]

/-- The popped entry is a least one. -/
theorem le_of_pop {h t : MinHeap α} {x y : α} (hp : h.pop = some (x, t)) (hy : y ∈ h.entries) :
    x ≤ y := by
  have hs := h.sorted
  rw [entries_of_pop hp] at hs hy
  rcases List.mem_cons.1 hy with rfl | hy
  · exact le_refl y
  · exact (List.pairwise_cons.1 hs).1 y hy

theorem mem_of_pop {h t : MinHeap α} {x y : α} (hp : h.pop = some (x, t)) :
    y ∈ h.entries ↔ y = x ∨ y ∈ t.entries := by
  rw [entries_of_pop hp, List.mem_cons]

theorem length_of_pop {h t : MinHeap α} {x : α} (hp : h.pop = some (x, t)) :
    h.length = t.length + 1 := by
  simp [length, entries_of_pop hp]

end MinHeap

end Pktflow.Lib

import Mathlib.Data.List.Basic
import Mathlib.Data.List.Perm.Basic
import Mathlib.Logic.Function.Basic

/-!
# Generational arenas

An arena is a list of slots, each with a generation number and at most one value, and a stack of the
indices of empty slots. A handle names a slot and the generation it was issued for; a lookup through
a handle of another generation finds nothing. Indices and generations are machine words below `lim`:
the index of a grown slot saturates at `lim - 1` and generations wrap around.

The stack of free indices is exact by construction: it lists the empty slots, each once.

Below the limit, the operations act on the partial map `get` from handles to values as point updates
(`get_modify`, `get_insert`, `get_remove`) and on the list of values as replacing, adding and removing
one entry (`values_modify`, `values_insert`, `values_remove`). `Issued` ties the generation of a slot to
the number of values it has been given to.
-/

set_option autoImplicit false

namespace Pktflow.Lib

universe u v

/-- A slot: the generation of its next or current value, and the value. -/
structure Slot (α : Type u) where
  generation : Nat
  value : Option α
  deriving Repr

/-- A reference to a value: a slot and the generation the value was stored with. -/
@[ext]
structure Handle where
  index : Nat
  generation : Nat
  deriving DecidableEq, Repr

/-- Slots, and the indices of the empty ones. -/
structure Arena (α : Type u) where
  slots : List (Slot α)
  free : List Nat
  free_nodup : free.Nodup
  mem_free : ∀ i, i ∈ free ↔ ∃ s, slots[i]? = some s ∧ s.value = none

namespace Arena

variable {α : Type u}

/-- The arena without slots. -/
def empty : Arena α where
  slots := []
  free := []
  free_nodup := List.nodup_nil
  mem_free := by simp

/-- Generation-checked lookup. -/
def get (ar : Arena α) (h : Handle) : Option α :=
  match ar.slots[h.index]? with
  | none => none
  | some s => if s.generation = h.generation then s.value else none

/-- The values of the occupied slots, in slot order. -/
def values (ar : Arena α) : List α := ar.slots.filterMap Slot.value

/-- The handle the next insertion issues: the top of the free stack with its slot's generation, or a
slot grown at the end, its index saturating below `lim`. -/
def nextHandle (lim : Nat) (ar : Arena α) : Handle :=
  match ar.free with
  | i :: _ => ⟨i, (ar.slots[i]?.map Slot.generation).getD 0⟩
  | [] => ⟨if ar.slots.length < lim then ar.slots.length else lim - 1, 0⟩

/-- Updates the value behind a handle, if the lookup succeeds. -/
def modify (ar : Arena α) (h : Handle) (f : α → α) : Arena α where
  slots := ar.slots.modify h.index fun s =>
    if s.generation = h.generation then ⟨s.generation, s.value.map f⟩ else s
  free := ar.free
  free_nodup := ar.free_nodup
  mem_free := by
    intro i
    rw [ar.mem_free, List.getElem?_modify]
    cases hi : ar.slots[i]? with
    | none => simp
    | some s =>
        by_cases hx : h.index = i
        · by_cases hg : s.generation = h.generation <;> simp [hx, hg]
        · simp [hx]

/-- Slots after storing `v` at index `i`: the slot there is filled, or a slot is grown. -/
def fillSlot (slots : List (Slot α)) (i : Nat) (v : α) : List (Slot α) :=
  if i < slots.length then slots.modify i fun s => ⟨s.generation, some v⟩
  else slots ++ [⟨0, some v⟩]

theorem getElem?_fillSlot_ne {slots : List (Slot α)} {i j : Nat} {v : α}
    (h : i ≠ j) (hi : i ≤ slots.length) : (fillSlot slots i v)[j]? = slots[j]? := by
  rw [fillSlot]
  split
  · simp [h]
  · rename_i hlt
    rw [List.getElem?_append]
    split
    · rfl
    · rename_i hj
      have hlen : j - slots.length ≠ 0 := by omega
      rw [List.getElem?_eq_none (by omega : slots.length ≤ j)]
      simp [hlen]

theorem getElem?_fillSlot_self {slots : List (Slot α)} {i : Nat} {v : α}
    (hi : i ≤ slots.length) :
    (fillSlot slots i v)[i]? = some ⟨(slots[i]?.map Slot.generation).getD 0, some v⟩ := by
  rw [fillSlot]
  split
  · rename_i hlt
    simp [List.getElem?_eq_getElem hlt]
  · rename_i hlt
    have hlen : i = slots.length := by omega
    subst hlen
    simp

/-- Stores a value under the next handle. -/
def insert (lim : Nat) (ar : Arena α) (v : α) : Arena α where
  slots := fillSlot ar.slots (ar.nextHandle lim).index v
  free := ar.free.tail
  free_nodup := ar.free_nodup.tail
  mem_free := by
    intro j
    have hmem := ar.mem_free
    have hnd := ar.free_nodup
    unfold nextHandle
    cases hf : ar.free with
    | cons i rest =>
        rw [hf] at hmem hnd
        obtain ⟨s, hs, -⟩ := (hmem i).1 List.mem_cons_self
        have hlt : i < ar.slots.length := (List.getElem?_eq_some_iff.1 hs).1
        by_cases hij : i = j
        · subst hij
          simp [getElem?_fillSlot_self (Nat.le_of_lt hlt), (List.nodup_cons.1 hnd).1]
        · rw [getElem?_fillSlot_ne hij (Nat.le_of_lt hlt), ← hmem j]
          simp [Ne.symm hij]
    | nil =>
        rw [hf] at hmem
        simp only [List.tail_nil, List.not_mem_nil, false_iff, not_exists, not_and]
        have hnone : ∀ s, ar.slots[j]? = some s → s.value ≠ none := fun s hs hv =>
          List.not_mem_nil ((hmem j).2 ⟨s, hs, hv⟩)
        intro s hs
        generalize hi : (if ar.slots.length < lim then ar.slots.length else lim - 1) = i at hs
        have hle : i ≤ ar.slots.length := by split at hi <;> omega
        by_cases hij : i = j
        · subst hij
          rw [getElem?_fillSlot_self hle] at hs
          obtain rfl := Option.some.inj hs
          simp
        · rw [getElem?_fillSlot_ne hij hle] at hs
          exact hnone s hs

theorem get_eq_some_iff {ar : Arena α} {h : Handle} {v : α} :
    ar.get h = some v ↔ ar.slots[h.index]? = some ⟨h.generation, some v⟩ := by
  rw [get]
  cases hs : ar.slots[h.index]? with
  | none => simp
  | some s =>
      obtain ⟨g, o⟩ := s
      by_cases hg : g = h.generation
      · subst hg; simp
      · simp [hg]

theorem notMem_free_of_get {ar : Arena α} {h : Handle} {v : α} (hv : ar.get h = some v) :
    h.index ∉ ar.free := by
  rw [ar.mem_free]
  rintro ⟨s, hs, hnone⟩
  rw [get_eq_some_iff.1 hv] at hs
  obtain rfl := Option.some.inj hs
  simp at hnone

/-- Empties the slot behind a handle, if the lookup succeeds: the generation is bumped and the index
pushed on the free stack. -/
def remove (lim : Nat) (ar : Arena α) (h : Handle) : Arena α :=
  match hv : ar.get h with
  | none => ar
  | some _ =>
      { slots := ar.slots.modify h.index fun s => ⟨(s.generation + 1) % lim, none⟩
        free := h.index :: ar.free
        free_nodup := List.nodup_cons.2 ⟨notMem_free_of_get hv, ar.free_nodup⟩
        mem_free := by
          intro j
          have hself := get_eq_some_iff.1 hv
          by_cases hj : h.index = j
          · subst hj
            simp [hself]
          · rw [List.mem_cons, ar.mem_free, List.getElem?_modify]
            simp [hj, Ne.symm hj] }

/-! ## The partial map of an arena -/

theorem get_eq_none_of_empty {ar : Arena α} {h : Handle} {s : Slot α}
    (hs : ar.slots[h.index]? = some s) (hv : s.value = none) : ar.get h = none := by
  simp [get, hs, hv]

/-- Two handles of one slot that both find a value are the same handle. -/
theorem handle_eq_of_get {ar : Arena α} {h k : Handle} {v w : α} (hv : ar.get h = some v)
    (hw : ar.get k = some w) (hi : h.index = k.index) : h = k := by
  have h1 := get_eq_some_iff.1 hv
  have h2 := get_eq_some_iff.1 hw
  rw [hi, h2] at h1
  have hg : k.generation = h.generation := congrArg Slot.generation (Option.some.inj h1)
  exact Handle.ext hi hg.symm

theorem get_modify (ar : Arena α) (h : Handle) (f : α → α) :
    (ar.modify h f).get = Function.update ar.get h ((ar.get h).map f) := by
  funext k
  by_cases hk : k = h
  · subst hk
    rw [Function.update_self]
    simp only [get, modify, List.getElem?_modify]
    cases ar.slots[k.index]? with
    | none => simp
    | some s => by_cases hg : s.generation = k.generation <;> simp [hg]
  · rw [Function.update_of_ne hk]
    simp only [get, modify, List.getElem?_modify]
    by_cases hi : h.index = k.index
    · cases hs : ar.slots[k.index]? with
      | none => simp
      | some s =>
          by_cases hg : s.generation = h.generation
          · have hne : h.generation ≠ k.generation := fun hgk => hk (Handle.ext hi.symm hgk.symm)
            simp [hi, hg, hne]
          · simp [hi, hg]
    · simp [hi]

theorem nextHandle_index_le (lim : Nat) (ar : Arena α) :
    (ar.nextHandle lim).index ≤ ar.slots.length := by
  rw [nextHandle]
  cases hf : ar.free with
  | nil => dsimp only; split <;> omega
  | cons i rest =>
      obtain ⟨s, hs, -⟩ := (ar.mem_free i).1 (by rw [hf]; exact List.mem_cons_self)
      exact Nat.le_of_lt (List.getElem?_eq_some_iff.1 hs).1

/-- Below the limit the next handle's slot is empty or yet to be grown. -/
theorem nextHandle_slot {lim : Nat} {ar : Arena α} (hlim : ar.slots.length < lim) :
    (ar.slots[(ar.nextHandle lim).index]? = none ∧ (ar.nextHandle lim).generation = 0) ∨
      ar.slots[(ar.nextHandle lim).index]? = some ⟨(ar.nextHandle lim).generation, none⟩ := by
  rw [nextHandle]
  cases hf : ar.free with
  | nil => left; simp [hlim]
  | cons i rest =>
      right
      obtain ⟨s, hs, hv⟩ := (ar.mem_free i).1 (by rw [hf]; exact List.mem_cons_self)
      obtain ⟨g, o⟩ := s
      simp only at hv
      subst hv
      simp [hs]

theorem get_nextHandle {lim : Nat} {ar : Arena α} (hlim : ar.slots.length < lim) :
    ar.get (ar.nextHandle lim) = none := by
  rcases nextHandle_slot hlim with ⟨h, -⟩ | h
  · simp [get, h]
  · simp [get, h]

theorem get_insert {lim : Nat} {ar : Arena α} (hlim : ar.slots.length < lim) (v : α) :
    (ar.insert lim v).get = Function.update ar.get (ar.nextHandle lim) (some v) := by
  funext k
  have hle := nextHandle_index_le lim ar
  by_cases hi : (ar.nextHandle lim).index = k.index
  · have hgen : (ar.slots[(ar.nextHandle lim).index]?.map Slot.generation).getD 0
        = (ar.nextHandle lim).generation := by
      rcases nextHandle_slot hlim with ⟨h, hg⟩ | h
      · simp [h, hg]
      · simp [h]
    have hself := getElem?_fillSlot_self (v := v) hle
    rw [hgen] at hself
    by_cases hg : (ar.nextHandle lim).generation = k.generation
    · obtain rfl : k = ar.nextHandle lim := Handle.ext hi.symm hg.symm
      simp [get, insert, hself]
    · have hk : k ≠ ar.nextHandle lim := by
        rintro rfl
        exact hg rfl
      rw [Function.update_of_ne hk]
      -- the slot is empty before and of another generation after
      have hbefore : ar.get k = none := by
        rcases nextHandle_slot hlim with ⟨h, -⟩ | h
        · rw [hi] at h; simp [get, h]
        · rw [hi] at h; simp [get, h]
      rw [hbefore]
      simp [get, insert, ← hi, hself, hg]
  · have hk : k ≠ ar.nextHandle lim := by
      rintro rfl
      exact hi rfl
    rw [Function.update_of_ne hk]
    simp only [get, insert, getElem?_fillSlot_ne hi hle]

theorem slots_remove {lim : Nat} {ar : Arena α} {h : Handle} {v : α} (hv : ar.get h = some v) :
    (ar.remove lim h).slots = ar.slots.modify h.index fun s => ⟨(s.generation + 1) % lim, none⟩ := by
  rw [remove]
  split
  · rename_i hn; rw [hn] at hv; cases hv
  · rfl

theorem get_remove {lim : Nat} {ar : Arena α} {h : Handle} {v : α} (hv : ar.get h = some v) :
    (ar.remove lim h).get = Function.update ar.get h none := by
  funext k
  have hself := get_eq_some_iff.1 hv
  by_cases hi : h.index = k.index
  · have hafter : (ar.remove lim h).get k = none := by
      refine get_eq_none_of_empty (s := ⟨(h.generation + 1) % lim, none⟩) ?_ rfl
      rw [slots_remove hv, ← hi]
      simp [hself]
    rw [hafter]
    by_cases hk : k = h
    · rw [hk, Function.update_self]
    · rw [Function.update_of_ne hk]
      cases hg : ar.get k with
      | none => rfl
      | some w => exact absurd (handle_eq_of_get hg hv hi.symm) hk
  · have hk : k ≠ h := by
      rintro rfl
      exact hi rfl
    rw [Function.update_of_ne hk]
    simp only [get, slots_remove hv, List.getElem?_modify]
    simp [hi]

theorem remove_of_get_none {lim : Nat} {ar : Arena α} {h : Handle} (hv : ar.get h = none) :
    ar.remove lim h = ar := by
  rw [remove]
  split
  · rfl
  · rename_i hs; rw [hs] at hv; cases hv

theorem modify_of_get_none {ar : Arena α} {h : Handle} (hv : ar.get h = none) (f : α → α) :
    ar.modify h f = ar := by
  have hslots : (ar.modify h f).slots = ar.slots := by
    apply List.ext_getElem?
    intro i
    simp only [modify, List.getElem?_modify]
    by_cases hi : h.index = i
    · subst hi
      cases hs : ar.slots[h.index]? with
      | none => simp
      | some s =>
          by_cases hg : s.generation = h.generation
          · have hval : s.value = none := by simpa [get, hs, hg] using hv
            rcases s with ⟨g, v⟩
            obtain rfl : v = none := hval
            simp
          · simp [hg]
    · simp [hi]
  cases ar
  simp only [modify] at hslots ⊢
  simp only [hslots]

/-! ## Generations -/

/-- The generation of a slot, and whether it is occupied. -/
def shape (ar : Arena α) (i : Nat) : Option (Nat × Bool) :=
  ar.slots[i]?.map fun s => (s.generation, s.value.isSome)

theorem shape_of_get {ar : Arena α} {h : Handle} {v : α} (hv : ar.get h = some v) :
    ar.shape h.index = some (h.generation, true) := by
  simp [shape, get_eq_some_iff.1 hv]

/-- Below the limit the next handle carries the generation of an empty slot, or zero. -/
theorem shape_nextHandle {lim : Nat} {ar : Arena α} (hlim : ar.slots.length < lim) :
    (ar.shape (ar.nextHandle lim).index = none ∧ (ar.nextHandle lim).generation = 0) ∨
      ar.shape (ar.nextHandle lim).index = some ((ar.nextHandle lim).generation, false) := by
  rcases nextHandle_slot hlim with ⟨hslot, hgen⟩ | hslot
  · exact Or.inl ⟨by simp [shape, hslot], hgen⟩
  · exact Or.inr (by simp [shape, hslot])

theorem shape_modify (ar : Arena α) (h : Handle) (f : α → α) : (ar.modify h f).shape = ar.shape := by
  funext i
  simp only [shape, modify, List.getElem?_modify]
  cases ar.slots[i]? with
  | none => rfl
  | some s =>
      by_cases hi : h.index = i
      · by_cases hg : s.generation = h.generation <;> simp [hi, hg]
      · simp [hi]

theorem shape_insert {lim : Nat} {ar : Arena α} (hlim : ar.slots.length < lim) (v : α) :
    (ar.insert lim v).shape = Function.update ar.shape (ar.nextHandle lim).index
      (some ((ar.nextHandle lim).generation, true)) := by
  funext i
  have hle := nextHandle_index_le lim ar
  rw [Function.update_apply]
  by_cases hi : i = (ar.nextHandle lim).index
  · subst hi
    rw [if_pos rfl]
    simp only [shape, insert, getElem?_fillSlot_self hle, Option.map_some, Option.isSome_some]
    rcases nextHandle_slot hlim with ⟨hslot, hgen⟩ | hslot
    · simp [hslot, hgen]
    · simp [hslot]
  · rw [if_neg hi]
    simp only [shape, insert, getElem?_fillSlot_ne (Ne.symm hi) hle]

theorem shape_remove {lim : Nat} {ar : Arena α} {h : Handle} {v : α} (hv : ar.get h = some v) :
    (ar.remove lim h).shape =
      Function.update ar.shape h.index (some ((h.generation + 1) % lim, false)) := by
  funext i
  simp only [shape, slots_remove hv, List.getElem?_modify, Function.update_apply]
  by_cases hi : i = h.index
  · subst hi
    simp [get_eq_some_iff.1 hv]
  · simp [hi, Ne.symm hi]

/-- The shape of a slot that has been given to `issued` values, one after the other: its generation
counts the removals modulo the limit. -/
inductive Issued (lim : Nat) : Nat → Option (Nat × Bool) → Prop
  | ungrown : Issued lim 0 none
  | vacant (n : Nat) : Issued lim n (some (n % lim, false))
  | occupied (n : Nat) : Issued lim (n + 1) (some (n % lim, true))

/-- A fresh handle of a slot carries the number of values issued before, modulo the limit. -/
theorem Issued.generation {lim n g : Nat} {shape : Option (Nat × Bool)} (h : Issued lim n shape)
    (hshape : (shape = none ∧ g = 0) ∨ shape = some (g, false)) : g = n % lim := by
  cases h with
  | ungrown =>
      rcases hshape with ⟨-, rfl⟩ | hsome
      · exact (Nat.zero_mod lim).symm
      · cases hsome
  | vacant n =>
      rcases hshape with ⟨hnone, -⟩ | hsome
      · cases hnone
      · cases hsome
        rfl
  | occupied n =>
      rcases hshape with ⟨hnone, -⟩ | hsome
      · cases hnone
      · cases hsome

/-- The slot after the removal of its value. -/
theorem Issued.remove {lim n g : Nat} (h : Issued lim n (some (g, true))) :
    Issued lim n (some ((g + 1) % lim, false)) := by
  cases h with
  | occupied n =>
      rw [Nat.mod_add_mod]
      exact Issued.vacant (n + 1)

/-! ## The number of slots -/

@[simp] theorem length_modify (ar : Arena α) (h : Handle) (f : α → α) :
    (ar.modify h f).slots.length = ar.slots.length := by
  simp [modify]

@[simp] theorem length_remove (lim : Nat) (ar : Arena α) (h : Handle) :
    (ar.remove lim h).slots.length = ar.slots.length := by
  cases hv : ar.get h with
  | none => rw [remove_of_get_none hv]
  | some v => rw [slots_remove hv, List.length_modify]

theorem length_insert_le (lim : Nat) (ar : Arena α) (v : α) :
    (ar.insert lim v).slots.length ≤ ar.slots.length + 1 := by
  simp only [insert, fillSlot]
  split <;> simp

theorem length_le_insert (lim : Nat) (ar : Arena α) (v : α) :
    ar.slots.length ≤ (ar.insert lim v).slots.length := by
  simp only [insert, fillSlot]
  split <;> simp

/-- An arena without values is filled before it grows. -/
theorem length_insert_of_vacant {ar : Arena α} (hvacant : ∀ h, ar.get h = none) (lim : Nat) (v : α) :
    (ar.insert lim v).slots.length ≤ max 1 ar.slots.length := by
  cases hfree : ar.free with
  | nil =>
      -- every slot is occupied, so there is none
      have hnone : ar.slots = [] := by
        rw [List.eq_nil_iff_forall_not_mem]
        intro s hs
        obtain ⟨i, hi⟩ := List.mem_iff_getElem?.1 hs
        cases hv : s.value with
        | none =>
            have hmem := (ar.mem_free i).2 ⟨s, hi, hv⟩
            rw [hfree] at hmem
            cases hmem
        | some x =>
            have hget : ar.get ⟨i, s.generation⟩ = some x := by
              rw [get_eq_some_iff, hi, ← hv]
            rw [hvacant] at hget
            cases hget
      have hle := length_insert_le lim ar v
      rw [hnone] at hle ⊢
      exact Nat.le_trans hle (Nat.le_max_left _ _)
  | cons i rest =>
      obtain ⟨s, hs, -⟩ := (ar.mem_free i).1 (by rw [hfree]; exact List.mem_cons_self)
      have hlt : i < ar.slots.length := (List.getElem?_eq_some_iff.1 hs).1
      have hindex : (ar.nextHandle lim).index = i := by simp only [nextHandle, hfree]
      simp only [insert, fillSlot, hindex, if_pos hlt, List.length_modify]
      exact Nat.le_max_right _ _

/-! ## The list of values -/

theorem mem_values {ar : Arena α} {v : α} : v ∈ ar.values ↔ ∃ h, ar.get h = some v := by
  rw [values]
  rw [List.mem_filterMap]
  constructor
  · rintro ⟨s, hs, hv⟩
    obtain ⟨i, hi, rfl⟩ := List.getElem_of_mem hs
    exact ⟨⟨i, (ar.slots[i]).generation⟩, by simp [get, List.getElem?_eq_getElem hi, hv]⟩
  · rintro ⟨h, hv⟩
    exact ⟨_, List.mem_of_getElem? (get_eq_some_iff.1 hv), rfl⟩

/-- A list around one of its entries. -/
theorem take_cons_drop_of_getElem? {β : Type v} {l : List β} {i : Nat} {b : β} (h : l[i]? = some b) :
    l = l.take i ++ b :: l.drop (i + 1) := by
  obtain ⟨hi, rfl⟩ := List.getElem?_eq_some_iff.1 h
  rw [List.getElem_cons_drop, List.take_append_drop]

theorem modify_of_getElem? {β : Type v} {l : List β} {i : Nat} {b : β} (f : β → β)
    (h : l[i]? = some b) : l.modify i f = l.take i ++ f b :: l.drop (i + 1) := by
  obtain ⟨hi, rfl⟩ := List.getElem?_eq_some_iff.1 h
  exact List.modify_eq_take_cons_drop hi

/-- A relation between the values of a lower and a higher slot holds along the list of values. -/
theorem values_pairwise_of_lt {ar : Arena α} {R : α → α → Prop}
    (hR : ∀ {h k v w}, h.index < k.index → ar.get h = some v → ar.get k = some w → R v w) :
    ar.values.Pairwise R := by
  rw [values]
  rw [List.pairwise_filterMap, List.pairwise_iff_getElem]
  intro i j hi hj hij v hv w hw
  have hget : ∀ (n : Nat) (hn : n < ar.slots.length) (x : α), ar.slots[n].value = some x →
      ar.get ⟨n, ar.slots[n].generation⟩ = some x := by
    intro n hn x hx
    simp [get, List.getElem?_eq_getElem hn, hx]
  exact hR hij (hget i hi v hv) (hget j hj w hw)

/-- A relation between the values of any two handles holds along the list of values. -/
theorem values_pairwise {ar : Arena α} {R : α → α → Prop}
    (hR : ∀ {h k v w}, h ≠ k → ar.get h = some v → ar.get k = some w → R v w) :
    ar.values.Pairwise R := by
  apply values_pairwise_of_lt
  intro h k v w hlt hv hw
  refine hR ?_ hv hw
  rintro rfl
  exact Nat.lt_irrefl _ hlt

/-- A modification replaces one value in place. -/
theorem values_modify {ar : Arena α} {h : Handle} {v : α} (f : α → α) (hv : ar.get h = some v) :
    ∃ l r, ar.values = l ++ v :: r ∧ (ar.modify h f).values = l ++ f v :: r := by
  have hself := get_eq_some_iff.1 hv
  refine ⟨(ar.slots.take h.index).filterMap Slot.value,
    (ar.slots.drop (h.index + 1)).filterMap Slot.value, ?_, ?_⟩
  · rw [values]
    conv_lhs => rw [take_cons_drop_of_getElem? hself]
    simp [List.filterMap_append]
  · simp only [values, modify]
    rw [modify_of_getElem? _ hself]
    simp [List.filterMap_append]

theorem length_values_modify (ar : Arena α) (h : Handle) (f : α → α) :
    (ar.modify h f).values.length = ar.values.length := by
  cases hv : ar.get h with
  | none => rw [modify_of_get_none hv]
  | some v =>
      obtain ⟨l, r, h1, h2⟩ := values_modify f hv
      rw [h1, h2, List.length_append, List.length_append, List.length_cons, List.length_cons]

theorem values_remove {lim : Nat} {ar : Arena α} {h : Handle} {v : α} (hv : ar.get h = some v) :
    ar.values.Perm (v :: (ar.remove lim h).values) := by
  have hself := get_eq_some_iff.1 hv
  unfold values
  rw [slots_remove hv, modify_of_getElem? _ hself]
  conv_lhs => rw [take_cons_drop_of_getElem? hself]
  simp [List.filterMap_append]

theorem values_insert {lim : Nat} {ar : Arena α} (hlim : ar.slots.length < lim) (v : α) :
    (ar.insert lim v).values.Perm (v :: ar.values) := by
  simp only [values, insert, fillSlot]
  rcases nextHandle_slot hlim with ⟨h, -⟩ | h
  · rw [List.getElem?_eq_none_iff] at h
    rw [if_neg (by omega)]
    simp [List.filterMap_append]
  · have hlt := (List.getElem?_eq_some_iff.1 h).1
    rw [if_pos hlt, modify_of_getElem? _ h]
    conv_rhs => rw [take_cons_drop_of_getElem? h]
    simp [List.filterMap_append]

end Arena

end Pktflow.Lib

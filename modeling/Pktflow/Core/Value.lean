import Mathlib.Data.List.Basic

/-!
# Field values and field maps

Model of `pktflow-core/src/value.rs`: the typed values plugins extract and the insertion-ordered map
of named values each layer carries. Byte strings, texts and lists keep their full length; machine
integers keep their width.
-/

set_option autoImplicit false

namespace Pktflow.Core

/-- `FieldName`: a plugin-owned field-name constant. -/
abbrev FieldName := String

/-- `Value`: a typed metadata value extracted by a plugin. -/
inductive Value where
  | bytes (b : List UInt8)
  | u64 (n : UInt64)
  | i64 (n : Int64)
  | bool (b : Bool)
  | str (s : String)
  | list (vs : List Value)

namespace Value

/-- Induction over values with a hypothesis for every element of a list value. -/
@[elab_as_elim]
theorem rec' {motive : Value → Prop} (hbytes : ∀ b, motive (.bytes b)) (hu64 : ∀ n, motive (.u64 n))
    (hi64 : ∀ n, motive (.i64 n)) (hbool : ∀ b, motive (.bool b)) (hstr : ∀ s, motive (.str s))
    (hlist : ∀ vs, (∀ v ∈ vs, motive v) → motive (.list vs)) : ∀ v, motive v
  | .bytes b => hbytes b
  | .u64 n => hu64 n
  | .i64 n => hi64 n
  | .bool b => hbool b
  | .str s => hstr s
  | .list vs => hlist vs fun v _ => rec' hbytes hu64 hi64 hbool hstr hlist v

mutual

/-- Decidable equality of values, by recursion on both. -/
def decEq : (v w : Value) → Decidable (v = w)
  | .bytes b, .bytes c => decidable_of_iff (b = c) (by simp)
  | .u64 n, .u64 m => decidable_of_iff (n = m) (by simp)
  | .i64 n, .i64 m => decidable_of_iff (n = m) (by simp)
  | .bool b, .bool c => decidable_of_iff (b = c) (by simp)
  | .str s, .str t => decidable_of_iff (s = t) (by simp)
  | .list vs, .list ws =>
      match decEqList vs ws with
      | isTrue h => isTrue (by rw [h])
      | isFalse h => isFalse (by simpa using h)
  | .bytes _, .u64 _ | .bytes _, .i64 _ | .bytes _, .bool _ | .bytes _, .str _ | .bytes _, .list _
  | .u64 _, .bytes _ | .u64 _, .i64 _ | .u64 _, .bool _ | .u64 _, .str _ | .u64 _, .list _
  | .i64 _, .bytes _ | .i64 _, .u64 _ | .i64 _, .bool _ | .i64 _, .str _ | .i64 _, .list _
  | .bool _, .bytes _ | .bool _, .u64 _ | .bool _, .i64 _ | .bool _, .str _ | .bool _, .list _
  | .str _, .bytes _ | .str _, .u64 _ | .str _, .i64 _ | .str _, .bool _ | .str _, .list _
  | .list _, .bytes _ | .list _, .u64 _ | .list _, .i64 _ | .list _, .bool _ | .list _, .str _ =>
      isFalse (by simp)

/-- Decidable equality of value lists. -/
def decEqList : (vs ws : List Value) → Decidable (vs = ws)
  | [], [] => isTrue rfl
  | [], _ :: _ | _ :: _, [] => isFalse (by simp)
  | v :: vs, w :: ws =>
      match decEq v w, decEqList vs ws with
      | isTrue h, isTrue hs => isTrue (by rw [h, hs])
      | isFalse h, _ => isFalse (by simp [h])
      | _, isFalse hs => isFalse (by simp [hs])

end

instance : DecidableEq Value := decEq

end Value

/-- `FieldMap`: an insertion-ordered named map of values. -/
structure FieldMap where
  entries : List (FieldName × Value)
  deriving DecidableEq

namespace FieldMap

/-- `FieldMap::new`. -/
def new : FieldMap := ⟨[]⟩

/-- `FieldMap::get`: the value of the first entry of that name. -/
def get (m : FieldMap) (name : FieldName) : Option Value :=
  (m.entries.find? fun e => e.1 == name).map Prod.snd

/-- Replaces the value of the first entry of that name. -/
def replaceFirst (name : FieldName) (v : Value) :
    List (FieldName × Value) → Option (List (FieldName × Value))
  | [] => none
  | (n, w) :: rest =>
      if n = name then some ((n, v) :: rest)
      else (replaceFirst name v rest).map ((n, w) :: ·)

/-- `FieldMap::insert`: an existing name keeps its place and takes the new value, a new one goes to
the end. -/
def insert (m : FieldMap) (name : FieldName) (v : Value) : FieldMap :=
  match replaceFirst name v m.entries with
  | some entries => ⟨entries⟩
  | none => ⟨m.entries ++ [(name, v)]⟩

theorem find?_replaceFirst {name : FieldName} {v : Value} {l l' : List (FieldName × Value)}
    (h : replaceFirst name v l = some l') (k : FieldName) :
    ((l'.find? fun e => e.1 == k).map Prod.snd) =
      if k = name then some v else (l.find? fun e => e.1 == k).map Prod.snd := by
  induction l generalizing l' with
  | nil => simp [replaceFirst] at h
  | cons entry rest ih =>
      obtain ⟨n, w⟩ := entry
      by_cases hn : n = name
      · rw [replaceFirst, if_pos hn, Option.some.injEq] at h
        subst h
        by_cases hk : k = name
        · simp [hn, hk]
        · have hnk : n ≠ k := fun e => hk (e ▸ hn)
          simp [hk, hnk]
      · rw [replaceFirst, if_neg hn, Option.map_eq_some_iff] at h
        obtain ⟨rest', hrest, rfl⟩ := h
        have ih := ih hrest
        by_cases hnk : n = k
        · have hk : k ≠ name := fun e => hn (hnk.trans e)
          simp [hnk, hk]
        · simp only [List.find?_cons, beq_eq_false_iff_ne.2 hnk]
          exact ih

theorem find?_of_replaceFirst_none {name : FieldName} {v : Value} {l : List (FieldName × Value)}
    (h : replaceFirst name v l = none) : (l.find? fun e => e.1 == name) = none := by
  induction l with
  | nil => rfl
  | cons entry rest ih =>
      obtain ⟨n, w⟩ := entry
      by_cases hn : n = name
      · simp [replaceFirst, hn] at h
      · rw [replaceFirst, if_neg hn, Option.map_eq_none_iff] at h
        simpa [hn] using ih h

/-- A lookup after an insertion sees the inserted value and every other field as before. -/
theorem get_insert (m : FieldMap) (name k : FieldName) (v : Value) :
    (m.insert name v).get k = if k = name then some v else m.get k := by
  rw [insert]
  cases h : replaceFirst name v m.entries with
  | some l => exact find?_replaceFirst h k
  | none =>
      have hnone := find?_of_replaceFirst_none h
      simp only [get, List.find?_append]
      by_cases hk : k = name
      · subst hk
        simp [hnone]
      · have hne : name ≠ k := fun e => hk e.symm
        simp [hk, hne]

theorem replaceFirst_of_find? {name : FieldName} {v : Value} {l : List (FieldName × Value)}
    (h : ((l.find? fun e => e.1 == name).map Prod.snd) = some v) : replaceFirst name v l = some l := by
  induction l with
  | nil => simp at h
  | cons entry rest ih =>
      obtain ⟨n, w⟩ := entry
      by_cases hn : n = name
      · subst hn
        obtain rfl : w = v := by simpa using h
        simp [replaceFirst]
      · rw [replaceFirst, if_neg hn, ih (by simpa [hn] using h)]
        rfl

theorem replaceFirst_of_find?_none {name : FieldName} {v : Value} {l : List (FieldName × Value)}
    (h : (l.find? fun e => e.1 == name) = none) : replaceFirst name v l = none := by
  induction l with
  | nil => rfl
  | cons entry rest ih =>
      obtain ⟨n, w⟩ := entry
      have hn : n ≠ name := by
        intro hn
        simp [hn] at h
      rw [replaceFirst, if_neg hn, ih (by simpa [hn] using h)]
      rfl

/-- Inserting the value a field has changes nothing. -/
theorem insert_of_get {m : FieldMap} {name : FieldName} {v : Value} (h : m.get name = some v) :
    m.insert name v = m := by
  rw [insert]
  rw [replaceFirst_of_find? h]

/-- A new field goes to the end. -/
theorem entries_insert_of_get_none {m : FieldMap} {name : FieldName} (h : m.get name = none)
    (v : Value) : (m.insert name v).entries = m.entries ++ [(name, v)] := by
  rw [insert]
  rw [replaceFirst_of_find?_none (Option.map_eq_none_iff.1 h)]

end FieldMap

end Pktflow.Core

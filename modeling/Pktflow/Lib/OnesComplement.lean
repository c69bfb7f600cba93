import Mathlib.Algebra.BigOperators.Group.List.Basic
import Mathlib.Data.Nat.ModEq

/-!
# One's complement sums

Numbers up to `m`, added with the carry brought around: `m` and `0` are the two zeros. A sum is determined by
its residue modulo `m`, but for the zeros (`onesSum_eq`), and is `m` only if the residue is zero
(`onesSum_eq_self_iff`).
-/

set_option autoImplicit false

namespace Pktflow.Lib

/-- The sum with its carry brought around. -/
def onesAdd (m a b : Nat) : Nat := if m < a + b then a + b - m else a + b

/-- The sum of all. -/
def onesSum (m : Nat) (ns : List Nat) : Nat := ns.foldl (onesAdd m) 0

/-- The number of the same residue that a sum of these numbers is: `0` for `0` only. -/
def onesRep (m n : Nat) : Nat := if n = 0 then 0 else (n - 1) % m + 1

section Ones

variable {m a b n : Nat} {ns : List Nat}

theorem onesRep_of_le (h : n ≤ m) : onesRep m n = n := by
  rw [onesRep]
  split
  · omega
  · rw [Nat.mod_eq_of_lt (by omega)]
    omega

theorem onesRep_le (hm : 0 < m) : onesRep m n ≤ m := by
  rw [onesRep]
  split
  · exact Nat.zero_le m
  · exact Nat.mod_lt _ hm

theorem onesRep_modEq : onesRep m n ≡ n [MOD m] := by
  rw [onesRep]
  split
  · rename_i h
    rw [h]
  · have hmod : (n - 1) % m + 1 ≡ n - 1 + 1 [MOD m] := (Nat.mod_modEq (n - 1) m).add_right 1
    rwa [Nat.sub_add_cancel (by omega)] at hmod

theorem onesRep_eq_zero : onesRep m n = 0 ↔ n = 0 := by
  rw [onesRep]
  split <;> omega

/-- Two representatives of one residue are the same, or they are the two zeros. -/
theorem onesRep_unique (hm : 0 < m) (hle : a ≤ m) (hzero : a = 0 ↔ n = 0) (hmod : a ≡ n [MOD m]) : a = onesRep m n := by
  rw [onesRep]
  split
  · exact hzero.2 ‹_›
  · rename_i hn
    have ha : a ≠ 0 := mt hzero.1 hn
    have hpred : a - 1 ≡ n - 1 [MOD m] := by
      apply Nat.ModEq.add_right_cancel' 1
      rwa [Nat.sub_add_cancel (by omega), Nat.sub_add_cancel (by omega)]
    have heq : (a - 1) % m = (n - 1) % m := hpred
    rw [Nat.mod_eq_of_lt (by omega)] at heq
    omega

theorem onesAdd_onesRep (hm : 0 < m) (hb : b ≤ m) : onesAdd m (onesRep m a) b = onesRep m (a + b) := by
  have hle := onesRep_le (n := a) hm
  have hzero := onesRep_eq_zero (m := m) (n := a)
  have hmod : onesRep m a + b ≡ a + b [MOD m] := onesRep_modEq.add_right b
  apply onesRep_unique hm
  · rw [onesAdd]
    split <;> omega
  · rw [onesAdd]
    split <;> omega
  · rw [onesAdd]
    split
    · -- the carry that is brought around is `m` itself
      refine Nat.ModEq.trans ?_ hmod
      rw [Nat.ModEq]
      exact (Nat.mod_eq_sub_mod (by omega)).symm
    · exact hmod

/-- A sum is the representative of the residue. -/
theorem onesSum_eq (hm : 0 < m) (h : ∀ n ∈ ns, n ≤ m) : onesSum m ns = onesRep m ns.sum := by
  suffices hacc : ∀ acc, ns.foldl (onesAdd m) (onesRep m acc) = onesRep m (acc + ns.sum) by
    have := hacc 0
    rwa [Nat.zero_add] at this
  induction ns with
  | nil => exact fun _ => rfl
  | cons n ns ih =>
      intro acc
      have hn := h n List.mem_cons_self
      rw [List.foldl_cons, onesAdd_onesRep hm hn, ih (fun k hk => h k (List.mem_cons_of_mem n hk)), List.sum_cons,
        Nat.add_assoc]

/-- A representative is the upper zero if the residue is zero and the number is not. -/
theorem onesRep_eq_self_iff (hm : 0 < m) : onesRep m n = m ↔ n ≠ 0 ∧ n ≡ 0 [MOD m] := by
  constructor
  · intro h
    refine ⟨fun hn => ?_, ?_⟩
    · rw [hn, onesRep, if_pos rfl] at h
      omega
    · have hmod := onesRep_modEq (m := m) (n := n)
      rw [h] at hmod
      exact hmod.symm.trans (Nat.mod_self m)
  · rintro ⟨hn, hmod⟩
    exact (onesRep_unique hm (Nat.le_refl m) (by omega) ((Nat.mod_self m).trans hmod.symm)).symm

end Ones

end Pktflow.Lib

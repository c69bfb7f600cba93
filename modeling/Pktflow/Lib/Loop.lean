import Mathlib.Logic.Relation
import Mathlib.Data.Nat.Basic

/-!
# While loops with a measured exit

A `while` loop is given by its body: a partial function on states that returns the state after one
iteration, or `none` where the loop exits. `iterate` runs the body for a number of iterations. A
measure that drops at every iteration bounds the number of iterations, so that `iterate` with that
much fuel has left the loop (`iterate_exit`); an invariant of the body holds at every state the loop
passes through (`Passes.invariant`).
-/

set_option autoImplicit false

namespace Pktflow.Lib.Loop

universe u

variable {σ : Type u}

/-- At most `n` iterations of a loop body; the loop is left when the body declines. -/
def iterate (body : σ → Option σ) : Nat → σ → σ
  | 0, s => s
  | n + 1, s =>
      match body s with
      | none => s
      | some t => iterate body n t

/-- `t` is a state the loop passes through when it is entered at `s`. -/
abbrev Passes (body : σ → Option σ) : σ → σ → Prop :=
  Relation.ReflTransGen fun s t => body s = some t

variable {body : σ → Option σ}

theorem iterate_of_none {s : σ} (h : body s = none) (n : Nat) : iterate body n s = s := by
  cases n with
  | zero => rfl
  | succ n => simp only [iterate, h]

theorem iterate_succ_of_some {s t : σ} (h : body s = some t) (n : Nat) :
    iterate body (n + 1) s = iterate body n t := by
  simp only [iterate, h]

/-- The state `iterate` stops at is one the loop passes through. -/
theorem passes_iterate (body : σ → Option σ) (n : Nat) (s : σ) : Passes body s (iterate body n s) := by
  induction n generalizing s with
  | zero => exact Relation.ReflTransGen.refl
  | succ n ih =>
      cases h : body s with
      | none =>
          rw [iterate_of_none h]
      | some t =>
          rw [iterate_succ_of_some h]
          exact Relation.ReflTransGen.head h (ih t)

/-- An invariant of the body holds at every state the loop passes through. -/
theorem Passes.invariant {I : σ → Prop} (hstep : ∀ s t, I s → body s = some t → I t)
    {s t : σ} (h : Passes body s t) (hs : I s) : I t := by
  induction h with
  | refl => exact hs
  | tail _ hbc ih => exact hstep _ _ ih hbc

/-- A loop is left at one state. -/
theorem Passes.exit_unique {s t u : σ} (ht : Passes body s t) (hu : Passes body s u) (hexit : body t = none)
    (hexit' : body u = none) : t = u := by
  induction ht using Relation.ReflTransGen.head_induction_on with
  | refl =>
      rcases hu.cases_head with heq | ⟨v, hv, -⟩
      · exact heq
      · rw [hexit] at hv
        cases hv
  | head hstep _ ih =>
      rcases hu.cases_head with heq | ⟨v, hv, hrest⟩
      · rw [heq, hexit'] at hstep
        cases hstep
      · rw [hstep] at hv
        cases hv
        exact ih hrest

/-- The invariant rule at the state `iterate` stops at. -/
theorem iterate_invariant {I : σ → Prop} (hstep : ∀ s t, I s → body s = some t → I t)
    (n : Nat) {s : σ} (hs : I s) : I (iterate body n s) :=
  (passes_iterate body n s).invariant hstep hs

/-- With a measure that drops at every iteration from a state of the invariant, as much fuel as the
measure of the start leads to the exit of the loop. -/
theorem iterate_exit {I : σ → Prop} (μ : σ → Nat) (hstep : ∀ s t, I s → body s = some t → I t)
    (hdrop : ∀ s t, I s → body s = some t → μ t < μ s) :
    ∀ (n : Nat) (s : σ), I s → μ s ≤ n → body (iterate body n s) = none := by
  intro n
  induction n with
  | zero =>
      intro s hs hμ
      cases h : body s with
      | none => exact h
      | some t =>
          -- a measure of zero leaves no iteration
          have hlt := hdrop s t hs h
          omega
  | succ n ih =>
      intro s hs hμ
      cases h : body s with
      | none => rw [iterate_of_none h]; exact h
      | some t =>
          have hlt := hdrop s t hs h
          rw [iterate_succ_of_some h]
          exact ih t (hstep s t hs h) (by omega)

end Pktflow.Lib.Loop

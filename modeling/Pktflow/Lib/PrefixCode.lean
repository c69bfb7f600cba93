import Mathlib.Data.List.Basic
import Mathlib.Data.Nat.Digits.Defs

/-!
# Self-delimiting codes

A code is self-delimiting on a set of values when a reader of a stream that starts with a code word
can tell the value and where the word ends: no two streams that start with code words agree unless
the words and the rests do. Self-delimiting codes survive concatenation: for two lists of values of
one length, the concatenated words determine the values (`flatMap_inj_of_delimits`).

`beBytes w n` is the big-endian encoding of `n` in `w` bytes.
-/

set_option autoImplicit false

namespace Pktflow.Lib

universe u v

section Delimiting

variable {α : Type u} {β : Type v}

/-- No stream that starts with the word of `x` agrees with one that starts with the word of a value
in `P`, unless the values and the rests of the streams do. -/
def Delimits (P : α → Prop) (enc : α → List β) (x : α) : Prop :=
  ∀ y, P y → ∀ s t : List β, enc x ++ s = enc y ++ t → x = y ∧ s = t

/-- Every value in `P` has a word that delimits itself. -/
def SelfDelimiting (P : α → Prop) (enc : α → List β) : Prop := ∀ x, P x → Delimits P enc x

/-- Concatenated words of two equally long lists determine the lists. -/
theorem flatMap_inj_of_delimits {P : α → Prop} {enc : α → List β} :
    ∀ (xs ys : List α), (∀ x ∈ xs, Delimits P enc x) → (∀ y ∈ ys, P y) → xs.length = ys.length →
      ∀ s t : List β, xs.flatMap enc ++ s = ys.flatMap enc ++ t → xs = ys ∧ s = t := by
  intro xs
  induction xs with
  | nil =>
      intro ys _ _ hlen s t heq
      cases ys with
      | nil => exact ⟨rfl, by simpa using heq⟩
      | cons y ys => simp at hlen
  | cons x xs ih =>
      intro ys hxs hys hlen s t heq
      cases ys with
      | nil => simp at hlen
      | cons y ys =>
          simp only [List.flatMap_cons, List.append_assoc] at heq
          obtain ⟨rfl, hrest⟩ := hxs x List.mem_cons_self y (hys y List.mem_cons_self) _ _ heq
          obtain ⟨rfl, hst⟩ := ih ys (fun z hz => hxs z (List.mem_cons_of_mem x hz))
            (fun z hz => hys z (List.mem_cons_of_mem x hz)) (by simpa using hlen) s t hrest
          exact ⟨rfl, hst⟩

end Delimiting

/-- The low `w` bytes of `n`, most significant first. -/
def beBytes : Nat → Nat → List UInt8
  | 0, _ => []
  | w + 1, n => UInt8.ofNat (n / 256 ^ w) :: beBytes w n

@[simp] theorem length_beBytes (w n : Nat) : (beBytes w n).length = w := by
  induction w with
  | zero => rfl
  | succ w ih => simp [beBytes, ih]

/-- `w` bytes determine a number modulo `256 ^ w`. -/
theorem mod_eq_of_beBytes_eq {w n m : Nat} (h : beBytes w n = beBytes w m) :
    n % 256 ^ w = m % 256 ^ w := by
  induction w with
  | zero => simp [Nat.mod_one]
  | succ w ih =>
      -- the first byte is the digit above the `w` that follow
      simp only [beBytes, List.cons.injEq] at h
      obtain ⟨hd, hr⟩ := h
      have htop : n / 256 ^ w % 256 = m / 256 ^ w % 256 := by
        have := congrArg UInt8.toNat hd
        simpa using this
      rw [pow_succ, Nat.mod_mul, Nat.mod_mul, ih hr, htop]

theorem beBytes_inj {w n m : Nat} (hn : n < 256 ^ w) (hm : m < 256 ^ w)
    (h : beBytes w n = beBytes w m) : n = m := by
  have hmod := mod_eq_of_beBytes_eq h
  rwa [Nat.mod_eq_of_lt hn, Nat.mod_eq_of_lt hm] at hmod

/-- A fixed-width number followed by anything: the number and the rest are determined. -/
theorem beBytes_append_inj {w n m : Nat} (hn : n < 256 ^ w) (hm : m < 256 ^ w) {s t : List UInt8}
    (h : beBytes w n ++ s = beBytes w m ++ t) : n = m ∧ s = t := by
  obtain ⟨hb, hst⟩ := List.append_inj h (by simp)
  exact ⟨beBytes_inj hn hm hb, hst⟩

end Pktflow.Lib

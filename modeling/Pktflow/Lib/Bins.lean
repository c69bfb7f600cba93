import Mathlib.Algebra.Order.Field.Rat
import Mathlib.Data.Rat.Cast.Order

/-!
# Bins of a span

A span of `span` units is divided into `bins` equal shares, the last of which has its end as well. A closed
interval of the span meets the shares from that of its first point to that of its last one
(`meets_iff`), whatever the rounding of the points to shares does.
-/

set_option autoImplicit false

namespace Pktflow.Lib

/-- The share of a point: the last one for the end of the span, and for what lies behind it. -/
def binOf (span bins point : Nat) : Nat := min (point * bins / span) (bins - 1)

/-- The share has the point of the span. -/
def BinCovers (span bins b : Nat) (x : ℚ) : Prop :=
  b * span ≤ x * bins ∧ x * bins < (b + 1) * span ∨ x = span ∧ b = bins - 1

/-- The closed interval has a point in the share. -/
def MeetsBin (span bins first last b : Nat) : Prop :=
  ∃ x : ℚ, first ≤ x ∧ x ≤ last ∧ BinCovers span bins b x

section Bins

variable {span bins first last b : Nat}

theorem binOf_lt (hbins : 0 < bins) (span point : Nat) : binOf span bins point < bins := by
  rw [binOf]
  omega

theorem binOf_mono (h : first ≤ last) : binOf span bins first ≤ binOf span bins last := by
  have hmul : first * bins / span ≤ last * bins / span := Nat.div_le_div_right (Nat.mul_le_mul_right bins h)
  unfold binOf
  omega

/-- A point before the end of a share is in it or an earlier one. -/
theorem binOf_le_iff (hspan : 0 < span) (hb : b + 1 < bins) :
    binOf span bins first ≤ b ↔ first * bins < (b + 1) * span := by
  rw [← Nat.div_lt_iff_lt_mul hspan]
  rw [binOf]
  omega

/-- A point from the begin of a share on is in it or a later one. -/
theorem le_binOf_iff (hspan : 0 < span) (hb : b < bins) :
    b ≤ binOf span bins last ↔ b * span ≤ last * bins := by
  rw [← Nat.le_div_iff_mul_le hspan]
  rw [binOf]
  omega

/-- The begin of a share is a point of it. -/
theorem meets_of_begin (hspan : 0 < span) (hb : b < bins) (hfirst : first * bins ≤ b * span)
    (hlast : b * span ≤ last * bins) : MeetsBin span bins first last b := by
  have hbins : (0 : ℚ) < bins := by exact_mod_cast Nat.zero_lt_of_lt hb
  have hspan' : (0 : ℚ) < span := by exact_mod_cast hspan
  have hmul : (b * span / bins : ℚ) * bins = b * span := div_mul_cancel₀ _ (ne_of_gt hbins)
  refine ⟨b * span / bins, ?_, ?_, .inl ⟨hmul.ge, ?_⟩⟩
  · rw [le_div_iff₀ hbins]
    exact_mod_cast hfirst
  · rw [div_le_iff₀ hbins]
    exact_mod_cast hlast
  · rw [hmul]
    exact mul_lt_mul_of_pos_right (lt_add_one _) hspan'

/-- The first point of the interval is one of the share. -/
theorem meets_of_first (hle : first ≤ last) (hfirst : b * span ≤ first * bins)
    (hlt : first * bins < (b + 1) * span) : MeetsBin span bins first last b := by
  refine ⟨first, le_rfl, by exact_mod_cast hle, .inl ⟨?_, ?_⟩⟩
  · exact_mod_cast hfirst
  · exact_mod_cast hlt

/-- The interval meets exactly the shares from that of its first point to that of its last. -/
theorem meets_iff (hspan : 0 < span) (hle : first ≤ last) (hfirst : first ≤ span) (hb : b < bins) :
    MeetsBin span bins first last b ↔ binOf span bins first ≤ b ∧ b ≤ binOf span bins last := by
  rw [le_binOf_iff hspan hb]
  constructor
  · rintro ⟨x, hx, hx', ⟨hbegin, hend⟩ | ⟨rfl, rfl⟩⟩
    · have hbins : (0 : ℚ) ≤ bins := Nat.cast_nonneg bins
      constructor
      · -- the last share has every point
        by_cases hlast : b + 1 < bins
        · rw [binOf_le_iff hspan hlast]
          have hlt : (first * bins : ℚ) < (b + 1) * span := (mul_le_mul_of_nonneg_right hx hbins).trans_lt hend
          exact_mod_cast hlt
        · have hlt := binOf_lt (Nat.zero_lt_of_lt hb) span first
          omega
      · have hle' : (b * span : ℚ) ≤ last * bins := hbegin.trans (mul_le_mul_of_nonneg_right hx' hbins)
        exact_mod_cast hle'
    · have hspanLast : span ≤ last := by exact_mod_cast hx'
      constructor
      · exact min_le_right _ _
      · calc (bins - 1) * span ≤ bins * span := Nat.mul_le_mul_right span (Nat.sub_le bins 1)
          _ ≤ bins * last := Nat.mul_le_mul_left bins hspanLast
          _ = last * bins := Nat.mul_comm bins last
  · rintro ⟨hfrom, hto⟩
    rcases Nat.lt_or_ge (b * span) (first * bins) with hlt | hge
    · rcases Nat.lt_or_ge (first * bins) ((b + 1) * span) with hbefore | hbehind
      · exact meets_of_first hle hlt.le hbefore
      · -- only the end of the span is past the last share
        have hlast : b + 1 = bins := by
          by_contra hne
          have hnot := (binOf_le_iff hspan (by omega)).1 hfrom
          omega
        have hend : first = span := by
          rw [hlast, Nat.mul_comm first] at hbehind
          exact le_antisymm hfirst (Nat.le_of_mul_le_mul_left hbehind (by omega))
        exact ⟨first, le_rfl, by exact_mod_cast hle, .inr ⟨by rw [hend], by omega⟩⟩
    · exact meets_of_begin hspan hb hge hto

end Bins

end Pktflow.Lib

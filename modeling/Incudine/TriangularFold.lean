import Incudine.Literals
import Mathlib.Algebra.Order.Floor.Ring
import Mathlib.Algebra.Ring.Periodic
import Mathlib.Tactic.Ring

/-!
# The folds of a line

A line is folded in an interval by the remainder of a division, or by reflections at both ends.
-/

namespace TriangularFold

open scoped Literals

variable {K : Type*} [Field K] [LinearOrder K]

/-- The remainder of the division by `b`. -/
def modulo [FloorRing K] (a b : K) : K := a - b * ⌊a / b⌋

/-- A map of the line in an interval that does not move its points, with the period of a reflection
after the other. -/
structure IsFold (low high : K) (f : K → K) : Prop where
  mem : ∀ x, f x ∈ Set.Icc low high
  inside : ∀ x ∈ Set.Icc low high, f x = x
  periodic : Function.Periodic f (2 * (high - low))
  reflect_low : ∀ x, f (2 * low - x) = f x
  reflect_high : ∀ x, f (2 * high - x) = f x

/-- The remainder of two intervals, with the second interval reversed. -/
def fold [FloorRing K] (low high x : K) : K :=
  let v := modulo (x - low) (2 * (high - low))
  low + if high - low ≤ v then 2 * (high - low) - v else v

variable [FloorRing K] [IsStrictOrderedRing K]

section Modulo

variable {a b : K}

theorem modulo_mem (hb : 0 < b) (a : K) : modulo a b ∈ Set.Ico 0 b := by
  have hle : (⌊a / b⌋ : K) * b ≤ a := (le_div_iff₀ hb).mp (Int.floor_le (a / b))
  have hlt : a < (⌊a / b⌋ + 1) * b := (div_lt_iff₀ hb).mp (Int.lt_floor_add_one (a / b))
  rw [add_mul, one_mul] at hlt
  constructor
  · rw [modulo, mul_comm]
    linarith
  · rw [modulo, mul_comm]
    linarith

theorem modulo_add_int_mul (hb : 0 < b) (a : K) (k : ℤ) : modulo (a + k * b) b = modulo a b := by
  rw [modulo, modulo, add_div, mul_div_cancel_right₀ _ hb.ne', Int.floor_add_intCast]
  push_cast
  ring

theorem modulo_of_mem (h : a ∈ Set.Ico 0 b) : modulo a b = a := by
  have hb : 0 < b := h.1.trans_lt h.2
  have hfloor : ⌊a / b⌋ = 0 :=
    Int.floor_eq_zero_iff.mpr ⟨div_nonneg h.1 hb.le, (div_lt_one hb).mpr h.2⟩
  rw [modulo, hfloor, Int.cast_zero, mul_zero, sub_zero]

theorem modulo_unique {v : K} (hv : v ∈ Set.Ico 0 b) (k : ℤ) (h : a = v + k * b) :
    modulo a b = v := by
  rw [h, modulo_add_int_mul (hv.1.trans_lt hv.2), modulo_of_mem hv]

omit [IsStrictOrderedRing K] in
theorem eq_modulo_add (a b : K) : a = modulo a b + ⌊a / b⌋ * b := by
  rw [modulo, mul_comm b, sub_add_cancel]

end Modulo

section Fold

variable {low high : K}

theorem fold_of_eq {x v : K} (hv : v ∈ Set.Ico 0 (2 * (high - low))) (k : ℤ)
    (h : x - low = v + k * (2 * (high - low))) :
    fold low high x = low + if high - low ≤ v then 2 * (high - low) - v else v := by
  rw [fold, modulo_unique hv k h]

theorem fold_reflect (hlt : low < high) {x y : K} (k : ℤ)
    (h : y - low = -(x - low) + k * (2 * (high - low))) : fold low high y = fold low high x := by
  have hpos : 0 < 2 * (high - low) := by linarith
  obtain ⟨hzero, hless⟩ := modulo_mem hpos (x - low)
  have heq := eq_modulo_add (x - low) (2 * (high - low))
  generalize modulo (x - low) (2 * (high - low)) = v at hzero hless heq
  generalize ⌊(x - low) / (2 * (high - low))⌋ = m at heq
  rw [fold_of_eq ⟨hzero, hless⟩ m heq]
  rcases hzero.eq_or_lt with rfl | hv
  · rw [fold_of_eq ⟨le_rfl, hpos⟩ (k - m) (by rw [h, heq]; push_cast; ring)]
  · rw [fold_of_eq (v := 2 * (high - low) - v) ⟨by linarith, by linarith⟩ (k - m - 1)
      (by rw [h, heq]; push_cast; ring)]
    split <;> split <;> linarith

theorem isFold_fold (hlt : low < high) : IsFold low high (fold low high) where
  mem x := by
    obtain ⟨hzero, hless⟩ := modulo_mem (by linarith : 0 < 2 * (high - low)) (x - low)
    simp only [fold]
    split
    · constructor <;> linarith
    · constructor <;> linarith
  inside x hx := by
    obtain ⟨hlow, hhigh⟩ := hx
    rw [fold_of_eq (v := x - low) ⟨by linarith, by linarith⟩ 0 (by rw [Int.cast_zero]; ring)]
    split <;> linarith
  periodic x := by
    have hpos : 0 < 2 * (high - low) := by linarith
    have hmodulo : modulo (x + 2 * (high - low) - low) (2 * (high - low)) =
        modulo (x - low) (2 * (high - low)) := by
      rw [← modulo_add_int_mul hpos (x - low) 1, Int.cast_one, one_mul, add_sub_right_comm]
    rw [fold, hmodulo]
    rfl
  reflect_low x := fold_reflect hlt 0 (by rw [Int.cast_zero]; ring)
  reflect_high x := fold_reflect hlt 1 (by rw [Int.cast_one]; ring)

theorem IsFold.eq_fold {f : K → K} (hf : IsFold low high f) (hlt : low < high) (x : K) :
    f x = fold low high x := by
  obtain ⟨hzero, hless⟩ := modulo_mem (by linarith : 0 < 2 * (high - low)) (x - low)
  have heq := eq_modulo_add (x - low) (2 * (high - low))
  simp only [fold]
  generalize modulo (x - low) (2 * (high - low)) = v at hzero hless heq
  generalize ⌊(x - low) / (2 * (high - low))⌋ = k at heq
  have hx : x = low + v + k * (2 * (high - low)) := by linarith
  have hperiod : f x = f (low + v) := by
    rw [hx]
    exact hf.periodic.int_mul k (low + v)
  rw [hperiod]
  split
  · have hreflect : f (low + v) = f (2 * high - (low + v)) := (hf.reflect_high _).symm
    rw [hreflect, hf.inside _ ⟨by linarith, by linarith⟩]
    ring
  · exact hf.inside _ ⟨by linarith, by linarith⟩

end Fold

end TriangularFold

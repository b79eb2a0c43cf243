import Incudine.Literals
import Mathlib.Algebra.Order.Floor.Ring
import Mathlib.Tactic.Ring

/-!
# Interpolation

The linear interpolation of two samples and the Catmull-Rom spline of four samples, in exact
arithmetic.
-/

namespace Incudine.Interpolation

open scoped Literals

variable {K : Type*} [Field K]

def sampleToFixnum [LinearOrder K] [FloorRing K] (value : K) : ℤ := ⌊value⌋

def linearInterp (x y0 y1 : K) : K := y0 + x * (y1 - y0)

def cubicInterp (x y0 y1 y2 y3 : K) : K :=
  let a0 := -(1 / 2) * y0 + (3 / 2) * y1 + -(3 / 2) * y2 + (1 / 2) * y3
  let a1 := y0 + -(5 / 2) * y1 + 2 * y2 + -(1 / 2) * y3
  let a2 := -(1 / 2) * y0 + (1 / 2) * y2
  x * (x * (a0 * x + a1) + a2) + y1

def interp (x : K) : List K → K
  | [y] => y
  | [y0, y1] => linearInterp x y0 y1
  | [y0, y1, y2, y3] => cubicInterp x y0 y1 y2 y3
  | _ => 0

theorem linearInterp_zero (y0 y1 : K) : linearInterp 0 y0 y1 = y0 := by
  simp [linearInterp]

theorem cubicInterp_zero (y0 y1 y2 y3 : K) : cubicInterp 0 y0 y1 y2 y3 = y1 := by
  simp [cubicInterp]

theorem linearInterp_zeros (x : K) : linearInterp x 0 0 = 0 := by
  simp [linearInterp]

theorem cubicInterp_zeros (x : K) : cubicInterp x 0 0 0 0 = 0 := by
  simp [cubicInterp]

theorem cubicInterp_first [CharZero K] (x : K) :
    cubicInterp x 1 0 0 0 = -(1 / 2) * (x * (x - 1) ^ 2) := by
  have htwo : (2 : K) ≠ 0 := OfNat.ofNat_ne_zero 2
  simp only [cubicInterp]
  field_simp
  ring

theorem cubicInterp_last (x : K) : cubicInterp x 0 0 0 1 = (1 / 2) * (x ^ 2 * (x - 1)) := by
  simp only [cubicInterp]
  ring

end Incudine.Interpolation

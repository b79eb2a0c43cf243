import Mathlib.Tactic.Linarith

/-!
# Nearest values

The values of a sorted table at the minimal distance from a value: the distance grows in both the
directions, and a value is on the side of the nearest one of two with respect to the point that is
half-way between them.
-/

namespace Nearest

variable {K : Type*} [CommRing K] [LinearOrder K] [IsStrictOrderedRing K]

/-- No value of the table is closer to `v` than the value of the index `k`. -/
def IsNearest (c : ℕ → K) (n : ℕ) (v : K) (k : ℕ) : Prop :=
  k < n ∧ ∀ j < n, |v - c k| ≤ |v - c j|

def Sorted (c : ℕ → K) (n : ℕ) : Prop := ∀ i j, i ≤ j → j < n → c i ≤ c j

section Distance

variable {v a b : K}

theorem abs_sub_le_of_le (hva : v ≤ a) (hab : a ≤ b) : |v - a| ≤ |v - b| := by
  rw [abs_of_nonpos (by linarith), abs_of_nonpos (by linarith)]
  linarith

theorem abs_sub_le_of_ge (hba : b ≤ a) (hav : a ≤ v) : |v - a| ≤ |v - b| := by
  rw [abs_of_nonneg (by linarith), abs_of_nonneg (by linarith)]
  linarith

theorem abs_sub_le_iff_of_lt (hab : a < b) : |v - a| ≤ |v - b| ↔ v + v ≤ a + b := by
  rcases le_total v a with hva | hva
  · exact iff_of_true (abs_sub_le_of_le hva hab.le) (by linarith)
  rcases le_total b v with hbv | hbv
  · rw [abs_of_nonneg (by linarith), abs_of_nonneg (by linarith)]
    constructor <;> intro h <;> linarith
  · rw [abs_of_nonneg (by linarith), abs_of_nonpos (by linarith)]
    constructor <;> intro h <;> linarith

theorem abs_sub_le_iff_of_gt (hab : a < b) : |v - b| ≤ |v - a| ↔ a + b ≤ v + v := by
  rcases le_total v b with hvb | hvb
  · rcases le_total v a with hva | hva
    · rw [abs_of_nonpos (by linarith), abs_of_nonpos (by linarith)]
      constructor <;> intro h <;> linarith
    · rw [abs_of_nonpos (by linarith), abs_of_nonneg (by linarith)]
      constructor <;> intro h <;> linarith
  · exact iff_of_true (abs_sub_le_of_ge hab.le hvb) (by linarith)

end Distance

section Table

variable {c : ℕ → K} {n k : ℕ} {v : K}

theorem isNearest_iff (h : Sorted c n) (hk : k < n) : IsNearest c n v k ↔
    (∀ j < k, c j < c k → c j + c k ≤ v + v) ∧
      ∀ j < n, k < j → c k < c j → v + v ≤ c k + c j := by
  constructor
  · rintro ⟨-, hmin⟩
    refine ⟨fun j hj hlt => ?_, fun j hn _ hlt => ?_⟩
    · exact (abs_sub_le_iff_of_gt hlt).mp (hmin j (hj.trans hk))
    · exact (abs_sub_le_iff_of_lt hlt).mp (hmin j hn)
  · rintro ⟨hbelow, habove⟩
    refine ⟨hk, fun j hn => ?_⟩
    rcases lt_trichotomy (c j) (c k) with hlt | heq | hgt
    · have hj : j < k := lt_of_not_ge fun hle => hlt.not_ge (h k j hle hn)
      exact (abs_sub_le_iff_of_gt hlt).mpr (hbelow j hj hlt)
    · rw [heq]
    · have hj : k < j := lt_of_not_ge fun hle => hgt.not_ge (h j k hle hk)
      exact (abs_sub_le_iff_of_lt hgt).mpr (habove j hn hj hgt)

end Table

end Nearest

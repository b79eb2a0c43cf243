import Incudine.CountedLoop
import Incudine.Literals
import Mathlib.Analysis.SpecialFunctions.Trigonometric.Complex

/-!
# Harmonic sums

`gen:gbuzz` stores the closed form of a sum of cosines, divided by the sum of the strengths. Where
the denominator of the closed form is small, the sample is 1 whatever the sum.
-/

noncomputable section

namespace Incudine.Gbuzz

open CountedLoop Finset Real
open scoped Literals

def buzzSample (numHarm size i : ℕ) : ℝ :=
  let angle := i * (π / size)
  let denom := sin angle
  if denom = 0 then 1
  else 0.5 / numHarm * (sin ((2 * numHarm + 1 : ℕ) * angle) / denom - 1)

def angle (size i : ℕ) : ℝ := i * (2 * π / size)

def denom (mul : ℝ) (size i : ℕ) : ℝ := mul * mul + 1 - (mul + mul) * cos (angle size i)

/-- The power of `mul`, from the absolute value. -/
def c2Mult (numHarm : ℕ) (mul : ℝ) : ℝ :=
  if mul < 0 ∧ numHarm % 2 = 1 then -|mul| ^ numHarm else |mul| ^ numHarm

def scale (numHarm : ℕ) (mul : ℝ) : ℝ :=
  if |mul| > 0.999 ∧ |mul| < 1.001 then 1 / numHarm else (1 - |mul|) / (1 - |c2Mult numHarm mul|)

def num (numHarm lowestHarm : ℕ) (mul θ : ℝ) : ℝ :=
  let c1 := lowestHarm - 1
  let c2 := lowestHarm + numHarm
  let c3 := c2 - 1
  cos (lowestHarm * θ) - mul * cos (c1 * θ) - c2Mult numHarm mul * cos (c2 * θ) +
    c2Mult numHarm mul * mul * cos (c3 * θ)

def gbuzzSample (numHarm lowestHarm : ℕ) (mul : ℝ) (size i : ℕ) : ℝ :=
  if denom mul size i > 1e-5 ∨ denom mul size i < -1e-5 then
    scale numHarm mul * (num numHarm lowestHarm mul (angle size i) / denom mul size i)
  else 1

/-- The function that fills the array, if the number of harmonics has the declared type. -/
def gbuzz (numHarm lowestHarm : ℕ) (mul : ℝ) : Option ((ℕ → ℝ) → ℕ → ℕ → ℝ) :=
  if 1 ≤ numHarm ∧ numHarm ≤ 100000 then
    some fun foreignPointer size =>
      let sample :=
        if lowestHarm = 1 ∧ mul = 1 then buzzSample numHarm size
        else gbuzzSample numHarm lowestHarm mul size
      dotimes (fun i memory => Function.update memory i (sample i)) size foreignPointer
  else none

def harmonicSum (n h : ℕ) (m θ : ℝ) : ℝ := ∑ k ∈ range n, m ^ k * cos ((h + k : ℕ) * θ)

def strength (n : ℕ) (m : ℝ) : ℝ := ∑ k ∈ range n, |m| ^ k

/-- The samples are those of the normalized sum. -/
def IsHarmonicSum (numHarm lowestHarm : ℕ) (mul : ℝ) (size : ℕ) : Prop :=
  ∃ fill, gbuzz numHarm lowestHarm mul = some fill ∧ ∀ foreignPointer, ∀ i < size,
    fill foreignPointer size i =
      harmonicSum numHarm lowestHarm mul (2 * π * i / size) / strength numHarm mul

/-- The angles where the normalized sum is 1. -/
def Aligned (numHarm lowestHarm : ℕ) (mul : ℝ) (size i : ℕ) : Prop :=
  numHarm = 1 ∧ size ∣ lowestHarm * i ∨ 0 < mul ∧ i = 0 ∨
    mul < 0 ∧ 2 * i = size ∧ Even lowestHarm

section ClosedForm

variable {n h : ℕ} {m θ : ℝ}

theorem c2Mult_eq (n : ℕ) (m : ℝ) : c2Mult n m = m ^ n := by
  unfold c2Mult
  split
  · rename_i hneg
    rw [abs_of_neg hneg.1, (Nat.odd_iff.mpr hneg.2).neg_pow, neg_neg]
  · rename_i hpos
    by_cases hm : m < 0
    · have hodd : ¬ n % 2 = 1 := fun h => hpos ⟨hm, h⟩
      have heven : Even n := Nat.even_iff.mpr (by omega)
      rw [heven.pow_abs]
    · rw [abs_of_nonneg (not_lt.mp hm)]

theorem strength_pos (hn : 1 ≤ n) (m : ℝ) : 0 < strength n m := by
  have hzero : |m| ^ 0 ≤ strength n m :=
    single_le_sum (fun k _ => pow_nonneg (abs_nonneg m) k) (mem_range.mpr hn)
  rw [pow_zero] at hzero
  exact one_pos.trans_le hzero

theorem scale_eq (n : ℕ) (hm : |m| = 1 ∨ |m| ≤ 0.999 ∨ 1.001 ≤ |m|) :
    scale n m = 1 / strength n m := by
  unfold scale
  split
  · rename_i hnear
    have hone : |m| = 1 := by
      rcases hm with hone | hle | hge
      · exact hone
      · exact absurd hnear.1 (not_lt.mpr hle)
      · exact absurd hnear.2 (not_lt.mpr hge)
    rw [strength, hone]
    simp
  · rename_i hfar
    have hne : |m| ≠ 1 := by
      intro hone
      rw [hone] at hfar
      norm_num at hfar
    have hsum : strength n m * (1 - |m|) = 1 - |m| ^ n := geom_sum_mul_neg |m| n
    have hone : 1 - |m| ≠ 0 := sub_ne_zero.mpr hne.symm
    rw [c2Mult_eq, abs_pow, ← hsum, div_mul_cancel_right₀ hone, one_div]

theorem denom_mul_harmonicSum (hh : 1 ≤ h) (n : ℕ) :
    (m * m + 1 - (m + m) * cos θ) * harmonicSum n h m θ =
      cos (h * θ) - m * cos ((h - 1 : ℕ) * θ) - m ^ n * cos ((h + n : ℕ) * θ) +
        m ^ n * m * cos ((h + n - 1 : ℕ) * θ) := by
  induction n with
  | zero =>
    rw [harmonicSum, range_zero, sum_empty, Nat.add_zero, pow_zero]
    ring
  | succ n ih =>
    have hcos : 2 * cos ((h + n : ℕ) * θ) * cos θ =
        cos ((h + n - 1 : ℕ) * θ) + cos ((h + n + 1 : ℕ) * θ) := by
      rw [two_mul_cos_mul_cos, Nat.cast_sub (by omega : 1 ≤ h + n)]
      push_cast
      rw [sub_mul, one_mul, add_mul _ (1 : ℝ), one_mul]
    have hsum : harmonicSum (n + 1) h m θ =
        harmonicSum n h m θ + m ^ n * cos ((h + n : ℕ) * θ) := sum_range_succ _ n
    rw [hsum, mul_add, ih, ← Nat.add_assoc, Nat.add_sub_cancel, pow_succ]
    linear_combination (-m ^ n * m) * hcos

theorem num_eq (hh : 1 ≤ h) (n : ℕ) (m θ : ℝ) :
    num n h m θ = (m * m + 1 - (m + m) * cos θ) * harmonicSum n h m θ := by
  rw [denom_mul_harmonicSum hh, num, c2Mult_eq]

theorem sin_mul_harmonicSum (n : ℕ) (x : ℝ) :
    2 * sin x * harmonicSum n 1 1 (2 * x) = sin ((2 * n + 1 : ℕ) * x) - sin x := by
  induction n with
  | zero =>
    rw [harmonicSum, range_zero, sum_empty, Nat.mul_zero, Nat.zero_add, Nat.cast_one, one_mul,
      mul_zero, sub_self]
  | succ n ih =>
    have hsin : sin ((2 * (n + 1) + 1 : ℕ) * x) - sin ((2 * n + 1 : ℕ) * x) =
        2 * sin x * cos ((1 + n : ℕ) * (2 * x)) := by
      rw [sin_sub_sin]
      congr 2
      · congr 1
        push_cast
        ring
      · push_cast
        ring
    have hsum : harmonicSum (n + 1) 1 1 (2 * x) =
        harmonicSum n 1 1 (2 * x) + 1 ^ n * cos ((1 + n : ℕ) * (2 * x)) := sum_range_succ _ n
    rw [hsum, one_pow, one_mul, mul_add, ih, ← hsin]
    exact sub_add_sub_cancel' _ _ _

end ClosedForm

section Small

variable {n h size i : ℕ} {m : ℝ}

theorem cos_eq_one {j : ℕ} (hsize : 1 ≤ size) : cos (angle size j) = 1 ↔ size ∣ j := by
  have hcast : (size : ℝ) ≠ 0 := Nat.cast_ne_zero.mpr (by omega)
  have hpi : (2 * π : ℝ) ≠ 0 := by positivity
  rw [Real.cos_eq_one_iff]
  constructor
  · rintro ⟨k, hk⟩
    have hreal : (k * size : ℝ) = j := by
      rw [angle, mul_div_assoc', eq_div_iff hcast] at hk
      exact mul_right_cancel₀ hpi (by linarith)
    have hint : k * (size : ℤ) = j := by exact_mod_cast hreal
    exact Int.natCast_dvd_natCast.mp ⟨k, by rw [← hint, mul_comm]⟩
  · rintro ⟨k, rfl⟩
    refine ⟨k, ?_⟩
    rw [angle]
    push_cast
    field_simp

theorem two_mul_eq_of_cos (hi : i < size) (h : cos (angle size i) = -1) : 2 * i = size := by
  have hcast : (size : ℝ) ≠ 0 := Nat.cast_ne_zero.mpr (by omega)
  obtain ⟨k, hk⟩ := Real.cos_eq_neg_one_iff.mp h
  have hreal : ((1 + 2 * k) * size : ℝ) = 2 * i := by
    rw [angle, mul_div_assoc', eq_div_iff hcast] at hk
    exact mul_right_cancel₀ Real.pi_ne_zero (by linarith)
  have hint : (1 + 2 * k) * (size : ℤ) = 2 * i := by exact_mod_cast hreal
  have hzero : k = 0 := by
    have hlt : (i : ℤ) < size := by exact_mod_cast hi
    have hnonneg : (0 : ℤ) ≤ i := Int.natCast_nonneg i
    rcases lt_trichotomy k 0 with hneg | hzero | hpos
    · nlinarith
    · exact hzero
    · nlinarith
  rw [hzero] at hint
  omega

theorem angle_half (hsize : 1 ≤ size) (h : 2 * i = size) : angle size i = π := by
  have hi : (i : ℝ) ≠ 0 := Nat.cast_ne_zero.mpr (by omega)
  rw [angle, ← h]
  push_cast
  field_simp

theorem mul_angle (h size i : ℕ) : h * angle size i = angle size (h * i) := by
  rw [angle, angle, Nat.cast_mul, mul_assoc]

theorem aligned_of_terms (hn : 1 ≤ n) (hm : m ≠ 0) (hi : i < size)
    (hterms : ∀ k < n, m ^ k * cos ((h + k : ℕ) * angle size i) = |m| ^ k) :
    Aligned n h m size i := by
  have hsize : 1 ≤ size := Nat.succ_le_of_lt (Nat.zero_lt_of_lt hi)
  have hfirst : cos (h * angle size i) = 1 := by
    simpa using hterms 0 hn
  have hdvd : size ∣ h * i := by
    rwa [mul_angle, cos_eq_one hsize] at hfirst
  rcases Nat.lt_or_ge 1 n with hlt | hle
  · have hsin : sin (h * angle size i) = 0 := by
      have hsq := Real.sin_sq_add_cos_sq (h * angle size i)
      rw [hfirst] at hsq
      exact pow_eq_zero_iff two_ne_zero |>.mp (by linarith)
    have hsecond := hterms 1 hlt
    rw [pow_one, pow_one, Nat.cast_add, Nat.cast_one, add_mul, one_mul, Real.cos_add, hfirst,
      hsin, one_mul, zero_mul, sub_zero] at hsecond
    rcases lt_or_gt_of_ne hm with hneg | hpos
    · rw [abs_of_neg hneg] at hsecond
      have hcos : cos (angle size i) = -1 :=
        mul_left_cancel₀ hm (by rw [hsecond, mul_neg_one])
      have hhalf := two_mul_eq_of_cos hi hcos
      refine Or.inr (Or.inr ⟨hneg, hhalf, even_iff_two_dvd.mpr ?_⟩)
      rw [← hhalf] at hdvd
      exact Nat.dvd_of_mul_dvd_mul_right (by omega) hdvd
    · rw [abs_of_pos hpos] at hsecond
      have hcos : cos (angle size i) = 1 := mul_left_cancel₀ hm (by rw [hsecond, mul_one])
      exact Or.inr (Or.inl ⟨hpos, Nat.eq_zero_of_dvd_of_lt ((cos_eq_one hsize).mp hcos) hi⟩)
  · exact Or.inl ⟨by omega, hdvd⟩

theorem terms_of_aligned (hsize : 1 ≤ size) (ha : Aligned n h m size i) {k : ℕ} (hk : k < n) :
    m ^ k * cos ((h + k : ℕ) * angle size i) = |m| ^ k := by
  rcases ha with ⟨hn, hdvd⟩ | ⟨hpos, hi⟩ | ⟨hneg, hhalf, heven⟩
  · rw [show k = 0 by omega, Nat.add_zero, mul_angle, (cos_eq_one hsize).mpr hdvd, pow_zero,
      pow_zero, one_mul]
  · rw [hi, mul_angle, Nat.mul_zero, (cos_eq_one hsize).mpr (dvd_zero size), mul_one,
      abs_of_pos hpos]
  · rw [angle_half hsize hhalf, Real.cos_nat_mul_pi, pow_add, heven.neg_one_pow, one_mul,
      ← mul_pow, mul_neg_one, abs_of_neg hneg]

theorem harmonicSum_eq_strength (hn : 1 ≤ n) (hm : m ≠ 0) (hi : i < size) :
    harmonicSum n h m (angle size i) = strength n m ↔ Aligned n h m size i := by
  have hle : ∀ k ∈ range n, m ^ k * cos ((h + k : ℕ) * angle size i) ≤ |m| ^ k := by
    intro k _
    have habs : |m ^ k * cos ((h + k : ℕ) * angle size i)| ≤ |m| ^ k := by
      rw [abs_mul, abs_pow]
      exact mul_le_of_le_one_right (pow_nonneg (abs_nonneg m) k) (Real.abs_cos_le_one _)
    exact (le_abs_self _).trans habs
  rw [harmonicSum, strength, sum_eq_sum_iff_of_le hle]
  constructor
  · intro h
    exact aligned_of_terms hn hm hi fun k hk => h k (mem_range.mpr hk)
  · intro h k hk
    exact terms_of_aligned (Nat.succ_le_of_lt (Nat.zero_lt_of_lt hi)) h (mem_range.mp hk)

end Small

section Samples

variable {n h size i : ℕ} {m : ℝ}

theorem buzzSample_eq (hn : 1 ≤ n) (hi : i < size) :
    buzzSample n size i = harmonicSum n 1 1 (angle size i) / strength n 1 := by
  have hsize : 1 ≤ size := Nat.succ_le_of_lt (Nat.zero_lt_of_lt hi)
  have hdouble : angle size i = 2 * (i * (π / size)) := by
    rw [angle]
    ring
  have hstrength : strength n 1 = n := by simp [strength]
  have hcast : (n : ℝ) ≠ 0 := Nat.cast_ne_zero.mpr (by omega)
  simp only [buzzSample]
  split
  · rename_i hzero
    have hcos : cos (angle size i) = 1 := by
      rw [hdouble, Real.cos_two_mul, Real.cos_sq', hzero]
      norm_num
    have hi0 : i = 0 := Nat.eq_zero_of_dvd_of_lt ((cos_eq_one hsize).mp hcos) hi
    rw [(harmonicSum_eq_strength hn one_ne_zero hi).mpr (Or.inr (Or.inl ⟨one_pos, hi0⟩)),
      div_self (strength_pos hn 1).ne']
  · rename_i hne
    have hsum := sin_mul_harmonicSum n (i * (π / size))
    rw [hdouble, hstrength]
    generalize (i * (π / size) : ℝ) = x at hne hsum ⊢
    generalize harmonicSum n 1 1 (2 * x) = total at hsum ⊢
    field_simp
    linarith

theorem gbuzzSample_eq_iff (hn : 1 ≤ n) (hh : 1 ≤ h)
    (hm : |m| = 1 ∨ |m| ≤ 0.999 ∨ 1.001 ≤ |m|) (hi : i < size) :
    gbuzzSample n h m size i = harmonicSum n h m (angle size i) / strength n m ↔
      (|denom m size i| ≤ 1e-5 → Aligned n h m size i) := by
  have hpos := strength_pos hn m
  have hsmall : (denom m size i > 1e-5 ∨ denom m size i < -1e-5) ↔ ¬ |denom m size i| ≤ 1e-5 := by
    rw [abs_le, not_and_or, not_le, not_le]
    exact or_comm
  unfold gbuzzSample
  split
  · rename_i hlarge
    have hne : denom m size i ≠ 0 := by
      intro hzero
      rw [hzero] at hlarge
      norm_num at hlarge
    have hnum : num n h m (angle size i) = denom m size i * harmonicSum n h m (angle size i) :=
      num_eq hh n m _
    rw [hnum, mul_div_cancel_left₀ _ hne, scale_eq n hm, one_div_mul_eq_div]
    exact iff_of_true rfl fun hle => absurd hle (hsmall.mp hlarge)
  · rename_i hle
    rw [hsmall, not_not] at hle
    have hm0 : m ≠ 0 := by
      rintro rfl
      rw [denom] at hle
      norm_num at hle
    rw [← harmonicSum_eq_strength hn hm0 hi, eq_div_iff hpos.ne', one_mul, eq_comm]
    exact (imp_iff_right hle).symm

end Samples

/-- The samples are those of the sum exactly if the small denominators are at the angles where the
sum is 1. -/
theorem isHarmonicSum_iff {numHarm lowestHarm size : ℕ} {mul : ℝ} (hn : 1 ≤ numHarm)
    (hh : 1 ≤ lowestHarm) (hm : |mul| = 1 ∨ |mul| ≤ 0.999 ∨ 1.001 ≤ |mul|) :
    IsHarmonicSum numHarm lowestHarm mul size ↔ numHarm ≤ 100000 ∧
      (lowestHarm = 1 ∧ mul = 1 ∨
        ∀ i < size, |denom mul size i| ≤ 1e-5 → Aligned numHarm lowestHarm mul size i) := by
  have hangle (i : ℕ) : 2 * π * i / size = angle size i := by
    rw [angle]
    ring
  simp only [IsHarmonicSum, hangle]
  by_cases hmax : numHarm ≤ 100000
  · rw [gbuzz, if_pos ⟨hn, hmax⟩]
    simp only [Option.some.injEq, exists_eq_left', dotimes_update, hmax, true_and]
    by_cases hbuzz : lowestHarm = 1 ∧ mul = 1
    · obtain ⟨rfl, rfl⟩ := hbuzz
      refine iff_of_true (fun _ i hi => ?_) (Or.inl ⟨rfl, rfl⟩)
      rw [if_pos hi, if_pos ⟨rfl, rfl⟩, buzzSample_eq hn hi]
    · simp only [hbuzz, false_or]
      constructor
      · intro h i hi
        have hsample := h (fun _ => 0) i hi
        rw [if_pos hi] at hsample
        exact (gbuzzSample_eq_iff hn hh hm hi).mp hsample
      · intro h _ i hi
        rw [if_pos hi]
        exact (gbuzzSample_eq_iff hn hh hm hi).mpr (h i hi)
  · rw [gbuzz, if_neg fun hle => hmax hle.2]
    simp [hmax]

/-- An alternating sum of even harmonics. The denominator is zero at half of the table. -/
theorem isHarmonicSum_four : IsHarmonicSum 3 2 (-1) 4 := by
  refine (isHarmonicSum_iff (by norm_num) (by norm_num) (Or.inl (by norm_num))).mpr
    ⟨by norm_num, Or.inr fun i hi hsmall => Or.inr (Or.inr ⟨by norm_num, ?_, even_two⟩)⟩
  rw [denom, angle] at hsmall
  obtain rfl | rfl | rfl | rfl : i = 0 ∨ i = 1 ∨ i = 2 ∨ i = 3 := by omega
  · norm_num at hsmall
  · have hcos : cos ((1 : ℕ) * (2 * π / (4 : ℕ))) = 0 := by
      rw [← Real.cos_pi_div_two]
      congr 1
      push_cast
      ring
    rw [hcos] at hsmall
    norm_num at hsmall
  · rfl
  · have hcos : cos ((3 : ℕ) * (2 * π / (4 : ℕ))) = 0 := by
      rw [show ((3 : ℕ) * (2 * π / (4 : ℕ)) : ℝ) = π / 2 + π by push_cast; ring, Real.cos_add_pi,
        Real.cos_pi_div_two, neg_zero]
    rw [hcos] at hsmall
    norm_num at hsmall

/-- An alternating sum at half of the table. -/
theorem not_isHarmonicSum : ¬ IsHarmonicSum 1 1 (-1) 2 := by
  rintro ⟨fill, hfill, hsamples⟩
  have hsample := hsamples (fun _ => 0) 1 (by norm_num)
  rw [gbuzz, if_pos (by norm_num)] at hfill
  obtain rfl := Option.some.inj hfill
  have hangle : angle 2 1 = π := by
    rw [angle]
    norm_num
  have hhalf : 2 * π * (1 : ℕ) / (2 : ℕ) = π := by
    norm_num
  simp only [dotimes_update] at hsample
  rw [hhalf] at hsample
  norm_num [gbuzzSample, denom, hangle, harmonicSum, strength] at hsample

end Incudine.Gbuzz

end

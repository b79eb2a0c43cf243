import Incudine.Literals
import Incudine.Tuning

/-!
# Law of a tuning

The frequencies of the keys are the ratios of the scale, repeated at the period above and below the
reference, apart from the lower keys if the reference is the first degree after the unison.
-/

namespace Incudine.Tuning

open scoped Literals

variable {t : Tuning}

def place (t : Tuning) (k : ℕ) : ℤ := k - t.keynumBase + t.degreeIndex

noncomputable def placeRatio (t : Tuning) (n : ℤ) : ℝ :=
  t.ratios t.degrees ^ (n / t.degrees) * t.ratios (n % t.degrees).toNat

/-- The frequencies are proportional to the ratios of the places, the one of `keynum-base` is the
reference and a period is the last ratio. -/
def Law (t : Tuning) : Prop :=
  (∃ C, t.cps t.keynumBase = t.freqBase ∧ ∀ k < 128, t.cps k = C * t.placeRatio (t.place k)) ∧
    ∀ k, k + t.degrees < 128 → t.cps (k + t.degrees) = t.ratios t.degrees * t.cps k

theorem ratioOf_intCast_mul (m : ℤ) (c : ℝ) : ratioOf (m * c) = ratioOf c ^ m := by
  rw [ratioOf, ratioOf, mul_div_assoc, mul_comm, Real.rpow_mul two_pos.le, Real.rpow_intCast]

theorem placeRatio_eq (n : ℤ) : t.placeRatio n = ratioOf (t.pitch n) := by
  rw [pitch, extended, ratioOf_add, ratioOf_intCast_mul, ratioOf_cents, ratioOf_cents, placeRatio]

theorem placeRatio_pos (n : ℤ) : 0 < t.placeRatio n := by
  rw [placeRatio_eq]
  exact ratioOf_pos _

theorem placeRatio_add_degrees (n : ℤ) :
    t.placeRatio (n + t.degrees) = t.ratios t.degrees * t.placeRatio n := by
  have hadd := @extended_add_mul t.degrees t.cents t.degrees_pos n 1
  rw [one_mul, Int.cast_one, one_mul] at hadd
  rw [placeRatio_eq, pitch, hadd, ratioOf_add, ratioOf_cents, placeRatio_eq, pitch, mul_comm]

noncomputable def unison (t : Tuning) : ℝ := t.freqBase * (t.placeRatio t.degreeIndex)⁻¹

theorem cps_eq_placeRatio {k : ℕ} (hk : k < 128) :
    t.cps k = t.unison * t.placeRatio (t.place k) * ratioOf (t.jump k) := by
  set e : ℤ := ((t.degreeIndex : ℤ) - 1) / t.degrees with he
  have hindex : ((t.degreeIntervalIndex : ℕ) : ℤ) = ((t.degreeIndex : ℤ) - 1) % t.degrees :=
    Int.toNat_of_nonneg (Int.emod_nonneg _ (by have := t.degrees_pos; omega))
  have hdegree : (t.degreeIndex : ℤ) = ((t.degreeIntervalIndex + 1 : ℕ) : ℤ) + e * t.degrees := by
    have hdiv := Int.emod_add_mul_ediv ((t.degreeIndex : ℤ) - 1) t.degrees
    rw [← he, ← hindex] at hdiv
    push_cast
    linarith
  have hplace : t.place k = t.shift + k + e * t.degrees := by
    rw [place, shift, hdegree]
    ring
  have hpitch (n : ℤ) : t.pitch (n + e * t.degrees) = t.pitch n + e * t.cents t.degrees :=
    extended_add_mul t.degrees_pos n e
  have hreference : t.pitch ((t.degreeIntervalIndex + 1 : ℕ) : ℤ) =
      t.cents (t.degreeIntervalIndex + 1) :=
    extended_natCast t.degrees_pos cents_zero degreeIntervalIndex_lt
  have hratio : ratioOf (t.pitch (t.shift + k) - t.cents (t.degreeIntervalIndex + 1) + t.jump k) =
      ratioOf (-(t.cents (t.degreeIntervalIndex + 1) + e * t.cents t.degrees)) *
        ratioOf (t.pitch (t.shift + k) + e * t.cents t.degrees) * ratioOf (t.jump k) := by
    rw [← ratioOf_add, ← ratioOf_add]
    congr 1
    ring
  rw [cps_eq hk, hratio, unison, placeRatio_eq, placeRatio_eq, hplace, hpitch, hdegree, hpitch,
    hreference, ← ratioOf_neg]
  ring

theorem jump_keynumBase : t.jump t.keynumBase = 0 := if_neg fun h => lt_irrefl _ h.2

theorem unison_ne_zero (hfreq : t.freqBase ≠ 0) : t.unison ≠ 0 :=
  mul_ne_zero hfreq (inv_ne_zero (placeRatio_pos _).ne')

theorem cps_keynumBase : t.cps t.keynumBase = t.freqBase := by
  have hplace : t.place t.keynumBase = t.degreeIndex := by rw [place, sub_self, zero_add]
  rw [cps_eq_placeRatio t.keynumBase_lt, jump_keynumBase, ratioOf_zero, mul_one, hplace, unison,
    inv_mul_cancel_right₀ (placeRatio_pos _).ne']

theorem Law.reference (h : t.Law) :
    t.degreeIntervalIndex ≠ 0 ∨ t.keynumBase = 0 ∨ t.ratios t.degrees = 1 ∨ t.freqBase = 0 := by
  obtain ⟨⟨C, -, hlaw⟩, -⟩ := h
  by_contra hnot
  push Not at hnot
  obtain ⟨hindex, hbase, hratio, hfreq⟩ := hnot
  have hbaseLt := t.keynumBase_lt
  have hC : C = t.unison := by
    have heq := cps_eq_placeRatio (t := t) hbaseLt
    rw [jump_keynumBase, ratioOf_zero, mul_one, hlaw _ hbaseLt] at heq
    exact mul_right_cancel₀ (placeRatio_pos _).ne' heq
  have hprevious : t.keynumBase - 1 < 128 := by omega
  have hjump : ratioOf (t.jump (t.keynumBase - 1)) = t.ratios t.degrees := by
    rw [jump, if_pos ⟨hindex, by omega⟩, ratioOf_cents]
  have heq := cps_eq_placeRatio (t := t) hprevious
  rw [hlaw _ hprevious, hC, hjump] at heq
  have hne := mul_ne_zero (unison_ne_zero hfreq)
    (placeRatio_pos (t := t) (t.place (t.keynumBase - 1))).ne'
  exact hratio (mul_left_cancel₀ hne (heq.symm.trans (mul_one _).symm))

/-- The law holds exactly if no key is a period too high. -/
theorem law_iff (t : Tuning) : t.Law ↔
    t.degreeIntervalIndex ≠ 0 ∨ t.keynumBase = 0 ∨ t.ratios t.degrees = 1 ∨ t.freqBase = 0 := by
  constructor
  · exact Law.reference
  · intro h
    have hcps (k : ℕ) (hk : k < 128) : t.cps k = t.unison * t.placeRatio (t.place k) := by
      rw [cps_eq_placeRatio hk]
      rcases h with h | h | h | h
      · rw [jump, if_neg fun hand => h hand.1, ratioOf_zero, mul_one]
      · rw [jump, if_neg fun hand => by omega, ratioOf_zero, mul_one]
      · have hcents : t.cents t.degrees = 0 := by rw [cents, h, centsOf_one]
        rw [jump, hcents, ite_self, ratioOf_zero, mul_one]
      · rw [unison, h, zero_mul, zero_mul, zero_mul]
    refine ⟨⟨t.unison, cps_keynumBase, hcps⟩, fun k hk => ?_⟩
    have hplace : t.place (k + t.degrees) = t.place k + t.degrees := by
      rw [place, place]
      push_cast
      ring
    rw [hcps _ hk, hcps _ (by omega), hplace, placeRatio_add_degrees]
    ring

noncomputable def et12FirstDegree : Tuning where
  degrees := 12
  ratios i := ratioOf (100 * i)
  keynumBase := 69
  freqBase := 440
  degreeIndex := 1
  degrees_pos := Nat.succ_pos 11
  degrees_le := Nat.le_add_right 12 116
  ratios_zero := ratioOf_semitones_zero
  ratios_pos := ratioOf_semitones_pos
  keynumBase_lt := Nat.le_add_right 70 58
  freqBase_nonneg := Nat.ofNat_nonneg 440

theorem not_law : ¬ et12FirstDegree.Law := by
  intro h
  have hratio : et12FirstDegree.ratios et12FirstDegree.degrees = 2 := by
    change (2 : ℝ) ^ (100 * ((12 : ℕ) : ℝ) / 1200) = 2
    norm_num
  rcases h.reference with hindex | hbase | hone | hfreq
  · exact hindex rfl
  · exact absurd hbase (by norm_num [et12FirstDegree])
  · rw [hratio] at hone
    norm_num at hone
  · norm_num [et12FirstDegree] at hfreq

end Incudine.Tuning

import Incudine.Literals
import Mathlib.Analysis.SpecialFunctions.Log.Base

/-!
# Tunings

The frequencies of a tuning are computed from the reference key, upwards and downwards, with the
ratios of the degrees and of the period, in real arithmetic. In cents they are the walk of the
scale extended to all the integers.
-/

namespace Incudine.Tuning

open Function
open scoped Literals

noncomputable def ratioOf (cents : ℝ) : ℝ := 2 ^ (cents / 1200)

noncomputable def centsOf (ratio : ℝ) : ℝ := 1200 * Real.logb 2 ratio

theorem ratioOf_pos (c : ℝ) : 0 < ratioOf c := Real.rpow_pos_of_pos two_pos _

theorem ratioOf_zero : ratioOf 0 = 1 := by
  rw [ratioOf, zero_div, Real.rpow_zero]

theorem ratioOf_semitones_zero : ratioOf (100 * (0 : ℕ)) = 1 := by
  rw [Nat.cast_zero, mul_zero, ratioOf_zero]

theorem ratioOf_semitones_pos (i : ℕ) : 0 < ratioOf (100 * i) := ratioOf_pos _

theorem ratioOf_add (c c' : ℝ) : ratioOf (c + c') = ratioOf c * ratioOf c' := by
  rw [ratioOf, add_div, Real.rpow_add two_pos]
  rfl

theorem ratioOf_neg (c : ℝ) : ratioOf (-c) = (ratioOf c)⁻¹ := by
  rw [ratioOf, neg_div, Real.rpow_neg two_pos.le]
  rfl

theorem ratioOf_lt {c c' : ℝ} : ratioOf c < ratioOf c' ↔ c < c' := by
  rw [ratioOf, ratioOf, Real.rpow_lt_rpow_left_iff one_lt_two]
  exact div_lt_div_iff_of_pos_right (by norm_num)

theorem ratioOf_le {c c' : ℝ} : ratioOf c ≤ ratioOf c' ↔ c ≤ c' := by
  rw [← not_lt, ← not_lt, ratioOf_lt]

theorem centsOf_ratioOf (c : ℝ) : centsOf (ratioOf c) = c := by
  rw [centsOf, ratioOf, Real.logb_rpow two_pos (by norm_num)]
  exact mul_div_cancel₀ c (by norm_num)

theorem ratioOf_centsOf {x : ℝ} (hx : 0 < x) : ratioOf (centsOf x) = x := by
  rw [ratioOf, centsOf, mul_div_cancel_left₀ _ (by norm_num)]
  exact Real.rpow_logb two_pos (by norm_num) hx

theorem centsOf_mul {x y : ℝ} (hx : 0 < x) (hy : 0 < y) :
    centsOf (x * y) = centsOf x + centsOf y := by
  rw [centsOf, Real.logb_mul hx.ne' hy.ne', mul_add]
  rfl

theorem centsOf_div {x y : ℝ} (hx : 0 < x) (hy : 0 < y) :
    centsOf (x / y) = centsOf x - centsOf y := by
  rw [centsOf, Real.logb_div hx.ne' hy.ne', mul_sub]
  rfl

theorem centsOf_one : centsOf 1 = 0 := by
  rw [centsOf, Real.logb_one, mul_zero]

theorem centsOf_lt {x y : ℝ} (hx : 0 < x) (hy : 0 < y) : centsOf x < centsOf y ↔ x < y := by
  rw [← ratioOf_lt, ratioOf_centsOf hx, ratioOf_centsOf hy]

/-- The pitch of a degree in a scale that is repeated at the interval `c d`. -/
noncomputable def extended (d : ℕ) (c : ℕ → ℝ) (n : ℤ) : ℝ :=
  (n / d : ℤ) * c d + c (n % d).toNat

section Extended

variable {d : ℕ} {c : ℕ → ℝ}

theorem extended_mul_add (hd : 0 < d) (hc : c 0 = 0) (m : ℤ) {i : ℕ} (hi : i ≤ d) :
    extended d c (m * d + i) = m * c d + c i := by
  have hd' : (d : ℤ) ≠ 0 := by omega
  rcases hi.eq_or_lt with rfl | hlt
  · have hsum : m * (i : ℤ) + i = (m + 1) * i := by ring
    rw [hsum, extended, Int.mul_ediv_cancel _ hd', Int.mul_emod_left, Int.toNat_zero, hc]
    push_cast
    ring
  · have hcomm : m * (d : ℤ) + i = i + d * m := by ring
    have hdiv : ((i : ℤ) + d * m) / d = m := by
      rw [Int.add_mul_ediv_left _ _ hd', Int.ediv_eq_zero_of_lt (by omega) (by omega), zero_add]
    have hmod : ((i : ℤ) + d * m) % d = i := by
      rw [Int.add_mul_emod_self_left, Int.emod_eq_of_lt (by omega) (by omega)]
    rw [hcomm, extended, hdiv, hmod, Int.toNat_natCast]

theorem extended_natCast (hd : 0 < d) (hc : c 0 = 0) {i : ℕ} (hi : i ≤ d) :
    extended d c i = c i := by
  have h := extended_mul_add hd hc 0 hi
  rwa [Int.cast_zero, zero_mul, zero_mul, zero_add, zero_add] at h

theorem extended_add_mul (hd : 0 < d) (n m : ℤ) :
    extended d c (n + m * d) = extended d c n + m * c d := by
  have hd' : (d : ℤ) ≠ 0 := by omega
  rw [extended, Int.add_mul_ediv_right _ _ hd', Int.add_mul_emod_self_right, extended]
  push_cast
  ring

end Extended

end Incudine.Tuning

namespace Incudine

open Function Tuning

/-- The ratios of the degrees, with the unison, and the reference. -/
structure Tuning where
  degrees : ℕ
  ratios : ℕ → ℝ
  keynumBase : ℕ
  freqBase : ℝ
  degreeIndex : ℕ
  degrees_pos : 0 < degrees
  degrees_le : degrees ≤ 128
  ratios_zero : ratios 0 = 1
  ratios_pos : ∀ i, 0 < ratios i
  keynumBase_lt : keynumBase < 128
  freqBase_nonneg : 0 ≤ freqBase

namespace Tuning

variable (t : Tuning)

noncomputable def cents (i : ℕ) : ℝ := centsOf (t.ratios i)

def sampleRatio (i : ℕ) : ℝ := t.ratios (i + 1)

def degreeIntervalIndex : ℕ := (((t.degreeIndex : ℤ) - 1) % t.degrees).toNat

def previousDegree (deg : ℕ) : ℕ := (((deg : ℤ) - 1) % t.degrees).toNat

/-- The frequencies of the keys below the given one. -/
noncomputable def updateLower : ℕ → ℕ → ℝ → (ℕ → ℝ) → (ℕ → ℝ)
  | 0, _, _, data => data
  | k + 1, deg, temp, data =>
    let data := update data k (temp * t.sampleRatio deg)
    let temp := if deg = 0 ∧ 0 < k then temp * (1 / t.sampleRatio (t.degrees - 1)) else temp
    updateLower k (t.previousDegree deg) temp data

/-- The frequencies of the keys from `k`, with the number of the keys that are left. -/
noncomputable def updateUpper : ℕ → ℕ → ℕ → ℝ → (ℕ → ℝ) → (ℕ → ℝ)
  | 0, _, _, _, data => data
  | left + 1, k, deg, temp, data =>
    let temp := if deg = 0 then data (k - 1) else temp
    updateUpper left (k + 1) ((deg + 1) % t.degrees) temp
      (update data k (temp * t.sampleRatio deg))

noncomputable def updateTuningData (data : ℕ → ℝ) : ℕ → ℝ :=
  let kbase := t.keynumBase
  let degree := t.degreeIntervalIndex
  let data := update data kbase t.freqBase
  let temp := t.freqBase * (1 / t.sampleRatio degree)
  let data := t.updateLower kbase (t.previousDegree degree) temp data
  t.updateUpper (127 - kbase) (kbase + 1) ((degree + 1) % t.degrees) temp data

noncomputable def cps (keynum : ℕ) : ℝ := t.updateTuningData (fun _ => 0) keynum

noncomputable def pitch (n : ℤ) : ℝ := extended t.degrees t.cents n

variable {t}

theorem cents_zero : t.cents 0 = 0 := by
  rw [cents, t.ratios_zero, centsOf_one]

theorem ratioOf_cents (i : ℕ) : ratioOf (t.cents i) = t.ratios i := ratioOf_centsOf (t.ratios_pos i)

theorem pitch_mul_add (m : ℤ) {i : ℕ} (hi : i ≤ t.degrees) :
    t.pitch (m * t.degrees + i) = m * t.cents t.degrees + t.cents i :=
  extended_mul_add t.degrees_pos cents_zero m hi

theorem ratioOf_pitch_mul {n m : ℤ} {deg : ℕ} (hdeg : deg < t.degrees)
    (hn : n = m * t.degrees + (deg + 1 : ℕ)) :
    ratioOf (t.pitch (m * t.degrees)) * t.sampleRatio deg = ratioOf (t.pitch n) := by
  have hfirst := pitch_mul_add (t := t) m (Nat.zero_le t.degrees)
  rw [Nat.cast_zero, add_zero, cents_zero, add_zero] at hfirst
  rw [hn, pitch_mul_add m (Nat.succ_le_of_lt hdeg), hfirst, ratioOf_add, ratioOf_cents]
  rfl

theorem previousDegree_succ (deg : ℕ) (hdeg : deg + 1 < t.degrees) :
    t.previousDegree (deg + 1) = deg := by
  rw [previousDegree, Nat.cast_succ, add_sub_cancel_right, Int.emod_eq_of_lt (by omega) (by omega),
    Int.toNat_natCast]

theorem previousDegree_zero : t.previousDegree 0 = t.degrees - 1 := by
  have hpos := t.degrees_pos
  have hmod : (((0 : ℕ) : ℤ) - 1) % t.degrees = (t.degrees : ℤ) - 1 := by
    have hsum : ((0 : ℕ) : ℤ) - 1 = (t.degrees : ℤ) - 1 + t.degrees * (-1) := by
      push_cast
      ring
    rw [hsum, Int.add_mul_emod_self_left, Int.emod_eq_of_lt (by omega) (by omega)]
  rw [previousDegree, hmod]
  omega

theorem degreeIntervalIndex_lt : t.degreeIntervalIndex < t.degrees := by
  have hpos := t.degrees_pos
  have hlt := Int.emod_lt_of_pos ((t.degreeIndex : ℤ) - 1) (by omega : (0 : ℤ) < t.degrees)
  rw [degreeIntervalIndex]
  omega

theorem previousDegree_lt (deg : ℕ) : t.previousDegree deg < t.degrees := by
  have hpos := t.degrees_pos
  have hlt := Int.emod_lt_of_pos ((deg : ℤ) - 1) (by omega : (0 : ℤ) < t.degrees)
  rw [previousDegree]
  omega

theorem pitch_mul (m : ℤ) : t.pitch (m * t.degrees) = m * t.cents t.degrees := by
  have h := pitch_mul_add (t := t) m (Nat.zero_le t.degrees)
  rwa [Nat.cast_zero, add_zero, cents_zero, add_zero] at h

theorem updateLower_eq {k deg : ℕ} {temp a : ℝ} {data : ℕ → ℝ} {n m : ℤ} (hdeg : deg < t.degrees)
    (hn : n = m * t.degrees + (deg + 1 : ℕ)) (htemp : temp = a * ratioOf (t.pitch (m * t.degrees)))
    (j : ℕ) : t.updateLower k deg temp data j =
      if j < k then a * ratioOf (t.pitch (n - k + 1 + j)) else data j := by
  induction k generalizing deg temp data n m with
  | zero => rfl
  | succ k ih =>
    have hvalue : temp * t.sampleRatio deg = a * ratioOf (t.pitch n) := by
      rw [htemp, mul_assoc, ratioOf_pitch_mul hdeg hn]
    have hlast : j = k → n - ((k + 1 : ℕ) : ℤ) + 1 + j = n := by
      rintro rfl
      push_cast
      ring
    rw [updateLower, hvalue]
    rcases Nat.eq_zero_or_pos k with rfl | hk
    · rw [updateLower]
      rcases Nat.eq_zero_or_pos j with rfl | hj
      · rw [update_self, if_pos Nat.one_pos, hlast rfl]
      · rw [update_of_ne hj.ne', if_neg (by omega)]
    have hnext : ∃ m', n - 1 = m' * t.degrees + (t.previousDegree deg + 1 : ℕ) ∧
        (if deg = 0 ∧ 0 < k then temp * (1 / t.sampleRatio (t.degrees - 1)) else temp) =
          a * ratioOf (t.pitch (m' * t.degrees)) := by
      have hpos := t.degrees_pos
      rcases deg with _ | deg
      · refine ⟨m - 1, ?_, ?_⟩
        · rw [previousDegree_zero, Nat.sub_add_cancel hpos, hn]
          push_cast
          ring
        · have hperiod : t.sampleRatio (t.degrees - 1) = ratioOf (t.cents t.degrees) := by
            rw [ratioOf_cents, sampleRatio, Nat.sub_add_cancel hpos]
          have hsub : ((m - 1 : ℤ) : ℝ) * t.cents t.degrees =
              m * t.cents t.degrees + -t.cents t.degrees := by
            push_cast
            ring
          rw [if_pos ⟨rfl, hk⟩, htemp, hperiod, pitch_mul, pitch_mul, hsub, ratioOf_add, ratioOf_neg,
            one_div, mul_assoc]
      · refine ⟨m, ?_, ?_⟩
        · rw [previousDegree_succ deg hdeg, hn]
          push_cast
          ring
        · rw [if_neg (by simp), htemp]
    obtain ⟨m', hn', htemp'⟩ := hnext
    rw [ih (previousDegree_lt deg) hn' htemp']
    by_cases hj : j < k
    · have hsame : n - 1 - (k : ℤ) + 1 + j = n - ((k + 1 : ℕ) : ℤ) + 1 + j := by
        push_cast
        ring
      rw [if_pos hj, if_pos (by omega), hsame]
    · rw [if_neg hj]
      rcases eq_or_ne j k with rfl | hne
      · rw [update_self, if_pos (Nat.lt_succ_self j), hlast rfl]
      · rw [update_of_ne hne, if_neg (by omega)]

theorem updateUpper_eq {left k deg : ℕ} {temp a : ℝ} {data : ℕ → ℝ} {n m : ℤ} (hk : 0 < k)
    (hdeg : deg < t.degrees) (hn : n = m * t.degrees + (deg + 1 : ℕ))
    (hprevious : data (k - 1) = a * ratioOf (t.pitch (n - 1)))
    (htemp : deg ≠ 0 → temp = a * ratioOf (t.pitch (m * t.degrees))) (j : ℕ) :
    t.updateUpper left k deg temp data j =
      if k ≤ j ∧ j < k + left then a * ratioOf (t.pitch (n - k + j)) else data j := by
  induction left generalizing k deg temp data n m with
  | zero =>
    rw [updateUpper, if_neg (by omega)]
  | succ left ih =>
    have hfirst : (if deg = 0 then data (k - 1) else temp) =
        a * ratioOf (t.pitch (m * t.degrees)) := by
      split_ifs with hzero
      · have hsub : n - 1 = m * t.degrees := by
          rw [hn, hzero]
          push_cast
          ring
        rw [hprevious, hsub]
      · exact htemp hzero
    have hvalue : (if deg = 0 then data (k - 1) else temp) * t.sampleRatio deg =
        a * ratioOf (t.pitch n) := by
      rw [hfirst, mul_assoc, ratioOf_pitch_mul hdeg hn]
    have hnext : ∃ m', n + 1 = m' * t.degrees + ((deg + 1) % t.degrees + 1 : ℕ) ∧
        ((deg + 1) % t.degrees ≠ 0 → m' = m) := by
      rcases (Nat.succ_le_of_lt hdeg).eq_or_lt with heq | hlt
      · refine ⟨m + 1, ?_, fun hne => absurd ?_ hne⟩
        · have hcast : (t.degrees : ℤ) = deg + 1 := by omega
          rw [show deg + 1 = t.degrees from heq, Nat.mod_self, hn, hcast]
          push_cast
          ring
        · rw [show deg + 1 = t.degrees from heq, Nat.mod_self]
      · refine ⟨m, ?_, fun _ => rfl⟩
        rw [Nat.mod_eq_of_lt hlt, hn]
        push_cast
        ring
    obtain ⟨m', hn', hm'⟩ := hnext
    rw [updateUpper, hvalue, hfirst,
      ih (Nat.succ_pos k) (Nat.mod_lt _ t.degrees_pos) hn' ?_ fun hne => ?_]
    · have hsame : n + 1 - ((k + 1 : ℕ) : ℤ) + j = n - k + j := by
        push_cast
        ring
      rcases lt_trichotomy j k with hj | rfl | hj
      · rw [if_neg (by omega), if_neg (by omega), update_of_ne hj.ne]
      · rw [if_neg (by omega), if_pos (by omega), update_self, sub_add_cancel]
      · rw [hsame, update_of_ne hj.ne']
        simp only [show k + 1 ≤ j ↔ k ≤ j by omega, show k + 1 + left = k + (left + 1) by omega]
    · rw [Nat.succ_sub_one, update_self, add_sub_cancel_right]
    · rw [hm' hne]

def shift (t : Tuning) : ℤ := ((t.degreeIntervalIndex + 1 : ℕ) : ℤ) - t.keynumBase

/-- The keys below the reference are a period too high if the reference is the first degree after
the unison. -/
noncomputable def jump (t : Tuning) (k : ℕ) : ℝ :=
  if t.degreeIntervalIndex = 0 ∧ k < t.keynumBase then t.cents t.degrees else 0

theorem cps_eq {k : ℕ} (hk : k < 128) : t.cps k =
    t.freqBase *
      ratioOf (t.pitch (t.shift + k) - t.cents (t.degreeIntervalIndex + 1) + t.jump k) := by
  set degree := t.degreeIntervalIndex with hdegree
  have hlt : degree < t.degrees := degreeIntervalIndex_lt
  have hbase := t.keynumBase_lt
  set a := t.freqBase * ratioOf (-t.cents (degree + 1)) with ha
  have hvalue (n : ℤ) (x : ℝ) : t.freqBase * ratioOf (t.pitch n - t.cents (degree + 1) + x) =
      a * ratioOf x * ratioOf (t.pitch n) := by
    rw [ha, ratioOf_add, sub_eq_add_neg, ratioOf_add]
    ring
  have hunison : t.pitch 0 = 0 := by simpa using pitch_mul (t := t) 0
  have htemp : t.freqBase * (1 / t.sampleRatio degree) = a := by
    rw [ha, ratioOf_neg, ratioOf_cents, one_div]
    rfl
  have hpitch : t.pitch ((degree + 1 : ℕ) : ℤ) = t.cents (degree + 1) :=
    extended_natCast t.degrees_pos cents_zero hlt
  have hreference : t.freqBase = a * ratioOf (t.pitch ((degree + 1 : ℕ) : ℤ)) := by
    rw [hpitch, ha, mul_assoc, ← ratioOf_add, neg_add_cancel, ratioOf_zero, mul_one]
  set data := update (fun _ : ℕ => (0 : ℝ)) t.keynumBase t.freqBase with hdata
  have hlower (j : ℕ) : t.updateLower t.keynumBase (t.previousDegree degree) a data j =
      if j < t.keynumBase then a * ratioOf (t.jump j) * ratioOf (t.pitch (t.shift + j))
      else data j := by
    have hshift : t.shift = ((degree + 1 : ℕ) : ℤ) - t.keynumBase := rfl
    by_cases hzero : degree = 0
    · have hn : (0 : ℤ) = -1 * t.degrees + (t.previousDegree degree + 1 : ℕ) := by
        rw [hzero, previousDegree_zero, Nat.sub_add_cancel t.degrees_pos]
        ring
      have hstart : a = a * ratioOf (t.cents t.degrees) * ratioOf (t.pitch (-1 * t.degrees)) := by
        rw [pitch_mul, mul_assoc, ← ratioOf_add, Int.cast_neg, Int.cast_one, neg_one_mul,
          add_neg_cancel, ratioOf_zero, mul_one]
      rw [updateLower_eq (previousDegree_lt degree) hn hstart]
      split_ifs with hj
      · rw [jump, if_pos ⟨hzero, hj⟩, hshift, hzero]
        congr 3
        push_cast
        ring
      · rfl
    · obtain ⟨i, hi⟩ := Nat.exists_eq_succ_of_ne_zero hzero
      have hn : (degree : ℤ) = 0 * t.degrees + (t.previousDegree degree + 1 : ℕ) := by
        rw [hi, previousDegree_succ i (by omega)]
        push_cast
        ring
      have hstart : a = a * ratioOf (t.pitch (0 * t.degrees)) := by
        rw [zero_mul, hunison, ratioOf_zero, mul_one]
      rw [updateLower_eq (previousDegree_lt degree) hn hstart]
      split_ifs with hj
      · rw [jump, if_neg fun h => hzero h.1, ratioOf_zero, mul_one, hshift]
        congr 3
        push_cast
        ring
      · rfl
  have hupper : ∃ m : ℤ, ((degree + 1 : ℕ) : ℤ) + 1 = m * t.degrees +
      ((degree + 1) % t.degrees + 1 : ℕ) ∧ ((degree + 1) % t.degrees ≠ 0 → m = 0) := by
    rcases (Nat.succ_le_of_lt hlt).eq_or_lt with heq | hne
    · have hmod : (degree + 1) % t.degrees = 0 := by
        rw [show degree + 1 = t.degrees from heq, Nat.mod_self]
      refine ⟨1, ?_, fun h => absurd hmod h⟩
      rw [hmod, show degree + 1 = t.degrees from heq]
      push_cast
      ring
    · refine ⟨0, ?_, fun _ => rfl⟩
      rw [Nat.mod_eq_of_lt hne]
      push_cast
      ring
  obtain ⟨m, hn, hm⟩ := hupper
  have hlast : t.updateLower t.keynumBase (t.previousDegree degree) a data t.keynumBase =
      t.freqBase := by
    rw [hlower, if_neg (lt_irrefl _), hdata, update_self]
  rw [hvalue, cps, updateTuningData, ← hdegree, htemp, ← hdata,
    updateUpper_eq (Nat.succ_pos _) (Nat.mod_lt _ t.degrees_pos) hn
      (by rw [Nat.succ_sub_one, hlast, add_sub_cancel_right]; exact hreference) fun hne => ?_]
  · have hshift : t.shift = ((degree + 1 : ℕ) : ℤ) - t.keynumBase := rfl
    rcases lt_trichotomy k t.keynumBase with hk' | rfl | hk'
    · rw [if_neg (by omega), hlower, if_pos hk']
    · rw [if_neg (by omega), hlast, jump, if_neg fun h => lt_irrefl _ h.2, ratioOf_zero, mul_one,
        hshift, sub_add_cancel]
      exact hreference
    · rw [if_pos (by omega), jump, if_neg fun h => by omega, ratioOf_zero, mul_one, hshift]
      congr 3
      push_cast
      ring
  · rw [hm hne, zero_mul, hunison, ratioOf_zero, mul_one]

end Tuning

end Incudine

import Incudine.CountedLoop
import Incudine.Interpolation
import Mathlib.Data.Rat.Floor

/-!
# The samples of a polynomial

`gen:polynomial` counts the steps of the interval from the floor of the first position. The samples
are those of the interval if it begins at a multiple of the step.
-/

namespace Incudine.GenPolynomial

open CountedLoop Interpolation

variable {K : Type*} [Field K]

def coeffs : List K → K × List K
  | [] => (0, [])
  | c :: cs => (c, cs)

structure Variables (K : Type*) where
  foreignArray : ℕ → K
  xloc : ℤ
  maxValue : K
  x : K
  sum : K

variable [LinearOrder K]

def sampleStep (scale : K) (cs : K × List K) (i : ℕ) (v : Variables K) : Variables K :=
  let x := v.xloc * scale
  let sum := cs.2.foldl (fun sum c => sum * x + c) cs.1
  { foreignArray := Function.update v.foreignArray i sum
    xloc := v.xloc + 1
    maxValue := if v.maxValue < |sum| then |sum| else v.maxValue
    x := x
    sum := sum }

variable [FloorRing K]

def initialVariables (xmin scale : K) (foreignArray : ℕ → K) : Variables K :=
  { foreignArray := foreignArray
    xloc := sampleToFixnum (xmin / scale)
    maxValue := 0
    x := 0
    sum := 0 }

def stepSize (xmin xmax : K) (size : ℕ) : K := |xmax - xmin| / size

def variablesAfter (coefficients : List K) (xmin xmax : K) (foreignArray : ℕ → K) (size n : ℕ) :
    Variables K :=
  let scale := stepSize xmin xmax size
  dotimes (sampleStep scale (coeffs coefficients)) n (initialVariables xmin scale foreignArray)

def polynomial (coefficients : List K) (xmin xmax : K) (normalizeP : Bool) (foreignArray : ℕ → K)
    (size : ℕ) : (ℕ → K) × K × Bool :=
  let v := variablesAfter coefficients xmin xmax foreignArray size size
  (v.foreignArray, if v.maxValue = 0 then v.maxValue else 1 / v.maxValue, normalizeP)

def value : List K → K → K
  | [], _ => 0
  | c :: cs, x => c * x ^ cs.length + value cs x

/-- `m` is the greatest absolute value of the first samples or zero. -/
def IsPeak (samples : ℕ → K) (size : ℕ) (m : K) : Prop :=
  (∀ i < size, |samples i| ≤ m) ∧ (m = 0 ∨ ∃ i < size, |samples i| = m)

def SamplesInterval (coefficients : List K) (xmin xmax : K) (normalizeP : Bool) (foreignArray : ℕ → K)
    (size : ℕ) : Prop :=
  let result := polynomial coefficients xmin xmax normalizeP foreignArray size
  (∀ i < size, result.1 i = value coefficients (xmin + i * (xmax - xmin) / size)) ∧
    (∀ i < size, (variablesAfter coefficients xmin xmax foreignArray size (i + 1)).x ∈
      Set.Ico xmin xmax) ∧
    ∃ m, IsPeak result.1 size m ∧ result.2.1 = if m = 0 then 0 else 1 / m

/-- The interval begins at a multiple of the step. -/
def Aligned (xmin xmax : K) (size : ℕ) : Prop := ∃ k : ℤ, xmin * size = k * (xmax - xmin)

section Horner

omit [LinearOrder K] [FloorRing K]

theorem foldl_value (cs : List K) (x sum : K) :
    cs.foldl (fun sum c => sum * x + c) sum = sum * x ^ cs.length + value cs x := by
  induction cs generalizing sum with
  | nil => simp [value]
  | cons c cs ih =>
    rw [List.foldl_cons, ih, value, List.length_cons]
    ring

theorem coeffs_value (coefficients : List K) (x : K) :
    (coeffs coefficients).2.foldl (fun sum c => sum * x + c) (coeffs coefficients).1 =
      value coefficients x := by
  cases coefficients with
  | nil => rfl
  | cons c cs => exact foldl_value cs x c

end Horner

section Loop

variable (coefficients : List K) (xmin xmax : K) (foreignArray : ℕ → K) (size : ℕ)

def position (i : ℕ) : K :=
  (sampleToFixnum (xmin / stepSize xmin xmax size) + i : ℤ) * stepSize xmin xmax size

theorem variablesAfter_succ (n : ℕ) :
    variablesAfter coefficients xmin xmax foreignArray size (n + 1) =
      sampleStep (stepSize xmin xmax size) (coeffs coefficients) n
        (variablesAfter coefficients xmin xmax foreignArray size n) := rfl

theorem variablesAfter_xloc (n : ℕ) :
    (variablesAfter coefficients xmin xmax foreignArray size n).xloc =
      sampleToFixnum (xmin / stepSize xmin xmax size) + n := by
  induction n with
  | zero => exact (Int.add_zero _).symm
  | succ n ih =>
    rw [variablesAfter_succ, sampleStep, ih, Int.add_assoc]
    rfl

theorem variablesAfter_x (n : ℕ) :
    (variablesAfter coefficients xmin xmax foreignArray size (n + 1)).x =
      position xmin xmax size n := by
  rw [variablesAfter_succ, sampleStep, variablesAfter_xloc]
  rfl

theorem variablesAfter_sum (n : ℕ) :
    (variablesAfter coefficients xmin xmax foreignArray size (n + 1)).sum =
      value coefficients (position xmin xmax size n) := by
  rw [← coeffs_value, ← variablesAfter_x coefficients xmin xmax foreignArray]
  rfl

theorem variablesAfter_foreignArray (n i : ℕ) :
    (variablesAfter coefficients xmin xmax foreignArray size n).foreignArray i =
      if i < n then value coefficients (position xmin xmax size i) else foreignArray i := by
  have hloop : (variablesAfter coefficients xmin xmax foreignArray size n).foreignArray =
      dotimes (fun i memory => Function.update memory i
        (value coefficients (position xmin xmax size i))) n foreignArray := by
    induction n with
    | zero => rfl
    | succ n ih =>
      rw [dotimes_succ, ← ih, ← variablesAfter_sum coefficients xmin xmax foreignArray]
      rfl
  rw [hloop, dotimes_update]

theorem polynomial_sample (normalizeP : Bool) {i : ℕ} (hi : i < size) :
    (polynomial coefficients xmin xmax normalizeP foreignArray size).1 i =
      value coefficients (position xmin xmax size i) := by
  show (variablesAfter coefficients xmin xmax foreignArray size size).foreignArray i = _
  rw [variablesAfter_foreignArray, if_pos hi]

end Loop

section Peak

variable {coefficients : List K} {xmin xmax : K} {foreignArray : ℕ → K} {size : ℕ}

theorem variablesAfter_maxValue (n : ℕ) :
    IsPeak (fun i => value coefficients (position xmin xmax size i)) n
      (variablesAfter coefficients xmin xmax foreignArray size n).maxValue := by
  induction n with
  | zero => exact ⟨fun i hi => absurd hi (Nat.not_lt_zero i), Or.inl rfl⟩
  | succ n ih =>
    have hsum := variablesAfter_sum coefficients xmin xmax foreignArray size n
    have hmax : (variablesAfter coefficients xmin xmax foreignArray size (n + 1)).maxValue =
        if (variablesAfter coefficients xmin xmax foreignArray size n).maxValue <
            |value coefficients (position xmin xmax size n)| then
          |value coefficients (position xmin xmax size n)|
        else (variablesAfter coefficients xmin xmax foreignArray size n).maxValue := by
      rw [← hsum]
      rfl
    obtain ⟨hle, hmem⟩ := ih
    rw [hmax]
    split
    · rename_i hlt
      refine ⟨fun i hi => ?_, Or.inr ⟨n, Nat.lt_succ_self n, rfl⟩⟩
      rcases Nat.lt_succ_iff_lt_or_eq.mp hi with hi | rfl
      · exact (hle i hi).trans hlt.le
      · exact le_rfl
    · rename_i hlt
      refine ⟨fun i hi => ?_, ?_⟩
      · rcases Nat.lt_succ_iff_lt_or_eq.mp hi with hi | rfl
        · exact hle i hi
        · exact not_lt.mp hlt
      · rcases hmem with hzero | ⟨i, hi, heq⟩
        · exact Or.inl hzero
        · exact Or.inr ⟨i, Nat.lt_succ_of_lt hi, heq⟩

theorem polynomial_peak (normalizeP : Bool) :
    ∃ m, IsPeak (polynomial coefficients xmin xmax normalizeP foreignArray size).1 size m ∧
      (polynomial coefficients xmin xmax normalizeP foreignArray size).2.1 =
        if m = 0 then 0 else 1 / m := by
  obtain ⟨hle, hmem⟩ := @variablesAfter_maxValue K _ _ _ coefficients xmin
    xmax foreignArray size size
  refine ⟨(variablesAfter coefficients xmin xmax foreignArray size size).maxValue,
    ⟨fun i hi => ?_, ?_⟩, ?_⟩
  · rw [polynomial_sample _ _ _ _ _ _ hi]
    exact hle i hi
  · rcases hmem with hzero | ⟨i, hi, heq⟩
    · exact Or.inl hzero
    · refine Or.inr ⟨i, hi, ?_⟩
      rw [polynomial_sample _ _ _ _ _ _ hi]
      exact heq
  · simp only [polynomial]
    split
    · assumption
    · rfl

end Peak

section Interval

variable [IsStrictOrderedRing K] {xmin xmax : K} {size : ℕ}

theorem position_aligned (hlt : xmin < xmax) (hsize : 0 < size) (h : Aligned xmin xmax size) (i : ℕ) :
    position xmin xmax size i = xmin + i * (xmax - xmin) / size := by
  obtain ⟨k, hk⟩ := h
  have hrange : 0 < xmax - xmin := sub_pos.mpr hlt
  have hcast : (0 : K) < size := Nat.cast_pos.mpr hsize
  have hquotient : xmin / stepSize xmin xmax size = k := by
    rw [stepSize, abs_of_pos hrange, div_div_eq_mul_div, hk, mul_div_assoc,
      div_self hrange.ne', mul_one]
  have hmin : xmin = k * (xmax - xmin) / size := by
    rw [← hk, mul_div_assoc, div_self hcast.ne', mul_one]
  rw [position, sampleToFixnum, hquotient, Int.floor_intCast, stepSize, abs_of_pos hrange]
  calc ((k + i : ℤ) : K) * ((xmax - xmin) / size)
      = k * (xmax - xmin) / size + i * (xmax - xmin) / size := by
        push_cast
        ring
    _ = xmin + i * (xmax - xmin) / size := by rw [← hmin]

theorem sample_mem (hlt : xmin < xmax) {i : ℕ} (hi : i < size) :
    xmin + i * (xmax - xmin) / size ∈ Set.Ico xmin xmax := by
  have hrange : 0 < xmax - xmin := sub_pos.mpr hlt
  have hcast : (0 : K) < size := Nat.cast_pos.mpr (Nat.zero_lt_of_lt hi)
  constructor
  · have hnonneg : 0 ≤ i * (xmax - xmin) / size := by positivity
    linarith
  · have hless : i * (xmax - xmin) / size < xmax - xmin := by
      rw [div_lt_iff₀ hcast, mul_comm]
      exact mul_lt_mul_of_pos_left (Nat.cast_lt.mpr hi) hrange
    linarith

theorem aligned_of_position (hlt : xmin < xmax) (hsize : 0 < size)
    (h : xmin ≤ position xmin xmax size 0) : Aligned xmin xmax size := by
  have hrange : 0 < xmax - xmin := sub_pos.mpr hlt
  have hcast : (0 : K) < size := Nat.cast_pos.mpr hsize
  have hstep : 0 < stepSize xmin xmax size := by
    rw [stepSize, abs_of_pos hrange]
    exact div_pos hrange hcast
  rw [position, Nat.cast_zero, add_zero] at h
  have hle : xmin / stepSize xmin xmax size ≤ sampleToFixnum (xmin / stepSize xmin xmax size) :=
    (div_le_iff₀ hstep).mpr h
  have heq : xmin / stepSize xmin xmax size = sampleToFixnum (xmin / stepSize xmin xmax size) :=
    le_antisymm hle (Int.floor_le _)
  refine ⟨sampleToFixnum (xmin / stepSize xmin xmax size), ?_⟩
  rw [← heq, stepSize, abs_of_pos hrange, div_div_eq_mul_div, div_mul_cancel₀ _ hrange.ne']

end Interval

variable [IsStrictOrderedRing K]

theorem samplesInterval_iff (coefficients : List K) {xmin xmax : K} (hlt : xmin < xmax)
    (normalizeP : Bool) (foreignArray : ℕ → K) {size : ℕ} (hsize : 0 < size) :
    SamplesInterval coefficients xmin xmax normalizeP foreignArray size ↔
      Aligned xmin xmax size := by
  constructor
  · rintro ⟨-, hmem, -⟩
    have hfirst := (hmem 0 hsize).1
    rw [variablesAfter_x] at hfirst
    exact aligned_of_position hlt hsize hfirst
  · intro h
    refine ⟨fun i hi => ?_, fun i hi => ?_, polynomial_peak normalizeP⟩
    · rw [polynomial_sample _ _ _ _ _ _ hi, position_aligned hlt hsize h]
    · rw [variablesAfter_x, position_aligned hlt hsize h]
      exact sample_mem hlt hi

theorem samplesInterval_default :
    SamplesInterval [2, 0, (-3 : ℚ)] (-1) 1 true (fun _ => 0) 4 :=
  (samplesInterval_iff [2, 0, -3] (by norm_num) true (fun _ => 0) (by norm_num)).mpr
    ⟨-2, by norm_num⟩

theorem not_samplesInterval : ¬ SamplesInterval [2, 0, (-3 : ℚ)] (-1) 1 true (fun _ => 0) 3 := by
  rintro ⟨-, hmem, -⟩
  have hfirst := (hmem 0 (by norm_num)).1
  rw [variablesAfter_x, position, stepSize, sampleToFixnum] at hfirst
  norm_num at hfirst

end Incudine.GenPolynomial

import Incudine.Interpolation
import Incudine.TriangularFold
import Mathlib.Data.Rat.Floor

/-!
# Wrap and mirror

`wrap` is the remainder of the range. `mirror` is the triangular fold, unless the input is more than
a range below: there the guard of the second correction compares with the wrong sense.
-/

namespace Incudine.WrapMirror

open Interpolation TriangularFold

variable {K : Type*} [Field K] [LinearOrder K] [FloorRing K]

def wrapClause (condition : K → Prop) [DecidablePred condition] (step : K → K) (range : K)
    (offset : K → K) (input : K) : K :=
  let input := step input
  if condition input then input - range * sampleToFixnum (offset input * (1 / range)) else input

/-- `nwrap`, with the offset as a function of the current input. -/
def nwrap (input low high : K) (range : Option K) (offset : Option (K → K)) : K :=
  let delta := range.getD high
  let offset := offset.getD id
  let lowest := if range.isSome then low else 0
  if delta = 0 then lowest
  else if input ≥ high then wrapClause (· ≥ high) (· - delta) delta offset input
  else if input < lowest then wrapClause (· < lowest) (· + delta) delta offset input
  else input

def mirrorConsequent (input threshold1 threshold2 range twoRange : K) (offset : K → K)
    (offsetP : Bool) (bias : K) : K :=
  let input := threshold1 + threshold1 - input
  if input < threshold2 then
    let os := offset input
    let input := os - twoRange * sampleToFixnum (os * (1 / twoRange))
    let input := if input ≥ range then twoRange - input else input
    if offsetP then input + bias else input
  else input

def nmirror (input low high : K) (range : Option K) (twoRange : K) (offset : Option (K → K)) : K :=
  let delta := range.getD high
  let offsetP := offset.isSome
  let offset := offset.getD id
  if delta = 0 then if range.isSome then low else 0
  else if input ≥ high then mirrorConsequent input high low delta twoRange offset offsetP low
  else if input < low then mirrorConsequent input low high delta twoRange offset offsetP low
  else input

def wrap (input low high : K) : K :=
  let range := high - low
  nwrap input low high (some range) (some fun input => input - low)

/-- The offset is that of the original input. -/
def mirror (input low high : K) : K :=
  let range := high - low
  let twoRange := range + range
  nmirror input low high (some range) twoRange (some fun _ => input - low)

/-- The results of `wrap` and `mirror` are those of the two folds of the line. -/
def Folds (low high input : K) : Prop :=
  wrap input low high = low + modulo (input - low) (high - low) ∧
    wrap input low high ∈ Set.Ico low high ∧
    ∀ f, IsFold low high f → mirror input low high = f input

variable [IsStrictOrderedRing K] {low high input : K}

section Wrap

theorem wrapClause_eq {condition : K → Prop} [DecidablePred condition] {step : K → K}
    (hlt : low < high) (k : ℤ) (hstep : step input = input + k * (high - low))
    (hinside : ¬ condition (step input) → step input ∈ Set.Ico low high) :
    wrapClause condition step (high - low) (fun input => input - low) input =
      low + modulo (input - low) (high - low) := by
  have hsame : modulo (input - low) (high - low) = modulo (step input - low) (high - low) := by
    rw [hstep, ← modulo_add_int_mul (sub_pos.mpr hlt) (input - low) k, add_sub_right_comm]
  rw [hsame, wrapClause]
  split
  · rw [modulo, sampleToFixnum, mul_one_div]
    ring
  · rename_i hcondition
    obtain ⟨hlow, hhigh⟩ := hinside hcondition
    rw [modulo_of_mem ⟨sub_nonneg.mpr hlow, sub_lt_sub_right hhigh low⟩]
    ring

theorem wrap_eq (hlt : low < high) (input : K) :
    wrap input low high = low + modulo (input - low) (high - low) := by
  simp only [wrap, nwrap, Option.getD_some, Option.isSome_some, if_true,
    if_neg (sub_pos.mpr hlt).ne']
  split
  · rename_i hhigh
    refine wrapClause_eq hlt (-1) (by push_cast; ring) fun hcondition => ?_
    rw [ge_iff_le, not_le] at hcondition
    exact ⟨by linarith, hcondition⟩
  · rename_i hhigh
    split
    · rename_i hlow
      refine wrapClause_eq hlt 1 (by push_cast; ring) fun hcondition => ?_
      exact ⟨not_lt.mp hcondition, by linarith⟩
    · rename_i hlow
      rw [ge_iff_le, not_le] at hhigh
      rw [modulo_of_mem ⟨sub_nonneg.mpr (not_lt.mp hlow), sub_lt_sub_right hhigh low⟩]
      ring

theorem wrap_mem (hlt : low < high) (input : K) : wrap input low high ∈ Set.Ico low high := by
  obtain ⟨hzero, hless⟩ := modulo_mem (sub_pos.mpr hlt) (input - low)
  rw [wrap_eq hlt]
  constructor <;> linarith

end Wrap

section Mirror

omit [IsStrictOrderedRing K] in
theorem mirrorConsequent_of_lt {threshold1 threshold2 : K}
    (h : threshold1 + threshold1 - input < threshold2) :
    mirrorConsequent input threshold1 threshold2 (high - low) (high - low + (high - low))
      (fun _ => input - low) true low = fold low high input := by
  rw [mirrorConsequent, if_pos h, fold, modulo, ← two_mul]
  simp only [mul_one_div, sampleToFixnum, if_true]
  exact add_comm _ _

omit [IsStrictOrderedRing K] in
theorem mirrorConsequent_of_le {threshold1 threshold2 range twoRange bias : K} {offset : K → K}
    {offsetP : Bool} (h : threshold2 ≤ threshold1 + threshold1 - input) :
    mirrorConsequent input threshold1 threshold2 range twoRange offset offsetP bias =
      2 * threshold1 - input := by
  rw [mirrorConsequent, if_neg (not_lt.mpr h), two_mul]

theorem mirror_below (hlt : low < high) (h : input ≤ 2 * low - high) :
    mirror input low high = 2 * low - input := by
  have hhigh : ¬ input ≥ high := not_le.mpr (by linarith)
  have hlow : input < low := by linarith
  simp only [mirror, nmirror, Option.getD_some, Option.isSome_some, if_true,
    if_neg (sub_pos.mpr hlt).ne', if_neg hhigh, if_pos hlow]
  exact mirrorConsequent_of_le (by linarith)

theorem mirror_eq {f : K → K} (hf : IsFold low high f) (hlt : low < high)
    (h : 2 * low - high < input) : mirror input low high = f input := by
  simp only [mirror, nmirror, Option.getD_some, Option.isSome_some, if_true,
    if_neg (sub_pos.mpr hlt).ne']
  split
  · rename_i hhigh
    rcases lt_or_ge (high + high - input) low with hless | hge
    · rw [mirrorConsequent_of_lt hless, hf.eq_fold hlt]
    · rw [mirrorConsequent_of_le hge, ← hf.reflect_high, hf.inside]
      constructor <;> linarith
  · rename_i hhigh
    rw [ge_iff_le, not_le] at hhigh
    split
    · rw [mirrorConsequent_of_lt (by linarith), hf.eq_fold hlt]
    · rename_i hlow
      exact (hf.inside input ⟨not_lt.mp hlow, hhigh.le⟩).symm

end Mirror

theorem folds_iff (hlt : low < high) (input : K) :
    Folds low high input ↔ 2 * low - high ≤ input := by
  constructor
  · rintro ⟨-, -, hmirror⟩
    have hfold := isFold_fold hlt
    by_contra hbelow
    have hle : fold low high input ≤ high := (hfold.mem input).2
    rw [← hmirror _ hfold, mirror_below hlt (not_le.mp hbelow).le] at hle
    linarith
  · intro h
    refine ⟨wrap_eq hlt input, wrap_mem hlt input, fun f hf => ?_⟩
    rcases h.eq_or_lt with rfl | hless
    · rw [mirror_below hlt le_rfl, ← hf.reflect_low, sub_sub_cancel]
      exact (hf.inside high ⟨hlt.le, le_rfl⟩).symm
    · exact mirror_eq hf hlt hless

theorem folds_above : Folds (0 : ℚ) 1 (7 / 2) := (folds_iff (by norm_num) (7 / 2)).mpr (by norm_num)

theorem not_folds : ¬ Folds (0 : ℚ) 1 (-3 / 2) := by
  rintro ⟨-, -, hmirror⟩
  have hfold : IsFold (0 : ℚ) 1 (fold 0 1) := isFold_fold (by norm_num)
  have hle : fold (0 : ℚ) 1 (-3 / 2) ≤ 1 := (hfold.mem _).2
  rw [← hmirror _ hfold, mirror, nmirror, Option.getD_some, Option.getD_some] at hle
  norm_num [mirrorConsequent] at hle

end Incudine.WrapMirror

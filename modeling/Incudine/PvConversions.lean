import Incudine.PvDataType

/-!
# Conversions of spectral data

The data of each type represent the complex content. The phases are restored modulo a turn, those of
the DC bins exactly.
-/

namespace Incudine.PvData

open Function Real
open PvFile (DataType)

variable {n : ℕ}

noncomputable section

theorem hypot_eq_norm (x y : ℝ) : hypot x y = ‖(⟨x, y⟩ : ℂ)‖ :=
  (Complex.norm_eq_sqrt_sq_add_sq ⟨x, y⟩).symm

theorem hypot_mul_cos (x y : ℝ) : hypot x y * cos (atan2 y x) = x := by
  rw [hypot_eq_norm]
  exact Complex.norm_mul_cos_arg ⟨x, y⟩

theorem hypot_mul_sin (x y : ℝ) : hypot x y * sin (atan2 y x) = y := by
  rw [hypot_eq_norm]
  exact Complex.norm_mul_sin_arg ⟨x, y⟩

theorem hypot_nonneg (x y : ℝ) : 0 ≤ hypot x y := sqrt_nonneg _

theorem hypot_zero_right (x : ℝ) : hypot x 0 = |x| := by
  rw [hypot, zero_pow (by decide), add_zero, sqrt_sq_eq_abs]

theorem of_hypot_eq {x y : ℝ} (h : hypot x y = x) : 0 ≤ x ∧ y = 0 := by
  have hx : 0 ≤ x := h ▸ hypot_nonneg x y
  have hsq : x ^ 2 + y ^ 2 = x ^ 2 := by
    have hroot := sq_sqrt (show 0 ≤ x ^ 2 + y ^ 2 by positivity)
    rw [← hroot, ← hypot, h]
  exact ⟨hx, by simpa using hsq⟩

theorem atan2_of_nonneg {x : ℝ} (hx : 0 ≤ x) : atan2 0 x = 0 := Complex.arg_ofReal_of_nonneg hx

theorem atan2_of_neg {x : ℝ} (hx : x < 0) : atan2 0 x = π := Complex.arg_ofReal_of_neg hx

theorem pvPhaseRewrap_eq (x : ℝ) : pvPhaseRewrap x = toIocMod two_pi_pos (-π) x := by
  have hpi := pi_pos
  symm
  rw [toIocMod_eq_iff]
  set q := (x + π) / (-(2 * π))
  have hq : x + π = -(2 * π) * q := by
    rw [mul_div_cancel₀]
    linarith
  have hres : fmod (x + π) (-(2 * π)) = 2 * π * (truncate q - q) := by
    rw [fmod]
    linear_combination hq
  have hshift : x + π + 2 * π * truncate q = fmod (x + π) (-(2 * π)) := by
    rw [hres]
    linear_combination hq
  obtain ⟨hneg, hpos⟩ : (0 ≤ q → -1 < truncate q - q ∧ truncate q - q ≤ (0 : ℝ)) ∧
      (q < 0 → 0 ≤ (truncate q - q : ℝ) ∧ truncate q - q < (1 : ℝ)) := by
    unfold truncate
    constructor
    · intro h
      rw [if_pos h]
      exact ⟨by linarith [Int.lt_floor_add_one q], by linarith [Int.floor_le q]⟩
    · intro h
      rw [if_neg (not_le.mpr h)]
      exact ⟨by linarith [Int.le_ceil q], by linarith [Int.ceil_lt_add_one q]⟩
  simp only [pvPhaseRewrap]
  split_ifs with hsign
  · have hq : q < 0 := by
      by_contra h
      have := (hneg (not_lt.mp h)).2
      rw [hres] at hsign
      nlinarith
    refine ⟨⟨by linarith, ?_⟩, -truncate q, ?_⟩
    · have := (hpos hq).2
      rw [hres]
      nlinarith
    · rw [← hshift, zsmul_eq_mul]
      push_cast
      ring
  · refine ⟨⟨?_, by linarith⟩, -(truncate q + 1), ?_⟩
    · rw [hres]
      by_cases h : 0 ≤ q
      · have := (hneg h).1
        nlinarith
      · have := (hpos (not_le.mp h)).1
        nlinarith
    · rw [← hshift, zsmul_eq_mul]
      push_cast
      ring

theorem pvPhaseRewrap_coe (x : ℝ) : (pvPhaseRewrap x : Angle) = x := by
  rw [pvPhaseRewrap_eq, Angle.coe_toIocMod]

theorem pvPhaseRewrap_congr {x y : ℝ} (h : (x : Angle) = y) : pvPhaseRewrap x = pvPhaseRewrap y := by
  obtain ⟨k, hk⟩ := Angle.angle_eq_iff_two_pi_dvd_sub.mp h
  have hx : x = y + k • (2 * π) := by
    rw [zsmul_eq_mul]
    linear_combination hk
  rw [pvPhaseRewrap_eq, pvPhaseRewrap_eq, hx, toIocMod_add_zsmul]

theorem pvPhaseRewrap_of_mem {x : ℝ} (h : x ∈ Set.Ioc (-π) π) : pvPhaseRewrap x = x := by
  rw [pvPhaseRewrap_eq, toIocMod_eq_self]
  exact ⟨h.1, by linarith [h.2]⟩

theorem pvPhaseRewrap_mem (x : ℝ) : pvPhaseRewrap x ∈ Set.Ioc (-π) π := by
  have h := toIocMod_mem_Ioc two_pi_pos (-π) x
  rw [← pvPhaseRewrap_eq] at h
  exact ⟨h.1, by linarith [h.2]⟩

theorem pvPhaseRewrap_zero : pvPhaseRewrap 0 = 0 :=
  pvPhaseRewrap_of_mem ⟨by linarith [pi_pos], pi_pos.le⟩

theorem pvPhaseRewrap_pi : pvPhaseRewrap π = π :=
  pvPhaseRewrap_of_mem ⟨by linarith [pi_pos], le_refl π⟩

theorem pvPhaseRewrap_neg_pi : pvPhaseRewrap (-π) = π := by
  have hangle : ((-π : ℝ) : Angle) = (π : ℝ) := by
    rw [Angle.coe_neg, Angle.neg_coe_pi]
  rw [pvPhaseRewrap_congr hangle, pvPhaseRewrap_pi]

section Represents

variable {pvbuf : Slots} {f : ℕ} {z d : ℕ → pvbuf.Frame} {nbin : Fin pvbuf.nbins}

def RealDC (n : ℕ) (z : ℕ → pvbuf.Frame) : Prop :=
  ∀ f < n, ∀ nbin : Fin pvbuf.nbins, (nbin : ℕ) = 0 → (z f nbin).2 = 0

def KeepsDC (n : ℕ) (z : ℕ → pvbuf.Frame) : Prop :=
  ∀ f, f + 1 < n → ∀ nbin : Fin pvbuf.nbins, (nbin : ℕ) = 0 →
    ¬ ((z f nbin).1 < 0 ∧ (z (f + 1) nbin).1 = 0)

/-- The magnitudes and the phases of complex frames. -/
structure IsPolar (n : ℕ) (z d : ℕ → pvbuf.Frame) : Prop where
  mag : ∀ f < n, ∀ nbin, (d f nbin).1 = (complexToPolar (z f) nbin).1
  phase : ∀ f < n, ∀ nbin, ((d f nbin).2 : Angle) = (complexToPolar (z f) nbin).2
  dc : ∀ f < n, ∀ nbin : Fin pvbuf.nbins, (nbin : ℕ) = 0 →
    (d f nbin).2 = (complexToPolar (z f) nbin).2

def IsFrequency (n : ℕ) (z d : ℕ → pvbuf.Frame) : Prop :=
  ∀ f < n, d f = polarToFrequency (ptrPrev (fun f => complexToPolar (z f)) f) (complexToPolar (z f))

theorem isPolar_mapFrames (h : ∀ f < n, d f = z f) :
    IsPolar n z (mapFrames n complexToPolar d) := by
  have hf : ∀ f < n, mapFrames n complexToPolar d f = complexToPolar (z f) := by
    intro f hf
    rw [mapFrames, if_pos hf, h f hf]
  constructor
  · intro f h nbin
    rw [hf f h]
  · intro f h nbin
    rw [hf f h]
  · intro f h nbin _
    rw [hf f h]

theorem IsPolar.polarToComplex_eq (h : IsPolar n z d) (hf : f < n) :
    polarToComplex (d f) = z f := by
  funext nbin
  have hphase := h.phase f hf nbin
  simp only [polarToComplex, h.mag f hf nbin]
  rw [← Angle.cos_coe, ← Angle.sin_coe, hphase, Angle.cos_coe, Angle.sin_coe]
  exact Prod.ext (hypot_mul_cos _ _) (hypot_mul_sin _ _)

theorem IsPolar.isFrequency (h : IsPolar n z d) : IsFrequency n z (frequencies n d) := by
  intro f hf
  rw [frequencies, if_pos hf]
  funext nbin
  have hmag := h.mag f hf nbin
  have hphase : pvPhaseRewrap (phaseDifference (ptrPrev d f) (d f) nbin) =
      pvPhaseRewrap (phaseDifference (ptrPrev (fun f => complexToPolar (z f)) f)
        (complexToPolar (z f)) nbin) := by
    apply pvPhaseRewrap_congr
    unfold ptrPrev
    split_ifs with hpos
    · simp only [phaseDifference, Angle.coe_sub, Angle.coe_add, h.phase f hf nbin,
        h.phase (f - 1) (by omega) nbin]
    · exact h.phase f hf nbin
  simp only [polarToFrequency, hphase, hmag]

theorem deltaPhaseMult_pos : 0 < pvbuf.deltaPhaseMult := by
  have hhop : (0 : ℝ) < pvbuf.hopSize := Nat.cast_pos.mpr pvbuf.hopSize_pos
  exact div_pos pvbuf.srate_pos (by positivity)

theorem complexToPolar_dc {w : pvbuf.Frame} (hreal : (w nbin).2 = 0) :
    complexToPolar w nbin = (|(w nbin).1|, if (w nbin).1 < 0 then π else 0) := by
  simp only [complexToPolar, hreal, hypot_zero_right]
  split_ifs with hneg
  · rw [atan2_of_neg hneg]
  · rw [atan2_of_nonneg (not_lt.mp hneg)]

theorem frequencyToPolar_polarToFrequency (prev : Option pvbuf.Frame) (prev' : Option pvbuf.Frame)
    (w : pvbuf.Frame) (hnbin : (nbin : ℕ) ≠ 0) :
    frequencyToPolar prev (polarToFrequency prev' w) nbin =
      ((w nbin).1, pvPhaseRewrap (phaseDifference prev' w nbin) +
        match prev with
        | none => 0
        | some prev => (prev nbin).2 + nbin * pvbuf.phaseOffsetMult) := by
  have hpos := @deltaPhaseMult_pos pvbuf
  have hcancel : ∀ x : ℝ, 1 / pvbuf.deltaPhaseMult *
      (pvbuf.deltaPhaseMult * x + nbin * pvbuf.centralFrequencyMult -
        pvbuf.centralFrequencyMult * nbin) = x := by
    intro x
    field_simp
    ring
  simp only [frequencyToPolar, polarToFrequency, if_neg hnbin, hcancel]
  cases prev with
  | none => rw [add_zero]
  | some prev => rfl

theorem frequencyToPolar_dc_zero {w : pvbuf.Frame} (hnbin : (nbin : ℕ) = 0)
    (hreal : (w nbin).2 = 0) :
    frequencyToPolar none (polarToFrequency none (complexToPolar w)) nbin =
      complexToPolar w nbin := by
  simp only [frequencyToPolar, polarToFrequency, phaseDifference, if_pos hnbin,
    complexToPolar_dc hreal]
  by_cases hneg : (w nbin).1 < 0
  · have habs : |(w nbin).1| = -(w nbin).1 := abs_of_neg hneg
    simp [hneg, pvPhaseRewrap_pi, pi_ne_zero, habs]
  · have habs : |(w nbin).1| = (w nbin).1 := abs_of_nonneg (not_lt.mp hneg)
    simp [hneg, pvPhaseRewrap_zero, habs]

theorem frequencyToPolar_dc_succ {v w prev : pvbuf.Frame} (hnbin : (nbin : ℕ) = 0)
    (hv : (v nbin).2 = 0) (hw : (w nbin).2 = 0)
    (hprev : (prev nbin).2 = (complexToPolar v nbin).2)
    (hkeeps : ¬ ((v nbin).1 < 0 ∧ (w nbin).1 = 0)) :
    frequencyToPolar (some prev)
        (polarToFrequency (some (complexToPolar v)) (complexToPolar w)) nbin =
      complexToPolar w nbin := by
  have hzero : ((nbin : ℕ) : ℝ) = 0 := by
    rw [hnbin, Nat.cast_zero]
  simp only [frequencyToPolar, polarToFrequency, phaseDifference, if_pos hnbin, hprev,
    complexToPolar_dc hv, complexToPolar_dc hw, hzero, zero_mul, add_zero]
  have habs : ¬ |(w nbin).1| < 0 := not_lt.mpr (abs_nonneg _)
  by_cases hvneg : (v nbin).1 < 0
  · by_cases hwneg : (w nbin).1 < 0
    · simp [hvneg, hwneg, pvPhaseRewrap_zero, habs]
    · have hpos : 0 < |(w nbin).1| := abs_pos.mpr fun h => hkeeps ⟨hvneg, h⟩
      simp [hvneg, hwneg, pvPhaseRewrap_neg_pi, pi_ne_zero, hpos]
  · by_cases hwneg : (w nbin).1 < 0
    · have hpos : 0 < |(w nbin).1| := abs_pos.mpr hwneg.ne
      simp [hvneg, hwneg, pvPhaseRewrap_pi, pi_ne_zero, hpos]
    · simp [hvneg, hwneg, pvPhaseRewrap_zero, habs]

theorem IsFrequency.isPolar (h : IsFrequency n z d) (hreal : RealDC n z) (hkeeps : KeepsDC n z) :
    IsPolar n z (phases n d) := by
  have hrestored : ∀ f < n, ∀ nbin, (restored d f nbin).1 = (complexToPolar (z f) nbin).1 ∧
      ((restored d f nbin).2 : Angle) = (complexToPolar (z f) nbin).2 ∧
      ((nbin : ℕ) = 0 → (restored d f nbin).2 = (complexToPolar (z f) nbin).2) := by
    intro f
    induction f with
    | zero =>
      intro hf nbin
      rw [restored, h 0 hf]
      by_cases hnbin : (nbin : ℕ) = 0
      · have hdc := frequencyToPolar_dc_zero hnbin (hreal 0 hf nbin hnbin)
        exact ⟨congrArg Prod.fst hdc, by rw [← hdc]; rfl, fun _ => congrArg Prod.snd hdc⟩
      · rw [frequencyToPolar_polarToFrequency none _ _ hnbin]
        refine ⟨rfl, ?_, fun hzero => absurd hzero hnbin⟩
        rw [add_zero, pvPhaseRewrap_coe]
        rfl
    | succ f ih =>
      intro hf nbin
      obtain ⟨-, hphase, hdc⟩ := ih (by omega) nbin
      have hprev : ptrPrev (fun f => complexToPolar (z f)) (f + 1) = some (complexToPolar (z f)) :=
        if_pos (Nat.succ_pos f)
      rw [restored, h (f + 1) hf, hprev]
      by_cases hnbin : (nbin : ℕ) = 0
      · have hdc := frequencyToPolar_dc_succ hnbin (hreal f (by omega) nbin hnbin)
          (hreal (f + 1) hf nbin hnbin) (hdc hnbin) (hkeeps f hf nbin hnbin)
        exact ⟨congrArg Prod.fst hdc, by rw [← hdc], fun _ => congrArg Prod.snd hdc⟩
      · rw [frequencyToPolar_polarToFrequency _ _ _ hnbin]
        refine ⟨rfl, ?_, fun hzero => absurd hzero hnbin⟩
        simp only [phaseDifference, Angle.coe_add, pvPhaseRewrap_coe, Angle.coe_sub, hphase]
        abel
  have hphases : ∀ f < n, phases n d f = restored d f := fun f hf => if_pos hf
  constructor
  · intro f hf nbin
    rw [hphases f hf]
    exact (hrestored f hf nbin).1
  · intro f hf nbin
    rw [hphases f hf]
    exact (hrestored f hf nbin).2.1
  · intro f hf nbin hnbin
    rw [hphases f hf]
    exact (hrestored f hf nbin).2.2 hnbin

theorem not_isPolar_phases (h : IsFrequency n z d) (hreal : RealDC n z) (hf : f + 1 < n)
    (hnbin : (nbin : ℕ) = 0) (hneg : (z f nbin).1 < 0) (hzero : (z (f + 1) nbin).1 = 0)
    (hprev : ((phases n d f nbin).2 : Angle) = (complexToPolar (z f) nbin).2) :
    ((phases n d (f + 1) nbin).2 : Angle) ≠ (complexToPolar (z (f + 1)) nbin).2 := by
  have hsecond := hreal (f + 1) hf nbin hnbin
  have hmag : (d (f + 1) nbin).1 = 0 := by
    rw [h (f + 1) hf]
    simp only [polarToFrequency, if_pos hnbin, complexToPolar_dc hsecond, hzero, abs_zero, neg_zero]
    split_ifs <;> rfl
  have hsame : (phases n d (f + 1) nbin).2 = (phases n d f nbin).2 := by
    rw [phases, if_pos hf, phases, if_pos (by omega), restored]
    simp only [frequencyToPolar, if_pos hnbin, hmag, lt_irrefl, if_false]
  rw [hsame, hprev, complexToPolar_dc hsecond, complexToPolar_dc (hreal f (by omega) nbin hnbin),
    if_pos hneg, hzero, if_neg (lt_irrefl 0)]
  exact Angle.pi_ne_zero

theorem complexToPolar_of_real {w : pvbuf.Frame} (h : 0 ≤ (w nbin).1 ∧ (w nbin).2 = 0) :
    complexToPolar w nbin = w nbin := by
  rw [complexToPolar_dc h.2, abs_of_nonneg h.1, if_neg (not_lt.mpr h.1)]
  exact Prod.ext rfl h.2.symm

theorem isFrequency_of_single (hn : n = 1) (h : ∀ f < n, d f = z f) (hreal : RealDC n z)
    (hz : ∀ nbin : Fin pvbuf.nbins, (nbin : ℕ) ≠ 0 → 0 ≤ (z 0 nbin).1 ∧ (z 0 nbin).2 = 0) :
    IsFrequency n z (frequencies n d) := by
  subst hn
  intro f hf
  obtain rfl : f = 0 := by omega
  have hd := h 0 hf
  rw [frequencies, if_pos hf, hd]
  funext nbin
  show polarToFrequency none (z 0) nbin = polarToFrequency none (complexToPolar (z 0)) nbin
  by_cases hnbin : (nbin : ℕ) = 0
  · have hdc := hreal 0 hf nbin hnbin
    simp only [polarToFrequency, phaseDifference, if_pos hnbin, complexToPolar_dc hdc, hdc,
      pvPhaseRewrap_zero, if_true]
    by_cases hneg : (z 0 nbin).1 < 0
    · rw [if_pos hneg, pvPhaseRewrap_pi, if_neg pi_ne_zero, abs_of_neg hneg, neg_neg]
    · rw [if_neg hneg, pvPhaseRewrap_zero, if_pos rfl, abs_of_nonneg (not_lt.mp hneg)]
  · simp only [polarToFrequency, phaseDifference, complexToPolar_of_real (hz nbin hnbin),
      if_neg hnbin]

theorem isFrequency_of_complex (h : ∀ f < n, d f = z f) (hreal : RealDC n z)
    (hsingle : n = 1 → ∀ nbin : Fin pvbuf.nbins, (nbin : ℕ) ≠ 0 →
      0 ≤ (z 0 nbin).1 ∧ (z 0 nbin).2 = 0) :
    IsFrequency n z (frequencies n (if 1 < n then mapFrames n complexToPolar d else d)) := by
  by_cases hn : 1 < n
  · rw [if_pos hn]
    exact (isPolar_mapFrames h).isFrequency
  · rw [if_neg hn]
    by_cases hzero : n = 0
    · intro f hf
      omega
    · have hone : n = 1 := by omega
      exact isFrequency_of_single hone h hreal (hsingle hone)

theorem IsFrequency.phases_eq (h : IsFrequency n z d)
    (hz : ∀ f < n, ∀ nbin, 0 ≤ (z f nbin).1 ∧ (z f nbin).2 = 0)
    (hoffset : 1 < n → ∀ nbin : Fin pvbuf.nbins, nbin * pvbuf.phaseOffsetMult < π) :
    ∀ f < n, phases n d f = z f := by
  have hpolar : ∀ f < n, complexToPolar (z f) = z f := by
    intro f hf
    funext nbin
    exact complexToPolar_of_real (hz f hf nbin)
  intro f hf
  rw [phases, if_pos hf]
  induction f with
  | zero =>
    rw [restored, h 0 hf]
    funext nbin
    by_cases hnbin : (nbin : ℕ) = 0
    · exact (frequencyToPolar_dc_zero hnbin (hz 0 hf nbin).2).trans
        (complexToPolar_of_real (hz 0 hf nbin))
    · rw [frequencyToPolar_polarToFrequency none _ _ hnbin, hpolar 0 hf]
      have hzero := (hz 0 hf nbin).2
      refine Prod.ext rfl ?_
      show pvPhaseRewrap (z 0 nbin).2 + 0 = (z 0 nbin).2
      rw [hzero, pvPhaseRewrap_zero, add_zero]
  | succ f ih =>
    have hprev : ptrPrev (fun f => complexToPolar (z f)) (f + 1) = some (complexToPolar (z f)) :=
      if_pos (Nat.succ_pos f)
    rw [restored, h (f + 1) hf, hprev, ih (by omega)]
    funext nbin
    have hfirst := hz f (by omega) nbin
    have hsecond := hz (f + 1) hf nbin
    by_cases hnbin : (nbin : ℕ) = 0
    · refine (frequencyToPolar_dc_succ hnbin hfirst.2 hsecond.2 ?_ ?_).trans
        (complexToPolar_of_real hsecond)
      · rw [hpolar f (by omega)]
      · exact fun hneg => absurd hneg.1 (not_lt.mpr hfirst.1)
    · have hmult : (0 : ℝ) ≤ pvbuf.phaseOffsetMult := by
        unfold Slots.phaseOffsetMult
        positivity
      have hoff : (0 : ℝ) ≤ nbin * pvbuf.phaseOffsetMult := by positivity
      have hlt := hoffset (by omega) nbin
      have hrewrap : pvPhaseRewrap (-(nbin * pvbuf.phaseOffsetMult)) =
          -(nbin * pvbuf.phaseOffsetMult) :=
        pvPhaseRewrap_of_mem ⟨by linarith, by linarith [pi_pos]⟩
      rw [frequencyToPolar_polarToFrequency _ _ _ hnbin, hpolar f (by omega), hpolar (f + 1) hf]
      refine Prod.ext rfl ?_
      simp only [phaseDifference, hfirst.2, hsecond.2, zero_add, zero_sub, hrewrap]
      ring

end Represents

end

end Incudine.PvData

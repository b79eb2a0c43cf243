import Incudine.PvConversions

/-!
# Lossless changes of the data type

The content of a PVbuffer is restored by all the changes of the data type iff no phase inversion of
a DC bin is lost, and the content is real where a conversion is missing: in a buffer with one frame
and in one with more channels.
-/

namespace Incudine.PvData

open Function Real
open PvFile (DataType)

noncomputable section

variable {pvbuf : Slots} {x : pvbuf.Data}

def SameData (dataType : DataType) (d d' : pvbuf.Data) : Prop :=
  ∀ chan < pvbuf.channels, ∀ f < pvbuf.frames, ∀ nbin,
    match dataType with
    | .magnitudePhase => (d chan f nbin).1 = (d' chan f nbin).1 ∧
        ((d chan f nbin).2 : Angle) = (d' chan f nbin).2
    | _ => d chan f nbin = d' chan f nbin

/-- The content after some changes of the type of complex data. -/
def changed (x : pvbuf.Data) (path : List DataType) : Content pvbuf :=
  path.foldl Content.setDataType ⟨.complex, x⟩

/-- Each path that ends in complex data restores the content, and a direct change is the same as the
change through the third type. -/
def Lossless (x : pvbuf.Data) : Prop :=
  ∀ path, ((changed x path).dataType = .complex →
      ∀ chan < pvbuf.channels, ∀ f < pvbuf.frames, (changed x path).data chan f = x chan f) ∧
    ∀ target third, target ≠ (changed x path).dataType → third ≠ (changed x path).dataType →
      third ≠ target →
      SameData target ((changed x path).setDataType target).data
        (((changed x path).setDataType third).setDataType target).data

/-- The condition on the complex content. -/
structure Restorable (x : pvbuf.Data) : Prop where
  keepsDC : ∀ chan < pvbuf.channels, KeepsDC pvbuf.frames (x chan)
  single : pvbuf.frames = 1 → ∀ chan < pvbuf.channels, ∀ nbin : Fin pvbuf.nbins, (nbin : ℕ) ≠ 0 →
    0 ≤ (x chan 0 nbin).1 ∧ (x chan 0 nbin).2 = 0
  others : ∀ chan < pvbuf.channels, 0 < chan → ∀ f < pvbuf.frames, ∀ nbin,
    0 ≤ (x chan f nbin).1 ∧ (x chan f nbin).2 = 0
  first : 1 < pvbuf.channels → ∀ f < pvbuf.frames, ∀ nbin, (x 0 f nbin).2 = 0
  offset : 1 < pvbuf.channels → 1 < pvbuf.frames →
    ∀ nbin : Fin pvbuf.nbins, nbin * pvbuf.phaseOffsetMult < π

theorem setDataType_data {source target : DataType} (hne : source ≠ target) {data : pvbuf.Data}
    {g : (ℕ → pvbuf.Frame) → ℕ → pvbuf.Frame}
    (hconvert : ∀ chan data, pvDataTypeConvert source target chan data =
      update data chan (g (data chan))) {chan : ℕ} (hchan : chan < pvbuf.channels) :
    ((⟨source, data⟩ : Content pvbuf).setDataType target).data chan = g (data chan) := by
  simp only [Content.setDataType, if_neg hne]
  rw [foldl_channels hconvert]
  exact if_pos hchan

section

variable {chan : ℕ} (data : pvbuf.Data) (hchan : chan < pvbuf.channels)
include data hchan

theorem setDataType_complex_polar :
    ((⟨.complex, data⟩ : Content pvbuf).setDataType .magnitudePhase).data chan =
      mapFrames pvbuf.frames complexToPolar (data chan) := by
  have hne : DataType.complex ≠ DataType.magnitudePhase := nofun
  exact setDataType_data hne (fun _ _ => pvComplexToPolar_eq) hchan

theorem setDataType_polar_complex :
    ((⟨.magnitudePhase, data⟩ : Content pvbuf).setDataType .complex).data chan =
      mapFrames pvbuf.frames polarToComplex (data chan) := by
  have hne : DataType.magnitudePhase ≠ DataType.complex := nofun
  exact setDataType_data hne (fun _ _ => pvPolarToComplex_eq) hchan

theorem setDataType_polar_frequency :
    ((⟨.magnitudePhase, data⟩ : Content pvbuf).setDataType .magnitudeFrequency).data chan =
      frequencies pvbuf.frames (data chan) := by
  have hne : DataType.magnitudePhase ≠ DataType.magnitudeFrequency := nofun
  exact setDataType_data hne (fun _ _ => pvPolarToFrequency_eq) hchan

theorem setDataType_frequency_polar :
    ((⟨.magnitudeFrequency, data⟩ : Content pvbuf).setDataType .magnitudePhase).data chan =
      phases pvbuf.frames (data chan) := by
  have hne : DataType.magnitudeFrequency ≠ DataType.magnitudePhase := nofun
  exact setDataType_data hne (fun _ _ => pvFrequencyToPolar_eq) hchan

theorem setDataType_complex_frequency :
    ((⟨.complex, data⟩ : Content pvbuf).setDataType .magnitudeFrequency).data chan =
      frequencies pvbuf.frames
        (if 1 < pvbuf.frames then mapFrames pvbuf.frames complexToPolar (data chan)
          else data chan) := by
  have hne : DataType.complex ≠ DataType.magnitudeFrequency := nofun
  exact setDataType_data hne (g := fun d => frequencies pvbuf.frames
    (if 1 < pvbuf.frames then mapFrames pvbuf.frames complexToPolar d else d))
    (fun _ _ => pvComplexToFrequency_eq) hchan

theorem setDataType_frequency_complex :
    ((⟨.magnitudeFrequency, data⟩ : Content pvbuf).setDataType .complex).data chan =
      if chan = 0 then
        (mapFrames pvbuf.frames polarToComplex)^[pvbuf.channels] (phases pvbuf.frames (data 0))
      else phases pvbuf.frames (data chan) := by
  obtain ⟨n, hn⟩ : ∃ n, pvbuf.channels = n + 1 :=
    ⟨pvbuf.channels - 1, (Nat.sub_add_cancel pvbuf.channels_pos).symm⟩
  have hne : DataType.magnitudeFrequency ≠ DataType.complex := nofun
  simp only [Content.setDataType, if_neg hne, pvDataTypeConvert]
  rw [hn, foldl_frequencyToComplex]
  dsimp only
  by_cases hzero : chan = 0
  · rw [if_pos hzero, if_pos hzero]
  · rw [if_neg hzero, if_neg hzero, if_pos (by omega)]

end

theorem iterate_mapFrames (n m : ℕ) (g : pvbuf.Frame → pvbuf.Frame) (d : ℕ → pvbuf.Frame) {f : ℕ}
    (hf : f < n) : (mapFrames n g)^[m] d f = g^[m] (d f) := by
  induction m generalizing d with
  | zero => rfl
  | succ m ih => rw [iterate_succ_apply, ih, mapFrames, if_pos hf, iterate_succ_apply]

theorem polarToComplex_of_real {w : pvbuf.Frame} (h : ∀ nbin, (w nbin).2 = 0) :
    polarToComplex w = w := by
  funext nbin
  simp only [polarToComplex, h nbin, cos_zero, sin_zero, mul_one, mul_zero]
  exact Prod.ext rfl (h nbin).symm

theorem real_of_iterate {m : ℕ} {w : pvbuf.Frame} (h : polarToComplex^[m + 1] w = w)
    (nbin : Fin pvbuf.nbins) : (w nbin).2 = 0 := by
  have hmag : ∀ v : pvbuf.Frame, hypot (polarToComplex v nbin).1 (polarToComplex v nbin).2 =
      |(v nbin).1| := by
    intro v
    have hsq : (v nbin).1 ^ 2 * cos (v nbin).2 ^ 2 + (v nbin).1 ^ 2 * sin (v nbin).2 ^ 2 =
        (v nbin).1 ^ 2 := by
      rw [← mul_add, cos_sq_add_sin_sq, mul_one]
    simp only [polarToComplex, hypot, mul_pow, hsq, sqrt_sq_eq_abs]
  have hle : ∀ v : pvbuf.Frame, |(v nbin).1| ≤ hypot (v nbin).1 (v nbin).2 := by
    intro v
    rw [← sqrt_sq_eq_abs]
    exact sqrt_le_sqrt (by linarith [sq_nonneg (v nbin).2])
  have hiterate : ∀ n, ∀ v : pvbuf.Frame,
      hypot (polarToComplex^[n] v nbin).1 (polarToComplex^[n] v nbin).2 ≤
        hypot (v nbin).1 (v nbin).2 := by
    intro n
    induction n with
    | zero => exact fun v => le_refl _
    | succ n ih =>
      intro v
      rw [iterate_succ_apply]
      exact (ih _).trans ((hmag v).le.trans (hle v))
  have hbound := hiterate m (polarToComplex w)
  rw [← iterate_succ_apply, h, hmag] at hbound
  have hroot := Real.sqrt_le_sqrt_iff (sq_nonneg (w nbin).1) |>.mp
    ((sqrt_sq_eq_abs (w nbin).1).symm ▸ hbound)
  have hsq : (w nbin).2 ^ 2 ≤ 0 := by linarith
  exact pow_eq_zero_iff (two_ne_zero) |>.mp (le_antisymm hsq (sq_nonneg _))

/-- The data of each type represent the complex content. -/
def Represents (x : pvbuf.Data) (obj : Content pvbuf) : Prop :=
  ∀ chan < pvbuf.channels,
    match obj.dataType with
    | .complex => ∀ f < pvbuf.frames, obj.data chan f = x chan f
    | .magnitudePhase => IsPolar pvbuf.frames (x chan) (obj.data chan)
    | .magnitudeFrequency => IsFrequency pvbuf.frames (x chan) (obj.data chan)

theorem mapFrames_polarToComplex {n : ℕ} {z d : ℕ → pvbuf.Frame} (h : IsPolar n z d) :
    ∀ f < n, mapFrames n polarToComplex d f = z f := by
  intro f hf
  rw [mapFrames, if_pos hf, h.polarToComplex_eq hf]

theorem Represents.setDataType {obj : Content pvbuf} (h : Represents x obj)
    (hreal : ∀ chan < pvbuf.channels, RealDC pvbuf.frames (x chan)) (hx : Restorable x)
    (target : DataType) : Represents x (obj.setDataType target) := by
  obtain ⟨source, data⟩ := obj
  by_cases hne : source = target
  · subst hne
    have hsame : (⟨source, data⟩ : Content pvbuf).setDataType source = ⟨source, data⟩ := by
      simp [Content.setDataType]
    rwa [hsame]
  intro chan hchan
  have hsource := h chan hchan
  cases source <;> cases target <;> first | exact absurd rfl hne | skip
  case complex.magnitudePhase =>
    show IsPolar _ _ (((⟨.complex, data⟩ : Content pvbuf).setDataType .magnitudePhase).data chan)
    rw [setDataType_complex_polar data hchan]
    exact isPolar_mapFrames hsource
  case complex.magnitudeFrequency =>
    show IsFrequency _ _
      (((⟨.complex, data⟩ : Content pvbuf).setDataType .magnitudeFrequency).data chan)
    rw [setDataType_complex_frequency data hchan]
    exact isFrequency_of_complex hsource (hreal chan hchan) fun hone => hx.single hone chan hchan
  case magnitudePhase.complex =>
    show ∀ f < _, ((⟨.magnitudePhase, data⟩ : Content pvbuf).setDataType .complex).data chan f = _
    rw [setDataType_polar_complex data hchan]
    exact mapFrames_polarToComplex hsource
  case magnitudePhase.magnitudeFrequency =>
    show IsFrequency _ _
      (((⟨.magnitudePhase, data⟩ : Content pvbuf).setDataType .magnitudeFrequency).data chan)
    rw [setDataType_polar_frequency data hchan]
    exact hsource.isFrequency
  case magnitudeFrequency.complex =>
    show ∀ f < _,
      ((⟨.magnitudeFrequency, data⟩ : Content pvbuf).setDataType .complex).data chan f = _
    rw [setDataType_frequency_complex data hchan]
    intro f hf
    by_cases hzero : chan = 0
    · subst hzero
      obtain ⟨n, hn⟩ : ∃ n, pvbuf.channels = n + 1 := ⟨pvbuf.channels - 1, by omega⟩
      have hpolar := hsource.isPolar (hreal 0 hchan) (hx.keepsDC 0 hchan)
      rw [if_pos rfl, hn, iterate_succ_apply, iterate_mapFrames _ _ _ _ hf,
        mapFrames_polarToComplex hpolar f hf]
      cases n with
      | zero => rfl
      | succ n => exact iterate_fixed (polarToComplex_of_real (hx.first (by omega) f hf)) _
    · rw [if_neg hzero]
      exact hsource.phases_eq (hx.others chan hchan (by omega)) (hx.offset (by omega)) f hf
  case magnitudeFrequency.magnitudePhase =>
    show IsPolar _ _
      (((⟨.magnitudeFrequency, data⟩ : Content pvbuf).setDataType .magnitudePhase).data chan)
    rw [setDataType_frequency_polar data hchan]
    exact hsource.isPolar (hreal chan hchan) (hx.keepsDC chan hchan)

theorem represents_changed (hreal : ∀ chan < pvbuf.channels, RealDC pvbuf.frames (x chan))
    (hx : Restorable x) (path : List DataType) : Represents x (changed x path) := by
  have hrun : ∀ obj : Content pvbuf, Represents x obj →
      Represents x (path.foldl Content.setDataType obj) := by
    induction path with
    | nil => exact fun obj h => h
    | cons dataType path ih => exact fun obj h => ih _ (h.setDataType hreal hx dataType)
  exact hrun _ fun chan _ f _ => rfl

theorem Represents.sameData {obj obj' : Content pvbuf} (h : Represents x obj)
    (h' : Represents x obj') {target : DataType} (hobj : obj.dataType = target)
    (hobj' : obj'.dataType = target) : SameData target obj.data obj'.data := by
  obtain ⟨source, data⟩ := obj
  obtain ⟨source', data'⟩ := obj'
  subst hobj hobj'
  intro chan hchan f hf nbin
  have hdata := h chan hchan
  have hdata' := h' chan hchan
  cases source' with
  | complex => exact congrFun ((hdata f hf).trans (hdata' f hf).symm) nbin
  | magnitudePhase =>
    exact ⟨(hdata.mag f hf nbin).trans (hdata'.mag f hf nbin).symm,
      (hdata.phase f hf nbin).trans (hdata'.phase f hf nbin).symm⟩
  | magnitudeFrequency => exact congrFun ((hdata f hf).trans (hdata' f hf).symm) nbin

theorem lossless_of_restorable (hreal : ∀ chan < pvbuf.channels, RealDC pvbuf.frames (x chan))
    (hx : Restorable x) : Lossless x := by
  intro path
  have h := represents_changed hreal hx path
  constructor
  · intro hcomplex chan hchan f hf
    have hdata := h chan hchan
    rw [hcomplex] at hdata
    exact hdata f hf
  · intro target third _ _ _
    exact (h.setDataType hreal hx target).sameData
      ((h.setDataType hreal hx third).setDataType hreal hx target) rfl rfl

section Necessary

variable (hreal : ∀ chan < pvbuf.channels, RealDC pvbuf.frames (x chan)) (h : Lossless x)
include h

theorem single_of_lossless (hone : pvbuf.frames = 1) {chan : ℕ} (hchan : chan < pvbuf.channels)
    {nbin : Fin pvbuf.nbins} (hnbin : (nbin : ℕ) ≠ 0) :
    0 ≤ (x chan 0 nbin).1 ∧ (x chan 0 nbin).2 = 0 := by
  have hsame : ((⟨.complex, x⟩ : Content pvbuf).setDataType .magnitudeFrequency).data chan 0 nbin =
      ((⟨.magnitudePhase, ((⟨.complex, x⟩ : Content pvbuf).setDataType .magnitudePhase).data⟩ :
        Content pvbuf).setDataType .magnitudeFrequency).data chan 0 nbin :=
    (h []).2 .magnitudeFrequency .magnitudePhase nofun nofun nofun chan hchan 0 pvbuf.frames_pos nbin
  have hdirect := setDataType_complex_frequency x hchan
  have hindirect := setDataType_polar_frequency
    ((⟨.complex, x⟩ : Content pvbuf).setDataType .magnitudePhase).data hchan
  rw [setDataType_complex_polar x hchan] at hindirect
  rw [hdirect, congrFun (congrFun hindirect 0) nbin] at hsame
  simp only [frequencies, mapFrames, hone, Nat.lt_irrefl, if_false, Nat.one_pos, if_true, ptrPrev,
    polarToFrequency, if_neg hnbin] at hsame
  exact of_hypot_eq (congrArg Prod.fst hsame).symm

include hreal in
theorem isFrequency_of_lossless {chan : ℕ} (hchan : chan < pvbuf.channels) :
    IsFrequency pvbuf.frames (x chan)
      (((⟨.complex, x⟩ : Content pvbuf).setDataType .magnitudeFrequency).data chan) := by
  rw [setDataType_complex_frequency x hchan]
  exact isFrequency_of_complex (fun _ _ => rfl) (hreal chan hchan) fun hone _ hnbin =>
    single_of_lossless h hone hchan hnbin

include hreal in
theorem keepsDC_of_lossless {chan : ℕ} (hchan : chan < pvbuf.channels) :
    KeepsDC pvbuf.frames (x chan) := by
  intro f hf nbin hnbin hlost
  have hsame : SameData .magnitudePhase
      ((⟨.complex, x⟩ : Content pvbuf).setDataType .magnitudePhase).data
      (((⟨.complex, x⟩ : Content pvbuf).setDataType .magnitudeFrequency).setDataType
        .magnitudePhase).data :=
    (h []).2 .magnitudePhase .magnitudeFrequency nofun nofun nofun
  have hphase : ∀ f < pvbuf.frames, ((phases pvbuf.frames
      (((⟨.complex, x⟩ : Content pvbuf).setDataType .magnitudeFrequency).data chan) f nbin).2 :
        Angle) = (complexToPolar (x chan f) nbin).2 := by
    intro f hf
    have hindirect := setDataType_frequency_polar
      ((⟨.complex, x⟩ : Content pvbuf).setDataType .magnitudeFrequency).data hchan
    have hangle := (hsame chan hchan f hf nbin).2
    rw [setDataType_complex_polar x hchan, mapFrames, if_pos hf] at hangle
    rw [hangle, ← hindirect]
    rfl
  exact not_isPolar_phases (isFrequency_of_lossless hreal h hchan) (hreal chan hchan) hf hnbin
    hlost.1 hlost.2 (hphase f (by omega)) (hphase (f + 1) hf)

include hreal in
theorem isPolar_of_lossless {chan : ℕ} (hchan : chan < pvbuf.channels) :
    IsPolar pvbuf.frames (x chan) (phases pvbuf.frames
      (((⟨.complex, x⟩ : Content pvbuf).setDataType .magnitudeFrequency).data chan)) :=
  (isFrequency_of_lossless hreal h hchan).isPolar (hreal chan hchan)
    (keepsDC_of_lossless hreal h hchan)

theorem frequency_complex_of_lossless {chan f : ℕ} (hchan : chan < pvbuf.channels)
    (hf : f < pvbuf.frames) :
    (if chan = 0 then
      (mapFrames pvbuf.frames polarToComplex)^[pvbuf.channels] (phases pvbuf.frames
        (((⟨.complex, x⟩ : Content pvbuf).setDataType .magnitudeFrequency).data 0))
      else phases pvbuf.frames
        (((⟨.complex, x⟩ : Content pvbuf).setDataType .magnitudeFrequency).data chan)) f =
      x chan f := by
  have hrestored := (h [.magnitudeFrequency, .complex]).1 rfl chan hchan f hf
  have hcomplex := setDataType_frequency_complex
    ((⟨.complex, x⟩ : Content pvbuf).setDataType .magnitudeFrequency).data hchan
  rw [← hcomplex]
  exact hrestored

include hreal in
theorem others_of_lossless {chan f : ℕ} (hchan : chan < pvbuf.channels) (hpos : 0 < chan)
    (hf : f < pvbuf.frames) (nbin : Fin pvbuf.nbins) :
    0 ≤ (x chan f nbin).1 ∧ (x chan f nbin).2 = 0 := by
  have hrestored := frequency_complex_of_lossless h hchan hf
  have hmag := (isPolar_of_lossless hreal h hchan).mag f hf nbin
  rw [if_neg (by omega)] at hrestored
  rw [hrestored] at hmag
  exact of_hypot_eq hmag.symm

include hreal in
theorem first_of_lossless (hchannels : 1 < pvbuf.channels) {f : ℕ} (hf : f < pvbuf.frames)
    (nbin : Fin pvbuf.nbins) : (x 0 f nbin).2 = 0 := by
  obtain ⟨n, hn⟩ : ∃ n, pvbuf.channels = n + 1 + 1 := ⟨pvbuf.channels - 2, by omega⟩
  have hrestored := frequency_complex_of_lossless h (show 0 < pvbuf.channels by omega) hf
  have hpolar := isPolar_of_lossless hreal h (show 0 < pvbuf.channels by omega)
  rw [if_pos rfl, hn, iterate_succ_apply, iterate_mapFrames _ _ _ _ hf,
    mapFrames_polarToComplex hpolar f hf] at hrestored
  exact real_of_iterate hrestored nbin

include hreal in
theorem offset_of_lossless (hchannels : 1 < pvbuf.channels) (hframes : 1 < pvbuf.frames)
    (nbin : Fin pvbuf.nbins) : nbin * pvbuf.phaseOffsetMult < π := by
  by_cases hnbin : (nbin : ℕ) = 0
  · rw [hnbin, Nat.cast_zero, zero_mul]
    exact pi_pos
  have hothers : ∀ f < pvbuf.frames, complexToPolar (x 1 f) nbin = x 1 f nbin := fun f hf =>
    complexToPolar_of_real (others_of_lossless hreal h hchannels Nat.one_pos hf nbin)
  have hphases : ∀ f < pvbuf.frames, phases pvbuf.frames
      (((⟨.complex, x⟩ : Content pvbuf).setDataType .magnitudeFrequency).data 1) f nbin =
        x 1 f nbin := by
    intro f hf
    have hrestored := frequency_complex_of_lossless h hchannels hf
    rw [if_neg Nat.one_ne_zero] at hrestored
    exact congrFun hrestored nbin
  have hzero : ∀ f < pvbuf.frames, (x 1 f nbin).2 = 0 := fun f hf =>
    (others_of_lossless hreal h hchannels Nat.one_pos hf nbin).2
  have hfirst := hphases 0 (by omega)
  have hsecond := hphases 1 hframes
  rw [phases, if_pos (by omega)] at hfirst
  rw [phases, if_pos hframes, restored, isFrequency_of_lossless hreal h hchannels 1 hframes,
    frequencyToPolar_polarToFrequency _ _ _ hnbin] at hsecond
  have hphase := congrArg Prod.snd hsecond
  simp only [ptrPrev, Nat.one_pos, if_true, Nat.sub_self, phaseDifference, hothers 0 (by omega),
    hothers 1 hframes, hfirst, hzero 0 (by omega), hzero 1 hframes, zero_add, zero_sub] at hphase
  have hmem := (pvPhaseRewrap_mem (-(nbin * pvbuf.phaseOffsetMult))).1
  linarith

include hreal in
theorem restorable_of_lossless : Restorable x where
  keepsDC _ hchan := keepsDC_of_lossless hreal h hchan
  single hone _ hchan _ hnbin := single_of_lossless h hone hchan hnbin
  others _ hchan hpos _ hf nbin := others_of_lossless hreal h hchan hpos hf nbin
  first hchannels _ hf nbin := first_of_lossless hreal h hchannels hf nbin
  offset hchannels hframes nbin := offset_of_lossless hreal h hchannels hframes nbin

end Necessary

/-- The changes of the data type are lossless if and only if the content is restorable. -/
theorem lossless_iff (hreal : ∀ chan < pvbuf.channels, RealDC pvbuf.frames (x chan)) :
    Lossless x ↔ Restorable x :=
  ⟨restorable_of_lossless hreal, lossless_of_restorable hreal⟩

def twoBins (frames channels : ℕ) (hframes : 0 < frames) (hchannels : 0 < channels) : Slots where
  frames := frames
  frames_pos := hframes
  channels := channels
  channels_pos := hchannels
  fftSize := 2
  fftSize_pos := Nat.two_pos
  hopSize := 1
  hopSize_pos := Nat.one_pos
  srate := 48000
  srate_pos := by norm_num

/-- In one channel, the DC values 1, -1, 1 and the complex number 1 + i in the second bin. -/
theorem lossless_iff_alternating :
    Lossless (fun _ f nbin => if (nbin : ℕ) = 0 then ((-1) ^ f, 0) else (1, 1) :
      (twoBins 3 1 (by decide) (by decide)).Data) := by
  refine (lossless_iff fun _ _ f _ nbin hzero => ?_).mpr ⟨?_, ?_, ?_, ?_, ?_⟩
  · rw [if_pos hzero]
  · intro _ _ f _ nbin hzero hlost
    simp only [if_pos hzero] at hlost
    exact pow_ne_zero (f + 1) (neg_ne_zero.mpr one_ne_zero) hlost.2
  · exact fun hone => absurd hone (by decide)
  · intro chan hchan hpos
    exact absurd hpos (Nat.not_lt_of_le (Nat.le_of_lt_succ hchan))
  · exact fun hchannels => absurd hchannels (by decide)
  · exact fun hchannels => absurd hchannels (by decide)

/-- An imaginary bin in the only frame. -/
theorem not_lossless_single :
    (∀ chan < 1, RealDC 1 (fun _ nbin => (0, nbin) :
      ℕ → (twoBins 1 1 (by decide) (by decide)).Frame)) ∧
    ¬ Lossless (fun _ _ nbin => (0, nbin) : (twoBins 1 1 (by decide) (by decide)).Data) := by
  constructor
  · intro _ _ _ _ nbin hnbin
    show ((nbin : ℕ) : ℝ) = 0
    rw [hnbin, Nat.cast_zero]
  · intro h
    have hsecond := (@single_of_lossless _ _ h rfl 0 Nat.one_pos ⟨1, by decide⟩ Nat.one_ne_zero).2
    norm_num at hsecond

end

end Incudine.PvData

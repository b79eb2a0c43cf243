import Incudine.Literals
import Incudine.PvFile
import Mathlib.Analysis.SpecialFunctions.Complex.Arg

/-!
# Data type of a PVbuffer

The spectral data of a PVbuffer are complex numbers, magnitudes and phases or magnitudes and
frequencies. The frequencies are calculated from the last frame, because a frame depends on the
previous one, and the phases are restored from the first frame. The arithmetic is exact.
-/

namespace Incudine.PvData

open Function Real
open PvFile (DataType)
open scoped Literals

noncomputable section

structure Slots where
  frames : ℕ
  frames_pos : 0 < frames
  channels : ℕ
  channels_pos : 0 < channels
  fftSize : ℕ
  fftSize_pos : 0 < fftSize
  hopSize : ℕ
  hopSize_pos : 0 < hopSize
  srate : ℝ
  srate_pos : 0 < srate

namespace Slots

variable (pvbuf : Slots)

def blockSize : ℕ := 2 * (1 + pvbuf.fftSize / 2)

def nbins : ℕ := pvbuf.blockSize / 2

def deltaPhaseMult : ℝ := pvbuf.srate / (2 * π * pvbuf.hopSize)

def centralFrequencyMult : ℝ := pvbuf.srate / pvbuf.fftSize

def phaseOffsetMult : ℝ := 2 * π * pvbuf.hopSize / pvbuf.fftSize

/-- The two values of each bin. -/
abbrev Frame : Type := Fin pvbuf.nbins → ℝ × ℝ

/-- The frames of the channels. -/
abbrev Data : Type := ℕ → ℕ → pvbuf.Frame

end Slots

def hypot (x y : ℝ) : ℝ := √(x ^ 2 + y ^ 2)

def atan2 (y x : ℝ) : ℝ := Complex.arg ⟨x, y⟩

def truncate (x : ℝ) : ℤ := if 0 ≤ x then ⌊x⌋ else ⌈x⌉

/-- The remainder has the sign of the dividend. -/
def fmod (x y : ℝ) : ℝ := x - y * truncate (x / y)

def pvPhaseRewrap (x : ℝ) : ℝ :=
  let res := fmod (x + π) (-(2 * π))
  if 0 < res then res - π else res + π

section Frame

variable {pvbuf : Slots}

def complexToPolar (frame : pvbuf.Frame) : pvbuf.Frame := fun nbin =>
  let p := frame nbin
  (hypot p.1 p.2, atan2 p.2 p.1)

def polarToComplex (frame : pvbuf.Frame) : pvbuf.Frame := fun nbin =>
  let p := frame nbin
  (p.1 * cos p.2, p.1 * sin p.2)

/-- The phase without what the previous frame predicts. -/
def phaseDifference (ptrPrev : Option pvbuf.Frame) (ptr : pvbuf.Frame) (nbin : Fin pvbuf.nbins) : ℝ :=
  match ptrPrev with
  | none => (ptr nbin).2
  | some prev => (ptr nbin).2 - ((prev nbin).2 + nbin * pvbuf.phaseOffsetMult)

def polarToFrequency (ptrPrev : Option pvbuf.Frame) (ptr : pvbuf.Frame) : pvbuf.Frame := fun nbin =>
  let mag := (ptr nbin).1
  let phase := pvPhaseRewrap (phaseDifference ptrPrev ptr nbin)
  if (nbin : ℕ) = 0 then
    if phase = 0 then (mag, phase) else (-mag, 0)
  else (mag, pvbuf.deltaPhaseMult * phase + nbin * pvbuf.centralFrequencyMult)

def frequencyToPolar (ptrPrev : Option pvbuf.Frame) (ptr : pvbuf.Frame) : pvbuf.Frame := fun nbin =>
  let mag := (ptr nbin).1
  if (nbin : ℕ) = 0 then
    (if mag < 0 then -mag else mag,
      match ptrPrev with
      | none => if mag < 0 then π else 0
      | some prev => if mag < 0 then if (prev nbin).2 = 0 then π else 0 else (prev nbin).2)
  else
    let phase := 1 / pvbuf.deltaPhaseMult * ((ptr nbin).2 - pvbuf.centralFrequencyMult * nbin)
    (mag,
      match ptrPrev with
      | none => phase
      | some prev => phase + ((prev nbin).2 + nbin * pvbuf.phaseOffsetMult))

end Frame

section Channel

variable {pvbuf : Slots}

def setFrame (data : pvbuf.Data) (channel frame : ℕ) (value : pvbuf.Frame) : pvbuf.Data :=
  update data channel (update (data channel) frame value)

def ptrPrev (frames : ℕ → pvbuf.Frame) (frame : ℕ) : Option pvbuf.Frame :=
  if 0 < frame then some (frames (frame - 1)) else none

def pvPolarToFrequencyFrame (frame channel : ℕ) (data : pvbuf.Data) : pvbuf.Data :=
  setFrame data channel frame
    (polarToFrequency (ptrPrev (data channel) frame) (data channel frame))

def pvFrequencyToPolarFrame (frame channel : ℕ) (data : pvbuf.Data) : pvbuf.Data :=
  setFrame data channel frame
    (frequencyToPolar (ptrPrev (data channel) frame) (data channel frame))

def pvComplexToPolar (channel : ℕ) (data : pvbuf.Data) : pvbuf.Data :=
  (List.range pvbuf.frames).foldl
    (fun data frame => setFrame data channel frame (complexToPolar (data channel frame))) data

def pvPolarToComplex (channel : ℕ) (data : pvbuf.Data) : pvbuf.Data :=
  (List.range pvbuf.frames).foldl
    (fun data frame => setFrame data channel frame (polarToComplex (data channel frame))) data

def pvPolarToFrequency (channel : ℕ) (data : pvbuf.Data) : pvbuf.Data :=
  (List.range pvbuf.frames).reverse.foldl
    (fun data frame => pvPolarToFrequencyFrame frame channel data) data

def pvFrequencyToPolar (channel : ℕ) (data : pvbuf.Data) : pvbuf.Data :=
  (List.range pvbuf.frames).foldl
    (fun data frame => pvFrequencyToPolarFrame frame channel data) data

def pvComplexToFrequency (channel : ℕ) (data : pvbuf.Data) : pvbuf.Data :=
  let last := pvbuf.frames - 1
  let data :=
    if 1 < pvbuf.frames then
      (List.range last).reverse.foldl
        (fun data prev =>
          pvPolarToFrequencyFrame (prev + 1) channel
            (setFrame data channel prev (complexToPolar (data channel prev))))
        (setFrame data channel last (complexToPolar (data channel last)))
    else data
  pvPolarToFrequencyFrame 0 channel data

/-- The complex numbers are always stored in the first channel. -/
def pvFrequencyToComplex (channel : ℕ) (data : pvbuf.Data) : pvbuf.Data :=
  let last := pvbuf.frames - 1
  let data := pvFrequencyToPolarFrame 0 channel data
  let data :=
    if 1 < pvbuf.frames then
      (List.range last).foldl
        (fun data frame =>
          let data := pvFrequencyToPolarFrame (frame + 1) channel data
          setFrame data 0 frame (polarToComplex (data 0 frame)))
        data
    else data
  setFrame data 0 last (polarToComplex (data 0 last))

def pvDataTypeConvert (source target : DataType) (channel : ℕ) (data : pvbuf.Data) : pvbuf.Data :=
  match source, target with
  | .complex, .magnitudePhase => pvComplexToPolar channel data
  | .magnitudePhase, .complex => pvPolarToComplex channel data
  | .complex, .magnitudeFrequency => pvComplexToFrequency channel data
  | .magnitudeFrequency, .complex => pvFrequencyToComplex channel data
  | .magnitudePhase, .magnitudeFrequency => pvPolarToFrequency channel data
  | .magnitudeFrequency, .magnitudePhase => pvFrequencyToPolar channel data
  | .complex, .complex => data
  | .magnitudePhase, .magnitudePhase => data
  | .magnitudeFrequency, .magnitudeFrequency => data

end Channel

/-- The data and their type. -/
structure Content (pvbuf : Slots) where
  dataType : DataType
  data : pvbuf.Data

def Content.setDataType {pvbuf : Slots} (obj : Content pvbuf) (value : DataType) : Content pvbuf where
  dataType := value
  data :=
    if obj.dataType = value then obj.data
    else
      (List.range pvbuf.channels).foldl
        (fun data chan => pvDataTypeConvert obj.dataType value chan data) obj.data

section Loops

variable {pvbuf : Slots} {channel n : ℕ} {data : pvbuf.Data} {d : ℕ → pvbuf.Frame}

theorem foldl_setFrame (l : List ℕ) (g : ℕ → (ℕ → pvbuf.Frame) → pvbuf.Frame) (data : pvbuf.Data) :
    l.foldl (fun data frame => setFrame data channel frame (g frame (data channel))) data =
      update data channel (l.foldl (fun d frame => update d frame (g frame d)) (data channel)) := by
  induction l generalizing data with
  | nil => rw [List.foldl_nil, List.foldl_nil, update_eq_self]
  | cons frame l ih =>
    rw [List.foldl_cons, ih, List.foldl_cons]
    simp only [setFrame, update_self, update_idem]

def mapFrames (n : ℕ) (g : pvbuf.Frame → pvbuf.Frame) (d : ℕ → pvbuf.Frame) (f : ℕ) : pvbuf.Frame :=
  if f < n then g (d f) else d f

theorem foldl_mapFrames (g : pvbuf.Frame → pvbuf.Frame) (n : ℕ) (d : ℕ → pvbuf.Frame) :
    (List.range n).foldl (fun d frame => update d frame (g (d frame))) d = mapFrames n g d := by
  induction n with
  | zero =>
    funext f
    simp [mapFrames]
  | succ n ih =>
    rw [List.range_succ, List.foldl_append, ih, List.foldl_cons, List.foldl_nil]
    funext f
    by_cases hf : f = n
    · simp [mapFrames, hf]
    · rw [update_of_ne hf]
      exact if_congr (by omega) rfl rfl

theorem update_mapFrames (n : ℕ) (g : pvbuf.Frame → pvbuf.Frame) (d : ℕ → pvbuf.Frame) :
    update (mapFrames n g d) n (g (mapFrames n g d n)) = mapFrames (n + 1) g d := by
  funext f
  by_cases hf : f = n
  · rw [hf, update_self, mapFrames, if_neg (Nat.lt_irrefl n), mapFrames,
      if_pos (Nat.lt_succ_self n)]
  · rw [update_of_ne hf]
    exact if_congr (by omega) rfl rfl

theorem mapFrames_update (n : ℕ) (g : pvbuf.Frame → pvbuf.Frame) (d : ℕ → pvbuf.Frame) :
    mapFrames n g (update d n (g (d n))) = mapFrames (n + 1) g d := by
  funext f
  unfold mapFrames
  by_cases hf : f = n
  · rw [hf, if_neg (Nat.lt_irrefl n), if_pos (Nat.lt_succ_self n), update_self]
  · rw [update_of_ne hf]
    exact if_congr (by omega) rfl rfl

def frequencies (n : ℕ) (d : ℕ → pvbuf.Frame) (f : ℕ) : pvbuf.Frame :=
  if f < n then polarToFrequency (ptrPrev d f) (d f) else d f

theorem ptrPrev_update {f : ℕ} (hf : f ≤ n) (value : pvbuf.Frame) :
    ptrPrev (update d n value) f = ptrPrev d f := by
  unfold ptrPrev
  split_ifs
  · rw [update_of_ne (by omega)]
  · rfl

theorem foldl_frequencies (n : ℕ) (d : ℕ → pvbuf.Frame) :
    (List.range n).reverse.foldl
        (fun d frame => update d frame (polarToFrequency (ptrPrev d frame) (d frame))) d =
      frequencies n d := by
  induction n generalizing d with
  | zero =>
    funext f
    simp [frequencies]
  | succ n ih =>
    rw [List.range_succ, List.reverse_append, List.reverse_singleton, List.singleton_append,
      List.foldl_cons, ih]
    funext f
    unfold frequencies
    by_cases hf : f < n
    · rw [if_pos hf, if_pos (by omega), update_of_ne hf.ne, ptrPrev_update hf.le]
    · rw [if_neg hf]
      by_cases hn : f = n
      · rw [if_pos (by omega), hn, update_self]
      · rw [if_neg (by omega), update_of_ne hn]

def restored (d : ℕ → pvbuf.Frame) : ℕ → pvbuf.Frame
  | 0 => frequencyToPolar none (d 0)
  | f + 1 => frequencyToPolar (some (restored d f)) (d (f + 1))

def phases (n : ℕ) (d : ℕ → pvbuf.Frame) (f : ℕ) : pvbuf.Frame :=
  if f < n then restored d f else d f

theorem phases_succ (n : ℕ) (d : ℕ → pvbuf.Frame) :
    update (phases n d) n
        (frequencyToPolar (ptrPrev (phases n d) n) (phases n d n)) = phases (n + 1) d := by
  have hn : phases n d n = d n := if_neg (Nat.lt_irrefl n)
  have hprev : frequencyToPolar (ptrPrev (phases n d) n) (d n) = restored d n := by
    cases n with
    | zero => rfl
    | succ n =>
      have hlast : phases (n + 1) d n = restored d n := if_pos (Nat.lt_succ_self n)
      rw [ptrPrev, if_pos (Nat.succ_pos n), Nat.add_sub_cancel, hlast, restored]
  funext f
  rw [hn, hprev]
  by_cases hf : f = n
  · rw [hf, update_self, phases, if_pos (Nat.lt_succ_self n)]
  · rw [update_of_ne hf]
    exact if_congr (by omega) rfl rfl

theorem foldl_phases (n : ℕ) (d : ℕ → pvbuf.Frame) :
    (List.range n).foldl
        (fun d frame => update d frame (frequencyToPolar (ptrPrev d frame) (d frame))) d =
      phases n d := by
  induction n with
  | zero =>
    funext f
    simp [phases]
  | succ n ih =>
    rw [List.range_succ, List.foldl_append, ih, List.foldl_cons, List.foldl_nil, phases_succ]

end Loops

section Channels

variable {pvbuf : Slots} {channel : ℕ} {data : pvbuf.Data}

theorem pvComplexToPolar_eq : pvComplexToPolar channel data =
    update data channel (mapFrames pvbuf.frames complexToPolar (data channel)) := by
  rw [pvComplexToPolar, foldl_setFrame _ (fun frame d => complexToPolar (d frame)), foldl_mapFrames]

theorem pvPolarToComplex_eq : pvPolarToComplex channel data =
    update data channel (mapFrames pvbuf.frames polarToComplex (data channel)) := by
  rw [pvPolarToComplex, foldl_setFrame _ (fun frame d => polarToComplex (d frame)), foldl_mapFrames]

theorem pvPolarToFrequency_eq : pvPolarToFrequency channel data =
    update data channel (frequencies pvbuf.frames (data channel)) := by
  have hloop := @foldl_setFrame pvbuf channel (List.range pvbuf.frames).reverse
    (fun frame d => polarToFrequency (ptrPrev d frame) (d frame)) data
  rw [foldl_frequencies] at hloop
  exact hloop

theorem pvFrequencyToPolar_eq : pvFrequencyToPolar channel data =
    update data channel (phases pvbuf.frames (data channel)) := by
  have hloop := @foldl_setFrame pvbuf channel (List.range pvbuf.frames)
    (fun frame d => frequencyToPolar (ptrPrev d frame) (d frame)) data
  rw [foldl_phases] at hloop
  exact hloop

theorem foldl_complexToFrequency (n : ℕ) (d : ℕ → pvbuf.Frame) :
    (List.range n).reverse.foldl
        (fun d prev =>
          let d := update d prev (complexToPolar (d prev))
          update d (prev + 1) (polarToFrequency (ptrPrev d (prev + 1)) (d (prev + 1)))) d =
      fun f => if 0 < f ∧ f ≤ n then
        polarToFrequency (ptrPrev (mapFrames n complexToPolar d) f) (mapFrames n complexToPolar d f)
      else mapFrames n complexToPolar d f := by
  induction n generalizing d with
  | zero =>
    funext f
    rw [if_neg (by omega)]
    simp [mapFrames]
  | succ n ih =>
    rw [List.range_succ, List.reverse_append, List.reverse_singleton, List.singleton_append,
      List.foldl_cons, ih]
    funext f
    set d₁ := update d n (complexToPolar (d n))
    set d₂ := update d₁ (n + 1) (polarToFrequency (ptrPrev d₁ (n + 1)) (d₁ (n + 1)))
    have hsame : ∀ f ≤ n, mapFrames n complexToPolar d₂ f =
        mapFrames (n + 1) complexToPolar d f := by
      intro f hf
      have hd₂ : d₂ f = d₁ f := update_of_ne (by omega) _ _
      rw [mapFrames, mapFrames, if_pos (show f < n + 1 by omega), hd₂]
      by_cases hn : f = n
      · rw [if_neg (by omega), hn]
        exact update_self _ _ _
      · rw [if_pos (by omega), show d₁ f = d f from update_of_ne hn _ _]
    by_cases hf : f ≤ n
    · have hprev : ptrPrev (mapFrames n complexToPolar d₂) f =
          ptrPrev (mapFrames (n + 1) complexToPolar d) f := by
        unfold ptrPrev
        rw [hsame (f - 1) (by omega)]
      rw [hsame f hf, hprev]
      exact if_congr (by omega) rfl rfl
    · have hlater : mapFrames n complexToPolar d₂ f = d₂ f := if_neg (by omega)
      rw [if_neg (by omega), hlater]
      by_cases hn : f = n + 1
      · have hlast : mapFrames (n + 1) complexToPolar d (n + 1) = d (n + 1) :=
          if_neg (Nat.lt_irrefl _)
        have hbefore : mapFrames (n + 1) complexToPolar d n = complexToPolar (d n) :=
          if_pos (Nat.lt_succ_self n)
        have hcurrent : d₁ (n + 1) = d (n + 1) := update_of_ne (by omega) _ _
        have hbefore' : d₁ n = complexToPolar (d n) := update_self _ _ _
        rw [hn, if_pos (by omega), hlast, show d₂ (n + 1) = _ from update_self _ _ _, hcurrent]
        simp only [ptrPrev, Nat.succ_pos, if_true, Nat.add_sub_cancel, hbefore, hbefore']
      · rw [if_neg (by omega), show d₂ f = d₁ f from update_of_ne hn _ _,
          show d₁ f = d f from update_of_ne (by omega) _ _]
        exact (if_neg (by omega)).symm

theorem pvComplexToFrequency_eq : pvComplexToFrequency channel data =
    update data channel (frequencies pvbuf.frames
      (if 1 < pvbuf.frames then mapFrames pvbuf.frames complexToPolar (data channel)
        else data channel)) := by
  have hpos := pvbuf.frames_pos
  have hfirst : ∀ data : pvbuf.Data, pvPolarToFrequencyFrame 0 channel data =
      update data channel
        (update (data channel) 0 (polarToFrequency none (data channel 0))) := fun _ => rfl
  by_cases hframes : 1 < pvbuf.frames
  · obtain ⟨last, hlast⟩ : ∃ last, pvbuf.frames = last + 1 := ⟨pvbuf.frames - 1, by omega⟩
    have hloop : ∀ (l : List ℕ) (data : pvbuf.Data), l.foldl
        (fun data prev =>
          pvPolarToFrequencyFrame (prev + 1) channel
            (setFrame data channel prev (complexToPolar (data channel prev)))) data =
        update data channel (l.foldl (fun d prev =>
          let d := update d prev (complexToPolar (d prev))
          update d (prev + 1) (polarToFrequency (ptrPrev d (prev + 1)) (d (prev + 1))))
          (data channel)) := by
      intro l
      induction l with
      | nil => intro data; rw [List.foldl_nil, List.foldl_nil, update_eq_self]
      | cons prev l ih =>
        intro data
        rw [List.foldl_cons, ih, List.foldl_cons]
        simp only [pvPolarToFrequencyFrame, setFrame, update_self, update_idem]
    simp only [pvComplexToFrequency, if_pos hframes]
    rw [hloop, hfirst, setFrame, foldl_complexToFrequency, hlast, Nat.add_sub_cancel]
    simp only [update_self, update_idem]
    rw [mapFrames_update]
    congr 1
    funext f
    by_cases hf : f = 0
    · rw [hf, update_self, frequencies, if_pos (Nat.succ_pos last), if_neg (by omega)]
      rfl
    · rw [update_of_ne hf, frequencies]
      by_cases hle : f ≤ last
      · rw [if_pos (by omega), if_pos (by omega)]
      · rw [if_neg (by omega), if_neg (by omega)]
  · have hone : pvbuf.frames = 1 := by omega
    rw [pvComplexToFrequency, if_neg hframes, if_neg hframes, hfirst, hone]
    congr 1
    funext f
    by_cases hf : f = 0
    · rw [hf, update_self]
      rfl
    · rw [update_of_ne hf, frequencies, if_neg (by omega)]

theorem foldl_frequencyToComplex_zero (n : ℕ) (data : pvbuf.Data) :
    (List.range n).foldl
        (fun data frame =>
          let data := pvFrequencyToPolarFrame (frame + 1) 0 data
          setFrame data 0 frame (polarToComplex (data 0 frame)))
        (update data 0 (phases 1 (data 0))) =
      update data 0 (mapFrames n polarToComplex (phases (n + 1) (data 0))) := by
  induction n with
  | zero =>
    congr 1
  | succ n ih =>
    rw [List.range_succ, List.foldl_append, ih, List.foldl_cons, List.foldl_nil]
    have hphases := phases_succ (n + 1) (data 0)
    have hlater : mapFrames n polarToComplex (phases (n + 1) (data 0)) (n + 1) =
        phases (n + 1) (data 0) (n + 1) := if_neg (by omega)
    have hprev : ptrPrev (mapFrames n polarToComplex (phases (n + 1) (data 0))) (n + 1) =
        ptrPrev (phases (n + 1) (data 0)) (n + 1) := by
      simp only [ptrPrev, Nat.succ_pos, if_true, Nat.add_sub_cancel, mapFrames, Nat.lt_irrefl,
        if_false]
    simp only [pvFrequencyToPolarFrame, setFrame, update_self, update_idem, hlater, hprev]
    congr 1
    rw [← hphases]
    funext f
    by_cases hf : f = n
    · rw [hf, update_self, update_of_ne (by omega)]
      simp only [mapFrames, Nat.lt_irrefl, if_false, Nat.lt_succ_self, if_true]
      rw [update_of_ne (by omega)]
    by_cases hlast : f = n + 1
    · rw [update_of_ne hf, hlast, update_self, mapFrames, if_neg (Nat.lt_irrefl _), update_self]
    · rw [update_of_ne hf, update_of_ne hlast, mapFrames, mapFrames, update_of_ne hlast]
      exact if_congr (by omega) rfl rfl

theorem foldl_frequencyToComplex_of_ne (hchannel : channel ≠ 0) (n : ℕ) (data : pvbuf.Data) :
    (List.range n).foldl
        (fun data frame =>
          let data := pvFrequencyToPolarFrame (frame + 1) channel data
          setFrame data 0 frame (polarToComplex (data 0 frame)))
        (update data channel (phases 1 (data channel))) =
      update (update data channel (phases (n + 1) (data channel))) 0
        (mapFrames n polarToComplex (data 0)) := by
  induction n with
  | zero =>
    have hsame : mapFrames 0 polarToComplex (data 0) = data 0 := by
      funext f
      simp [mapFrames]
    rw [hsame, update_comm hchannel, update_eq_self]
    rfl
  | succ n ih =>
    rw [List.range_succ, List.foldl_append, ih, List.foldl_cons, List.foldl_nil]
    simp only [pvFrequencyToPolarFrame, setFrame, update_self, update_of_ne hchannel,
      update_of_ne hchannel.symm, phases_succ, update_mapFrames]
    rw [update_comm hchannel.symm, update_idem, update_idem]

theorem update_phases_zero (d : ℕ → pvbuf.Frame) :
    update d 0 (frequencyToPolar (ptrPrev d 0) (d 0)) = phases 1 d := by
  have hzero : phases 0 d = d := by
    funext f
    simp [phases]
  have hsucc := phases_succ 0 d
  rwa [hzero] at hsucc

theorem pvFrequencyToComplex_loop : pvFrequencyToComplex channel data =
    let last := pvbuf.frames - 1
    let data := (List.range last).foldl
      (fun data frame =>
        let data := pvFrequencyToPolarFrame (frame + 1) channel data
        setFrame data 0 frame (polarToComplex (data 0 frame)))
      (update data channel (phases 1 (data channel)))
    setFrame data 0 last (polarToComplex (data 0 last)) := by
  have hpos := pvbuf.frames_pos
  have hfirst : pvFrequencyToPolarFrame 0 channel data =
      update data channel (phases 1 (data channel)) := by
    rw [pvFrequencyToPolarFrame, setFrame, update_phases_zero]
  simp only [pvFrequencyToComplex, hfirst]
  split_ifs with hframes
  · rfl
  · have hlast : pvbuf.frames - 1 = 0 := by omega
    rw [hlast]
    rfl

theorem pvFrequencyToComplex_zero : pvFrequencyToComplex 0 data =
    update data 0 (mapFrames pvbuf.frames polarToComplex (phases pvbuf.frames (data 0))) := by
  have hlast : pvbuf.frames - 1 + 1 = pvbuf.frames := Nat.sub_add_cancel pvbuf.frames_pos
  rw [pvFrequencyToComplex_loop]
  dsimp only
  rw [foldl_frequencyToComplex_zero, hlast, setFrame, update_self, update_idem, update_mapFrames,
    hlast]

theorem pvFrequencyToComplex_of_ne (hchannel : channel ≠ 0) : pvFrequencyToComplex channel data =
    update (update data channel (phases pvbuf.frames (data channel))) 0
      (mapFrames pvbuf.frames polarToComplex (data 0)) := by
  have hlast : pvbuf.frames - 1 + 1 = pvbuf.frames := Nat.sub_add_cancel pvbuf.frames_pos
  rw [pvFrequencyToComplex_loop]
  dsimp only
  rw [foldl_frequencyToComplex_of_ne hchannel, hlast, setFrame, update_self, update_idem,
    update_mapFrames, hlast]

theorem foldl_channels {convert : ℕ → pvbuf.Data → pvbuf.Data}
    {g : (ℕ → pvbuf.Frame) → ℕ → pvbuf.Frame}
    (hconvert : ∀ chan data, convert chan data = update data chan (g (data chan))) (n : ℕ)
    (data : pvbuf.Data) :
    (List.range n).foldl (fun data chan => convert chan data) data =
      fun chan => if chan < n then g (data chan) else data chan := by
  induction n with
  | zero =>
    funext chan
    simp
  | succ n ih =>
    rw [List.range_succ, List.foldl_append, ih, List.foldl_cons, List.foldl_nil, hconvert]
    funext chan
    by_cases hchan : chan = n
    · rw [hchan, update_self, if_neg (Nat.lt_irrefl n), if_pos (Nat.lt_succ_self n)]
    · rw [update_of_ne hchan]
      exact if_congr (by omega) rfl rfl

theorem foldl_frequencyToComplex (n : ℕ) (data : pvbuf.Data) :
    (List.range (n + 1)).foldl (fun data chan => pvFrequencyToComplex chan data) data =
      fun chan =>
        if chan = 0 then
          (mapFrames pvbuf.frames polarToComplex)^[n + 1] (phases pvbuf.frames (data 0))
        else if chan ≤ n then phases pvbuf.frames (data chan)
        else data chan := by
  induction n with
  | zero =>
    rw [List.range_one, List.foldl_cons, List.foldl_nil, pvFrequencyToComplex_zero]
    funext chan
    by_cases hchan : chan = 0
    · rw [hchan, update_self]
      rfl
    · rw [update_of_ne hchan, if_neg hchan, if_neg (by omega)]
  | succ n ih =>
    rw [List.range_succ, List.foldl_append, ih, List.foldl_cons, List.foldl_nil,
      pvFrequencyToComplex_of_ne (Nat.succ_ne_zero n)]
    funext chan
    by_cases hzero : chan = 0
    · rw [hzero, update_self, if_pos rfl, if_pos rfl, ← iterate_succ_apply' (f := mapFrames _ _)]
    rw [update_of_ne hzero, if_neg hzero]
    by_cases hchan : chan = n + 1
    · rw [hchan, update_self, if_neg (Nat.succ_ne_zero n), if_neg (by omega), if_pos (by omega)]
    · rw [update_of_ne hchan, if_neg hzero]
      exact if_congr (by omega) rfl rfl

end Channels

end

end Incudine.PvData

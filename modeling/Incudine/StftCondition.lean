import Incudine.StftInput

/-!
# Exact condition for the input of the short-time Fourier transform

With the identity in place of the transform, an impulse or a constant channel shows what enters the
frames of another channel and a shift that is left pending.
-/

namespace Incudine.Stft

open FftStream
open Soundfile (File)

variable {K : Type*} [Field K]

def bufferOf (file : File K) : Buffer K where
  frames := file.frames
  channels := file.channels
  data i := file.data (i / file.channels) (i % file.channels)

omit [Field K] in
theorem bufferOf_contains (file : File K) : (bufferOf file).Contains file := by
  constructor
  · rfl
  · rfl
  · intro frame _ chan hchan
    simp only [bufferOf, FrameMemory.div_index hchan, FrameMemory.mod_index hchan]

section Necessary

variable {a : Arguments} {shift : ℤ} {frames channels : ℕ}

theorem scaled_pvbufferSlots (windowFunction : WindowFunction K) (value : K) :
    scaled (pvbufferSlots frames channels a windowFunction) value = value := by
  rw [scaled]
  split_ifs with hnormalized
  · have hscale : (pvbufferSlots frames channels a windowFunction).scaleFactor = 1 :=
      if_pos hnormalized
    rw [hscale, one_mul]
  · rfl

omit [Field K] in
theorem bufferOf_yields (file : File K) (start items : ℕ) :
    Yields (bufferSource (bufferOf file) start) file.channels items (fun _ => True)
      (fun n j => j = file.channels * ((start + n : ℕ) - 1 : ℤ))
      (fun chan i => file.data (start + i) chan)
      (fun chan i => [(start + i) * file.channels + chan]) := by
  have hyields := bufferSource_yields (bufferOf file) start file.channels items
  constructor
  · exact hyields.rewind
  · exact hyields.valid
  · intro chan n s hchan hn hs
    obtain ⟨hvalue, haccess, hnext⟩ := hyields.next hchan hn hs
    refine ⟨?_, haccess, hnext⟩
    rw [hvalue, Buffer.value]
    simp only [bufferOf, FrameMemory.div_index hchan, FrameMemory.mod_index hchan]

theorem rotated_eq_of_block {pvbuf : Pvbuffer K} {n m : ℕ} {window : ℕ → K} {inputs inputs' : List K}
    {s s' : ℤ} (hpvbuf : pvbuf = pvbufferSlots n m a .rectangular)
    (h : ∀ i < pvbuf.blockSize, block (identityPlan K) pvbuf window inputs s i =
      block (identityPlan K) pvbuf window inputs' s' i) :
    rotated (windowed pvbuf.fftSize pvbuf.windowSize window inputs) s =
      rotated (windowed pvbuf.fftSize pvbuf.windowSize window inputs') s' := by
  have hle : pvbuf.windowSize ≤ pvbuf.fftSize := by
    rw [hpvbuf]
    exact pvbufferSlots_windowSize.2
  have hlength : ∀ l s, (rotated (windowed pvbuf.fftSize pvbuf.windowSize window l) s).length =
      pvbuf.fftSize := by
    intro l s
    rw [rotated, List.length_rotate, length_windowed hle]
  have hblock : pvbuf.fftSize ≤ pvbuf.blockSize := by
    rw [hpvbuf]
    simp only [pvbufferSlots]
    omega
  apply List.ext_getElem
  · rw [hlength, hlength]
  · intro i hi hi'
    have hvalue := h i (by rw [hlength] at hi; omega)
    rw [block, block, hpvbuf, scaled_pvbufferSlots, scaled_pvbufferSlots, ← hpvbuf] at hvalue
    simp only [identityPlan, List.getD_eq_getElem _ _ hi, List.getD_eq_getElem _ _ hi'] at hvalue
    exact hvalue

section Accepted

variable (h : ReadsOnlyInput K a shift frames channels) (hframes : a.analysisFrames frames ≠ 0)
  (hzero : channels ≠ 0) (hmax : channels ≤ maximumChannelNumber + 1)
include h hframes hzero hmax

theorem ReadsOnlyInput.lists (data : ℕ → ℕ → K) {pvbuf : Pvbuffer K}
    (hpvbuf : pvbuf = pvbufferSlots (a.analysisFrames frames) channels a .rectangular) :
    a.start + a.analysisFrames frames * a.hopSize ≤ a.stop frames ∧
      ∀ chan < channels, ∀ frame < a.analysisFrames frames,
        rotated (windowed pvbuf.fftSize pvbuf.windowSize (fun _ => 1)
            (history (a.analysisFrames frames * a.hopSize) (fun c i => data (a.start + i) c) chan
              ((frame + 1) * a.hopSize)))
            (frameShift pvbuf (a.analysisFrames frames) shift chan frame) =
          rotated (windowed pvbuf.fftSize pvbuf.windowSize (fun _ => 1)
            ((List.range ((frame + 1) * a.hopSize)).map
              (selected a ⟨frames, channels, data⟩ chan)))
            (if a.zeroPhaseWindowP then windowHalfSize pvbuf else 0) := by
  set file : File K := ⟨frames, channels, data⟩ with hfile
  have hinput := h (identityPlan K) .rectangular (fun _ => 0) file (bufferOf file) 0 (fun _ => 0)
    rfl rfl (bufferOf_contains file)
  have hsome : stftFromBuffer (identityPlan K) .rectangular a (fun _ => 0) shift (bufferOf file) =
      some (stftLoop (identityPlan K) (bufferSource (bufferOf file) a.start) pvbuf
        (a.analysisFrames frames) 0 (makeFftFromPvbuffer pvbuf (fun _ => 0) shift)) := by
    rw [hpvbuf, stftFromBuffer]
    exact congrArg (Option.map _) (makePvbuffer_of_accepted hframes hzero hmax)
  obtain ⟨hdata, hreads⟩ := @stftLoop_spec _ _ _ (identityPlan K) _ _ _ _ .rectangular (fun _ => 0)
    shift _ _ _ _ (bufferOf_yields file a.start _) 0 trivial _ hpvbuf
  rcases hinput with ⟨hnone, -⟩ | ⟨result, reads, -, -, heq, -, hselected, -⟩
  · exact absurd (hsome.symm.trans hnone) (Option.some_ne_none _)
  have hresult := Option.some.inj (hsome.symm.trans heq)
  rw [hresult] at hdata hreads
  simp only at hdata hreads
  constructor
  · have hpos : 0 < a.analysisFrames frames * a.hopSize :=
      Nat.mul_pos (Nat.pos_of_ne_zero hframes) a.hopSize_pos
    have hmem : (a.start + (a.analysisFrames frames * a.hopSize - 1)) * channels + 0 ∈ reads := by
      rw [hreads, mem_upTo_zero]
      exact ⟨0, Nat.pos_of_ne_zero hzero, _, Nat.sub_lt hpos Nat.one_pos, List.mem_singleton_self _⟩
    have hinside : ((a.start + (a.analysisFrames frames * a.hopSize - 1)) * channels + 0) / channels <
        a.stop frames := (hselected.inside _ hmem).2
    rw [FrameMemory.div_index (Nat.pos_of_ne_zero hzero)] at hinside
    omega
  · intro chan hchan frame hframe
    subst hpvbuf
    have hfst : _ = result := congrArg Prod.fst hresult
    apply rotated_eq_of_block rfl
    intro i hi
    rw [← hfst] at hselected hdata
    exact (hdata chan hchan frame hframe i hi).symm.trans
      (hselected.frames chan hchan frame hframe i hi)

theorem ReadsOnlyInput.forgets : channels = 1 ∨ min a.windowSize a.fftSize ≤ a.hopSize := by
  by_contra hnot
  obtain ⟨hone, hlt⟩ := not_or.mp hnot
  rw [Nat.not_le] at hlt
  set pvbuf : Pvbuffer K :=
    pvbufferSlots (a.analysisFrames frames) channels a .rectangular with hpvbuf
  have hle : pvbuf.windowSize ≤ pvbuf.fftSize := pvbufferSlots_windowSize.2
  have hwindow : a.hopSize < pvbuf.windowSize := by
    simp only [hpvbuf, pvbufferSlots]
    split_ifs <;> omega
  have hitems : 0 < a.analysisFrames frames * a.hopSize :=
    Nat.mul_pos (Nat.pos_of_ne_zero hframes) a.hopSize_pos
  have hlists := (h.lists hframes hzero hmax (fun _ c => if c = 0 then 1 else 0) hpvbuf).2 1
    (by omega) 0 (Nat.pos_of_ne_zero hframes)
  have hshift : frameShift pvbuf (a.analysisFrames frames) shift 1 0 =
      if a.zeroPhaseWindowP then windowHalfSize pvbuf else 0 := by
    have hpending : pendingShift (a.analysisFrames frames) shift 1 0 = 0 := if_neg (by omega)
    rw [frameShift, hpending]
    rfl
  rw [hshift] at hlists
  have heq := rotated_injective (by rw [length_windowed hle, length_windowed hle]) hlists
  rw [windowed_one, windowed_one, history_eq] at heq
  have hlast := List.append_cancel_right heq
  have hleft : (List.range 1).flatMap (fun c => (List.range (a.analysisFrames frames * a.hopSize)).map
        (fun _ => if c = 0 then (1 : K) else 0)) ++
      (List.range ((0 + 1) * a.hopSize)).map (fun _ => if (1 : ℕ) = 0 then (1 : K) else 0) =
        List.replicate (a.analysisFrames frames * a.hopSize) 1 ++ List.replicate a.hopSize 0 := by
    simp
  have hright : (List.range ((0 + 1) * a.hopSize)).map
      (selected a ⟨frames, channels, fun _ c => if c = 0 then (1 : K) else 0⟩ 1) =
        List.replicate a.hopSize 0 := by
    have hzero : selected a ⟨frames, channels, fun _ c => if c = 0 then (1 : K) else 0⟩ 1 =
        fun _ => 0 := by
      funext i
      rw [selected]
      split_ifs <;> simp_all
    rw [hzero]
    simp
  rw [hleft, hright] at hlast
  have hvalue := congrArg (fun l => l.getD (pvbuf.windowSize - a.hopSize - 1) 0) hlast
  simp only [lastInputs, List.getD_eq_getElem?_getD, List.getElem?_drop, List.length_append,
    List.length_replicate, List.getElem?_append, List.getElem?_replicate] at hvalue
  rw [if_neg (by omega), if_pos (by omega), if_pos (by omega), if_pos (by omega),
    if_pos (by omega)] at hvalue
  exact one_ne_zero hvalue

theorem ReadsOnlyInput.unshifted : a.zeroPhaseWindowP ∨ (a.fftSize : ℤ) ∣ shift := by
  by_cases hphase : a.zeroPhaseWindowP = true
  · exact .inl hphase
  right
  set pvbuf : Pvbuffer K :=
    pvbufferSlots (a.analysisFrames frames) channels a .rectangular with hpvbuf
  obtain ⟨hpos, hle⟩ : 0 < pvbuf.windowSize ∧ pvbuf.windowSize ≤ pvbuf.fftSize :=
    pvbufferSlots_windowSize
  have hsize : pvbuf.fftSize = a.fftSize := rfl
  have hhop := a.hopSize_pos
  obtain ⟨hstop, hlists⟩ := h.lists hframes hzero hmax
    (fun f _ => if f = a.start + (a.hopSize - 1) then 1 else 0) hpvbuf
  have hfirst := hlists 0 (Nat.pos_of_ne_zero hzero) 0 (Nat.pos_of_ne_zero hframes)
  have hitems : 1 * a.hopSize ≤ a.analysisFrames frames * a.hopSize :=
    Nat.mul_le_mul_right _ (Nat.pos_of_ne_zero hframes)
  have hshift : frameShift pvbuf (a.analysisFrames frames) shift 0 0 = shift := by
    have hpending : pendingShift (a.analysisFrames frames) shift 0 0 = shift := if_pos (by omega)
    rw [frameShift, hpending]
    exact if_neg hphase
  have himpulse : (List.range ((0 + 1) * a.hopSize)).map
      (fun i => if a.start + i = a.start + (a.hopSize - 1) then (1 : K) else 0) =
        List.replicate (a.hopSize - 1) 0 ++ [1] := by
    obtain ⟨n, hn⟩ := Nat.exists_eq_succ_of_ne_zero hhop.ne'
    rw [hn, Nat.zero_add, Nat.one_mul, List.range_succ, List.map_append]
    congr 1
    · apply List.eq_replicate_iff.mpr
      refine ⟨by simp, fun x hx => ?_⟩
      obtain ⟨i, hi, rfl⟩ := List.mem_map.mp hx
      have hlt := List.mem_range.mp hi
      exact if_neg (by omega)
    · simp
  have hselected : (List.range ((0 + 1) * a.hopSize)).map (selected a ⟨frames, channels,
      fun f _ => if f = a.start + (a.hopSize - 1) then (1 : K) else 0⟩ 0) =
        List.replicate (a.hopSize - 1) 0 ++ [1] := by
    rw [← himpulse]
    apply List.map_congr_left
    intro i hi
    have hlt := List.mem_range.mp hi
    exact if_pos (by dsimp only; omega)
  rw [hshift, if_neg hphase, history_eq, hselected, List.range_zero, List.flatMap_nil,
    List.nil_append, himpulse, rotated_of_dvd (dvd_zero _), windowed_one] at hfirst
  rw [lastInputs_concat hpos, lastInputs_replicate, List.drop_replicate] at hfirst
  have hsum : pvbuf.windowSize - 1 + 1 + (pvbuf.fftSize - pvbuf.windowSize) = a.fftSize := by omega
  have hdvd := dvd_of_rotated_impulse hfirst
  rwa [hsum] at hdvd

end Accepted

end Necessary

theorem readsOnlyInput_of_refused {a : Arguments} {shift : ℤ} {frames channels : ℕ}
    (h : a.analysisFrames frames = 0 ∨ channels = 0 ∨ maximumChannelNumber + 1 < channels) :
    ReadsOnlyInput K a shift frames channels := by
  intro plan windowFunction memory file buffer bufferSize cells hframes hchannels hcontains
  subst hframes hchannels
  left
  constructor
  · rw [stftFromBuffer, hcontains.frames_eq, hcontains.channels_eq, makePvbuffer_of_refused h]
    rfl
  · rw [stftFromSoundfile, makePvbuffer_of_refused h]
    rfl

theorem readsOnlyInput_iff (a : Arguments) (shift : ℤ) (frames channels : ℕ) :
    ReadsOnlyInput K a shift frames channels ↔ Meets a shift frames channels := by
  by_cases hrefused : a.analysisFrames frames = 0 ∨ channels = 0 ∨
      maximumChannelNumber + 1 < channels
  · constructor
    · intro _
      rw [Meets]
      tauto
    · intro _
      exact readsOnlyInput_of_refused hrefused
  obtain ⟨hframes, hzero, hmax⟩ : a.analysisFrames frames ≠ 0 ∧ channels ≠ 0 ∧
      channels ≤ maximumChannelNumber + 1 := by
    rw [not_or, not_or, Nat.not_lt] at hrefused
    exact hrefused
  constructor
  · intro h
    have hstop := (h.lists hframes hzero hmax (fun _ _ => 0) rfl).1
    obtain ⟨hdvd, hend⟩ := Arguments.hops_le_stop_iff.mp hstop
    right; right; right
    exact ⟨hdvd, hend, h.forgets hframes hzero hmax, h.unshifted hframes hzero hmax⟩
  · rintro (h | h | h | ⟨hdvd, hend, hforgets, hshift⟩)
    · exact absurd h hframes
    · exact absurd h hzero
    · exact absurd hmax (Nat.not_le.mpr h)
    · have hsound : Sound a shift frames channels :=
        ⟨hframes, hzero, hmax, Arguments.hops_le_stop_iff.mpr ⟨hdvd, hend⟩, hforgets, hshift⟩
      exact hsound.readsOnlyInput

def shortHops : Arguments where
  fftSize := 4
  windowSize := 2
  hopSize := 2
  start := 0
  frames := none
  normalizedP := true
  zeroPhaseWindowP := false
  fftSize_pos := Nat.succ_pos 3
  windowSize_pos := Nat.two_pos
  hopSize_pos := Nat.two_pos

/-- The second hop of three frames ends after the input. -/
theorem not_readsOnlyInput : ¬ ReadsOnlyInput ℚ shortHops 0 3 1 := by
  intro h
  have hframes : shortHops.analysisFrames 3 ≠ 0 := by decide
  have hstop := (h.lists hframes (by decide) (by decide) (fun _ _ => 0) rfl).1
  exact absurd hstop (by decide)

end Incudine.Stft

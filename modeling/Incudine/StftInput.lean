import Incudine.ShortTimeFourier

/-!
# Input of the short-time Fourier transform

The hops of `stft` leave the selected part of the input if they do not end with it, and the ring
buffer of the FFT still contains the last samples of the previous channel.
-/

namespace Incudine.Stft

open FftStream
open Soundfile (File)

variable {K σ : Type*} [Field K]

def Arguments.stop (a : Arguments) (length : ℕ) : ℕ :=
  match a.frames with
  | some frames => min (a.start + frames) length
  | none => length

def selected (a : Arguments) (file : File K) (chan i : ℕ) : K :=
  if a.start + i < a.stop file.frames then file.data (a.start + i) chan else 0

/-- The samples that are read are in the selected part, and a frame of a channel is the transform of
the selected values of the channel up to the hop of the frame. -/
structure ReadsSelected (plan : Plan K) (a : Arguments) (memory : ℕ → K) (file : File K)
    (pvbuf : Pvbuffer K) (reads : List ℕ) : Prop where
  inside : ∀ i ∈ reads, a.start ≤ i / file.channels ∧ i / file.channels < a.stop file.frames
  frames : ∀ chan < file.channels, ∀ frame < a.analysisFrames file.frames, ∀ i < pvbuf.blockSize,
    pvbuf.data chan (frame * pvbuf.blockSize + i) =
      block plan pvbuf (windowValues (some pvbuf.windowFunction) memory pvbuf.windowSize)
        ((List.range ((frame + 1) * a.hopSize)).map (selected a file chan))
        (if a.zeroPhaseWindowP then windowHalfSize pvbuf else 0) i

structure Buffer.Contains (buffer : Buffer K) (file : File K) : Prop where
  frames_eq : buffer.frames = file.frames
  channels_eq : buffer.channels = file.channels
  data_eq : ∀ frame < file.frames, ∀ chan < file.channels,
    buffer.data (frame * file.channels + chan) = file.data frame chan

/-- For an input of the given size, with a FFT from the pool with the given pending shift: a buffer
and a sound file with the same contents are either both refused, or the selected part is read and
the results are the same. -/
def ReadsOnlyInput (K : Type*) [Field K] (a : Arguments) (shift : ℤ) (frames channels : ℕ) : Prop :=
  ∀ (plan : Plan K) (windowFunction : WindowFunction K) (memory : ℕ → K) (file : File K)
    (buffer : Buffer K) (bufferSize : ℕ) (cells : Cells K),
    file.frames = frames → file.channels = channels → buffer.Contains file →
      (stftFromBuffer plan windowFunction a memory shift buffer = none ∧
        stftFromSoundfile plan windowFunction a memory shift bufferSize cells file = none) ∨
      ∃ pvbuf reads pvbuf' reads',
        stftFromBuffer plan windowFunction a memory shift buffer = some (pvbuf, reads) ∧
        stftFromSoundfile plan windowFunction a memory shift bufferSize cells file =
          some (pvbuf', reads') ∧
        ReadsSelected plan a memory file pvbuf reads ∧
        ReadsSelected plan a memory file pvbuf' reads' ∧
        ∀ chan < channels, ∀ frame < a.analysisFrames frames, ∀ i < pvbuf.blockSize,
          pvbuf.data chan (frame * pvbuf.blockSize + i) =
            pvbuf'.data chan (frame * pvbuf.blockSize + i)

section Selected

variable {a : Arguments} {length : ℕ}

theorem Arguments.inputFrames_le (a : Arguments) (length : ℕ) :
    a.inputFrames length ≤ a.analysisFrames length * a.hopSize := by
  have hlt := Nat.lt_div_mul_add a.hopSize_pos (a := a.inputFrames length + a.hopSize - 1)
  rw [← Arguments.analysisFrames] at hlt
  have hpos := a.hopSize_pos
  omega

theorem Arguments.analysisFrames_mul (hdvd : a.hopSize ∣ a.inputFrames length) :
    a.analysisFrames length * a.hopSize = a.inputFrames length := by
  obtain ⟨n, hn⟩ := hdvd
  have hpos := a.hopSize_pos
  have hframes : a.analysisFrames length = n := by
    rw [Arguments.analysisFrames, hn, Nat.add_sub_assoc hpos, Nat.mul_add_div hpos,
      Nat.div_eq_of_lt (Nat.sub_lt hpos Nat.one_pos), Nat.add_zero]
  rw [hframes, hn, Nat.mul_comm]

theorem Arguments.hops_le_stop_iff :
    a.start + a.analysisFrames length * a.hopSize ≤ a.stop length ↔
      a.hopSize ∣ a.inputFrames length ∧ a.start + a.inputFrames length ≤ length := by
  have hle := a.inputFrames_le length
  constructor
  · intro h
    have heq : a.analysisFrames length * a.hopSize = a.inputFrames length := by
      apply Nat.le_antisymm _ hle
      revert h
      unfold Arguments.stop Arguments.inputFrames
      cases a.frames with
      | none => dsimp only; omega
      | some frames => dsimp only; omega
    refine ⟨Dvd.intro_left _ heq, ?_⟩
    rw [heq] at h
    revert h
    unfold Arguments.stop
    cases a.frames with
    | none => exact fun h => h
    | some frames => exact fun h => h.trans (Nat.min_le_right _ _)
  · rintro ⟨hdvd, hend⟩
    rw [Arguments.analysisFrames_mul hdvd]
    revert hend
    unfold Arguments.stop Arguments.inputFrames
    cases a.frames with
    | none => exact fun h => h
    | some frames => dsimp only; omega

theorem Arguments.stop_le (a : Arguments) (length : ℕ) : a.stop length ≤ length := by
  unfold Arguments.stop
  cases a.frames with
  | none => exact le_rfl
  | some frames => exact Nat.min_le_right _ _

end Selected

/-- There is nothing to analyse, or the hops end with the input of the analysis, which ends in the
file; a window does not contain the previous channel and no shift is pending. -/
def Meets (a : Arguments) (shift : ℤ) (frames channels : ℕ) : Prop :=
  a.analysisFrames frames = 0 ∨ channels = 0 ∨ maximumChannelNumber + 1 < channels ∨
    a.hopSize ∣ a.inputFrames frames ∧ a.start + a.inputFrames frames ≤ frames ∧
      (channels = 1 ∨ min a.windowSize a.fftSize ≤ a.hopSize) ∧
        (a.zeroPhaseWindowP ∨ (a.fftSize : ℤ) ∣ shift)

section Refused

variable {frames channels : ℕ} {a : Arguments} {windowFunction : WindowFunction K}

theorem makePvbuffer_of_refused
    (h : frames = 0 ∨ channels = 0 ∨ maximumChannelNumber + 1 < channels) :
    makePvbuffer frames channels a windowFunction = none := by
  apply if_pos
  rcases h with h | h | h
  · right; right
    rw [h]
    rfl
  · exact .inl h
  · exact .inr (.inl h)

theorem makePvbuffer_of_accepted (hframes : frames ≠ 0) (hchannels : channels ≠ 0)
    (hmax : channels ≤ maximumChannelNumber + 1) :
    makePvbuffer frames channels a windowFunction =
      some (pvbufferSlots frames channels a windowFunction) := by
  apply if_neg
  rintro (h | h | h)
  · exact hchannels h
  · omega
  · rcases Nat.mul_eq_zero.mp h with h | h
    · omega
    · exact hframes h

end Refused

section Inputs

variable {size windowSize : ℕ} {window : ℕ → K} {pending : ℤ}

theorem lastInputs_append {n : ℕ} (xs : List K) {ys : List K} (h : n ≤ ys.length) :
    lastInputs n (xs ++ ys) = lastInputs n ys := by
  have hsplit : (List.replicate n 0 ++ (xs ++ ys)).drop (xs ++ ys).length =
      ys.drop (ys.length - n) := by
    rw [← List.append_assoc, List.drop_append, List.drop_eq_nil_of_le (by simp; omega)]
    simp only [List.nil_append, List.length_append, List.length_replicate]
    congr 1
    omega
  have hlast : (List.replicate n 0 ++ ys).drop ys.length = ys.drop (ys.length - n) := by
    rw [List.drop_append, List.drop_eq_nil_of_le (by simp; omega), List.nil_append,
      List.length_replicate]
  rw [lastInputs, lastInputs, hsplit, hlast]

omit [Field K] in
theorem history_eq (items : ℕ) (value : ℕ → ℕ → K) (chan n : ℕ) :
    history items value chan n =
      (List.range chan).flatMap (fun c => (List.range items).map (value c)) ++
        (List.range n).map (value chan) := by
  simp [upTo, List.map_eq_flatMap]

omit [Field K] in
theorem mem_upTo_zero {β : Type*} {items : ℕ} {g : ℕ → ℕ → List β} {chan : ℕ} {x : β} :
    x ∈ upTo items g chan 0 ↔ ∃ c < chan, ∃ i < items, x ∈ g c i := by
  simp [upTo]

theorem windowed_history {items chan frame hopSize : ℕ} (value : ℕ → ℕ → K)
    (h : chan = 0 ∨ windowSize ≤ hopSize) :
    windowed size windowSize window (history items value chan ((frame + 1) * hopSize)) =
      windowed size windowSize window
        ((List.range ((frame + 1) * hopSize)).map (value chan)) := by
  rw [history_eq]
  rcases h with rfl | h
  · rfl
  · have hlength : windowSize ≤ ((List.range ((frame + 1) * hopSize)).map (value chan)).length := by
      rw [List.length_map, List.length_range, Nat.succ_mul]
      omega
    rw [windowed, windowed, lastInputs_append _ hlength]

end Inputs

section Sufficient

variable {plan : Plan K} {src : Source σ K} {a : Arguments} {windowFunction : WindowFunction K}
  {memory : ℕ → K} {shift : ℤ} {file : File K} {Valid : σ → Prop} {At : ℕ → σ → Prop}
  {value : ℕ → ℕ → K} {accesses : ℕ → ℕ → List ℕ}

theorem readsSelected_of
    (hsrc : Yields src file.channels (a.analysisFrames file.frames * a.hopSize) Valid At value
      accesses)
    {source : σ} (hvalid : Valid source)
    (hstop : a.start + a.analysisFrames file.frames * a.hopSize ≤ a.stop file.frames)
    (hvalue : ∀ chan < file.channels, ∀ i, a.start + i < a.stop file.frames →
      value chan i = file.data (a.start + i) chan)
    (haccess : ∀ chan i, ∀ x ∈ accesses chan i, x = (a.start + i) * file.channels + chan)
    (hchannels : file.channels = 1 ∨ min a.windowSize a.fftSize ≤ a.hopSize)
    (hshift : a.zeroPhaseWindowP ∨ (a.fftSize : ℤ) ∣ shift) {pvbuf : Pvbuffer K}
    (hpvbuf : pvbuf =
      pvbufferSlots (a.analysisFrames file.frames) file.channels a windowFunction) :
    ReadsSelected plan a memory file
      (stftLoop plan src pvbuf (a.analysisFrames file.frames) source
        (makeFftFromPvbuffer pvbuf memory shift)).1
      (stftLoop plan src pvbuf (a.analysisFrames file.frames) source
        (makeFftFromPvbuffer pvbuf memory shift)).2 := by
  obtain ⟨hdata, hreads⟩ := @stftLoop_spec _ _ _ plan _ _ _ _ _ memory shift _ _ _ _ hsrc _ hvalid
    _ hpvbuf
  constructor
  · intro x hx
    rw [hreads, mem_upTo_zero] at hx
    obtain ⟨chan, hchan, i, hi, hx⟩ := hx
    rw [haccess chan i x hx, FrameMemory.div_index hchan]
    omega
  · intro chan hchan frame hframe i hi
    have hwindowSize : pvbuf.windowSize = min a.windowSize a.fftSize := by
      rw [hpvbuf]
      simp only [pvbufferSlots]
      split_ifs <;> omega
    have hsize : pvbuf.fftSize = a.fftSize := by rw [hpvbuf]; rfl
    have hfunction : pvbuf.windowFunction = windowFunction := by rw [hpvbuf]; rfl
    have hzero : pvbuf.zeroPhaseWindowP = a.zeroPhaseWindowP := by rw [hpvbuf]; rfl
    have hitems : (frame + 1) * a.hopSize ≤ a.analysisFrames file.frames * a.hopSize :=
      Nat.mul_le_mul_right _ hframe
    have hinputs : (List.range ((frame + 1) * a.hopSize)).map (value chan) =
        (List.range ((frame + 1) * a.hopSize)).map (selected a file chan) := by
      apply List.map_congr_left
      intro j hj
      have hin : a.start + j < a.stop file.frames := by
        have hlt := List.mem_range.mp hj
        omega
      rw [hvalue chan hchan j hin, selected, if_pos hin]
    have hlast : chan = 0 ∨ pvbuf.windowSize ≤ a.hopSize := by
      rw [hwindowSize]
      rcases hchannels with h | h
      · exact .inl (by omega)
      · exact .inr h
    refine (hdata chan hchan frame hframe i hi).trans ?_
    rw [block, windowed_history value hlast, hinputs, frameShift, hzero]
    show _ = block plan pvbuf (windowValues (some pvbuf.windowFunction) memory pvbuf.windowSize) _
      (if a.zeroPhaseWindowP then windowHalfSize pvbuf else 0) i
    rw [block, hfunction]
    by_cases hphase : a.zeroPhaseWindowP = true
    · rw [if_pos hphase, if_pos hphase]
    · have hdvd : (a.fftSize : ℤ) ∣ pendingShift (a.analysisFrames file.frames) shift chan frame := by
        rw [pendingShift]
        split_ifs
        · exact hshift.resolve_left hphase
        · exact dvd_zero _
      have hlength := @length_windowed K _ pvbuf.fftSize pvbuf.windowSize
        (windowValues (some windowFunction) memory pvbuf.windowSize)
        ((List.range ((frame + 1) * a.hopSize)).map (selected a file chan))
        (by rw [hwindowSize, hsize]; exact Nat.min_le_right _ _)
      rw [if_neg hphase, if_neg hphase, rotated_of_dvd (by rwa [hlength, hsize]),
        rotated_of_dvd (dvd_zero _)]

end Sufficient

/-- The input is accepted, the hops are in the selected part, and nothing else enters the
transforms. -/
structure Sound (a : Arguments) (shift : ℤ) (frames channels : ℕ) : Prop where
  analysisFrames_ne : a.analysisFrames frames ≠ 0
  channels_ne : channels ≠ 0
  channels_le : channels ≤ maximumChannelNumber + 1
  stop : a.start + a.analysisFrames frames * a.hopSize ≤ a.stop frames
  forgets : channels = 1 ∨ min a.windowSize a.fftSize ≤ a.hopSize
  shift : a.zeroPhaseWindowP ∨ (a.fftSize : ℤ) ∣ shift

section Sound

variable {a : Arguments} {shift : ℤ} {file : File K} (plan : Plan K)
  (windowFunction : WindowFunction K) (memory : ℕ → K)

theorem Sound.stftFromBuffer (h : Sound a shift file.frames file.channels) {buffer : Buffer K}
    (hcontains : buffer.Contains file) :
    ∃ data reads,
      stftFromBuffer plan windowFunction a memory shift buffer =
        some ({ pvbufferSlots (a.analysisFrames file.frames) file.channels a windowFunction with
          data := data }, reads) ∧
      ReadsSelected plan a memory file
        { pvbufferSlots (a.analysisFrames file.frames) file.channels a windowFunction with
          data := data } reads := by
  have hstop := a.stop_le file.frames
  rw [Stft.stftFromBuffer, hcontains.frames_eq, hcontains.channels_eq,
    makePvbuffer_of_accepted h.analysisFrames_ne h.channels_ne h.channels_le]
  refine ⟨_, _, rfl, ?_⟩
  apply readsSelected_of (bufferSource_yields buffer a.start _ _) trivial h.stop _ _ h.forgets
    h.shift rfl
  · intro chan hchan i hi
    rw [Buffer.value, hcontains.channels_eq, hcontains.data_eq _ (by omega) _ hchan]
  · intro chan i x hx
    rw [hcontains.channels_eq] at hx
    exact List.mem_singleton.mp hx

theorem Sound.stftFromSoundfile (h : Sound a shift file.frames file.channels) (bufferSize : ℕ)
    (cells : Cells K) :
    ∃ data reads,
      stftFromSoundfile plan windowFunction a memory shift bufferSize cells file =
        some ({ pvbufferSlots (a.analysisFrames file.frames) file.channels a windowFunction with
          data := data }, reads) ∧
      ReadsSelected plan a memory file
        { pvbufferSlots (a.analysisFrames file.frames) file.channels a windowFunction with
          data := data } reads := by
  have hstop := a.stop_le file.frames
  have hstart := h.stop
  have hmaxFrames : 0 < max 8192 bufferSize / file.channels := by
    have hmax := h.channels_le
    apply Nat.div_pos _ (Nat.pos_of_ne_zero h.channels_ne)
    rw [maximumChannelNumber] at hmax
    omega
  rw [Stft.stftFromSoundfile,
    makePvbuffer_of_accepted h.analysisFrames_ne h.channels_ne h.channels_le]
  refine ⟨_, _, rfl, ?_⟩
  apply readsSelected_of (soundfileSource_yields file hmaxFrames (by omega) _)
    (Soundfile.newStream_invariant file _ cells) h.stop _ _ h.forgets h.shift rfl
  · intro chan hchan i hi
    exact if_pos ⟨by omega, hchan⟩
  · intro chan i x hx
    split_ifs at hx
    · exact List.mem_singleton.mp hx
    · exact absurd hx List.not_mem_nil

theorem Sound.readsOnlyInput {frames channels : ℕ} (h : Sound a shift frames channels) :
    ReadsOnlyInput K a shift frames channels := by
  intro plan windowFunction memory file buffer bufferSize cells hframes hchannels hcontains
  subst hframes hchannels
  obtain ⟨data, reads, heq, hreads⟩ := h.stftFromBuffer plan windowFunction memory hcontains
  obtain ⟨data', reads', heq', hreads'⟩ :=
    h.stftFromSoundfile plan windowFunction memory bufferSize cells
  right
  refine ⟨_, reads, _, reads', heq, heq', hreads, hreads', ?_⟩
  intro chan hchan frame hframe i hi
  exact (hreads.frames chan hchan frame hframe i hi).trans
    (hreads'.frames chan hchan frame hframe i hi).symm

end Sound

end Incudine.Stft

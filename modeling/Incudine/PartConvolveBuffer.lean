import Incudine.PartConvolve

/-!
# Partitioned response

The buffer of the convolver contains the spectra of the zero-padded parts of all the samples that
are read from the first frame on. The first array of the first channel is rotated if a shift is
pending in the FFT.
-/

namespace Incudine.PartConvolve

open BlockConvolution FftStream

variable {K : Type*}

theorem bins_congr {size : ℕ} {a b : ℕ → K} (h : ∀ i < 2 * (size / 2 + 1), a i = b i) :
    bins size a = bins size b := by
  funext k
  have hk := k.isLt
  simp only [bins]
  rw [h _ (by omega), h _ (by omega)]

variable [Field K]

theorem bins_fftExecute {size : ℕ} (plan : FftPlan K size) (inbuf outbuf : ℕ → K) :
    bins size (fftExecute plan inbuf outbuf) = plan.forward fun j => inbuf j := by
  funext k
  have heven : 2 * (k : ℕ) / 2 = k := by omega
  have hodd : (2 * (k : ℕ) + 1) / 2 = k := by omega
  simp only [bins, fftExecute, heven, hodd, k.isLt, dif_pos]
  rw [if_pos (by omega), if_neg (by omega)]

/-- The samples that are read for a channel from the first frame on. -/
def response (buf : Buffer K) (after : ℕ → K) (start chan i : ℕ) : K :=
  buf.value after ((start + i) * buf.channels + chan)

def partitions (buf : Buffer K) (partsize : ℕ) (frames : Option ℕ) : ℕ :=
  ((match frames with
    | some frames => min frames buf.frames
    | none => buf.frames) + partsize - 1) / partsize

/-- The array that is transformed for a part: the pending shift is applied to the first one. -/
def partArray (partsize : ℕ) (shift : ℤ) (h : ℕ → ℕ → K) (chan p i : ℕ) : K :=
  padded partsize (part partsize (h chan) p)
    (if chan = 0 ∧ p = 0 then (((i : ℤ) - shift) % (2 * partsize : ℕ)).toNat else i)

/-- The spectra of the arrays of each channel. -/
structure Partitioned {partsize : ℕ} (plan : FftPlan K (2 * partsize)) (pvbuf : Stft.Pvbuffer K)
    (channels partitions : ℕ) (v : ℕ → ℕ → ℕ → K) : Prop where
  channels_eq : pvbuf.channels = channels
  frames_eq : pvbuf.frames = partitions
  fftSize_eq : pvbuf.fftSize = 2 * partsize
  blockSize_eq : pvbuf.blockSize = 2 * (2 * partsize / 2 + 1)
  size_eq : pvbuf.size = pvbuf.blockSize * partitions
  scaleFactor_eq : pvbuf.scaleFactor = 1 / (2 * partsize : ℕ)
  data_eq : ∀ ch < channels, ∀ p < partitions,
    bins (2 * partsize) (fun i => pvbuf.data ch (p * pvbuf.blockSize + i)) =
      plan.forward fun j => v ch p j

section History

variable {partsize items : ℕ}

omit [Field K] in
theorem range_part (h : ℕ → K) (partsize p : ℕ) :
    (List.range ((p + 1) * partsize)).map h =
      (List.range (p * partsize)).map h ++ (List.range partsize).map (part partsize h p) := by
  rw [Nat.succ_mul, List.range_add, List.map_append, List.map_map]
  rfl

theorem lastInputs_part (h : ℕ → ℕ → K) (partsize items chan p : ℕ) :
    lastInputs partsize (Stft.history items h chan ((p + 1) * partsize)) =
      (List.range partsize).map (part partsize (h chan) p) := by
  rw [Stft.history_eq, range_part, ← List.append_assoc, Stft.lastInputs_append _ (by simp)]
  simp [lastInputs]

theorem windowed_part (h : ℕ → ℕ → K) (partsize items chan p : ℕ) {i : ℕ} :
    (windowed (2 * partsize) partsize (fun _ => 1)
        (Stft.history items h chan ((p + 1) * partsize))).getD i 0 =
      padded partsize (part partsize (h chan) p) i := by
  rw [windowed_one, lastInputs_part, padded]
  simp only [List.getD_eq_getElem?_getD, List.getElem?_append, List.length_map, List.length_range,
    List.getElem?_replicate]
  split_ifs with hi hpad
  · simp [hi]
  · rfl
  · rfl

end History

section Make

variable {partsize : ℕ} (plan : FftPlan K (2 * partsize)) (hpartsize : 0 < partsize)
  (memory : ℕ → K) (shift : ℤ) (buf : Buffer K) (after : ℕ → K) (start : ℕ) {frames : Option ℕ}

theorem rotated_part (h : ℕ → ℕ → K) {pvbuf : Stft.Pvbuffer K} {items parts chan p i : ℕ}
    (hfft : pvbuf.zeroPhaseWindowP = false) (hp : p < parts) (hi : i < 2 * partsize) :
    (rotated (windowed (2 * partsize) partsize (fun _ => 1)
        (Stft.history items h chan ((p + 1) * partsize)))
      (Stft.frameShift pvbuf parts shift chan p)).getD i 0 = partArray partsize shift h chan p i := by
  have hlength := @length_windowed K _ _ _ (fun _ => 1)
    (Stft.history items h chan ((p + 1) * partsize)) (show partsize ≤ 2 * partsize by omega)
  have hin : i < (rotated (windowed (2 * partsize) partsize (fun _ => 1)
      (Stft.history items h chan ((p + 1) * partsize)))
        (Stft.frameShift pvbuf parts shift chan p)).length := by
    rw [rotated, List.length_rotate, hlength]
    exact hi
  have hfirst : chan * parts + p = 0 ↔ chan = 0 ∧ p = 0 := by
    rw [Nat.add_eq_zero_iff, Nat.mul_eq_zero]
    omega
  rw [List.getD_eq_getElem _ _ hin, getElem_rotated, hlength, windowed_part, partArray,
    Stft.frameShift, hfft, if_neg Bool.false_ne_true, Stft.pendingShift]
  congr 1
  by_cases hzero : chan = 0 ∧ p = 0
  · rw [if_pos (hfirst.mpr hzero), if_pos hzero]
  · rw [if_neg (fun h => hzero (hfirst.mp h)), if_neg hzero, sub_zero,
      CircularShift.toNat_emod_eq hi 0 (by omega)]

theorem makePartConvolveBuffer_partitioned
    (hchannels : buf.channels ≤ Stft.maximumChannelNumber + 1)
    (hparts : 0 < partitions buf partsize frames) :
    ∃ pvbuf, makePartConvolveBuffer plan hpartsize memory shift buf after start frames = some pvbuf ∧
      Partitioned plan pvbuf buf.channels (partitions buf partsize frames)
        (partArray partsize shift (response buf after start)) := by
  set a := partConvolveArguments hpartsize start frames
  set pvbuf : Stft.Pvbuffer K :=
    Stft.pvbufferSlots (partitions buf partsize frames) buf.channels a .rectangular with hpvbuf
  set source := Stft.bufferSource (buf.memory after) start
  set fft := Stft.makeFftFromPvbuffer pvbuf memory shift
  have hmake := @Stft.makePvbuffer_of_accepted K _ _ _ a .rectangular hparts.ne'
    buf.channels_pos.ne' hchannels
  obtain ⟨hdata, -⟩ := @Stft.stftLoop_spec K ℤ _ plan.toPlan source (partitions buf partsize frames)
    buf.channels a .rectangular memory shift _ _ _ _
    (Stft.bufferSource_yields (buf.memory after) start buf.channels _) 0 trivial pvbuf hpvbuf
  have hwindowSize : pvbuf.windowSize = partsize := if_neg (by simp only [a, partConvolveArguments]; omega)
  refine ⟨(Stft.stftLoop plan.toPlan source pvbuf (partitions buf partsize frames) 0 fft).1, ?_, rfl,
    rfl, rfl, rfl, rfl, rfl, fun ch hch p hp => ?_⟩
  · have hframes : a.analysisFrames (buf.memory after).frames = partitions buf partsize frames := rfl
    rw [makePartConvolveBuffer, Stft.stftFromBuffer, hframes]
    exact congrArg (fun pvbuf => (Option.map _ pvbuf).map Prod.fst) hmake
  · have hblock : bins (2 * partsize) (fun i =>
        (Stft.stftLoop plan.toPlan source pvbuf (partitions buf partsize frames) 0 fft).1.data ch
          (p * pvbuf.blockSize + i)) = bins (2 * partsize) (plan.toPlan.output (rotated
        (windowed (2 * partsize) partsize (fun _ => 1)
          (Stft.history (partitions buf partsize frames * partsize) (response buf after start) ch
            ((p + 1) * partsize)))
        (Stft.frameShift pvbuf (partitions buf partsize frames) shift ch p))) := by
      refine bins_congr fun i hi => (hdata ch hch p hp i hi).trans ?_
      rw [Stft.block, hwindowSize]
      rfl
    rw [FftPlan.toPlan, bins_fftExecute] at hblock
    refine hblock.trans (congrArg plan.forward ?_)
    funext j
    exact rotated_part shift (response buf after start) rfl hp j.isLt

theorem makePartConvolveBuffer_of_lt (hchannels : Stft.maximumChannelNumber + 1 < buf.channels) :
    makePartConvolveBuffer plan hpartsize memory shift buf after start frames = none := by
  have hchannels' : Stft.maximumChannelNumber + 1 < (buf.memory after).channels := hchannels
  rw [makePartConvolveBuffer, Stft.stftFromBuffer,
    Stft.makePvbuffer_of_refused (.inr (.inr hchannels'))]
  rfl

end Make

end Incudine.PartConvolve

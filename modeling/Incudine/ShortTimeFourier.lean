import Incudine.FftInput
import Incudine.FrameMemory
import Incudine.SoundfileFrames

/-!
# Short-time Fourier transform

`stft` reads the hops of a part of a buffer or of a sound file. The number of the hops is rounded up
without the offset of the part, and all the channels are analysed with the same FFT.
-/

namespace Incudine.Stft

open FftStream
open ForeignMemory (dotimes ringInputBufferPut dotimes_update_add dotimes_update_of_not)
open Soundfile (File)

variable {K σ : Type*} [Field K]

structure Arguments where
  fftSize : ℕ
  windowSize : ℕ
  hopSize : ℕ
  start : ℕ
  frames : Option ℕ
  normalizedP : Bool
  zeroPhaseWindowP : Bool
  fftSize_pos : 0 < fftSize
  windowSize_pos : 0 < windowSize
  hopSize_pos : 0 < hopSize

/-- The object that is read: what precedes a channel, and the next value of a channel with the
samples of the input that are read, counted from the first sample of the first frame. -/
structure Source (σ K : Type*) where
  rewind : σ → σ
  next : ℕ → σ → K × List ℕ × σ

structure Buffer (K : Type*) where
  frames : ℕ
  channels : ℕ
  data : ℕ → K

def Buffer.value (buffer : Buffer K) (index : ℕ) : K := buffer.data index

/-- The variable `j` is the index of the frame before the next one. -/
def bufferSource (buffer : Buffer K) (start : ℕ) : Source ℤ K where
  rewind _ := buffer.channels * ((start : ℤ) - 1)
  next chan j :=
    let j := j + buffer.channels
    let index := (j + chan).toNat
    (buffer.value index, [index], j)

/-- A stream reads a frame of the file if it is not at the end. -/
def soundfileSource (file : File K) (maxFrames start : ℕ) : Source (Soundfile.Stream K) K where
  rewind s := Soundfile.setPosition file s start
  next chan s :=
    let (value, s') := Soundfile.readNext file maxFrames s chan false true
    (value, if s.currFrame < file.frames then [s.currFrame * file.channels + chan] else [], s')

structure Pvbuffer (K : Type*) where
  data : ℕ → ℕ → K
  size : ℕ
  frames : ℕ
  channels : ℕ
  fftSize : ℕ
  scaleFactor : K
  blockSize : ℕ
  windowSize : ℕ
  windowFunction : WindowFunction K
  hopSize : ℕ
  normalizedP : Bool
  zeroPhaseWindowP : Bool

def maximumChannelNumber : ℕ := 1023

/-- The slots of a new structure, with the flag for the zero phase window. -/
def pvbufferSlots (frames channels : ℕ) (a : Arguments) (windowFunction : WindowFunction K) :
    Pvbuffer K :=
  let windowSize := if a.fftSize < a.windowSize then a.fftSize else a.windowSize
  let blockSize := 2 * (a.fftSize / 2 + 1)
  { data := fun _ _ => 0
    size := blockSize * frames
    frames := frames
    channels := channels
    fftSize := a.fftSize
    scaleFactor := if a.normalizedP then 1 else 1 / a.fftSize
    blockSize := blockSize
    windowSize := windowSize
    windowFunction := windowFunction
    hopSize := a.hopSize
    normalizedP := a.normalizedP
    zeroPhaseWindowP := a.zeroPhaseWindowP }

/-- The declared types of `make-pvbuffer` and `alloc-multi-channel-data` refuse some numbers of
channels and the size zero. -/
def makePvbuffer (frames channels : ℕ) (a : Arguments) (windowFunction : WindowFunction K) :
    Option (Pvbuffer K) :=
  let pvbuf := pvbufferSlots frames channels a windowFunction
  if channels = 0 ∨ maximumChannelNumber + 1 < channels ∨ pvbuf.size = 0 then none else some pvbuf

def makeFftFromPvbuffer (pvbuf : Pvbuffer K) (memory : ℕ → K) (shift : ℤ) : FftCommon K :=
  makeFft pvbuf.fftSize pvbuf.windowSize (some pvbuf.windowFunction) memory shift

structure LoopState (σ K : Type*) where
  source : σ
  fft : FftCommon K
  data : ℕ → ℕ → K
  reads : List ℕ

section Loop

variable (plan : Plan K) (src : Source σ K) (pvbuf : Pvbuffer K) (frames : ℕ)

/-- A value of the source is put into the ring buffer of the FFT. -/
def inputSample (chan : ℕ) (s : LoopState σ K) : LoopState σ K :=
  let (value, reads, source) := src.next chan s.source
  { s with
    source := source
    fft := setFftInput s.fft value
    reads := s.reads ++ reads }

def scaled (value : K) : K := if pvbuf.normalizedP then pvbuf.scaleFactor * value else value

def storeBlock (frame : ℕ) (output data : ℕ → K) : ℕ → K :=
  dotimes (fun i d => Function.update d (frame * pvbuf.blockSize + i) (scaled pvbuf (output i)))
    pvbuf.blockSize data

/-- The transform is computed because there is a new input. -/
def analysisFrame (chan frame : ℕ) (s : LoopState σ K) : LoopState σ K :=
  let s := dotimes (fun _ => inputSample src chan) pvbuf.hopSize s
  let fft :=
    if pvbuf.zeroPhaseWindowP then circularShift s.fft (-(pvbuf.windowSize / 2 : ℕ)) else s.fft
  let fft := computeFft plan fft
  { s with
    fft := fft
    data := Function.update s.data chan (storeBlock pvbuf frame fft.outputBuffer (s.data chan)) }

def analysisChannel (chan : ℕ) (s : LoopState σ K) : LoopState σ K :=
  dotimes (analysisFrame plan src pvbuf chan) frames { s with source := src.rewind s.source }

/-- The data and the samples of the input that are read. -/
def stftLoop (source : σ) (fft : FftCommon K) : Pvbuffer K × List ℕ :=
  let s := dotimes (analysisChannel plan src pvbuf frames) pvbuf.channels
    { source := source, fft := fft, data := pvbuf.data, reads := [] }
  ({ pvbuf with data := s.data }, s.reads)

end Loop

def Arguments.inputFrames (a : Arguments) (length : ℕ) : ℕ :=
  match a.frames with
  | some frames => min frames length
  | none => length

def Arguments.analysisFrames (a : Arguments) (length : ℕ) : ℕ :=
  (a.inputFrames length + a.hopSize - 1) / a.hopSize

section Stft

variable (plan : Plan K) (windowFunction : WindowFunction K) (a : Arguments) (memory : ℕ → K)
  (shift : ℤ)

def stftFromBuffer (buffer : Buffer K) : Option (Pvbuffer K × List ℕ) :=
  let frames := a.analysisFrames buffer.frames
  (makePvbuffer frames buffer.channels a windowFunction).map fun pvbuf =>
    stftLoop plan (bufferSource buffer a.start) pvbuf frames 0
      (makeFftFromPvbuffer pvbuf memory shift)

/-- The buffer of the stream has whole frames. -/
def stftFromSoundfile (bufferSize : ℕ) (cells : Cells K) (file : File K) :
    Option (Pvbuffer K × List ℕ) :=
  let maxFrames := max 8192 bufferSize / file.channels
  let frames := a.analysisFrames file.frames
  (makePvbuffer frames file.channels a windowFunction).map fun pvbuf =>
    stftLoop plan (soundfileSource file maxFrames a.start) pvbuf frames (Soundfile.newStream cells)
      (makeFftFromPvbuffer pvbuf memory shift)

end Stft

/-- The values and the accesses of a source for the items of the channels. -/
structure Yields (src : Source σ K) (channels items : ℕ) (Valid : σ → Prop) (At : ℕ → σ → Prop)
    (value : ℕ → ℕ → K) (accesses : ℕ → ℕ → List ℕ) : Prop where
  rewind : ∀ {s}, Valid s → At 0 (src.rewind s)
  valid : ∀ {n s}, At n s → Valid s
  next : ∀ {chan n s}, chan < channels → n < items → At n s →
    (src.next chan s).1 = value chan n ∧ (src.next chan s).2.1 = accesses chan n ∧
      At (n + 1) (src.next chan s).2.2

omit [Field K] in
theorem bufferSource_yields (buffer : Buffer K) (start channels items : ℕ) :
    Yields (bufferSource buffer start) channels items (fun _ => True)
      (fun n j => j = buffer.channels * ((start + n : ℕ) - 1 : ℤ))
      (fun chan n => buffer.value ((start + n) * buffer.channels + chan))
      (fun chan n => [(start + n) * buffer.channels + chan]) := by
  constructor
  · intro s _
    simp [bufferSource]
  · intro n s _
    trivial
  · intro chan n s _ _ hs
    have hnext : s + buffer.channels = ((start + n) * buffer.channels : ℕ) := by
      rw [hs]
      push_cast
      ring
    have hindex : (s + buffer.channels + chan).toNat = (start + n) * buffer.channels + chan := by
      rw [hnext]
      omega
    refine ⟨?_, ?_, ?_⟩
    · simp only [bufferSource, hindex]
    · simp only [bufferSource, hindex]
    · simp only [bufferSource, hnext]
      push_cast
      ring

theorem soundfileSource_yields (file : File K) {maxFrames start : ℕ} (hmax : 0 < maxFrames)
    (hstart : start ≤ file.frames) (items : ℕ) :
    Yields (soundfileSource file maxFrames start) file.channels items
      (Soundfile.Invariant file maxFrames)
      (fun n s => Soundfile.Invariant file maxFrames s ∧ s.currFrame = min (start + n) file.frames)
      (fun chan n => file.value (start + n) chan)
      (fun chan n =>
        if start + n < file.frames then [(start + n) * file.channels + chan] else []) := by
  constructor
  · intro s hs
    refine ⟨hs.setPosition hstart, ?_⟩
    show (Soundfile.setPosition file s start).currFrame = _
    rw [Soundfile.setPosition_of_le hstart, Nat.add_zero, Nat.min_eq_left hstart]
  · intro n s hs
    exact hs.1
  · rintro chan n s hchan _ ⟨hs, hcurr⟩
    obtain ⟨hvalue, hinv, hmove⟩ := hs.readForward hmax chan false
    have hnext : Soundfile.readNext file maxFrames s chan false true =
        Soundfile.readForward file maxFrames s chan false := rfl
    simp only [soundfileSource, hnext]
    refine ⟨?_, ?_, hinv, ?_⟩
    · rw [hvalue, hcurr]
      by_cases hin : start + n < file.frames
      · rw [Nat.min_eq_left (by omega)]
      · rw [Nat.min_eq_right (by omega), Soundfile.File.value_of_le le_rfl,
          Soundfile.File.value_of_le (by omega)]
    · by_cases hin : start + n < file.frames
      · rw [hcurr, Nat.min_eq_left (by omega)]
      · rw [hcurr, Nat.min_eq_right (by omega), if_neg (lt_irrefl _), if_neg hin]
    · rw [hmove, if_pos hchan, Soundfile.File.move, hcurr]
      simp only [Bool.false_eq_true, if_false, if_true]
      omega

def block (plan : Plan K) (pvbuf : Pvbuffer K) (window : ℕ → K) (inputs : List K) (shift : ℤ)
    (i : ℕ) : K :=
  scaled pvbuf
    (plan.output (rotated (windowed pvbuf.fftSize pvbuf.windowSize window inputs) shift) i)

def windowHalfSize (pvbuf : Pvbuffer K) : ℤ := -(pvbuf.windowSize / 2 : ℕ)

/-- The items of the channels before a channel and the first ones of the channel. -/
def upTo {β : Type*} (items : ℕ) (g : ℕ → ℕ → List β) (chan n : ℕ) : List β :=
  (List.range chan).flatMap (fun c => (List.range items).flatMap (g c)) ++
    (List.range n).flatMap (g chan)

section UpTo

variable {β : Type*} {items chan n : ℕ} {g : ℕ → ℕ → List β}

theorem upTo_succ (chan n : ℕ) : upTo items g chan (n + 1) = upTo items g chan n ++ g chan n := by
  simp [upTo, List.range_succ]

theorem upTo_channel (chan : ℕ) : upTo items g (chan + 1) 0 = upTo items g chan items := by
  simp [upTo, List.range_succ]

end UpTo

/-- The inputs of the FFT up to an item of a channel. -/
abbrev history (items : ℕ) (value : ℕ → ℕ → K) : ℕ → ℕ → List K :=
  upTo items fun chan i => [value chan i]

/-- The shift of the next transform without a zero phase window. -/
def pendingShift (frames : ℕ) (shift : ℤ) (chan frame : ℕ) : ℤ :=
  if chan * frames + frame = 0 then shift else 0

def frameShift (pvbuf : Pvbuffer K) (frames : ℕ) (shift : ℤ) (chan frame : ℕ) : ℤ :=
  if pvbuf.zeroPhaseWindowP then windowHalfSize pvbuf else pendingShift frames shift chan frame

/-- The loop after some inputs of a channel. -/
structure Loaded (pvbuf : Pvbuffer K) (k items : ℕ) (At : ℕ → σ → Prop) (value : ℕ → ℕ → K)
    (accesses : ℕ → ℕ → List ℕ) (window : ℕ → K) (chan n : ℕ) (s : LoopState σ K) : Prop where
  source : At n s.source
  ring : Remembers s.fft.ringBuffer (2 ^ k) (history items value chan n)
  reads : s.reads = upTo items accesses chan n
  size : s.fft.size = pvbuf.fftSize
  windowSize : s.fft.windowSize = pvbuf.windowSize
  window : s.fft.window = window

/-- The loop after some frames of a channel. -/
structure Progress (plan : Plan K) (pvbuf : Pvbuffer K) (frames k : ℕ) (At : ℕ → σ → Prop)
    (value : ℕ → ℕ → K) (accesses : ℕ → ℕ → List ℕ) (window : ℕ → K) (shift : ℤ)
    (chan frame : ℕ) (s : LoopState σ K) : Prop where
  loaded : Loaded pvbuf k (frames * pvbuf.hopSize) At value accesses window chan
    (frame * pvbuf.hopSize) s
  pending : s.fft.shift = pendingShift frames shift chan frame
  data : ∀ c k, (c < chan ∧ k < frames) ∨ (c = chan ∧ k < frame) → ∀ i < pvbuf.blockSize,
    s.data c (k * pvbuf.blockSize + i) =
      block plan pvbuf window
        (history (frames * pvbuf.hopSize) value c ((k + 1) * pvbuf.hopSize))
        (frameShift pvbuf frames shift c k) i

section Runs

variable {plan : Plan K} {src : Source σ K} {pvbuf : Pvbuffer K} {frames items channels k : ℕ}
  {Valid : σ → Prop} {At : ℕ → σ → Prop} {value : ℕ → ℕ → K} {accesses : ℕ → ℕ → List ℕ}
  {window : ℕ → K} {shift : ℤ} {chan frame n : ℕ} {s : LoopState σ K}

omit [Field K] in
@[simp] theorem inputSample_data : (inputSample src chan s).data = s.data := rfl

omit [Field K] in
@[simp] theorem inputSample_shift : (inputSample src chan s).fft.shift = s.fft.shift := rfl

section

variable (h : Loaded pvbuf k items At value accesses window chan n s)
  (hsrc : Yields src channels items Valid At value accesses) (hchan : chan < channels)
include h hsrc hchan

theorem Loaded.input (hn : n < items) :
    Loaded pvbuf k items At value accesses window chan (n + 1) (inputSample src chan s) := by
  obtain ⟨hvalue, hreads, hnext⟩ := hsrc.next hchan hn h.source
  constructor
  · exact hnext
  · have hput := h.ring.put (src.next chan s.source).1
    rw [hvalue] at hput
    rw [history, upTo_succ]
    show Remembers (ringInputBufferPut (src.next chan s.source).1 s.fft.ringBuffer) _ _
    rw [hvalue]
    exact hput
  · rw [upTo_succ, ← h.reads, ← hreads]
    rfl
  · exact h.size
  · exact h.windowSize
  · exact h.window

theorem Loaded.hop :
    ∀ m, n + m ≤ items →
      Loaded pvbuf k items At value accesses window chan (n + m)
          (dotimes (fun _ => inputSample src chan) m s) ∧
        (dotimes (fun _ => inputSample src chan) m s).data = s.data ∧
        (dotimes (fun _ => inputSample src chan) m s).fft.shift = s.fft.shift := by
  intro m
  induction m with
  | zero =>
    intro _
    exact ⟨h, rfl, rfl⟩
  | succ m ih =>
    intro hm
    obtain ⟨hloaded, hdata, hshift⟩ := ih (by omega)
    exact ⟨hloaded.input hsrc hchan (by omega), hdata, hshift⟩

end

theorem storeBlock_other {output data : ℕ → K} {k i : ℕ} (hk : k < frame)
    (hi : i < pvbuf.blockSize) :
    storeBlock pvbuf frame output data (k * pvbuf.blockSize + i) =
      data (k * pvbuf.blockSize + i) := by
  apply dotimes_update_of_not
  left
  have hmul := Nat.mul_le_mul_right pvbuf.blockSize hk
  rw [Nat.succ_mul] at hmul
  omega

theorem pendingShift_succ (chan frame : ℕ) : pendingShift frames shift chan (frame + 1) = 0 :=
  if_neg (by omega)

theorem pendingShift_channel (chan : ℕ) :
    pendingShift frames shift (chan + 1) 0 = pendingShift frames shift chan frames := by
  rw [pendingShift, pendingShift, Nat.succ_mul, Nat.add_zero]

variable (hsrc : Yields src channels (frames * pvbuf.hopSize) Valid At value accesses)
  (hwindow : pvbuf.windowSize ≤ pvbuf.fftSize) (hsize : pvbuf.fftSize ≤ 2 ^ k)
include hsrc hwindow hsize

theorem Progress.analysisFrame
    (h : Progress plan pvbuf frames k At value accesses window shift chan frame s)
    (hchan : chan < channels) (hframe : frame < frames) :
    Progress plan pvbuf frames k At value accesses window shift chan (frame + 1)
      (analysisFrame plan src pvbuf chan frame s) := by
  have hitems : frame * pvbuf.hopSize + pvbuf.hopSize ≤ frames * pvbuf.hopSize := by
    rw [← Nat.succ_mul]
    exact Nat.mul_le_mul_right _ hframe
  obtain ⟨hloaded, hdata, hshift⟩ := h.loaded.hop hsrc hchan pvbuf.hopSize hitems
  set t := dotimes (fun _ => inputSample src chan) pvbuf.hopSize s with ht
  rw [← Nat.succ_mul] at hloaded
  set fft := if pvbuf.zeroPhaseWindowP then circularShift t.fft (-(pvbuf.windowSize / 2 : ℕ))
    else t.fft with hfft
  have hstate : fft.size = t.fft.size ∧ fft.windowSize = t.fft.windowSize ∧
      fft.window = t.fft.window ∧ fft.ringBuffer = t.fft.ringBuffer ∧
      fft.shift = frameShift pvbuf frames shift chan frame := by
    rw [hfft, frameShift]
    split_ifs
    · exact ⟨rfl, rfl, rfl, rfl, rfl⟩
    · exact ⟨rfl, rfl, rfl, rfl, hshift.trans h.pending⟩
  obtain ⟨hfftSize, hfftWindowSize, hfftWindow, hfftRing, hfftShift⟩ := hstate
  have hring := hloaded.ring
  rw [← hfftRing] at hring
  have harray := array_fftArray hring
    (by rw [hfftSize, hfftWindowSize, hloaded.size, hloaded.windowSize]; exact hwindow)
    (by rw [hfftSize, hloaded.size]; exact hsize)
  rw [hfftSize, hfftWindowSize, hfftWindow, hloaded.size, hloaded.windowSize, hloaded.window,
    hfftShift] at harray
  have houtput : (computeFft plan fft).outputBuffer =
      plan.output (rotated (windowed pvbuf.fftSize pvbuf.windowSize window
        (history (frames * pvbuf.hopSize) value chan ((frame + 1) * pvbuf.hopSize)))
        (frameShift pvbuf frames shift chan frame)) := by
    rw [← harray, ← hloaded.size, ← hfftSize]
    rfl
  constructor
  · refine ⟨hloaded.source, hring, hloaded.reads, ?_, ?_, ?_⟩
    · exact hfftSize.trans hloaded.size
    · exact hfftWindowSize.trans hloaded.windowSize
    · exact hfftWindow.trans hloaded.window
  · exact (pendingShift_succ chan frame).symm
  · intro c n hcn i hi
    show Function.update t.data chan (storeBlock pvbuf frame (computeFft plan fft).outputBuffer
      (t.data chan)) c (n * pvbuf.blockSize + i) = _
    by_cases hc : c = chan
    · subst hc
      rw [Function.update_self]
      by_cases hn : n = frame
      · subst hn
        rw [storeBlock, dotimes_update_add _ _ _ hi, houtput]
        rfl
      · rw [storeBlock_other (by omega) hi, hdata]
        exact h.data c n (by omega) i hi
    · rw [Function.update_of_ne hc, hdata]
      exact h.data c n (by omega) i hi

theorem Progress.analysisFrames
    (h : Progress plan pvbuf frames k At value accesses window shift chan 0 s)
    (hchan : chan < channels) :
    ∀ n ≤ frames, Progress plan pvbuf frames k At value accesses window shift chan n
      (dotimes (Stft.analysisFrame plan src pvbuf chan) n s) := by
  intro n
  induction n with
  | zero =>
    intro _
    exact h
  | succ n ih =>
    intro hn
    exact (ih (by omega)).analysisFrame hsrc hwindow hsize hchan hn

omit hwindow hsize in
theorem Progress.rewind
    (h : Progress plan pvbuf frames k At value accesses window shift chan frames s) :
    Progress plan pvbuf frames k At value accesses window shift (chan + 1) 0
      { s with source := src.rewind s.source } := by
  constructor
  · rw [Nat.zero_mul]
    constructor
    · exact hsrc.rewind (hsrc.valid h.loaded.source)
    · rw [history, upTo_channel]
      exact h.loaded.ring
    · rw [upTo_channel]
      exact h.loaded.reads
    · exact h.loaded.size
    · exact h.loaded.windowSize
    · exact h.loaded.window
  · rw [pendingShift_channel]
    exact h.pending
  · intro c n hcn i hi
    exact h.data c n (by omega) i hi

theorem Progress.analysisChannels
    (h : Progress plan pvbuf frames k At value accesses window shift 0 0
      { s with source := src.rewind s.source }) :
    ∀ n ≤ channels, Progress plan pvbuf frames k At value accesses window shift n 0
      { dotimes (analysisChannel plan src pvbuf frames) n s with
        source := src.rewind (dotimes (analysisChannel plan src pvbuf frames) n s).source } := by
  intro n
  induction n with
  | zero =>
    intro _
    exact h
  | succ n ih =>
    intro hn
    have hframes := (ih (by omega)).analysisFrames hsrc hwindow hsize hn frames le_rfl
    exact hframes.rewind hsrc

end Runs

section Results

variable {plan : Plan K} {src : Source σ K} {frames channels : ℕ} {a : Arguments}
  {windowFunction : WindowFunction K} {memory : ℕ → K} {shift : ℤ}
  {Valid : σ → Prop} {At : ℕ → σ → Prop} {value : ℕ → ℕ → K} {accesses : ℕ → ℕ → List ℕ}

theorem block_congr (plan : Plan K) (pvbuf : Pvbuffer K) {window window' : ℕ → K}
    (h : ∀ i < pvbuf.windowSize, window i = window' i) :
    block plan pvbuf window = block plan pvbuf window' := by
  funext inputs shift i
  rw [block, block, windowed_congr h]

theorem pvbufferSlots_windowSize :
    0 < (pvbufferSlots frames channels a windowFunction).windowSize ∧
      (pvbufferSlots frames channels a windowFunction).windowSize ≤
        (pvbufferSlots frames channels a windowFunction).fftSize := by
  have hfft := a.fftSize_pos
  have hwin := a.windowSize_pos
  simp only [pvbufferSlots]
  split_ifs <;> omega

theorem stftLoop_spec (hsrc : Yields src channels (frames * a.hopSize) Valid At value accesses)
    {source : σ} (hvalid : Valid source) {pvbuf : Pvbuffer K}
    (hpvbuf : pvbuf = pvbufferSlots frames channels a windowFunction) :
    (∀ chan < channels, ∀ frame < frames, ∀ i < pvbuf.blockSize,
      (stftLoop plan src pvbuf frames source (makeFftFromPvbuffer pvbuf memory shift)).1.data chan
          (frame * pvbuf.blockSize + i) =
        block plan pvbuf (windowValues (some windowFunction) memory pvbuf.windowSize)
          (history (frames * a.hopSize) value chan ((frame + 1) * a.hopSize))
          (frameShift pvbuf frames shift chan frame) i) ∧
      (stftLoop plan src pvbuf frames source (makeFftFromPvbuffer pvbuf memory shift)).2 =
        upTo (frames * a.hopSize) accesses channels 0 := by
  obtain ⟨hpos, hle⟩ : 0 < pvbuf.windowSize ∧ pvbuf.windowSize ≤ pvbuf.fftSize := by
    rw [hpvbuf]
    exact pvbufferSlots_windowSize
  have hhop : pvbuf.hopSize = a.hopSize := by rw [hpvbuf]; rfl
  have hchannels : pvbuf.channels = channels := by rw [hpvbuf]; rfl
  have hfunction : pvbuf.windowFunction = windowFunction := by rw [hpvbuf]; rfl
  have hclamp : ¬ (pvbuf.windowSize = 0 ∨ pvbuf.fftSize < pvbuf.windowSize) := by omega
  set fft := makeFftFromPvbuffer pvbuf memory shift with hfft
  set s : LoopState σ K := ⟨source, fft, pvbuf.data, []⟩ with hs
  rw [← hhop] at hsrc ⊢
  have hring : Remembers fft.ringBuffer (2 ^ (pvbuf.fftSize - 1).size) [] := by
    rw [← FunctionFifo.nextPowerOfTwo_eq]
    exact remembers_nil _
  have hstart : Progress plan pvbuf frames (pvbuf.fftSize - 1).size At value accesses fft.window
      shift 0 0 { s with source := src.rewind s.source } := by
    constructor
    · rw [Nat.zero_mul]
      exact ⟨hsrc.rewind hvalid, hring, rfl, rfl, if_neg hclamp, rfl⟩
    · simp [pendingShift, hs, hfft, makeFftFromPvbuffer, makeFft]
    · intro c n hcn
      omega
  have hend := hstart.analysisChannels hsrc hle (CircularArray.le_two_pow_size_pred _) channels le_rfl
  have hwindow : ∀ i < pvbuf.windowSize, fft.window i =
      windowValues (some windowFunction) memory pvbuf.windowSize i := by
    intro i hi
    rw [← hfunction]
    exact makeFft_window hpos hle (some pvbuf.windowFunction) memory shift hi
  constructor
  · intro chan hchan frame hframe i hi
    rw [← block_congr plan pvbuf hwindow, ← hend.data chan frame (.inl ⟨hchan, hframe⟩) i hi,
      ← hchannels]
    rfl
  · have hreads := hend.loaded.reads
    rw [Nat.zero_mul, ← hchannels] at hreads
    rw [← hchannels]
    exact hreads

end Results

end Incudine.Stft

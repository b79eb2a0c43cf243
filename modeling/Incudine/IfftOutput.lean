import Incudine.FftInput
import Mathlib.Algebra.BigOperators.Group.List.Basic
import Mathlib.Algebra.Field.Rat

/-!
# Output of an inverse FFT

The windowed results of the inverse transforms are added to a ring buffer from the position of the
next output. An output is cleared when it is read, so the frames overlap for any number of outputs
between the transforms.
-/

namespace Incudine.FftStream

open CircularArray CircularShift ForeignMemory Function

variable {K : Type*} [Field K]

def accumulate (dest : ℕ → K) (offset : ℕ) (src : ℕ → K) (start items : ℕ) : ℕ → K :=
  forEach (fun i x => x + src (start + i)) offset items dest

def copyToRingOutputBuffer (ringBuffer src : ℕ → K) (bufsize readOffset items : ℕ) : ℕ → K :=
  let last := bufsize - readOffset
  if bufsize ≤ items then
    accumulate (accumulate ringBuffer readOffset src 0 last) 0 src last readOffset
  else if items ≤ last then accumulate ringBuffer readOffset src 0 items
  else if readOffset = 0 then accumulate ringBuffer 0 src 0 items
  else
    let os2 := bufsize - readOffset
    let os1 := items - os2
    accumulate (accumulate ringBuffer readOffset src 0 os2) 0 src os2 os1

def ringOutputBufferNext (buf : RingBuffer K) : K × RingBuffer K :=
  (buf.data buf.head,
    { buf with
      data := update buf.data buf.head 0
      head := (buf.head + 1) &&& (buf.size - 1) })

/-- An abuffer that is updated and contains complex data. -/
structure Abuffer (K : Type*) where
  data : ℕ → K
  normalizedP : Bool
  scaleFactor : K

def applyScaledWindow (buf win : ℕ → K) (winsize : ℕ) (mult : K) : ℕ → K :=
  forEach (fun i x => x * (win i * mult)) 0 winsize buf

def applyScaledRectwin (buf : ℕ → K) (winsize : ℕ) (mult : K) : ℕ → K :=
  forEach (fun _ x => x * mult) 0 winsize buf

def ifftApplyWindow (obj : FftCommon K) (abuf : Option (Abuffer K)) (outbuf : ℕ → K) : ℕ → K :=
  match abuf with
  | none => applyFftWindow obj outbuf
  | some abuf =>
    if abuf.normalizedP then applyFftWindow obj outbuf
    else
      match obj.windowFunction with
      | some .rectangular => applyScaledRectwin outbuf obj.windowSize abuf.scaleFactor
      | _ => applyScaledWindow outbuf obj.windowBuffer obj.windowSize abuf.scaleFactor

def makeIfft (size windowSize : ℕ) (windowFunction : Option (WindowFunction K))
    (memory : ℕ → K) (shift : ℤ) : FftCommon K :=
  makeFft size windowSize windowFunction memory shift

def ifftInputBufferSize (obj : FftCommon K) : ℕ := 2 * (1 + obj.size / 2)

def ifftArray (obj : FftCommon K) (abuffer : Option (Abuffer K)) : ℕ → K :=
  match abuffer with
  | none => obj.inputBuffer
  | some abuffer => memcpy obj.inputBuffer 0 abuffer.data 0 (ifftInputBufferSize obj)

def computeIfft (plan : Plan K) (obj : FftCommon K) (abuffer : Option (Abuffer K)) :
    FftCommon K :=
  let inbuf := array (ifftInputBufferSize obj) (ifftArray obj abuffer)
  let outbuf := plan.output inbuf
  let outbuf :=
    if obj.shift ≠ 0 then foreignCircularShift outbuf obj.size obj.shift else outbuf
  let outbuf := ifftApplyWindow obj abuffer outbuf
  let outbuf := applyZeroPadding outbuf obj.windowSize obj.size
  let ring := obj.ringBuffer
  { obj with
    inputBuffer := plan.input inbuf
    outputBuffer := outbuf
    ringBuffer :=
      { ring with data := copyToRingOutputBuffer ring.data outbuf ring.size ring.head obj.size }
    shift := 0 }

def ifftOutput (ifft : FftCommon K) : K × FftCommon K :=
  let (value, ring) := ringOutputBufferNext ifft.ringBuffer
  (value, { ifft with ringBuffer := ring })

/-- The circular shift is before the window. -/
inductive IfftOp (K : Type*) where
  | input (values : ℕ → K)
  | circularShift (n : ℤ)
  | compute (abuffer : Option (Abuffer K))
  | output

def ifftOutputs (plan : Plan K) : List (IfftOp K) → FftCommon K → List K
  | [], _ => []
  | .input values :: ops, obj => ifftOutputs plan ops { obj with inputBuffer := values }
  | .circularShift n :: ops, obj => ifftOutputs plan ops (circularShift obj n)
  | .compute abuffer :: ops, obj => ifftOutputs plan ops (computeIfft plan obj abuffer)
  | .output :: ops, obj => (ifftOutput obj).1 :: ifftOutputs plan ops (ifftOutput obj).2

/-- A result with the number of the outputs before it. -/
structure Frame (K : Type*) where
  time : ℕ
  values : ℕ → K

def overlapped (size : ℕ) (frames : List (Frame K)) (k : ℕ) : K :=
  (frames.map fun frame =>
    if frame.time ≤ k ∧ k < frame.time + size then frame.values (k - frame.time) else 0).sum

def scale (abuffer : Option (Abuffer K)) : K :=
  match abuffer with
  | none => 1
  | some abuffer => if abuffer.normalizedP then 1 else abuffer.scaleFactor

def windowedResult (size windowSize : ℕ) (window : ℕ → K) (mult : K) (result : ℕ → K)
    (pending : ℤ) (i : ℕ) : K :=
  if i < windowSize then result (((i : ℤ) - pending) % size).toNat * (window i * mult) else 0

def expectedOutputs (plan : Plan K) (size windowSize : ℕ) (window : ℕ → K) :
    List (IfftOp K) → List (Frame K) → ℕ → (ℕ → K) → ℤ → List K
  | [], _, _, _, _ => []
  | .input values :: ops, frames, k, _, pending =>
    expectedOutputs plan size windowSize window ops frames k values pending
  | .circularShift n :: ops, frames, k, input, _ =>
    expectedOutputs plan size windowSize window ops frames k input n
  | .compute abuffer :: ops, frames, k, input, pending =>
    let inbuf := array (2 * (1 + size / 2)) ((abuffer.map Abuffer.data).getD input)
    let values := windowedResult size windowSize window (scale abuffer) (plan.output inbuf) pending
    expectedOutputs plan size windowSize window ops (frames ++ [⟨k, values⟩]) k (plan.input inbuf) 0
  | .output :: ops, frames, k, input, pending =>
    overlapped size frames k ::
      expectedOutputs plan size windowSize window ops frames (k + 1) input pending

variable {bufsize : ℕ}

section RingOutput

variable {size k i : ℕ} {frames : List (Frame K)}

theorem accumulate_apply (dest : ℕ → K) (offset : ℕ) (src : ℕ → K) (start items i : ℕ) :
    accumulate dest offset src start items i =
      if offset ≤ i ∧ i < offset + items then dest i + src (start + (i - offset)) else dest i :=
  forEach_apply _ _ _ _ _

theorem accumulate_wrapped (ring src : ℕ → K) {right left : ℕ} (k : ℕ)
    (hright : k % bufsize + right ≤ bufsize)
    (hleft : left = 0 ∨ k % bufsize + right = bufsize ∧ right + left ≤ bufsize) (hi : i < bufsize) :
    accumulate (accumulate ring (k % bufsize) src 0 right) 0 src right left ((k + i) % bufsize) =
      ring ((k + i) % bufsize) + if i < right + left then src i else 0 := by
  have hslot := @slot_add bufsize k i hi
  have hhead := Nat.mod_lt k (Nat.zero_lt_of_lt hi)
  have hmod := Nat.mod_lt (k + i) (Nat.zero_lt_of_lt hi)
  simp only [accumulate_apply]
  by_cases hwrap : (k + i) % bufsize < left
  · have hsrc : right + ((k + i) % bufsize - 0) = i := by omega
    rw [if_pos (by omega), if_neg (by omega), if_pos (by omega), hsrc]
  rw [if_neg (by omega)]
  by_cases hin : i < right
  · have hsrc : 0 + ((k + i) % bufsize - k % bufsize) = i := by omega
    rw [if_pos (by omega), if_pos (by omega), hsrc]
  · rw [if_neg (by omega), if_neg (by omega), add_zero]

theorem copyToRingOutputBuffer_apply (ring src : ℕ → K) {items : ℕ} (k : ℕ)
    (hitems : items ≤ bufsize) (hi : i < bufsize) :
    copyToRingOutputBuffer ring src bufsize (k % bufsize) items ((k + i) % bufsize) =
      ring ((k + i) % bufsize) + if i < items then src i else 0 := by
  have hhead := Nat.mod_lt k (Nat.zero_lt_of_lt hi)
  have hwrapped : ∀ right left, right + left = items → k % bufsize + right ≤ bufsize →
      (left = 0 ∨ k % bufsize + right = bufsize) →
      accumulate (accumulate ring (k % bufsize) src 0 right) 0 src right left
          ((k + i) % bufsize) = ring ((k + i) % bufsize) + if i < items then src i else 0 := by
    intro right left hsum hright hleft
    rw [accumulate_wrapped ring src k hright (by omega) hi, hsum]
  simp only [copyToRingOutputBuffer]
  by_cases hfull : bufsize ≤ items
  · rw [if_pos hfull]
    exact hwrapped _ _ (by omega) (by omega) (by omega)
  rw [if_neg hfull]
  by_cases hright : items ≤ bufsize - k % bufsize
  · rw [if_pos hright]
    exact hwrapped items 0 rfl (by omega) (.inl rfl)
  · rw [if_neg hright, if_neg (by omega)]
    exact hwrapped _ _ (by omega) (by omega) (by omega)

/-- The ring buffer contains the sums for the next outputs. -/
structure Overlaps (ring : RingBuffer K) (bufsize size : ℕ) (frames : List (Frame K)) (k : ℕ) : Prop where
  size_eq : ring.size = bufsize
  head_eq : ring.head = k % bufsize
  time_le : ∀ frame ∈ frames, frame.time ≤ k
  data_eq : ∀ i < bufsize, ring.data ((k + i) % bufsize) = overlapped size frames (k + i)

theorem overlaps_nil (bufsize size : ℕ) :
    Overlaps ⟨fun _ => (0 : K), bufsize, 0⟩ bufsize size [] 0 := by
  constructor
  · rfl
  · simp
  · simp
  · simp [overlapped]

theorem overlapped_eq_zero (hsize : size ≤ bufsize) (htime : ∀ frame ∈ frames, frame.time ≤ k) :
    overlapped size frames (k + bufsize) = 0 := by
  apply List.sum_eq_zero
  intro x hx
  obtain ⟨frame, hframe, rfl⟩ := List.mem_map.mp hx
  have hle := htime frame hframe
  exact if_neg (by omega)

theorem Overlaps.next {ring : RingBuffer K} {n : ℕ} (h : Overlaps ring (2 ^ n) size frames k)
    (hsize : size ≤ 2 ^ n) :
    (ringOutputBufferNext ring).1 = overlapped size frames k ∧
      Overlaps (ringOutputBufferNext ring).2 (2 ^ n) size frames (k + 1) := by
  have hpos : 0 < 2 ^ n := Nat.two_pow_pos n
  have hhead := h.data_eq 0 hpos
  rw [Nat.add_zero] at hhead
  refine ⟨by rw [ringOutputBufferNext, h.head_eq, hhead], h.size_eq, ?_, ?_, ?_⟩
  · simp only [ringOutputBufferNext, h.size_eq, h.head_eq, Nat.and_two_pow_sub_one_eq_mod,
      Nat.mod_add_mod]
  · intro frame hframe
    have := h.time_le frame hframe
    omega
  · intro i hi
    simp only [ringOutputBufferNext, h.head_eq]
    by_cases hlast : i + 1 = 2 ^ n
    · have hturn : k + 1 + i = k + 2 ^ n := by omega
      rw [hturn, Nat.add_mod_right, update_self, overlapped_eq_zero hsize h.time_le]
    · have hnext : k + 1 + i = k + (i + 1) := by omega
      rw [hnext, update_of_ne (slot_ne (by omega) (by omega)).symm]
      exact h.data_eq (i + 1) (by omega)

theorem Overlaps.copy {ring : RingBuffer K} (h : Overlaps ring bufsize size frames k)
    (hsize : size ≤ bufsize) {src values : ℕ → K} (hsrc : ∀ i < size, src i = values i) :
    Overlaps
      { ring with data := copyToRingOutputBuffer ring.data src ring.size ring.head size }
      bufsize size (frames ++ [⟨k, values⟩]) k := by
  constructor
  · exact h.size_eq
  · exact h.head_eq
  · intro frame hframe
    rcases List.mem_append.mp hframe with hold | hnew
    · exact h.time_le frame hold
    · rw [List.mem_singleton.mp hnew]
  · intro i hi
    simp only [h.size_eq, h.head_eq]
    rw [copyToRingOutputBuffer_apply ring.data src k hsize hi, h.data_eq i hi]
    have hvalue : (if i < size then src i else 0) = if i < size then values i else 0 :=
      ite_congr rfl (hsrc i) fun _ => rfl
    simp [overlapped, hvalue]

end RingOutput

theorem ifftApplyWindow_apply {obj : FftCommon K} (abuf : Option (Abuffer K)) {outbuf : ℕ → K}
    {i : ℕ} (hi : i < obj.windowSize) :
    ifftApplyWindow obj abuf outbuf i = outbuf i * (obj.window i * scale abuf) := by
  rcases abuf with _ | abuf
  · simp only [ifftApplyWindow, scale, applyFftWindow_apply hi, mul_one]
  simp only [ifftApplyWindow, scale]
  split_ifs
  · rw [applyFftWindow_apply hi, mul_one]
  · have hscaled : applyScaledWindow outbuf obj.windowBuffer obj.windowSize abuf.scaleFactor i =
        outbuf i * (obj.windowBuffer i * abuf.scaleFactor) := by
      rw [applyScaledWindow, forEach_apply, if_pos (by omega), Nat.sub_zero]
    unfold FftCommon.window
    rcases obj.windowFunction with _ | ⟨_ | fill⟩
    · exact hscaled
    · simp only [applyScaledRectwin, forEach_apply, one_mul]
      rw [if_pos (by omega)]
    · exact hscaled

theorem computeIfft_outputBuffer (plan : Plan K) {obj : FftCommon K}
    (abuffer : Option (Abuffer K)) {i : ℕ} (hi : i < obj.size) :
    (computeIfft plan obj abuffer).outputBuffer i =
      windowedResult obj.size obj.windowSize obj.window (scale abuffer)
        (plan.output (array (ifftInputBufferSize obj) (ifftArray obj abuffer))) obj.shift i := by
  have hshift : ∀ buf : ℕ → K, (if obj.shift ≠ 0 then
      foreignCircularShift buf obj.size obj.shift else buf) i =
        buf (((i : ℤ) - obj.shift) % obj.size).toNat := fun buf => pendingShift_apply buf hi
  simp only [computeIfft, applyZeroPadding, windowedResult]
  by_cases hin : i < obj.windowSize
  · rw [if_neg (by omega), if_pos hin, ifftApplyWindow_apply abuffer hin, hshift]
  · rw [if_pos (by omega), if_neg hin]

omit [Field K] in
theorem array_ifftArray (obj : FftCommon K) (abuffer : Option (Abuffer K)) :
    array (ifftInputBufferSize obj) (ifftArray obj abuffer) =
      array (2 * (1 + obj.size / 2)) ((abuffer.map Abuffer.data).getD obj.inputBuffer) := by
  rcases abuffer with _ | abuffer
  · rfl
  · apply List.map_congr_left
    intro i hi
    have hlt : i < ifftInputBufferSize obj := List.mem_range.mp hi
    simp only [ifftArray, memcpy]
    rw [if_pos (by omega), Nat.zero_add, Nat.sub_zero]
    rfl

theorem ifftOutputs_eq (plan : Plan K) {n : ℕ} (ops : List (IfftOp K)) {obj : FftCommon K}
    {frames : List (Frame K)} {k : ℕ}
    (hring : Overlaps obj.ringBuffer (2 ^ n) obj.size frames k) (hsize : obj.size ≤ 2 ^ n) :
    ifftOutputs plan ops obj =
      expectedOutputs plan obj.size obj.windowSize obj.window ops frames k obj.inputBuffer
        obj.shift := by
  induction ops generalizing obj frames k with
  | nil => rfl
  | cons op ops ih =>
    cases op with
    | input values => exact @ih { obj with inputBuffer := values } frames k hring hsize
    | circularShift n => exact @ih (circularShift obj n) frames k hring hsize
    | compute abuffer =>
      have hcopy := hring.copy hsize fun i hi => @computeIfft_outputBuffer _ _ plan obj abuffer i hi
      have htail := @ih (computeIfft plan obj abuffer) _ k hcopy hsize
      rw [array_ifftArray] at htail
      rw [ifftOutputs, expectedOutputs, htail]
      simp only [computeIfft, array_ifftArray]
      rfl
    | output =>
      obtain ⟨hvalue, hnext⟩ := hring.next hsize
      have htail := @ih (ifftOutput obj).2 frames (k + 1) hnext hsize
      rw [ifftOutputs, expectedOutputs, htail, ← hvalue]
      rfl

theorem expectedOutputs_congr (plan : Plan K) {size windowSize : ℕ} {window window' : ℕ → K}
    (h : ∀ i < windowSize, window i = window' i) (ops : List (IfftOp K)) (frames : List (Frame K))
    (k : ℕ) (input : ℕ → K) (pending : ℤ) :
    expectedOutputs plan size windowSize window ops frames k input pending =
      expectedOutputs plan size windowSize window' ops frames k input pending := by
  have hresult : windowedResult size windowSize window =
      windowedResult size windowSize window' := by
    funext mult result pending i
    unfold windowedResult
    split_ifs with hi
    · rw [h i hi]
    · rfl
  induction ops generalizing frames k input pending with
  | nil => rfl
  | cons op ops ih => cases op <;> simp only [expectedOutputs, ih, hresult]

theorem makeIfft_outputs (plan : Plan K) {size windowSize : ℕ} (hpos : 0 < windowSize)
    (hle : windowSize ≤ size) (windowFunction : Option (WindowFunction K)) (memory : ℕ → K)
    (shift : ℤ) (ops : List (IfftOp K)) :
    ifftOutputs plan ops (makeIfft size windowSize windowFunction memory shift) =
      expectedOutputs plan size windowSize (windowValues windowFunction memory windowSize) ops [] 0
        (fun _ => 0) shift := by
  have hclamp : ¬ (windowSize = 0 ∨ size < windowSize) := by omega
  have hsize : size ≤ 2 ^ (size - 1).size := le_two_pow_size_pred size
  have hring : Overlaps (makeIfft size windowSize windowFunction memory shift).ringBuffer
      (2 ^ (size - 1).size) size [] 0 := by
    rw [← FunctionFifo.nextPowerOfTwo_eq]
    exact overlaps_nil _ _
  have hwindow : (makeIfft size windowSize windowFunction memory shift).windowSize = windowSize :=
    if_neg hclamp
  rw [ifftOutputs_eq plan ops hring hsize, hwindow]
  exact expectedOutputs_congr plan
    (fun i hi => makeFft_window hpos hle windowFunction memory shift hi) ops [] 0 _ shift

theorem expectedOutputs_of_dvd (plan : Plan K) {size : ℕ} (windowSize : ℕ) (window : ℕ → K)
    (ops : List (IfftOp K)) (frames : List (Frame K)) (k : ℕ) (input : ℕ → K) {pending : ℤ}
    (hdvd : (size : ℤ) ∣ pending) :
    expectedOutputs plan size windowSize window ops frames k input pending =
      expectedOutputs plan size windowSize window ops frames k input 0 := by
  have hresult : ∀ mult result, windowedResult size windowSize window mult result pending =
      windowedResult size windowSize window mult result 0 := by
    intro mult result
    funext i
    rw [windowedResult, windowedResult, sub_zero, Int.sub_emod, Int.emod_eq_zero_of_dvd hdvd,
      sub_zero, Int.emod_emod]
  induction ops generalizing frames k input with
  | nil => rfl
  | cons op ops ih => cases op <;> simp only [expectedOutputs, ih, hresult]

/-- The transforms of a new FFT are those of the last inputs with the window and the zero padding,
and the outputs of a new inverse FFT are the sums of the overlapped frames. No shift is pending
before the first `circular-shift`; the arguments `shift` and `shift'` are in the pooled objects. -/
structure StreamsMeet (K : Type*) [Field K] (size windowSize : ℕ) (shift shift' : ℤ) : Prop where
  fft : ∀ (plan : Plan K) windowFunction memory ops,
    fftResults plan ops (makeFft size windowSize windowFunction memory shift) =
      expectedResults plan size windowSize (windowValues windowFunction memory windowSize) ops [] 0
  ifft : ∀ (plan : Plan K) windowFunction memory ops,
    ifftOutputs plan ops (makeIfft size windowSize windowFunction memory shift') =
      expectedOutputs plan size windowSize (windowValues windowFunction memory windowSize) ops [] 0
        (fun _ => 0) 0

section Meets

variable {size windowSize : ℕ} {shift shift' : ℤ}

theorem streamsMeet_of_dvd (hpos : 0 < windowSize) (hle : windowSize ≤ size)
    (hshift : (size : ℤ) ∣ shift) (hshift' : (size : ℤ) ∣ shift') :
    StreamsMeet K size windowSize shift shift' := by
  constructor
  · intro plan windowFunction memory ops
    rw [makeFft_results plan hpos hle, expectedResults_of_dvd plan hle _ ops [] hshift]
  · intro plan windowFunction memory ops
    rw [makeIfft_outputs plan hpos hle, expectedOutputs_of_dvd plan _ _ ops [] 0 _ hshift']

/-- The identity moves the last value of the window. -/
theorem StreamsMeet.dvd_shift (h : StreamsMeet K size windowSize shift shift')
    (hpos : 0 < windowSize) (hle : windowSize ≤ size) : (size : ℤ) ∣ shift := by
  have hresult := h.fft (identityPlan K) (some .rectangular) (fun _ => 0) [.input 1, .compute]
  rw [makeFft_results _ hpos hle] at hresult
  have hwindowed : windowed size windowSize
      (windowValues (some .rectangular) (fun _ => (0 : K)) windowSize) [1] =
        List.replicate (windowSize - 1) 0 ++ [1] ++ List.replicate (size - windowSize) 0 := by
    have hlast := @lastInputs_concat K _ _ hpos [] 1
    rw [List.nil_append] at hlast
    refine (windowed_one [1]).trans ?_
    rw [hlast, ← List.replicate_zero, lastInputs_replicate, List.drop_replicate]
  simp only [expectedResults, List.nil_append, hwindowed] at hresult
  have hfirst := (List.cons.inj hresult).1
  have hsum : windowSize - 1 + 1 + (size - windowSize) = size := by omega
  have hlength : (List.replicate (windowSize - 1) (0 : K) ++ [1] ++
      List.replicate (size - windowSize) 0).length = size := by
    simp
    omega
  have hdvd := @dvd_of_rotated_impulse K _ (windowSize - 1) (size - windowSize) shift ?_
  · rwa [hsum] at hdvd
  · rw [rotated_of_dvd (n := 0) (dvd_zero _)] at hfirst
    apply List.ext_getElem
    · rw [rotated, List.length_rotate]
    · intro i hi hi'
      have hvalue := congrFun hfirst i
      simp only [identityPlan, List.getD_eq_getElem _ _ hi, List.getD_eq_getElem _ _ hi'] at hvalue
      exact hvalue

/-- The first output of an impulse is its first value. -/
theorem StreamsMeet.dvd_shift' (h : StreamsMeet K size windowSize shift shift')
    (hpos : 0 < windowSize) (hle : windowSize ≤ size) : (size : ℤ) ∣ shift' := by
  let plan : Plan K :=
    { output := fun _ i => if i = 0 then 1 else 0
      input := fun _ _ => 0 }
  have hresult := h.ifft plan (some .rectangular) (fun _ => 0) [.compute none, .output]
  rw [makeIfft_outputs _ hpos hle] at hresult
  have hsize : 0 < size := hpos.trans_le hle
  have hfirst := (List.cons.inj hresult).1
  have hbound : 0 ≤ 0 ∧ 0 < 0 + size := by omega
  simp only [List.nil_append, overlapped, List.map_cons, List.map_nil, List.sum_singleton,
    windowedResult, if_pos hpos, if_pos hbound, plan, windowValues, scale, mul_one, sub_zero]
    at hfirst
  have hzero : (((0 - 0 : ℕ) : ℤ) % size).toNat = 0 := by simp
  have hslot : (((0 : ℕ) - shift') % size).toNat = 0 := by
    by_contra hne
    rw [if_neg hne, if_pos hzero] at hfirst
    exact zero_ne_one hfirst
  exact dvd_of_slot_eq hsize hslot

end Meets

/-- A shift of one that is left by the object of the pool. -/
theorem not_streamsMeet : ¬ StreamsMeet ℚ 3 3 1 1 := by
  intro h
  have hresults := h.fft (identityPlan ℚ) none (fun _ => 0) [.input 1, .input 2, .input 3, .compute]
  have hfirst := congrArg (List.map fun r => r 0) hresults
  exact absurd hfirst (by decide +kernel)

/-- The streams of new objects are the expected ones exactly if the shifts of the objects of the pool
are multiples of the size. -/
theorem streamsMeet_iff {size windowSize : ℕ} (hpos : 0 < windowSize) (hle : windowSize ≤ size)
    (shift shift' : ℤ) :
    StreamsMeet K size windowSize shift shift' ↔ (size : ℤ) ∣ shift ∧ (size : ℤ) ∣ shift' := by
  constructor
  · intro h
    exact ⟨h.dvd_shift hpos hle, h.dvd_shift' hpos hle⟩
  · rintro ⟨hshift, hshift'⟩
    exact streamsMeet_of_dvd hpos hle hshift hshift'

theorem streamsMeet_iff_three :
    ¬ StreamsMeet ℚ 3 2 1 0 ∧ ¬ StreamsMeet ℚ 3 2 0 1 ∧ StreamsMeet ℚ 3 2 3 (-6) ∧
      (fftResults (identityPlan ℚ) [.input 5, .input 7, .input 9, .circularShift 1, .compute]
        (makeFft 3 2 none (fun _ => 0) 3)).map (array 3) = [[0, 7, 9]] ∧
      ifftOutputs
        { output := fun input i => input.getD i (0 : ℚ)
          input := fun _ _ => 0 }
        [.input fun i => i + 1, .circularShift 1, .compute none, .output, .input fun _ => 1,
          .compute none, .output, .output]
        (makeIfft 3 2 none (fun _ => 0) (-6)) = [3, 2, 1] := by
  have hmeet : StreamsMeet ℚ 3 2 3 (-6) :=
    (streamsMeet_iff (by decide) (by decide) 3 (-6)).mpr ⟨by decide, by decide⟩
  refine ⟨?_, ?_, hmeet, ?_, ?_⟩
  · rw [streamsMeet_iff (by decide) (by decide)]
    decide
  · rw [streamsMeet_iff (by decide) (by decide)]
    decide
  · rw [hmeet.fft]
    decide +kernel
  · rw [hmeet.ifft]
    decide +kernel

end Incudine.FftStream

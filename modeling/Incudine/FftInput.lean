import Incudine.CircularShift
import Incudine.FunctionFifo
import Mathlib.Algebra.Field.Defs
import Mathlib.Data.List.Rotate

/-!
# Input of a FFT

The samples of a FFT are stored in a ring buffer. The transform copies the last ones to an array,
multiplies them by the window, adds the zero padding and applies the pending circular shift.
-/

namespace Incudine.FftStream

open CircularArray CircularShift ForeignMemory
open FunctionFifo (nextPowerOfTwo)

variable {K : Type*} [Field K]

def rectangularWindow (foreignArray : ℕ → K) (size : ℕ) : ℕ → K :=
  forEach (fun _ _ => 1) 0 size foreignArray

inductive WindowFunction (K : Type*) where
  | rectangular
  | other (fill : (ℕ → K) → ℕ → ℕ → K)

def fillWindowBuffer (buffer : ℕ → K) (function : WindowFunction K) (size : ℕ) (forceP : Bool) :
    ℕ → K :=
  match function with
  | .rectangular => if forceP then rectangularWindow buffer size else buffer
  | .other fill => fill buffer size

def applyWindow (buf win : ℕ → K) (winsize : ℕ) : ℕ → K :=
  forEach (fun i x => x * win i) 0 winsize buf

/-- A plan is the result of the transform of an array and what it leaves in the array. -/
structure Plan (K : Type*) where
  output : List K → ℕ → K
  input : List K → ℕ → K

def identityPlan (K : Type*) [Field K] : Plan K where
  output l i := l.getD i 0
  input l i := l.getD i 0

def array (size : ℕ) (memory : ℕ → K) : List K := (List.range size).map memory

structure FftCommon (K : Type*) where
  size : ℕ
  inputBuffer : ℕ → K
  outputBuffer : ℕ → K
  ringBuffer : RingBuffer K
  windowBuffer : ℕ → K
  windowSize : ℕ
  windowFunction : Option (WindowFunction K)
  shift : ℤ

/-- The structure is taken from a pool: the memory that is not cleared and the pending shift of the
object that was freed are unknown. -/
def makeFft (size windowSize : ℕ) (windowFunction : Option (WindowFunction K))
    (memory : ℕ → K) (shift : ℤ) : FftCommon K :=
  let windowSize := if windowSize = 0 ∨ size < windowSize then size else windowSize
  { size := size
    inputBuffer := fun _ => 0
    outputBuffer := memory
    ringBuffer :=
      { data := fun _ => 0
        size := nextPowerOfTwo size
        head := 0 }
    windowBuffer := fillWindowBuffer memory (windowFunction.getD .rectangular) windowSize
      windowFunction.isNone
    windowSize := windowSize
    windowFunction := windowFunction
    shift := shift }

def setFftInput (fft : FftCommon K) (input : K) : FftCommon K :=
  { fft with ringBuffer := ringInputBufferPut input fft.ringBuffer }

def circularShift (obj : FftCommon K) (n : ℤ) : FftCommon K := { obj with shift := n }

def applyFftWindow (obj : FftCommon K) (inbuf : ℕ → K) : ℕ → K :=
  match obj.windowFunction with
  | some .rectangular => inbuf
  | _ => applyWindow inbuf obj.windowBuffer obj.windowSize

def fftArray (obj : FftCommon K) : ℕ → K :=
  let ring := obj.ringBuffer
  let inbuf := copyFromRingBuffer obj.inputBuffer ring.data ring.size ring.head obj.windowSize
  let inbuf := applyFftWindow obj inbuf
  let inbuf := applyZeroPadding inbuf obj.windowSize obj.size
  if obj.shift ≠ 0 then foreignCircularShift inbuf obj.size obj.shift else inbuf

def computeFft (plan : Plan K) (obj : FftCommon K) : FftCommon K :=
  let inbuf := array obj.size (fftArray obj)
  { obj with
    inputBuffer := plan.input inbuf
    outputBuffer := plan.output inbuf
    shift := 0 }

inductive FftOp (K : Type*) where
  | input (x : K)
  | circularShift (n : ℤ)
  | compute

def fftResults (plan : Plan K) : List (FftOp K) → FftCommon K → List (ℕ → K)
  | [], _ => []
  | .input x :: ops, obj => fftResults plan ops (setFftInput obj x)
  | .circularShift n :: ops, obj => fftResults plan ops (circularShift obj n)
  | .compute :: ops, obj =>
    (computeFft plan obj).outputBuffer :: fftResults plan ops (computeFft plan obj)

def lastInputs (n : ℕ) (inputs : List K) : List K :=
  (List.replicate n 0 ++ inputs).drop inputs.length

def rotated (l : List K) (n : ℤ) : List K := l.rotate (-n % l.length).toNat

def windowed (size windowSize : ℕ) (window : ℕ → K) (inputs : List K) : List K :=
  List.zipWith (· * ·) (lastInputs windowSize inputs) (array windowSize window) ++
    List.replicate (size - windowSize) 0

/-- The transforms of the inputs, where `pending` is the shift for the next one. -/
def expectedResults (plan : Plan K) (size windowSize : ℕ) (window : ℕ → K) :
    List (FftOp K) → List K → ℤ → List (ℕ → K)
  | [], _, _ => []
  | .input x :: ops, inputs, pending =>
    expectedResults plan size windowSize window ops (inputs ++ [x]) pending
  | .circularShift n :: ops, inputs, _ =>
    expectedResults plan size windowSize window ops inputs n
  | .compute :: ops, inputs, pending =>
    plan.output (rotated (windowed size windowSize window inputs) pending) ::
      expectedResults plan size windowSize window ops inputs 0

def windowValues (windowFunction : Option (WindowFunction K)) (memory : ℕ → K) (windowSize : ℕ) :
    ℕ → K :=
  match windowFunction with
  | some (.other fill) => fill memory windowSize
  | _ => fun _ => 1

def FftCommon.window (obj : FftCommon K) : ℕ → K :=
  match obj.windowFunction with
  | some .rectangular => fun _ => 1
  | _ => obj.windowBuffer

section Ring

variable {data dest : ℕ → K} {size windowSize i : ℕ}

omit [Field K] in
@[simp] theorem length_array (memory : ℕ → K) : (array size memory).length = size := by
  simp [array]

theorem length_lastInputs (n : ℕ) (inputs : List K) : (lastInputs n inputs).length = n := by
  simp [lastInputs]

theorem lastInputs_replicate (n m : ℕ) :
    lastInputs n (List.replicate m (0 : K)) = List.replicate n 0 := by
  rw [lastInputs, List.replicate_append_replicate, List.length_replicate, List.drop_replicate,
    Nat.add_sub_cancel]

/-- The ring buffer contains the last inputs. -/
structure Remembers (ring : RingBuffer K) (size : ℕ) (inputs : List K) : Prop where
  size_eq : ring.size = size
  head_eq : ring.head = inputs.length % size
  stores : Stores ring.data size inputs.length (lastInputs size inputs)

theorem remembers_nil (size : ℕ) : Remembers ⟨fun _ => (0 : K), size, 0⟩ size [] := by
  constructor
  · rfl
  · simp
  · apply stores_of_get
    intro i hi
    simp [lastInputs]

theorem lastInputs_concat {n : ℕ} (hn : 0 < n) (inputs : List K) (x : K) :
    lastInputs n (inputs ++ [x]) = (lastInputs n inputs).drop 1 ++ [x] := by
  have hlength : inputs.length + 1 ≤ (List.replicate n 0 ++ inputs).length := by
    simp
    omega
  rw [lastInputs, lastInputs, List.length_append, List.length_singleton, ← List.append_assoc,
    List.drop_append_of_le_length hlength, List.drop_drop]

theorem Remembers.put {ring : RingBuffer K} {k : ℕ} {inputs : List K}
    (h : Remembers ring (2 ^ k) inputs) (x : K) :
    Remembers (ringInputBufferPut x ring) (2 ^ k) (inputs ++ [x]) := by
  have hpos : 0 < 2 ^ k := Nat.two_pow_pos k
  constructor
  · exact h.size_eq
  · simp only [ringInputBufferPut, h.size_eq, h.head_eq, List.length_append, List.length_singleton,
      Nat.and_two_pow_sub_one_eq_mod, Nat.mod_add_mod]
  · have hdrop := h.stores.drop 1
    have hlength : ((lastInputs (2 ^ k) inputs).drop 1).length = 2 ^ k - 1 := by
      rw [List.length_drop, length_lastInputs]
    have hpush := hdrop.push (by omega) x
    have hslot : inputs.length + 1 + (2 ^ k - 1) = inputs.length + 2 ^ k := by omega
    rw [hlength, hslot, Nat.add_mod_right, ← lastInputs_concat hpos] at hpush
    rw [List.length_append, List.length_singleton]
    simpa only [ringInputBufferPut, h.head_eq] using hpush

theorem Remembers.copy {ring : RingBuffer K} {inputs : List K} (h : Remembers ring size inputs)
    (hsize : windowSize ≤ size) (hi : i < (lastInputs windowSize inputs).length) :
    copyFromRingBuffer dest ring.data ring.size ring.head windowSize i =
      (lastInputs windowSize inputs)[i] := by
  rw [length_lastInputs] at hi
  have hhead : inputs.length % size = (inputs.length + (size - windowSize) + windowSize) % size := by
    have hturn : inputs.length + (size - windowSize) + windowSize = inputs.length + size := by omega
    rw [hturn, Nat.add_mod_right]
  have hget := h.stores.get (i := size - windowSize + i) (by rw [length_lastInputs]; omega)
  rw [h.size_eq, h.head_eq, hhead, copyFromRingBuffer_apply hsize hi, Nat.add_assoc, hget]
  simp only [lastInputs, List.getElem_drop, List.getElem_append, List.length_replicate,
    List.getElem_replicate]
  split_ifs
  · rfl
  · omega
  · omega
  · congr 1
    omega

end Ring

section Transformed

variable {obj : FftCommon K} {k size windowSize : ℕ} {window : ℕ → K} {inputs : List K}
  {pending : ℤ}

omit [Field K] in
theorem pendingShift_apply (buf : ℕ → K) {i : ℕ} (hi : i < size) :
    (if pending ≠ 0 then foreignCircularShift buf size pending else buf) i =
      buf (((i : ℤ) - pending) % size).toNat := by
  split_ifs with hzero
  · exact foreignCircularShift_apply buf pending hi
  · rw [not_not.mp hzero, sub_zero, toNat_emod_eq hi 0 (by omega)]

theorem length_windowed (hsize : windowSize ≤ size) :
    (windowed size windowSize window inputs).length = size := by
  simp only [windowed, List.length_append, List.length_zipWith, length_lastInputs, length_array,
    List.length_replicate]
  omega

theorem getElem_rotated {l : List K} {i : ℕ} (hi : i < (rotated l pending).length) :
    (rotated l pending)[i] = l.getD (((i : ℤ) - pending) % l.length).toNat 0 := by
  have hlength : i < l.length := by simpa [rotated] using hi
  have hpos : (0 : ℤ) < l.length := by omega
  have hnonneg := Int.emod_nonneg (-pending) hpos.ne'
  have hslot : (((i : ℤ) - pending) % l.length).toNat =
      (i + (-pending % l.length).toNat) % l.length := by
    have hcast : (((i + (-pending % l.length).toNat) % l.length : ℕ) : ℤ) =
        ((i : ℤ) - pending) % l.length := by
      rw [Int.natCast_emod, Int.natCast_add, Int.toNat_of_nonneg hnonneg, Int.add_emod_emod,
        Int.sub_eq_add_neg]
    rw [← hcast, Int.toNat_natCast]
  have hlt := Nat.mod_lt (i + (-pending % l.length).toNat) (Nat.zero_lt_of_lt hlength)
  simp only [rotated, List.getElem_rotate, hslot, List.getD_eq_getElem _ _ hlt]

omit [Field K] in
theorem rotated_of_dvd {l : List K} {n : ℤ} (h : (l.length : ℤ) ∣ n) : rotated l n = l := by
  rw [rotated, Int.emod_eq_zero_of_dvd (Int.dvd_neg.mpr h)]
  exact List.rotate_zero l

omit [Field K] in
theorem rotated_injective {l l' : List K} {n : ℤ} (hlength : l.length = l'.length)
    (h : rotated l n = rotated l' n) : l = l' := by
  rw [rotated, rotated, hlength] at h
  exact List.rotate_injective _ h

omit [Field K] in
theorem dvd_of_slot_eq {i : ℕ} {n : ℤ} (hi : i < size) (h : (((i : ℤ) - n) % size).toNat = i) :
    (size : ℤ) ∣ n := by
  have hnonneg := Int.emod_nonneg ((i : ℤ) - n) (show (size : ℤ) ≠ 0 by omega)
  have hdvd := Int.dvd_self_sub_of_emod_eq (show ((i : ℤ) - n) % size = i by omega)
  rw [sub_sub_cancel_left] at hdvd
  exact Int.dvd_neg.mp hdvd

theorem impulse_getD (p q i : ℕ) :
    (List.replicate p (0 : K) ++ [1] ++ List.replicate q 0).getD i 0 = if i = p then 1 else 0 := by
  simp only [List.getD_eq_getElem?_getD, List.getElem?_append, List.length_append,
    List.length_replicate, List.length_singleton, List.getElem?_replicate,
    List.getElem?_singleton]
  split_ifs <;> first | rfl | omega

theorem dvd_of_rotated_impulse {p q : ℕ} {n : ℤ}
    (h : rotated (List.replicate p (0 : K) ++ [1] ++ List.replicate q 0) n =
      List.replicate p 0 ++ [1] ++ List.replicate q 0) : ((p + 1 + q : ℕ) : ℤ) ∣ n := by
  have hlength : (List.replicate p (0 : K) ++ [1] ++ List.replicate q 0).length = p + 1 + q := by
    simp
    omega
  have hin : p < (rotated (List.replicate p (0 : K) ++ [1] ++ List.replicate q 0) n).length := by
    rw [rotated, List.length_rotate, hlength]
    omega
  have hvalue := congrArg (fun l => l.getD p 0) h
  simp only [List.getD_eq_getElem _ _ hin, getElem_rotated, impulse_getD, hlength, if_true]
    at hvalue
  have hslot : (((p : ℤ) - n) % (p + 1 + q : ℕ)).toNat = p := by
    by_contra hne
    rw [if_neg hne] at hvalue
    exact zero_ne_one hvalue
  exact dvd_of_slot_eq (by omega) hslot

theorem applyWindow_apply (buf win : ℕ → K) {i : ℕ} (hi : i < windowSize) :
    applyWindow buf win windowSize i = buf i * win i := by
  rw [applyWindow, forEach_apply, if_pos (by omega), Nat.sub_zero]

theorem applyFftWindow_apply {inbuf : ℕ → K} {i : ℕ} (hi : i < obj.windowSize) :
    applyFftWindow obj inbuf i = inbuf i * obj.window i := by
  unfold applyFftWindow FftCommon.window
  rcases obj.windowFunction with _ | ⟨_ | fill⟩
  · exact applyWindow_apply _ _ hi
  · exact (mul_one _).symm
  · exact applyWindow_apply _ _ hi

theorem windowed_one (inputs : List K) :
    windowed size windowSize (fun _ => 1) inputs =
      lastInputs windowSize inputs ++ List.replicate (size - windowSize) 0 := by
  rw [windowed]
  congr 1
  apply List.ext_getElem
  · rw [List.length_zipWith, length_lastInputs, length_array, Nat.min_self]
  · intro i hi hi'
    simp [array]

theorem windowed_apply (hring : Remembers obj.ringBuffer (2 ^ k) inputs)
    (hwindow : obj.windowSize ≤ obj.size) (hsize : obj.size ≤ 2 ^ k) {i : ℕ}
    (hi : i < (windowed obj.size obj.windowSize obj.window inputs).length) :
    applyZeroPadding
        (applyFftWindow obj (copyFromRingBuffer obj.inputBuffer obj.ringBuffer.data
          obj.ringBuffer.size obj.ringBuffer.head obj.windowSize)) obj.windowSize obj.size i =
      (windowed obj.size obj.windowSize obj.window inputs)[i] := by
  have hlength : i < obj.size := by rwa [length_windowed hwindow] at hi
  have hzip : (List.zipWith (· * ·) (lastInputs obj.windowSize inputs)
      (array obj.windowSize obj.window)).length = obj.windowSize := by
    rw [List.length_zipWith, length_lastInputs, length_array, Nat.min_self]
  simp only [windowed, List.getElem_append, hzip]
  by_cases hin : i < obj.windowSize
  · rw [dif_pos hin, applyZeroPadding, if_neg (by omega), applyFftWindow_apply hin,
      hring.copy (by omega) (by rwa [length_lastInputs])]
    simp [array]
  · rw [dif_neg hin, applyZeroPadding, if_pos (by omega), List.getElem_replicate]

theorem array_fftArray (hring : Remembers obj.ringBuffer (2 ^ k) inputs)
    (hwindow : obj.windowSize ≤ obj.size) (hsize : obj.size ≤ 2 ^ k) :
    array obj.size (fftArray obj) =
      rotated (windowed obj.size obj.windowSize obj.window inputs) obj.shift := by
  have hlength := @length_windowed _ _ _ _ obj.window inputs hwindow
  apply List.ext_getElem
  · rw [length_array, rotated, List.length_rotate, hlength]
  intro i hi hi'
  rw [length_array] at hi
  have hlt := Int.emod_lt_of_pos ((i : ℤ) - obj.shift) (show (0 : ℤ) < obj.size by omega)
  rw [getElem_rotated, hlength]
  simp only [array, List.getElem_map, List.getElem_range, fftArray]
  rw [pendingShift_apply _ hi, windowed_apply hring hwindow hsize, List.getD_eq_getElem]
  rw [hlength]
  omega

end Transformed

theorem fftResults_eq (plan : Plan K) {k : ℕ} (ops : List (FftOp K)) {obj : FftCommon K}
    {inputs : List K} (hring : Remembers obj.ringBuffer (2 ^ k) inputs)
    (hwindow : obj.windowSize ≤ obj.size) (hsize : obj.size ≤ 2 ^ k) :
    fftResults plan ops obj =
      expectedResults plan obj.size obj.windowSize obj.window ops inputs obj.shift := by
  induction ops generalizing obj inputs with
  | nil => rfl
  | cons op ops ih =>
    cases op with
    | input x => exact ih (hring.put x) hwindow hsize
    | circularShift n => exact @ih (circularShift obj n) inputs hring hwindow hsize
    | compute =>
      have htail := @ih (computeFft plan obj) inputs hring hwindow hsize
      rw [fftResults, expectedResults, htail]
      congr 1
      rw [← array_fftArray hring hwindow hsize]
      rfl

theorem makeFft_window {size windowSize : ℕ} (hpos : 0 < windowSize) (hle : windowSize ≤ size)
    (windowFunction : Option (WindowFunction K)) (memory : ℕ → K) (shift : ℤ) {i : ℕ}
    (hi : i < windowSize) :
    (makeFft size windowSize windowFunction memory shift).window i =
      windowValues windowFunction memory windowSize i := by
  have hclamp : ¬ (windowSize = 0 ∨ size < windowSize) := by omega
  rcases windowFunction with _ | ⟨_ | fill⟩
  · simp only [makeFft, FftCommon.window, if_neg hclamp, Option.getD_none, fillWindowBuffer,
      Option.isNone_none, if_true, rectangularWindow, windowValues, forEach_apply]
    rw [if_pos (by omega)]
  · rfl
  · simp only [makeFft, FftCommon.window, if_neg hclamp, Option.getD_some, fillWindowBuffer,
      windowValues]

theorem windowed_congr {size windowSize : ℕ} {window window' : ℕ → K}
    (h : ∀ i < windowSize, window i = window' i) :
    windowed size windowSize window = windowed size windowSize window' := by
  funext inputs
  have harray : array windowSize window = array windowSize window' :=
    List.map_congr_left fun i hi => h i (List.mem_range.mp hi)
  rw [windowed, windowed, harray]

theorem expectedResults_congr (plan : Plan K) {size windowSize : ℕ} {window window' : ℕ → K}
    (h : ∀ i < windowSize, window i = window' i) (ops : List (FftOp K)) (inputs : List K)
    (pending : ℤ) : expectedResults plan size windowSize window ops inputs pending =
      expectedResults plan size windowSize window' ops inputs pending := by
  induction ops generalizing inputs pending with
  | nil => rfl
  | cons op ops ih => cases op <;> simp only [expectedResults, ih, windowed_congr h]

theorem expectedResults_of_dvd (plan : Plan K) {size windowSize : ℕ} (hle : windowSize ≤ size)
    (window : ℕ → K) (ops : List (FftOp K)) (inputs : List K) {pending : ℤ}
    (hdvd : (size : ℤ) ∣ pending) :
    expectedResults plan size windowSize window ops inputs pending =
      expectedResults plan size windowSize window ops inputs 0 := by
  induction ops generalizing inputs with
  | nil => rfl
  | cons op ops ih =>
    cases op with
    | input x => exact ih (inputs ++ [x])
    | circularShift n => rfl
    | compute =>
      have hlength := @length_windowed _ _ _ _ window inputs hle
      simp only [expectedResults]
      rw [rotated_of_dvd (by rwa [hlength]), rotated_of_dvd (dvd_zero _)]

theorem makeFft_results (plan : Plan K) {size windowSize : ℕ} (hpos : 0 < windowSize)
    (hle : windowSize ≤ size) (windowFunction : Option (WindowFunction K)) (memory : ℕ → K)
    (shift : ℤ) (ops : List (FftOp K)) :
    fftResults plan ops (makeFft size windowSize windowFunction memory shift) =
      expectedResults plan size windowSize (windowValues windowFunction memory windowSize) ops []
        shift := by
  have hclamp : ¬ (windowSize = 0 ∨ size < windowSize) := by omega
  have hsize : size ≤ 2 ^ (size - 1).size := le_two_pow_size_pred size
  have hring : Remembers (makeFft size windowSize windowFunction memory shift).ringBuffer
      (2 ^ (size - 1).size) [] := by
    rw [← FunctionFifo.nextPowerOfTwo_eq]
    exact remembers_nil _
  have hwindow : (makeFft size windowSize windowFunction memory shift).windowSize = windowSize :=
    if_neg hclamp
  rw [fftResults_eq plan ops hring (hwindow.le.trans hle) hsize, hwindow]
  exact expectedResults_congr plan (fun i hi => makeFft_window hpos hle windowFunction memory shift hi)
    ops [] shift

end Incudine.FftStream

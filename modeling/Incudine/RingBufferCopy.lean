import Incudine.BoundedMemory
import Incudine.IfftOutput

/-!
# Copy of the blocks of a ring buffer

The functions of the foreign library with the `unsigned long` arithmetic and the bounds of the
arrays.
-/

namespace Incudine.RingBufferCopy

open BoundedMemory CircularShift

variable {K : Type*} {width : ℕ}

def sizeofSample (width : ℕ) : UInt64 := UInt64.ofNat width

def copyFromRingBuffer (dest ringBuffer : Block K width) (bufsize writeOffset items : UInt64) :
    Option (Block K width) :=
  if bufsize ≤ items then
    if writeOffset = 0 then dest.memcpy 0 ringBuffer 0 (bufsize * sizeofSample width)
    else do
      let last := bufsize - writeOffset
      let dest ← dest.memcpy 0 ringBuffer writeOffset.toNat (last * sizeofSample width)
      dest.memcpy last.toNat ringBuffer 0 (writeOffset * sizeofSample width)
  else if items < writeOffset then
    dest.memcpy 0 ringBuffer (writeOffset.toNat - items.toNat) (items * sizeofSample width)
  else if writeOffset = 0 then
    dest.memcpy 0 ringBuffer (bufsize.toNat - items.toNat) (items * sizeofSample width)
  else do
    let os2 := items - writeOffset
    let os1 := bufsize - os2
    let dest ← dest.memcpy 0 ringBuffer os1.toNat (os2 * sizeofSample width)
    dest.memcpy os2.toNat ringBuffer 0 (writeOffset * sizeofSample width)

/-- `while (items--) *right++ += *src++`, with the next source position. -/
def accumulateLoop [Add K] (src : Block K width) :
    ℕ → Block K width → ℕ → ℕ → Option (Block K width × ℕ)
  | 0, ringBuffer, _, start => some (ringBuffer, start)
  | items + 1, ringBuffer, right, start => do
    let x ← ringBuffer.read right
    let y ← src.read start
    let ringBuffer ← ringBuffer.write right (x + y)
    accumulateLoop src items ringBuffer (right + 1) (start + 1)

def copyToRingOutputBuffer [Add K] (ringBuffer src : Block K width)
    (bufsize readOffset items : UInt64) : Option (Block K width) :=
  let last := bufsize - readOffset
  if bufsize ≤ items then do
    let (ringBuffer, start) ← accumulateLoop src last.toNat ringBuffer readOffset.toNat 0
    let (ringBuffer, _) ← accumulateLoop src readOffset.toNat ringBuffer 0 start
    some ringBuffer
  else if items ≤ last then do
    let (ringBuffer, _) ← accumulateLoop src items.toNat ringBuffer readOffset.toNat 0
    some ringBuffer
  else if readOffset = 0 then do
    let (ringBuffer, _) ← accumulateLoop src items.toNat ringBuffer 0 0
    some ringBuffer
  else do
    let os2 := bufsize - readOffset
    let os1 := items - os2
    let (ringBuffer, start) ← accumulateLoop src os2.toNat ringBuffer readOffset.toNat 0
    let (ringBuffer, _) ← accumulateLoop src os1.toNat ringBuffer 0 start
    some ringBuffer

section

variable {dest ring src : Block K width} {bufsize offset items : UInt64}

theorem copyFromRingBuffer_refines (hsize : ring.size = bufsize.toNat) (hoffset : offset < bufsize)
    (hdest : min items.toNat bufsize.toNat ≤ dest.size) :
    copyFromRingBuffer dest ring bufsize offset items = some { dest with
      cells := ForeignMemory.copyFromRingBuffer dest.cells ring.cells bufsize.toNat offset.toNat
        items.toNat } := by
  have hlt : offset.toNat < bufsize.toNat := UInt64.lt_iff_toNat_lt.mp hoffset
  have hzero : offset = 0 ↔ offset.toNat = 0 := UInt64.toNat_inj.symm
  simp only [copyFromRingBuffer, ForeignMemory.copyFromRingBuffer, sizeofSample,
    UInt64.le_iff_toNat_le, UInt64.lt_iff_toNat_lt, hzero]
  by_cases hfull : bufsize.toNat ≤ items.toNat
  · rw [if_pos hfull, if_pos hfull]
    rw [Nat.min_eq_right hfull] at hdest
    by_cases hstart : offset.toNat = 0
    · rw [if_pos hstart, if_pos hstart, Block.memcpy_of_le (by omega) (by omega)]
      rfl
    · have hlast : (bufsize - offset).toNat = bufsize.toNat - offset.toNat :=
        UInt64.toNat_sub_of_le _ _ (UInt64.le_iff_toNat_le.mpr hlt.le)
      rw [if_neg hstart, if_neg hstart, Block.memcpy_of_le (by omega) (by omega)]
      simp only [Option.bind_eq_bind, Option.bind_some]
      rw [Block.memcpy_of_le (by simp only; omega) (by omega), hlast]
      rfl
  rw [if_neg hfull, if_neg hfull]
  rw [Nat.min_eq_left (by omega)] at hdest
  by_cases hbefore : items.toNat < offset.toNat
  · rw [if_pos hbefore, if_pos hbefore, Block.memcpy_of_le (by omega) (by omega)]
    rfl
  rw [if_neg hbefore, if_neg hbefore]
  by_cases hstart : offset.toNat = 0
  · rw [if_pos hstart, if_pos hstart, Block.memcpy_of_le (by omega) (by omega)]
    rfl
  · have hos2 : (items - offset).toNat = items.toNat - offset.toNat :=
      UInt64.toNat_sub_of_le _ _ (UInt64.le_iff_toNat_le.mpr (by omega))
    have hos1 : (bufsize - (items - offset)).toNat =
        bufsize.toNat - (items.toNat - offset.toNat) := by
      rw [UInt64.toNat_sub_of_le _ _ (UInt64.le_iff_toNat_le.mpr (by omega)), hos2]
    rw [if_neg hstart, if_neg hstart, Block.memcpy_of_le (by omega) (by omega)]
    simp only [Option.bind_eq_bind, Option.bind_some]
    rw [Block.memcpy_of_le (by simp only; omega) (by omega), hos1, hos2]
    rfl

theorem accumulateLoop_eq [Add K] (n right start : ℕ) (hring : right + n ≤ ring.size)
    (hsrc : start + n ≤ src.size) :
    accumulateLoop src n ring right start = some ({ ring with
      cells := forEach (fun i x => x + src.cells (start + i)) right n ring.cells }, start + n) := by
  induction n generalizing ring right start with
  | zero => rfl
  | succ n ih =>
    rw [accumulateLoop, Block.read_of_lt (by omega), Block.read_of_lt (by omega)]
    simp only [Option.bind_eq_bind, Option.bind_some]
    rw [Block.write_of_lt (by omega), Option.bind_some, ih _ _ (by simp only; omega) (by omega)]
    congr 2
    · congr 1
      funext i
      simp only [forEach_apply]
      by_cases hfirst : i = right
      · rw [if_neg (by omega), if_pos (by omega), hfirst, Function.update_self, Nat.sub_self]
        rfl
      · rw [Function.update_of_ne hfirst]
        by_cases hin : right + 1 ≤ i ∧ i < right + 1 + n
        · have hsource : start + 1 + (i - (right + 1)) = start + (i - right) := by omega
          rw [if_pos hin, if_pos (by omega), hsource]
        · rw [if_neg hin, if_neg (by omega)]
    · omega

theorem copyToRingOutputBuffer_eq [Add K] (hsize : ring.size = bufsize.toNat)
    (hoffset : offset < bufsize) (hsrc : min items.toNat bufsize.toNat ≤ src.size) {right : ℕ}
    (hright : right = min items.toNat (bufsize.toNat - offset.toNat)) :
    copyToRingOutputBuffer ring src bufsize offset items = some { ring with
      cells := forEach (fun i x => x + src.cells (right + i)) 0
        (min items.toNat bufsize.toNat - right)
        (forEach (fun i x => x + src.cells (0 + i)) offset.toNat right ring.cells) } := by
  have hlt : offset.toNat < bufsize.toNat := UInt64.lt_iff_toNat_lt.mp hoffset
  have hlast : (bufsize - offset).toNat = bufsize.toNat - offset.toNat :=
    UInt64.toNat_sub_of_le _ _ (UInt64.le_iff_toNat_le.mpr hlt.le)
  have hzero : offset = 0 ↔ offset.toNat = 0 := UInt64.toNat_inj.symm
  simp only [copyToRingOutputBuffer, UInt64.le_iff_toNat_le, hlast, hzero]
  have hfirst : bufsize.toNat - offset.toNat ≤ bufsize.toNat := Nat.sub_le _ _
  by_cases hfull : bufsize.toNat ≤ items.toNat
  · rw [Nat.min_eq_right hfull] at hsrc ⊢
    obtain rfl := hright.trans (Nat.min_eq_right (hfirst.trans hfull))
    rw [if_pos hfull, accumulateLoop_eq _ _ _ (by omega) (by omega)]
    simp only [Option.bind_eq_bind, Option.bind_some]
    rw [accumulateLoop_eq _ _ _ (by simp only; omega) (by omega), Option.bind_some]
    simp only [Nat.zero_add, Nat.sub_sub_self hlt.le]
  rw [Nat.min_eq_left (Nat.le_of_not_le hfull)] at hsrc ⊢
  rw [if_neg hfull]
  by_cases hle : items.toNat ≤ bufsize.toNat - offset.toNat
  · obtain rfl := hright.trans (Nat.min_eq_left hle)
    rw [if_pos hle, accumulateLoop_eq _ _ _ (by omega) (by omega)]
    simp only [Nat.sub_self]
    rfl
  · obtain rfl := hright.trans (Nat.min_eq_right (Nat.le_of_not_le hle))
    have hos1 : (items - (bufsize - offset)).toNat =
        items.toNat - (bufsize.toNat - offset.toNat) := by
      rw [UInt64.toNat_sub_of_le _ _ (UInt64.le_iff_toNat_le.mpr (by rw [hlast]; omega)), hlast]
    rw [if_neg hle, if_neg (by omega), accumulateLoop_eq _ _ _ (by omega) (by omega)]
    simp only [Option.bind_eq_bind, Option.bind_some]
    rw [accumulateLoop_eq _ _ _ (by simp only; omega) (by omega), Option.bind_some, hos1]
    simp only [Nat.zero_add]

theorem copyToRingOutputBuffer_refines [Field K] (hsize : ring.size = bufsize.toNat)
    (hoffset : offset < bufsize) (hsrc : min items.toNat bufsize.toNat ≤ src.size) :
    copyToRingOutputBuffer ring src bufsize offset items = some { ring with
      cells := FftStream.copyToRingOutputBuffer ring.cells src.cells bufsize.toNat offset.toNat
        items.toNat } := by
  have hlt : offset.toNat < bufsize.toNat := UInt64.lt_iff_toNat_lt.mp hoffset
  rw [copyToRingOutputBuffer_eq hsize hoffset hsrc rfl]
  simp only [FftStream.copyToRingOutputBuffer, FftStream.accumulate]
  by_cases hfull : bufsize.toNat ≤ items.toNat
  · rw [if_pos hfull, Nat.min_eq_right hfull, Nat.min_eq_right (by omega),
      Nat.sub_sub_self hlt.le]
  rw [if_neg hfull, Nat.min_eq_left (by omega : items.toNat ≤ bufsize.toNat)]
  by_cases hle : items.toNat ≤ bufsize.toNat - offset.toNat
  · rw [if_pos hle, Nat.min_eq_left hle, Nat.sub_self]
    rfl
  · rw [if_neg hle, if_neg (by omega), Nat.min_eq_right (by omega)]

theorem slot_eq {n w i : ℕ} (hw : w < n) (hi : i < n) :
    (w + i) % n = if w + i < n then w + i else w + i - n := by
  split_ifs with h
  · exact Nat.mod_eq_of_lt h
  · rw [Nat.mod_eq_sub_mod (by omega), Nat.mod_eq_of_lt (by omega)]

/-- The last values before the offset are copied in order, and the rest of the destination is
unchanged. -/
def CopiesLast (dest ring dest' : ℕ → K) (n w m : ℕ) : Prop :=
  ∀ i, dest' i = if i < min m n then ring (((w : ℤ) - min m n + i) % n).toNat else dest i

/-- The values are added to the slots from the offset, and the other slots are unchanged. -/
def AddsFrom [Add K] (ring src ring' : ℕ → K) (n w m : ℕ) : Prop :=
  (∀ i < min m n, ring' ((w + i) % n) = ring ((w + i) % n) + src i) ∧
    ∀ j, (∀ i < min m n, j ≠ (w + i) % n) → ring' j = ring j

theorem copiesLast {dest ring : ℕ → K} {n w : ℕ} (hw : w < n) (m : ℕ) :
    CopiesLast dest ring (ForeignMemory.copyFromRingBuffer dest ring n w m) n w m := by
  intro i
  have hle := Nat.min_le_right m n
  have hslot : (((w : ℤ) - min m n + i) % n).toNat = (w + n - min m n + i) % n := by
    generalize min m n = k at *
    have hcast : (w : ℤ) - k + i = (w + n - k + i : ℕ) - n := by omega
    rw [hcast, Int.sub_emod_right, ← Int.natCast_mod, Int.toNat_natCast]
  rw [ForeignMemory.copyFromRingBuffer_eq hw, hslot]

theorem addsFrom [Add K] {ring src : ℕ → K} {n w m right : ℕ} (hw : w < n)
    (hright : right = min m (n - w)) :
    AddsFrom ring src (forEach (fun i x => x + src (right + i)) 0 (min m n - right)
      (forEach (fun i x => x + src (0 + i)) w right ring)) n w m := by
  have hle : min m n ≤ n := Nat.min_le_right m n
  have hfits : right ≤ min m n ∧ w + right ≤ n ∧ (right = min m n ∨ w + right = n) := by omega
  clear hright
  unfold AddsFrom
  generalize min m n = k at *
  constructor
  · intro i hi
    rw [slot_eq hw (by omega)]
    by_cases hin : i < right
    · rw [if_pos (by omega), forEach_apply, forEach_apply, if_neg (by omega), if_pos (by omega),
        Nat.zero_add, Nat.add_sub_cancel_left]
    · have hsource : right + (w + i - n - 0) = i := by omega
      rw [if_neg (by omega), forEach_apply, forEach_apply, if_pos (by omega), if_neg (by omega),
        hsource]
  · intro j hj
    rw [forEach_apply, forEach_apply, if_neg, if_neg]
    · intro hin
      refine hj (j - w) (by omega) ?_
      rw [slot_eq hw (by omega), if_pos (by omega)]
      omega
    · intro hin
      refine hj (right + j) (by omega) ?_
      rw [slot_eq hw (by omega), if_neg (by omega)]
      omega

/-- The block copies are the ones modulo the size of the ring buffer, and there are no accesses
outside the arrays. -/
theorem ringBufferCopies [Add K] (bufsize offset items : UInt64) (hoffset : offset < bufsize)
    (ring dest src : Block K width) (hsize : ring.size = bufsize.toNat)
    (hdest : min items.toNat bufsize.toNat ≤ dest.size)
    (hsrc : min items.toNat bufsize.toNat ≤ src.size) :
    (∃ dest', copyFromRingBuffer dest ring bufsize offset items = some dest' ∧
      CopiesLast dest.cells ring.cells dest'.cells bufsize.toNat offset.toNat items.toNat) ∧
    ∃ ring', copyToRingOutputBuffer ring src bufsize offset items = some ring' ∧
      AddsFrom ring.cells src.cells ring'.cells bufsize.toNat offset.toNat items.toNat := by
  have hlt : offset.toNat < bufsize.toNat := UInt64.lt_iff_toNat_lt.mp hoffset
  exact ⟨⟨_, copyFromRingBuffer_refines hsize hoffset hdest, copiesLast hlt _⟩,
    ⟨_, copyToRingOutputBuffer_eq hsize hoffset hsrc rfl, addsFrom hlt rfl⟩⟩

def fourSamples : Block ℤ 8 where
  size := 4
  cells i := i
  width_pos := Nat.succ_pos 7
  bytes_lt := by decide

theorem ringBufferCopies_wrapped :
    (∃ dest', copyFromRingBuffer fourSamples fourSamples 4 1 3 = some dest' ∧
      CopiesLast fourSamples.cells fourSamples.cells dest'.cells 4 1 3) ∧
    ∃ ring', copyToRingOutputBuffer fourSamples fourSamples 4 2 3 = some ring' ∧
      AddsFrom fourSamples.cells fourSamples.cells ring'.cells 4 2 3 :=
  ⟨(ringBufferCopies 4 1 3 (by decide) fourSamples fourSamples fourSamples rfl (by decide)
      (by decide)).1,
    (ringBufferCopies 4 2 3 (by decide) fourSamples fourSamples fourSamples rfl (by decide)
      (by decide)).2⟩

end

end Incudine.RingBufferCopy

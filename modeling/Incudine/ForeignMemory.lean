import Incudine.CircularArray
import Mathlib.Data.Nat.Bitwise

/-!
# Foreign memory

The copies of foreign arrays and the ring buffer of the input of a FFT. The memory of an array is a
function of the index.
-/

namespace Incudine.ForeignMemory

open CircularArray

def dotimes {σ : Type*} (body : ℕ → σ → σ) : ℕ → σ → σ
  | 0, s => s
  | n + 1, s => body n (dotimes body n s)

variable {K : Type*}

/-- The copy of `items` values. -/
def memcpy (dest : ℕ → K) (offset : ℕ) (src : ℕ → K) (start items : ℕ) (i : ℕ) : K :=
  if offset ≤ i ∧ i < offset + items then src (start + (i - offset)) else dest i

def applyZeroPadding [Zero K] (buf : ℕ → K) (offset size : ℕ) (i : ℕ) : K :=
  if offset ≤ i ∧ i < size then 0 else buf i

structure RingBuffer (K : Type*) where
  data : ℕ → K
  size : ℕ
  head : ℕ

def ringInputBufferPut (value : K) (buf : RingBuffer K) : RingBuffer K :=
  { buf with
    data := Function.update buf.data buf.head value
    head := (buf.head + 1) &&& (buf.size - 1) }

def copyFromRingBuffer (dest ringBuffer : ℕ → K) (bufsize writeOffset items : ℕ) : ℕ → K :=
  if bufsize ≤ items then
    if writeOffset = 0 then memcpy dest 0 ringBuffer 0 bufsize
    else
      let last := bufsize - writeOffset
      memcpy (memcpy dest 0 ringBuffer writeOffset last) last ringBuffer 0 writeOffset
  else if items < writeOffset then memcpy dest 0 ringBuffer (writeOffset - items) items
  else if writeOffset = 0 then memcpy dest 0 ringBuffer (bufsize - items) items
  else
    let os2 := items - writeOffset
    let os1 := bufsize - os2
    memcpy (memcpy dest 0 ringBuffer os1 os2) os2 ringBuffer 0 writeOffset

theorem dotimes_update (base : ℕ) (f d : ℕ → K) (n i : ℕ) :
    dotimes (fun i d => Function.update d (base + i) (f i)) n d i =
      if base ≤ i ∧ i < base + n then f (i - base) else d i := by
  induction n with
  | zero => rw [if_neg (by omega)]; rfl
  | succ n ih =>
    rw [dotimes, Function.update_apply, ih]
    split_ifs with h₁ h₂ h₃ h₄
    · rw [h₁, Nat.add_sub_cancel_left]
    · omega
    · rfl
    · omega
    · omega
    · rfl

theorem dotimes_update_add (base : ℕ) (f d : ℕ → K) {n i : ℕ} (hi : i < n) :
    dotimes (fun i d => Function.update d (base + i) (f i)) n d (base + i) = f i := by
  rw [dotimes_update, if_pos (by omega), Nat.add_sub_cancel_left]

theorem dotimes_update_of_not (base : ℕ) (f d : ℕ → K) {n i : ℕ} (hi : i < base ∨ base + n ≤ i) :
    dotimes (fun i d => Function.update d (base + i) (f i)) n d i = d i := by
  rw [dotimes_update, if_neg (by omega)]

section Blocks

variable {dest ring : ℕ → K} {start items rest n : ℕ}

theorem block_eq (h : start + items ≤ n) (i : ℕ) : memcpy dest 0 ring start items i =
    if i < items then ring ((start + i) % n) else dest i := by
  rw [memcpy, Nat.sub_zero, Nat.zero_add]
  by_cases hi : i < items
  · rw [if_pos ⟨Nat.zero_le i, hi⟩, if_pos hi, Nat.mod_eq_of_lt (by omega)]
  · rw [if_neg fun h => hi h.2, if_neg hi]

/-- The second block goes on from the start of the ring buffer. -/
theorem blocks_eq (h : start + items = n) (hrest : rest ≤ start) (i : ℕ) :
    memcpy (memcpy dest 0 ring start items) items ring 0 rest i =
      if i < items + rest then ring ((start + i) % n) else dest i := by
  rw [memcpy, block_eq h.le]
  by_cases hi : i < items
  · rw [if_neg (by omega), if_pos hi, if_pos (by omega)]
  by_cases hlast : i < items + rest
  · have hslot : start + i = 0 + (i - items) + n := by omega
    rw [if_pos (by omega), if_pos hlast, hslot, Nat.add_mod_right, Nat.mod_eq_of_lt (by omega)]
  · rw [if_neg (by omega), if_neg hi, if_neg hlast]

end Blocks

theorem copyFromRingBuffer_eq {dest ring : ℕ → K} {n w : ℕ} (hw : w < n) (m i : ℕ) :
    copyFromRingBuffer dest ring n w m i =
      if i < min m n then ring ((w + n - min m n + i) % n) else dest i := by
  rw [copyFromRingBuffer]
  by_cases hfull : n ≤ m
  · rw [if_pos hfull, Nat.min_eq_right hfull, Nat.add_sub_cancel]
    by_cases hzero : w = 0
    · rw [if_pos hzero, hzero]
      exact block_eq (Nat.zero_add n).le i
    · have hblocks := @blocks_eq K dest ring w (n - w) w n (Nat.add_sub_of_le hw.le) le_rfl i
      rw [Nat.sub_add_cancel hw.le] at hblocks
      rw [if_neg hzero]
      exact hblocks
  rw [if_neg hfull, Nat.min_eq_left (Nat.le_of_not_le hfull)]
  by_cases hless : m < w
  · have hslot : w + n - m + i = w - m + i + n := by omega
    rw [if_pos hless, hslot, Nat.add_mod_right]
    exact block_eq (by omega) i
  rw [if_neg hless]
  by_cases hzero : w = 0
  · rw [if_pos hzero, hzero, Nat.zero_add]
    exact block_eq (by omega) i
  · have hstart : n - (m - w) = w + n - m := by omega
    have hblocks := @blocks_eq K dest ring (w + n - m) (m - w) w n (by omega) (by omega) i
    rw [Nat.sub_add_cancel (Nat.le_of_not_lt hless)] at hblocks
    rw [if_neg hzero]
    simp only [hstart]
    exact hblocks

theorem copyFromRingBuffer_apply {dest data : ℕ → K} {size base items i : ℕ} (hitems : items ≤ size)
    (hi : i < items) :
    copyFromRingBuffer dest data size ((base + items) % size) items i =
      data ((base + i) % size) := by
  have hslot : (base + items) % size + size - items + i =
      (base + items) % size + (size - items + i) := by omega
  have hposition : base + items + (size - items + i) = base + i + size := by omega
  rw [copyFromRingBuffer_eq (Nat.mod_lt _ (by omega)), Nat.min_eq_left hitems, if_pos hi, hslot,
    Nat.mod_add_mod, hposition, Nat.add_mod_right]

end Incudine.ForeignMemory

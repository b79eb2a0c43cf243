import Mathlib.Algebra.Group.Nat.Defs
import Mathlib.Tactic.Common

/-!
# Bounded memory

A block of memory contains values of the same width in bytes, and the access outside the block is
undefined.
-/

namespace BoundedMemory

open Function

/-- The memory for `size` values of `width` bytes. The number of the bytes is a `size_t`. -/
structure Block (α : Type*) (width : ℕ) where
  size : ℕ
  cells : ℕ → α
  width_pos : 0 < width
  bytes_lt : size * width < 2 ^ 64

namespace Block

variable {α : Type*} {width : ℕ} {b dest src : Block α width} {i offset start items : ℕ}

def read (b : Block α width) (i : ℕ) : Option α :=
  if i < b.size then some (b.cells i) else none

def write (b : Block α width) (i : ℕ) (x : α) : Option (Block α width) :=
  if i < b.size then some { b with cells := update b.cells i x } else none

/-- The copy of the values in a number of bytes to another block. -/
def memcpy (dest : Block α width) (offset : ℕ) (src : Block α width) (start : ℕ) (bytes : UInt64) :
    Option (Block α width) :=
  let items := bytes.toNat / width
  if offset + items ≤ dest.size ∧ start + items ≤ src.size then
    some { dest with
      cells := fun i =>
        if offset ≤ i ∧ i < offset + items then src.cells (start + (i - offset))
        else dest.cells i }
  else none

theorem read_of_lt (h : i < b.size) : b.read i = some (b.cells i) := if_pos h

theorem write_of_lt (h : i < b.size) (x : α) :
    b.write i x = some { b with cells := update b.cells i x } := if_pos h

theorem toNat_bytes_div (b : Block α width) {items : UInt64} (h : items.toNat ≤ b.size) :
    (items * UInt64.ofNat width).toNat / width = items.toNat := by
  have hbytes : items.toNat * width < 2 ^ 64 :=
    Nat.lt_of_le_of_lt (Nat.mul_le_mul_right width h) b.bytes_lt
  cases Nat.eq_zero_or_pos items.toNat with
  | inl hzero =>
    obtain rfl : items = 0 := UInt64.toNat_inj.mp hzero
    rw [UInt64.zero_mul]
    exact Nat.zero_div width
  | inr hpos =>
    have hwidth : width < 2 ^ 64 := Nat.lt_of_le_of_lt (Nat.le_mul_of_pos_left width hpos) hbytes
    rw [UInt64.toNat_mul, UInt64.toNat_ofNat_of_lt' hwidth, Nat.mod_eq_of_lt hbytes,
      Nat.mul_div_cancel _ b.width_pos]

theorem memcpy_of_div_eq {bytes : UInt64} (hbytes : bytes.toNat / width = items)
    (hdest : offset + items ≤ dest.size) (hsrc : start + items ≤ src.size) :
    memcpy dest offset src start bytes = some { dest with
      cells := fun i =>
        if offset ≤ i ∧ i < offset + items then src.cells (start + (i - offset))
        else dest.cells i } := by
  subst hbytes
  exact if_pos ⟨hdest, hsrc⟩

theorem memcpy_of_le {items : UInt64} (hdest : offset + items.toNat ≤ dest.size)
    (hsrc : start + items.toNat ≤ src.size) :
    memcpy dest offset src start (items * UInt64.ofNat width) = some { dest with
      cells := fun i =>
        if offset ≤ i ∧ i < offset + items.toNat then src.cells (start + (i - offset))
        else dest.cells i } :=
  memcpy_of_div_eq (toNat_bytes_div dest (by omega)) hdest hsrc

/-- A value is copied to another cell of the block. -/
def move (b : Block α width) (i j : ℕ) : Block α width :=
  { b with cells := update b.cells i (b.cells j) }

@[simp] theorem size_move (b : Block α width) (i j : ℕ) : (b.move i j).size = b.size := rfl

end Block

end BoundedMemory

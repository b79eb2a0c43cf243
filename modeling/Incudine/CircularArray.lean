import Mathlib.Data.Int.ModEq
import Mathlib.Data.Nat.Size

/-!
# Circular arrays

A list stored in an array from a position that is never wrapped: the slot of position `i` is `i %
size`. The list is shorter than the array, therefore a store outside of the list does not change it.
-/

namespace Incudine.CircularArray

open Function

variable {α : Type*} {slots slots' : ℕ → α} {size start i j : ℕ} {l l₁ l₂ : List α}

/-- The list is stored from the slot of position `start`. -/
def Stores (slots : ℕ → α) (size : ℕ) : ℕ → List α → Prop
  | _, [] => True
  | start, a :: l => slots (start % size) = a ∧ Stores slots size (start + 1) l

theorem slot_ne (hlt : i < j) (hsize : j < i + size) : i % size ≠ j % size := by
  intro h
  have hdvd : size ∣ j - i := (Nat.modEq_iff_dvd' hlt.le).mp h
  have hle := Nat.le_of_dvd (by omega) hdvd
  omega

theorem slot_add (hj : j < size) : (i + j) % size = i % size + j ∧ i % size + j < size ∨
    (i + j) % size + size = i % size + j := by
  have hmod := Nat.mod_lt i (show 0 < size by omega)
  rw [← Nat.mod_add_mod]
  by_cases hlt : i % size + j < size
  · exact .inl ⟨Nat.mod_eq_of_lt hlt, hlt⟩
  · right
    rw [Nat.mod_eq_sub_mod (by omega), Nat.mod_eq_of_lt (by omega)]
    omega

theorem stores_append : Stores slots size start (l₁ ++ l₂) ↔
    Stores slots size start l₁ ∧ Stores slots size (start + l₁.length) l₂ := by
  induction l₁ generalizing start with
  | nil => simp [Stores]
  | cons a l ih =>
    rw [List.cons_append, Stores, Stores, ih, and_assoc, List.length_cons,
      Nat.add_right_comm start 1, Nat.add_assoc start]

theorem stores_of_get (h : ∀ i (hi : i < l.length), slots ((start + i) % size) = l[i]) :
    Stores slots size start l := by
  induction l generalizing start with
  | nil => trivial
  | cons a l ih =>
    refine ⟨h 0 (by simp), ih fun i hi => ?_⟩
    have := h (i + 1) (by simpa using hi)
    rwa [← Nat.add_assoc, Nat.add_right_comm] at this

/-- The source is copied to the slots from an offset. -/
def copyTo (slots : ℕ → α) (offset : ℕ) (src : List α) : ℕ → α := fun i =>
  if offset ≤ i then (src[i - offset]?).getD (slots i) else slots i

/-- The contents of `n` slots from an offset. -/
def copyFrom (slots : ℕ → α) (offset n : ℕ) : List α :=
  (List.range n).map fun i => slots (offset + i)

@[simp] theorem length_copyFrom (offset n : ℕ) : (copyFrom slots offset n).length = n := by
  simp [copyFrom]

theorem copyTo_of_lt {offset : ℕ} (hi : i < offset) : copyTo slots offset l i = slots i :=
  if_neg (by omega)

theorem copyTo_of_ge {offset : ℕ} (hi : offset + l.length ≤ i) :
    copyTo slots offset l i = slots i := by
  unfold copyTo
  split_ifs
  · rw [List.getElem?_eq_none (by omega), Option.getD_none]
  · rfl

theorem copyTo_self {offset : ℕ} (hi : i < l.length) : copyTo slots offset l (offset + i) = l[i] := by
  rw [copyTo, if_pos (by omega), Nat.add_sub_cancel_left, List.getElem?_eq_getElem hi,
    Option.getD_some]

theorem mod_add_of_block (hblock : start % size + i < size) :
    (start + i) % size = start % size + i := by
  rw [Nat.add_mod, Nat.mod_eq_of_lt (show i < size by omega), Nat.mod_eq_of_lt hblock]

section

variable (h : Stores slots size start l)
include h

theorem Stores.congr
    (hsame : ∀ i < l.length, slots' ((start + i) % size) = slots ((start + i) % size)) :
    Stores slots' size start l := by
  induction l generalizing start with
  | nil => trivial
  | cons a l ih =>
    refine ⟨(hsame 0 (by simp)).trans h.1, ih h.2 fun i hi => ?_⟩
    have := hsame (i + 1) (by simpa using hi)
    rwa [← Nat.add_assoc, Nat.add_right_comm] at this

theorem Stores.get (hi : i < l.length) : slots ((start + i) % size) = l[i] := by
  induction l generalizing start i with
  | nil => cases hi
  | cons a l ih =>
    cases i with
    | zero => exact h.1
    | succ i =>
      have := ih h.2 (Nat.lt_of_succ_lt_succ hi)
      rwa [Nat.add_right_comm] at this

theorem Stores.drop (n : ℕ) : Stores slots size (start + n) (l.drop n) := by
  rcases Nat.le_total n l.length with hn | hn
  · rw [← List.take_append_drop n l, stores_append, List.length_take_of_le hn] at h
    exact h.2
  · rw [List.drop_of_length_le hn]
    trivial

theorem Stores.update (hj : start + l.length ≤ j) (hsize : j < start + size) (a : α) :
    Stores (update slots (j % size) a) size start l :=
  h.congr fun i hi => update_of_ne (slot_ne (by omega) (by omega)) _ _

theorem Stores.push (hsize : l.length < size) (a : α) :
    Stores (Function.update slots ((start + l.length) % size) a) size start (l ++ [a]) :=
  stores_append.mpr ⟨h.update (Nat.le_refl _) (by omega) a, update_self _ _ _, trivial⟩

theorem Stores.copyTo (hj : start + l.length ≤ j) (hsize : j + l₁.length ≤ start + size)
    (hblock : j % size + l₁.length ≤ size) : Stores (copyTo slots (j % size) l₁) size start l := by
  refine h.congr fun i hi => ?_
  by_cases hlt : (start + i) % size < j % size
  · exact copyTo_of_lt hlt
  by_cases hge : j % size + l₁.length ≤ (start + i) % size
  · exact copyTo_of_ge hge
  exfalso
  obtain ⟨d, hd, hdlt⟩ : ∃ d, (start + i) % size = j % size + d ∧ d < l₁.length :=
    ⟨(start + i) % size - j % size, by omega, by omega⟩
  rw [← mod_add_of_block (by omega)] at hd
  exact slot_ne (by omega) (by omega) hd

end

theorem stores_copyTo (hblock : j % size + l.length ≤ size) :
    Stores (CircularArray.copyTo slots (j % size) l) size j l := by
  refine stores_of_get fun i hi => ?_
  rw [mod_add_of_block (by omega), copyTo_self hi]

theorem Stores.copyFrom_eq (h : Stores slots size start l) {n : ℕ} (hn : n ≤ l.length)
    (hblock : start % size + n ≤ size) : copyFrom slots (start % size) n = l.take n := by
  apply List.ext_getElem
  · rw [length_copyFrom, List.length_take_of_le hn]
  · intro i hi _
    rw [length_copyFrom] at hi
    simp only [copyFrom, List.getElem_map, List.getElem_range, List.getElem_take]
    rw [← mod_add_of_block (by omega), h.get (by omega)]

theorem and_mask {k : ℕ} (hsize : size = 2 ^ k) (i : ℕ) : i &&& (size - 1) = i % size := by
  rw [hsize, Nat.and_two_pow_sub_one_eq_mod]

theorem le_two_pow_size_pred (n : ℕ) : n ≤ 2 ^ (n - 1).size := by
  have := Nat.lt_size_self (n - 1)
  omega

end Incudine.CircularArray

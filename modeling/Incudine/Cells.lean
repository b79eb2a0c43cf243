import Mathlib.Tactic.Ring
import Mathlib.Tactic.Positivity

/-!
# Cells

Memory with an integer for each address, stretches of it with known contents, and the copies of
a stretch to overlapping addresses.
-/

namespace Incudine

abbrev Cells (α : Type*) := ℤ → α

namespace Cells

variable {α : Type*}

/-- The memory with a list stored from the address `start` on. -/
def store (mem : Cells α) (start : ℤ) (l : List α) : Cells α := fun k =>
  if start ≤ k then l.getD (k - start).toNat (mem k) else mem k

def read (mem : Cells α) (start : ℤ) (n : ℕ) : List α :=
  (List.range n).map fun k : ℕ => mem (start + k)

def Holds (mem : Cells α) (start : ℤ) (l : List α) : Prop :=
  ∀ k (h : k < l.length), mem (start + k) = l[k]

section Store

variable (mem : Cells α) (start : ℤ) (l : List α)

theorem store_of_lt {x : ℤ} (h : x < start) : mem.store start l x = mem x := if_neg (by omega)

theorem store_of_le {x : ℤ} (h : start + l.length ≤ x) : mem.store start l x = mem x := by
  have hstart : start ≤ x := by omega
  have hindex : l.length ≤ (x - start).toNat := by omega
  rw [store, if_pos hstart, List.getD_eq_getElem?_getD, List.getElem?_eq_none hindex,
    Option.getD_none]

theorem store_add {k : ℕ} (h : k < l.length) : mem.store start l (start + k) = l[k] := by
  have hstart : start ≤ start + k := by omega
  have hindex : (start + k - start).toNat = k := by omega
  rw [store, if_pos hstart, hindex, List.getD_eq_getElem?_getD, List.getElem?_eq_getElem h,
    Option.getD_some]

theorem store_self (a : α) : mem.store start [a] start = a := by
  have hcell := mem.store_add start [a] (k := 0) Nat.one_pos
  rw [Nat.cast_zero, add_zero] at hcell
  exact hcell

theorem holds_store : (mem.store start l).Holds start l := fun _ h => mem.store_add start l h

theorem store_store (l' : List α) :
    (mem.store start l).store (start + l.length) l' = mem.store start (l ++ l') := by
  funext x
  by_cases hlt : x < start + l.length
  · rw [store_of_lt _ _ _ hlt]
    by_cases hstart : x < start
    · rw [mem.store_of_lt start l hstart, mem.store_of_lt start _ hstart]
    · obtain ⟨k, hk⟩ := Int.eq_ofNat_of_zero_le (Int.sub_nonneg_of_le (Int.le_of_not_gt hstart))
      obtain rfl : x = start + k := by omega
      have hkl : k < l.length := by omega
      rw [store_add mem start l hkl, store_add mem start (l ++ l') (by
        rw [List.length_append]
        omega), List.getElem_append_left hkl]
  · by_cases hend : x < start + l.length + l'.length
    · obtain ⟨k, hk⟩ := Int.eq_ofNat_of_zero_le (Int.sub_nonneg_of_le (Int.le_of_not_gt hlt))
      obtain rfl : x = start + l.length + k := by omega
      have hkl : k < l'.length := by omega
      have hadd : start + (l.length : ℤ) + k = start + (l.length + k : ℕ) := by
        push_cast
        ring
      rw [store_add _ _ _ hkl, hadd, store_add mem start (l ++ l') (by
        rw [List.length_append]
        omega), List.getElem_append_right (Nat.le_add_right _ _)]
      simp only [Nat.add_sub_cancel_left]
    · rw [store_of_le _ _ _ (by omega), store_of_le _ _ _ (by omega),
        store_of_le _ _ _ (by rw [List.length_append]; push_cast; omega)]

end Store

section Holds

variable {mem mem' : Cells α} {start : ℤ} {l l' : List α}

theorem holds_nil : mem.Holds start [] := fun _ h => nomatch h

theorem holds_append :
    mem.Holds start (l ++ l') ↔ mem.Holds start l ∧ mem.Holds (start + l.length) l' := by
  constructor
  · intro h
    constructor
    · intro k hk
      have hlt : k < (l ++ l').length := by
        rw [List.length_append]
        omega
      rw [h k hlt, List.getElem_append_left hk]
    · intro k hk
      have hlt : l.length + k < (l ++ l').length := by
        rw [List.length_append]
        omega
      have hcell := h _ hlt
      rw [List.getElem_append_right (Nat.le_add_right _ _)] at hcell
      simp only [Nat.add_sub_cancel_left] at hcell
      rw [← hcell]
      congr 1
      omega
  · rintro ⟨h, h'⟩ k hk
    by_cases hlt : k < l.length
    · rw [List.getElem_append_left hlt, h k hlt]
    · have hle : l.length ≤ k := Nat.le_of_not_lt hlt
      have hsub : k - l.length < l'.length := by
        rw [List.length_append] at hk
        omega
      rw [List.getElem_append_right hle, ← h' _ hsub]
      congr 1
      omega

theorem Holds.drop (h : mem.Holds start l) {n : ℕ} (hn : n ≤ l.length) :
    mem.Holds (start + n) (l.drop n) := by
  rw [← List.take_append_drop n l, holds_append, List.length_take, Nat.min_eq_left hn] at h
  exact h.2

theorem holds_cons {a : α} :
    mem.Holds start (a :: l) ↔ mem start = a ∧ mem.Holds (start + 1) l := by
  have hone : mem.Holds start [a] ↔ mem start = a := by
    constructor
    · intro h
      have hcell := h 0 (by simp)
      simpa using hcell
    · rintro rfl k hk
      have hk0 : k = 0 := by simpa using hk
      subst hk0
      simp
  rw [← List.singleton_append, holds_append, hone]
  simp

theorem Holds.congr (h : mem.Holds start l)
    (hsame : ∀ x, start ≤ x → x < start + l.length → mem' x = mem x) : mem'.Holds start l := by
  intro k hk
  rw [hsame _ (by omega) (by omega)]
  exact h k hk

theorem Holds.store (h : mem.Holds start l) {other : ℤ}
    (hother : other + l'.length ≤ start ∨ start + l.length ≤ other) :
    (mem.store other l').Holds start l := by
  apply h.congr
  intro x hstart hx
  rcases hother with hother | hother
  · exact mem.store_of_le other l' (by omega)
  · exact mem.store_of_lt other l' (by omega)

theorem Holds.store_eq (h : mem.Holds start l) : mem.store start l = mem := by
  funext x
  by_cases hlt : x < start
  · exact mem.store_of_lt start l hlt
  · by_cases hend : start + l.length ≤ x
    · exact mem.store_of_le start l hend
    · have hk : (x - start).toNat < l.length := by omega
      have hx : x = start + (x - start).toNat := by omega
      rw [hx, store_add mem start l hk, h _ hk]

theorem Holds.read_eq (h : mem.Holds start l) : mem.read start l.length = l := by
  apply List.ext_getElem
  · rw [read, List.length_map, List.length_range]
  · intro k hk hk'
    simp only [read, List.getElem_map, List.getElem_range]
    exact h k hk'

theorem Holds.apply (h : mem.Holds start l) {x : ℤ} {k : ℕ} (hx : x = start + k)
    (hk : k < l.length) : mem x = l[k] := by
  rw [hx]
  exact h k hk

theorem holds_replicate {a : α} {n : ℕ} :
    mem.Holds start (List.replicate n a) ↔ ∀ x, start ≤ x → x < start + n → mem x = a := by
  constructor
  · intro h x hstart hx
    have hk : (x - start).toNat < (List.replicate n a).length := by
      rw [List.length_replicate]
      omega
    rw [h.apply (by omega) hk, List.getElem_replicate]
  · intro h k hk
    rw [List.length_replicate] at hk
    rw [List.getElem_replicate]
    exact h _ (by omega) (by omega)

@[simp] theorem length_read {n : ℕ} : (mem.read start n).length = n := by
  rw [read, List.length_map, List.length_range]

theorem holds_read (n : ℕ) : mem.Holds start (mem.read start n) := by
  intro k hk
  simp only [read, List.getElem_map, List.getElem_range]

end Holds

section Read

variable (mem : Cells α) (start : ℤ)

theorem read_add (m n : ℕ) : mem.read start (m + n) = mem.read start m ++ mem.read (start + m) n := by
  rw [read, List.range_add, List.map_append, List.map_map]
  congr 1
  apply List.map_congr_left
  intro k _
  rw [Function.comp_apply, Nat.cast_add, add_assoc]

theorem take_read {m n : ℕ} (h : m ≤ n) : (mem.read start n).take m = mem.read start m := by
  obtain ⟨k, rfl⟩ := Nat.exists_eq_add_of_le h
  rw [read_add]
  exact List.take_left' length_read

theorem read_store (n : ℕ) (l : List α) :
    (mem.store (start + n) l).read start (n + l.length) = mem.read start n ++ l := by
  have hbefore : (mem.store (start + n) l).Holds start (mem.read start n) :=
    (holds_read n).store (Or.inr (by rw [length_read]))
  have hafter : (mem.store (start + n) l).Holds (start + n) l := mem.holds_store _ l
  have hboth : (mem.store (start + n) l).Holds start (mem.read start n ++ l) := by
    rw [holds_append, length_read]
    exact ⟨hbefore, hafter⟩
  have hread := hboth.read_eq
  rw [List.length_append, length_read] at hread
  exact hread

end Read

/-- The cells from `start` to `start + n * size` are copied `distance` cells to the left, in
units of `size` cells and the first unit first. -/
def moveLeft (size : ℕ) (distance : ℤ) (mem : Cells α) (start : ℤ) : ℕ → Cells α
  | 0 => mem
  | n + 1 => moveLeft size distance (mem.store (start - distance) (mem.read start size))
      (start + size) n

/-- The cells from `start` to `start + n * size` are copied `distance` cells to the right, in
units of `size` cells and the last unit first. -/
def moveRight (size : ℕ) (distance : ℤ) (mem : Cells α) (start : ℤ) : ℕ → Cells α
  | 0 => mem
  | n + 1 => moveRight size distance
      (mem.store (start + size * n + distance) (mem.read (start + size * n) size)) start n

section Moves

variable {size : ℕ} {distance : ℤ} {mem : Cells α} {start : ℤ}

theorem store_read_apply (mem : Cells α) (start other : ℤ) (n : ℕ) {x : ℤ}
    (hstart : start ≤ x) (hx : x < start + n) :
    mem.store start (mem.read other n) x = mem (other + (x - start)) := by
  have hk : (x - start).toNat < (mem.read other n).length := by
    rw [length_read]
    omega
  have hcell : mem (other + (x - start).toNat) = (mem.read other n)[(x - start).toNat] :=
    holds_read n _ hk
  rw [(mem.holds_store start (mem.read other n)).apply (by omega) hk, ← hcell]
  congr 1
  omega

theorem store_read_of_not (mem : Cells α) (start other : ℤ) (n : ℕ) {x : ℤ}
    (hx : x < start ∨ start + n ≤ x) : mem.store start (mem.read other n) x = mem x := by
  rcases hx with hx | hx
  · exact mem.store_of_lt _ _ hx
  · apply mem.store_of_le
    rw [length_read]
    exact hx

theorem moveLeft_apply (h : 0 ≤ distance) (n : ℕ) (x : ℤ) :
    moveLeft size distance mem start n x =
      if start - distance ≤ x ∧ x < start - distance + n * size then mem (x + distance)
      else mem x := by
  induction n generalizing mem start with
  | zero =>
    rw [moveLeft, if_neg]
    push_cast
    omega
  | succ n ih =>
    have hsize : ((n + 1 : ℕ) : ℤ) * size = size + n * size := by
      push_cast
      ring
    have hrest : (0 : ℤ) ≤ n * size := by positivity
    rw [moveLeft, ih, hsize]
    by_cases hunit : start - distance ≤ x ∧ x < start - distance + size
    · rw [if_neg (by omega), if_pos (by omega), store_read_apply _ _ _ _ hunit.1 hunit.2]
      congr 1
      omega
    · rw [store_read_of_not mem (start - distance) start size (x := x) (by omega)]
      by_cases hlater : start + size - distance ≤ x ∧ x < start + size - distance + n * size
      · rw [if_pos hlater, if_pos (by omega), store_read_of_not _ _ _ _ (by omega)]
      · rw [if_neg hlater, if_neg (by omega)]

theorem moveRight_apply (h : 0 ≤ distance) (n : ℕ) (x : ℤ) :
    moveRight size distance mem start n x =
      if start + distance ≤ x ∧ x < start + distance + n * size then mem (x - distance)
      else mem x := by
  induction n generalizing mem with
  | zero =>
    rw [moveRight, if_neg]
    push_cast
    omega
  | succ n ih =>
    have hsize : ((n + 1 : ℕ) : ℤ) * size = n * size + size := by
      push_cast
      ring
    have hcomm : (size : ℤ) * n = n * size := mul_comm _ _
    have hrest : (0 : ℤ) ≤ n * size := by positivity
    rw [moveRight, ih, hsize, hcomm]
    by_cases hunit : start + n * size + distance ≤ x ∧ x < start + n * size + distance + size
    · rw [if_neg (by omega), if_pos (by omega), store_read_apply _ _ _ _ hunit.1 hunit.2]
      congr 1
      omega
    · rw [store_read_of_not mem _ (start + n * size) size (x := x) (by omega)]
      by_cases hearlier : start + distance ≤ x ∧ x < start + distance + n * size
      · rw [if_pos hearlier, if_pos (by omega), store_read_of_not _ _ _ _ (by omega)]
      · rw [if_neg hearlier, if_neg (by omega)]

end Moves

end Cells

end Incudine

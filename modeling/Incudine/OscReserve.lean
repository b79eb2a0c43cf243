import Incudine.OscStream

/-!
# Room for the values

What `osc_maybe_reserve_space` does to the memory and to the pointers when the size of a value
changes: the values after it and their pointers are moved, the last word of the value is zero and
the length of the element is adjusted.
-/

namespace Incudine.Osc

open Octets

section Reading

variable {mem : Memory} {a : ℤ}

theorem word_eq {n : ℕ} (h : mem.Holds a (bigEndian 4 n)) (hn : n < 0x100000000) :
    mem.word a = n := by
  have hread := h.read_eq
  rw [length_bigEndian] at hread
  rw [Memory.word, hread, ofBigEndian_bigEndian hn]

theorem toInt_eq {n : ℕ} (h : n < 0x80000000) : toInt n = n := if_pos h

theorem cString_eq {s : List Octet} (h : mem.Holds a (s ++ [0])) (hs : 0 ∉ s) {size : ℕ}
    (hsize : s.length < size) : Memory.cString mem size a = s := by
  induction s generalizing a size with
  | nil =>
    obtain ⟨size, rfl⟩ := Nat.exists_eq_succ_of_ne_zero hsize.ne'
    have hzero : mem a = 0 := (Cells.holds_cons.mp h).1
    rw [Memory.cString, if_pos hzero]
  | cons b s ih =>
    cases size with
    | zero => exact absurd hsize (Nat.not_lt_zero _)
    | succ size =>
      rw [List.cons_append, Cells.holds_cons] at h
      rw [List.mem_cons, not_or] at hs
      have hb : ¬ mem a = 0 := by
        rw [h.1]
        exact fun hb => hs.1 hb.symm
      rw [List.length_cons] at hsize
      rw [Memory.cString, if_neg hb, h.1, ih h.2 hs.2 (by omega)]

theorem cString_oscString {s : CString} (h : mem.Holds a (oscString s)) {size : ℕ}
    (hsize : s.val.length < size) : Memory.cString mem size a = s := by
  have hlt := lt_fixSize s.val.length
  have hzero : zeros (fixSize s.val.length - s.val.length) =
      [0] ++ zeros (fixSize s.val.length - s.val.length - 1) := by
    have hone : [(0 : Octet)] = zeros 1 := rfl
    rw [hone, zeros, zeros, zeros, ← List.replicate_add]
    congr 1
    omega
  rw [oscString, hzero, ← List.append_assoc, Cells.holds_append] at h
  exact cString_eq h.1 s.property hsize

end Reading

section Pointers

variable {free shift : ℤ} {later : List ℤ}

theorem shiftPointers_spec (hlater : ∀ p ∈ later, p < free) {fuel : ℕ}
    (hfuel : later.length < fuel) {i : ℤ} {data : Cells ℤ} (h : data.Holds i (later ++ [free])) :
    ∃ data', shiftPointers free shift fuel i data = (data', i + later.length) ∧
      data'.Holds i (later.map (· + 4 * shift) ++ [free]) ∧ ∀ k, k < i → data' k = data k := by
  induction later generalizing fuel i data with
  | nil =>
    obtain ⟨fuel, rfl⟩ := Nat.exists_eq_succ_of_ne_zero (Nat.ne_of_gt hfuel)
    have hfree : data i = free := (Cells.holds_cons.mp h).1
    refine ⟨data, ?_, h, fun _ _ => rfl⟩
    rw [shiftPointers, if_neg (by omega)]
    simp
  | cons p later ih =>
    cases fuel with
    | zero => exact absurd hfuel (Nat.not_lt_zero _)
    | succ fuel =>
      rw [List.cons_append, Cells.holds_cons] at h
      have hp : p < free := hlater p List.mem_cons_self
      have hrest : (data.store i [data i + 4 * shift]).Holds (i + 1) (later ++ [free]) :=
        h.2.store (Or.inl (by simp))
      have hfuel' : later.length < fuel := Nat.lt_of_succ_lt_succ hfuel
      obtain ⟨data', heq, hholds, hsame⟩ :=
        ih (fun q hq => hlater q (List.mem_cons_of_mem _ hq)) hfuel' hrest
      refine ⟨data', ?_, ?_, ?_⟩
      · rw [shiftPointers, if_pos (by omega), heq, List.length_cons]
        push_cast
        congr 1
        omega
      · rw [List.map_cons, List.cons_append, Cells.holds_cons]
        rw [hsame i (by omega), Cells.store_self, h.1]
        exact ⟨rfl, hholds⟩
      · intro k hk
        rw [hsame k (by omega)]
        exact data.store_of_lt i _ hk

end Pointers

section Lengths

variable {mem : Memory} {value stop diff : ℤ}

theorem oscFixLength_eq {before : List Message} {n fuel : ℕ} {start : ℤ}
    (h : mem.Holds start (elements before ++ bigEndian 4 n))
    (hbefore : (elements before).length < 0x80000000) (hn : n < 0x80000000)
    (hvalue : start + (elements before).length ≤ value)
    (hend : value < start + (elements before).length + n + 4)
    (hstop : value < stop) (hfuel : before.length < fuel) :
    oscFixLength value stop diff fuel start mem =
      mem.store (start + (elements before).length)
        (bigEndian 4 ((n + diff) % 0x100000000).toNat) := by
  induction before generalizing start fuel with
  | nil =>
    obtain ⟨fuel, rfl⟩ := Nat.exists_eq_succ_of_ne_zero (Nat.ne_of_gt hfuel)
    have hword : mem.word start = n := word_eq h (by omega)
    simp only [elements_nil, List.length_nil, Nat.cast_zero, add_zero] at hvalue hend ⊢
    rw [oscFixLength]
    simp only [hword, toInt_eq hn]
    rw [if_pos (by omega)]
  | cons m before ih =>
    cases fuel with
    | zero => exact absurd hfuel (Nat.not_lt_zero _)
    | succ fuel =>
      have hlength : (elements (m :: before)).length =
          4 + m.encode.length + (elements before).length := by
        rw [elements_cons, List.length_append, length_element]
      rw [hlength] at hbefore hvalue hend ⊢
      have hword : mem.word start = m.encode.length := by
        rw [elements_cons, element, List.append_assoc, List.append_assoc,
          Cells.holds_append] at h
        exact word_eq h.1 (by omega)
      rw [elements_cons, List.append_assoc, Cells.holds_append, length_element] at h
      push_cast at h hvalue hend ⊢
      have hfuel' : before.length < fuel := Nat.lt_of_succ_lt_succ hfuel
      have hnext : start + m.encode.length + 4 = start + (4 + m.encode.length) := by ring
      rw [oscFixLength]
      simp only [hword, toInt_eq (by omega : m.encode.length < 0x80000000), hnext]
      rw [if_neg (by omega), if_pos (by omega), ih h.2 (by omega) (by omega) (by omega) hfuel']
      congr 1
      ring

end Lengths

/-- A value at the address `pos` with `n` octets, before the other values. -/
structure Placed (mem : Memory) (data : Cells ℤ) (index pos : ℤ) (n : ℕ) (tail : List Octet)
    (later : List ℤ) : Prop where
  index_le : 2 ≤ index
  pos_eq : data index = pos
  mod : n % 4 = 0
  tail_holds : mem.Holds (pos + n) tail
  tail_mod : tail.length % 4 = 0
  later_lt : ∀ p ∈ later, p < pos + n + tail.length
  pointers : data.Holds (index + 1) (later ++ [pos + n + tail.length])
  free : data 1 = pos + n + tail.length

/-- The pointers after a value that has `n'` octets. -/
structure Repointed (data data' : Cells ℤ) (index pos : ℤ) (n n' : ℕ) (tail : List Octet)
    (later : List ℤ) : Prop where
  pointers : data'.Holds (index + 1) (later.map (· + ((n' : ℤ) - n)) ++ [pos + n' + tail.length])
  free : data' 1 = pos + n' + tail.length
  same : ∀ k, k ≠ 1 → k ≤ index → data' k = data k

/-- The size of the value is `n'` and the last word of it is zero. -/
structure Resized (mem mem' : Memory) (data data' : Cells ℤ) (index pos : ℤ) (n n' : ℕ)
    (tail : List Octet) (later : List ℤ) : Prop
    extends Repointed data data' index pos n n' tail later where
  tail_holds : mem'.Holds (pos + n') tail
  zero : mem'.Holds (pos + n' - 4) (zeros 4)
  before : ∀ x, x < pos → mem' x = mem x
  after : ∀ x, pos + n + tail.length ≤ x → pos + n' + tail.length ≤ x → mem' x = mem x

section Moves

variable {mem : Memory} {data : Cells ℤ} {index pos : ℤ} {n n' : ℕ} {tail : List Octet}
  {later : List ℤ} {maxValues : ℕ}

section

variable (h : Placed mem data index pos n tail later)
include h

theorem moveValues_memory (shift x : ℤ) :
    (moveValues maxValues mem data index (pos + n) shift).1 x =
      if pos + n + 4 * shift ≤ x ∧ x < pos + n + 4 * shift + tail.length
      then mem (x - 4 * shift) else mem x := by
  have hmod := h.tail_mod
  have hcount : (((data 1 - (pos + n) + 3) / 4).toNat : ℤ) * (4 : ℕ) = tail.length := by
    rw [h.free]
    omega
  by_cases hshift : shift < 0
  · have hdistance : (4 : ℤ) * ((-shift).toNat : ℕ) = -(4 * shift) := by omega
    simp only [moveValues, if_pos hshift, oscMoveDataLeft]
    rw [hdistance, Cells.moveLeft_apply (by omega), hcount, sub_neg_eq_add]
    rfl
  · have hdistance : (4 : ℤ) * (shift.toNat : ℕ) = 4 * shift := by omega
    simp only [moveValues, if_neg hshift, oscMoveDataRight]
    rw [hdistance, Cells.moveRight_apply (by omega), hcount]

theorem Placed.repointed : Repointed data data index pos n n tail later := by
  refine ⟨?_, h.free, fun _ _ _ => rfl⟩
  simp only [sub_self, add_zero, List.map_id']
  exact h.pointers

theorem moveValues_pointers {shift : ℤ} (hmax : later.length < maxValues + 3) {data' : Cells ℤ}
    (hdata' : (moveValues maxValues mem data index (pos + n) shift).2 = data') :
    data'.Holds (index + 1)
        (later.map (· + 4 * shift) ++ [pos + n + tail.length + 4 * shift]) ∧
      data' 1 = pos + n + tail.length + 4 * shift ∧
      ∀ k, k ≠ 1 → k ≤ index → data' k = data k := by
  obtain ⟨moved, heq, hholds, hsame⟩ :=
    @shiftPointers_spec _ shift _ h.later_lt _ hmax _ _ h.pointers
  have hindex := h.index_le
  rw [Cells.holds_append, Cells.holds_cons, List.length_map] at hholds
  obtain ⟨hlater, hlast, -⟩ := hholds
  have hdata : data' = (moved.store (index + 1 + later.length)
      [pos + n + tail.length + 4 * shift]).store 1 [pos + n + tail.length + 4 * shift] := by
    rw [← hdata', moveValues]
    simp only [h.free, heq, hlast]
  rw [hdata]
  refine ⟨?_, Cells.store_self _ 1 _, ?_⟩
  · apply Cells.Holds.store _ (Or.inl (by simp; omega))
    rw [Cells.holds_append, List.length_map]
    exact ⟨hlater.store (Or.inr (by rw [List.length_map])), Cells.holds_store _ _ _⟩
  · intro k hone hk
    have hcell : ∀ (mem : Cells ℤ) (a : ℤ), k ≠ a → mem.store a
        [pos + n + tail.length + 4 * shift] k = mem k := by
      intro mem a ha
      rcases lt_or_gt_of_ne ha with hlt | hlt
      · exact mem.store_of_lt a _ hlt
      · exact mem.store_of_le a _ (by simp; omega)
    rw [hcell _ _ hone, hcell _ _ (by omega), hsame k (by omega)]

theorem Placed.resized {shift : ℤ} (hshift : 4 * shift = (n' : ℤ) - n) (hn' : 4 ≤ n')
    (hmax : later.length < maxValues + 3) {moved : Memory × Cells ℤ}
    (hmoved : moved = if shift = 0 then (mem, data)
      else moveValues maxValues mem data index (pos + n) shift) :
    Resized mem (moved.1.store (pos + n + 4 * shift - 4) (zeros 4)) data moved.2 index pos n n'
      tail later := by
  have hend : pos + n + 4 * shift = pos + n' := by omega
  have hmem : ∀ x, moved.1 x = if pos + n' ≤ x ∧ x < pos + n' + tail.length
      then mem (x - 4 * shift) else mem x := by
    intro x
    rw [hmoved]
    by_cases hzero : shift = 0
    · rw [if_pos hzero, hzero, mul_zero, sub_zero, ite_self]
    · rw [if_neg hzero, moveValues_memory h, hend]
  have hstart : pos + n + 4 * shift - 4 = pos + n' - 4 := by omega
  rw [hstart]
  have hpointers : moved.2.Holds (index + 1)
        (later.map (· + 4 * shift) ++ [pos + n + tail.length + 4 * shift]) ∧
      moved.2 1 = pos + n + tail.length + 4 * shift ∧
      ∀ k, k ≠ 1 → k ≤ index → moved.2 k = data k := by
    rw [hmoved]
    by_cases hzero : shift = 0
    · rw [if_pos hzero, hzero]
      simp only [mul_zero, add_zero, List.map_id']
      exact ⟨h.pointers, h.free, fun _ _ _ => trivial⟩
    · rw [if_neg hzero]
      exact moveValues_pointers h hmax rfl
  have hlast : pos + n + tail.length + 4 * shift = pos + n' + tail.length := by omega
  rw [hshift, ← hshift, hlast] at hpointers
  refine ⟨⟨?_, hpointers.2.1, hpointers.2.2⟩, ?_, Cells.holds_store _ _ _, ?_, ?_⟩
  · rw [← hshift]
    exact hpointers.1
  · apply Cells.Holds.store _ (Or.inl (by rw [length_zeros]; omega))
    intro k hk
    rw [hmem, if_pos (by omega), ← h.tail_holds k hk]
    congr 1
    omega
  · intro x hx
    rw [Cells.store_of_lt _ _ _ (by omega), hmem, if_neg (by omega)]
  · intro x hx hx'
    rw [Cells.store_of_le _ _ _ (by rw [length_zeros]; omega), hmem, if_neg (by omega)]

theorem Placed.reserve {size : ℕ} {single last blob : Bool}
    (hold : oldSize size mem data index single last blob = n) (hn' : 4 ≤ n') (hmod : n' % 4 = 0)
    (hmax : later.length < maxValues + 3) :
    ∃ mem' data', Resized mem mem' data data' index pos n n' tail later ∧
      oscMaybeReserveSpace maxValues size mem data index n' single last blob =
        if single = false ∧ n ≠ n' then
          (oscFixLength pos (pos + n' + tail.length) ((n' : ℤ) - n) (size + 1) (-4) mem', data')
        else (mem', data') := by
  have hn := h.mod
  have hshift : 4 * ((n' : ℤ) - n).tdiv 4 = (n' : ℤ) - n := Int.mul_tdiv_cancel' (by omega)
  have hresized := h.resized hshift hn' hmax rfl
  refine ⟨_, _, hresized, ?_⟩
  have hpos := hresized.same index (by have := h.index_le; omega) le_rfl
  have hfree := hresized.free
  have hzero : ((n' : ℤ) - n).tdiv 4 ≠ 0 ↔ n ≠ n' := by omega
  rw [h.pos_eq] at hpos
  simp only [oscMaybeReserveSpace, hold, h.pos_eq, hpos, hfree]
  cases single with
  | true => simp
  | false => simp [hzero]

end

end Moves

end Incudine.Osc

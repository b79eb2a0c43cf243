import Incudine.BoundedMemory
import Incudine.CircularShift
import Mathlib.Tactic.Ring

/-!
# Bytes of a circular shift

The circular shift of a foreign array on the bytes of the array, with the bounds of the array and of
the temporary buffer. The counters of the loops are signed integers of 32 bits, and their overflow
is undefined.
-/

namespace Incudine.ForeignShift

open BoundedMemory

variable {α : Type*}

def toInt (n : ℕ) : ℤ := if n % 2 ^ 32 < 2 ^ 31 then n % 2 ^ 32 else n % 2 ^ 32 - 2 ^ 32

def toSize (i : ℤ) : ℕ := (i % 2 ^ 64).toNat

def int (i : ℤ) : Option ℤ := if -2 ^ 31 ≤ i ∧ i < 2 ^ 31 then some i else none

theorem toInt_of_lt {n : ℕ} (h : n < 2 ^ 31) : toInt n = n := by
  rw [toInt, if_pos (by omega)]
  omega

theorem toInt_of_le {n : ℕ} (h : 2 ^ 31 ≤ n) (hlt : n < 2 ^ 32) : toInt n = n - 2 ^ 32 := by
  rw [toInt, if_neg (by omega)]
  omega

theorem toSize_natCast {n : ℕ} (h : n < 2 ^ 64) : toSize n = n := by
  rw [toSize]
  omega

theorem int_eq {i : ℤ} (hle : -2 ^ 31 ≤ i) (hlt : i < 2 ^ 31) : int i = some i :=
  if_pos ⟨hle, hlt⟩

/-- `for (; i > bytes; i--) *--rptr = *--lptr`. A pointer is the number of the bytes before it, and
it is not decremented at the start of the array. -/
def rshiftLoop (bytes : ℕ) : (rptr lptr : ℕ) → Block α 1 → (i : ℤ) → Option (Block α 1)
  | rptr + 1, lptr + 1, buf, i =>
    if bytes < toSize i then
      if rptr < buf.size ∧ lptr < buf.size then
        (int (i - 1)).bind fun i => rshiftLoop bytes rptr lptr (buf.move rptr lptr) i
      else none
    else some buf
  | 0, _, buf, i => if bytes < toSize i then none else some buf
  | _, 0, buf, i => if bytes < toSize i then none else some buf

def circularRshift (buf tmp : Block α 1) (bytes size : ℕ) : Option (Block α 1) := do
  let rptr := size
  let lptr := rptr - bytes
  let tmp ← tmp.memcpy 0 buf lptr (UInt64.ofNat bytes)
  let buf ← rshiftLoop bytes rptr lptr buf (toInt size)
  buf.memcpy 0 tmp 0 (UInt64.ofNat bytes)

/-- `for (; i < bound; i++) *lptr++ = *rptr++`, with the last `lptr`. -/
def lshiftLoop (bound : ℕ) (buf : Block α 1) (lptr rptr : ℕ) (i : ℤ) :
    Option (Block α 1 × ℕ) :=
  if toSize i < bound then
    if lptr < buf.size ∧ rptr < buf.size then
      (int (i + 1)).bind fun i =>
        lshiftLoop bound (buf.move lptr rptr) (lptr + 1) (rptr + 1) i
    else none
  else some (buf, lptr)
termination_by buf.size - rptr
decreasing_by
  rw [Block.size_move]
  omega

def circularLshift (buf tmp : Block α 1) (bytes size : ℕ) : Option (Block α 1) := do
  let lptr := 0
  let rptr := lptr + bytes
  let tmp ← tmp.memcpy 0 buf 0 (UInt64.ofNat bytes)
  let (buf, lptr) ← lshiftLoop (size - bytes) buf lptr rptr 0
  buf.memcpy lptr tmp 0 (UInt64.ofNat bytes)

/-- The number of positions for an array that is shorter than it. -/
def reducedShift (size : ℕ) (n : ℤ) : ℤ := if size < n.natAbs then n % size else n

/-- The other direction requires less space for the temporary buffer. -/
def shortestShift (size : ℕ) (n : ℤ) : ℤ :=
  if size / 2 < n.natAbs then if 0 < n then n - size else n + size else n

/-- The memory of a temporary buffer is not cleared. -/
def foreignAlloc (memory : ℕ → α) (bytes : ℕ) (h : bytes < 2 ^ 32) : Block α 1 where
  size := bytes
  cells := memory
  width_pos := Nat.one_pos
  bytes_lt := by omega

theorem size_foreignAlloc (memory : ℕ → α) (bytes : ℕ) (h : bytes < 2 ^ 32) :
    (foreignAlloc memory bytes h).size = bytes := rfl

/-- The local function with the allocation of the temporary buffer. The numbers of bytes are passed
to the foreign functions as `unsigned int`. -/
def circshift (ptr : Block α 1) (memory : ℕ → α) (bytes len : ℕ) (n : ℤ) :
    Option (Block α 1 × ℕ) :=
  if h : bytes < 2 ^ 32 ∧ len < 2 ^ 32 then
    let tmp := foreignAlloc memory bytes h.1
    let ptr :=
      if 0 < n then circularRshift ptr tmp bytes len else circularLshift ptr tmp bytes len
    ptr.map fun ptr => (ptr, bytes)
  else none

def foreignCircularShift (ptr : Block α 1) (memory : ℕ → α) (tsize size : ℕ) (n : ℤ) :
    Option (Block α 1 × ℕ) :=
  if size < 2 ^ 62 ∧ n.natAbs < 2 ^ 62 then
    let n := reducedShift size n
    if n.natAbs = 0 then some (ptr, 0)
    else
      let n := shortestShift size n
      let bytes := n.natAbs * tsize
      let len := size * tsize
      circshift ptr memory bytes len n
  else none

section Loops

variable {buf tmp : Block α 1} {bytes size : ℕ}

theorem rshiftLoop_eq (lptr : ℕ) (hsize : lptr + bytes ≤ buf.size) (hlt : lptr + bytes < 2 ^ 31) :
    rshiftLoop bytes (lptr + bytes) lptr buf ((lptr + bytes : ℕ) : ℤ) = some { buf with
      cells := fun x =>
        if bytes ≤ x ∧ x < lptr + bytes then buf.cells (x - bytes) else buf.cells x } := by
  induction lptr generalizing buf with
  | zero =>
    have hstop : ¬ bytes < toSize ((0 + bytes : ℕ) : ℤ) := by
      rw [toSize_natCast (by omega)]
      omega
    have hcells : (fun x => if bytes ≤ x ∧ x < 0 + bytes then buf.cells (x - bytes)
        else buf.cells x) = buf.cells := funext fun x => if_neg (by omega)
    rw [hcells]
    cases hbytes : 0 + bytes with
    | zero =>
      rw [hbytes] at hstop
      rw [rshiftLoop, if_neg hstop]
    | succ r =>
      rw [hbytes] at hstop
      rw [rshiftLoop, if_neg hstop]
      exact Nat.succ_ne_zero _
  | succ lptr ih =>
    have hsucc : lptr + 1 + bytes = lptr + bytes + 1 := by omega
    have hpred : ((lptr + bytes + 1 : ℕ) : ℤ) - 1 = (lptr + bytes : ℕ) := by omega
    rw [hsucc, rshiftLoop, if_pos (by rw [toSize_natCast (by omega)]; omega),
      if_pos (by omega), hpred, int_eq (by omega) (by omega), Option.bind_some,
      ih (by rw [Block.size_move]; omega) (by omega)]
    congr 2
    funext x
    simp only [Block.move]
    by_cases hlast : x = lptr + bytes
    · rw [if_neg (by omega), if_pos (by omega), hlast, Function.update_self,
        Nat.add_sub_cancel_right]
    · rw [Function.update_of_ne hlast]
      by_cases hin : bytes ≤ x ∧ x < lptr + bytes
      · rw [if_pos hin, if_pos (by omega), Function.update_of_ne (by omega)]
      · rw [if_neg hin, if_neg (by omega)]

theorem rshiftLoop_none (k lptr : ℕ) (hk : k < 2 ^ 31) (hbytes : bytes < 2 ^ 31) :
    rshiftLoop bytes (2 ^ 31 + k) lptr buf (k - 2 ^ 31 : ℤ) = none := by
  have hloop : bytes < toSize (k - 2 ^ 31 : ℤ) := by
    rw [toSize]
    omega
  induction k generalizing lptr buf with
  | zero =>
    obtain ⟨r, hr⟩ : ∃ r, 2 ^ 31 + 0 = r + 1 := ⟨2 ^ 31 - 1, rfl⟩
    have hover : int (((0 : ℕ) : ℤ) - 2 ^ 31 - 1) = none := if_neg (by omega)
    rw [hr]
    cases lptr with
    | zero =>
      rw [rshiftLoop, if_pos hloop]
      exact Nat.succ_ne_zero _
    | succ lptr =>
      rw [rshiftLoop, if_pos hloop, hover, Option.bind_none, ite_self]
  | succ k ih =>
    have hpred : ((k + 1 : ℕ) : ℤ) - 2 ^ 31 - 1 = k - 2 ^ 31 := by omega
    rw [show 2 ^ 31 + (k + 1) = (2 ^ 31 + k) + 1 from rfl]
    cases lptr with
    | zero =>
      rw [rshiftLoop, if_pos hloop]
      exact Nat.succ_ne_zero _
    | succ lptr =>
      rw [rshiftLoop, if_pos hloop, hpred, int_eq (by omega) (by omega), Option.bind_some,
        ih _ (by omega) (by rw [toSize]; omega), ite_self]

theorem lshiftLoop_eq {bound i d : ℕ} (hd : i + d = bound) (hsize : bytes + bound ≤ buf.size)
    (hlt : bound < 2 ^ 31) :
    lshiftLoop bound buf i (bytes + i) i = some ({ buf with
      cells := fun x =>
        if i ≤ x ∧ x < bound then buf.cells (bytes + x) else buf.cells x }, bound) := by
  induction d generalizing buf i with
  | zero =>
    obtain rfl : i = bound := hd
    have hcells : (fun x => if i ≤ x ∧ x < i then buf.cells (bytes + x)
        else buf.cells x) = buf.cells := funext fun x => if_neg (by omega)
    rw [hcells, lshiftLoop, if_neg (by rw [toSize_natCast (by omega)]; omega)]
  | succ d ih =>
    rw [lshiftLoop, if_pos (by rw [toSize_natCast (by omega)]; omega), if_pos (by omega),
      int_eq (by omega) (by omega), Option.bind_some]
    have hnext := @ih (buf.move i (bytes + i)) (i + 1) (by omega)
      (by rw [Block.size_move]; exact hsize)
    rw [Nat.cast_add, Nat.cast_one, ← Nat.add_assoc] at hnext
    rw [hnext]
    congr 3
    funext x
    simp only [Block.move]
    by_cases hfirst : x = i
    · rw [if_neg (by omega), if_pos (by omega), hfirst, Function.update_self]
    · rw [Function.update_of_ne hfirst]
      by_cases hin : i + 1 ≤ x ∧ x < bound
      · rw [if_pos hin, if_pos (by omega), Function.update_of_ne (by omega)]
      · rw [if_neg hin, if_neg (by omega)]

theorem lshiftLoop_none {bound i d lptr rptr : ℕ} (hd : i + d = 2 ^ 31 - 1)
    (hbound : 2 ^ 31 ≤ bound) : lshiftLoop bound buf lptr rptr i = none := by
  have hloop : toSize (i : ℤ) < bound := by
    rw [toSize_natCast (by omega)]
    omega
  induction d generalizing buf i lptr rptr with
  | zero =>
    have hover : int ((i : ℤ) + 1) = none := if_neg (by omega)
    rw [lshiftLoop, if_pos hloop, hover, Option.bind_none, ite_self]
  | succ d ih =>
    have hnext := @ih (buf.move lptr rptr) (i + 1) (lptr + 1) (rptr + 1) (by omega)
      (by rw [toSize_natCast (by omega)]; omega)
    rw [Nat.cast_add, Nat.cast_one] at hnext
    rw [lshiftLoop, if_pos hloop, int_eq (by omega) (by omega), Option.bind_some, hnext, ite_self]

theorem toNat_bytes (h : bytes < 2 ^ 32) : (UInt64.ofNat bytes).toNat / 1 = bytes := by
  rw [Nat.div_one, UInt64.toNat_ofNat_of_lt' (lt_trans h (by decide))]

theorem circularRshift_eq (hbuf : buf.size = size) (htmp : tmp.size = bytes) (hle : bytes ≤ size)
    (hsize : size < 2 ^ 31) : circularRshift buf tmp bytes size =
      some { buf with cells := CircularShift.circularRshift buf.cells bytes size } := by
  have hdiv := toNat_bytes (show bytes < 2 ^ 32 by omega)
  have hloop := @rshiftLoop_eq _ buf bytes (size - bytes) (by omega) (by omega)
  rw [Nat.sub_add_cancel hle] at hloop
  rw [circularRshift, toInt_of_lt hsize]
  simp only [Option.bind_eq_bind]
  rw [Block.memcpy_of_div_eq hdiv (by omega) (by omega), Option.bind_some, hloop, Option.bind_some,
    Block.memcpy_of_div_eq hdiv (by simp only; omega) (by simp only; omega)]
  congr 2
  funext x
  simp only [CircularShift.circularRshift, ForeignMemory.memcpy,
    CircularShift.rshift_loop buf.cells (show size - bytes + bytes ≤ size by omega)]
  by_cases hin : 0 ≤ x ∧ x < 0 + bytes
  · rw [if_pos hin, if_pos hin, if_pos (by omega), if_pos (by omega)]
  · rw [if_neg hin, if_neg hin, Nat.sub_sub_self hle]

theorem circularRshift_none (hlt : bytes < 2 ^ 31) (hle : 2 ^ 31 ≤ size) (hsize : size < 2 ^ 32) :
    circularRshift buf tmp bytes size = none := by
  have hnone := fun buf : Block α 1 =>
    @rshiftLoop_none _ buf bytes (size - 2 ^ 31) (size - bytes) (by omega) hlt
  have hcast : ((size - 2 ^ 31 : ℕ) : ℤ) - 2 ^ 31 = size - 2 ^ 32 := by omega
  rw [Nat.add_sub_cancel' hle, hcast] at hnone
  rw [circularRshift, toInt_of_le hle hsize]
  simp only [hnone, Option.bind_eq_bind, Option.bind_none, Option.bind_fun_none]

theorem circularLshift_eq (hbuf : buf.size = size) (htmp : tmp.size = bytes) (hle : bytes ≤ size)
    (hbytes : bytes < 2 ^ 32) (hsize : size - bytes < 2 ^ 31) : circularLshift buf tmp bytes size =
      some { buf with cells := CircularShift.circularLshift buf.cells bytes size } := by
  have hdiv := toNat_bytes hbytes
  have hloop := @lshiftLoop_eq _ buf bytes (size - bytes) 0 (size - bytes) (by omega) (by omega)
    hsize
  rw [circularLshift]
  simp only [Option.bind_eq_bind]
  rw [Nat.add_zero, Nat.cast_zero] at hloop
  rw [Block.memcpy_of_div_eq hdiv (by omega) (by omega), Option.bind_some, Nat.zero_add, hloop,
    Option.bind_some, Block.memcpy_of_div_eq hdiv (by simp only; omega) (by simp only; omega)]
  congr 2
  funext x
  simp only [CircularShift.circularLshift, ForeignMemory.memcpy, CircularShift.lshift_loop]
  by_cases hin : size - bytes ≤ x ∧ x < size - bytes + bytes
  · rw [if_pos hin, if_pos hin, if_pos (by omega), if_pos (by omega)]
  · rw [if_neg hin, if_neg hin]
    exact if_congr (by omega) rfl rfl

theorem circularLshift_none (hsize : 2 ^ 31 ≤ size - bytes) :
    circularLshift buf tmp bytes size = none := by
  have hnone := fun buf : Block α 1 =>
    @lshiftLoop_none _ buf (size - bytes) 0 (2 ^ 31 - 1) 0 (0 + bytes) (by omega) hsize
  rw [Nat.cast_zero] at hnone
  rw [circularLshift]
  simp only [hnone, Option.bind_eq_bind, Option.bind_none, Option.bind_fun_none]

end Loops

section Direction

variable {size : ℕ} {n : ℤ}

def ToRight (size : ℕ) (n : ℤ) : Prop :=
  if n.natAbs ≤ size ∧ n < 0 then size / 2 < n.natAbs ∧ n.natAbs < size
  else 0 < n % size ∧ n % size ≤ (size / 2 : ℕ)

instance (size : ℕ) (n : ℤ) : Decidable (ToRight size n) := by
  unfold ToRight
  infer_instance

theorem emod_of_natAbs_lt (h : n.natAbs < size) :
    n % size = if 0 ≤ n then n else n + size := by
  split_ifs with hn
  · exact Int.emod_eq_of_lt hn (by omega)
  · rw [← Int.add_emod_right, Int.emod_eq_of_lt (by omega) (by omega)]

theorem reducedShift_eq_zero (hsize : 0 < size) :
    (reducedShift size n).natAbs = 0 ↔ n % size = 0 ∧ n.natAbs ≠ size := by
  rw [reducedShift]
  by_cases hlt : size < n.natAbs
  · rw [if_pos hlt]
    omega
  rw [if_neg hlt]
  by_cases heq : n.natAbs = size
  · omega
  · rw [emod_of_natAbs_lt (by omega)]
    split_ifs <;> omega

theorem reducedShift_modEq (size : ℕ) (n : ℤ) : reducedShift size n ≡ n [ZMOD size] := by
  rw [reducedShift]
  split_ifs
  · exact Int.mod_modEq n size
  · exact Int.ModEq.refl n

theorem shortestShift_modEq (size : ℕ) (n : ℤ) : shortestShift size n ≡ n [ZMOD size] := by
  rw [shortestShift]
  split_ifs
  · exact Int.sub_modulus_modEq_iff.mpr (Int.ModEq.refl n)
  · exact Int.add_modulus_modEq_iff.mpr (Int.ModEq.refl n)
  · exact Int.ModEq.refl n

theorem not_toRight_of_natAbs_eq (h : n.natAbs = size) : ¬ ToRight size n ∧ -n % size = 0 := by
  have hdvd : (size : ℤ) ∣ n := by
    rw [← h]
    exact Int.natAbs_dvd.mpr (Int.dvd_refl _)
  refine ⟨?_, Int.emod_eq_zero_of_dvd (Int.dvd_neg.mpr hdvd)⟩
  rw [ToRight, Int.emod_eq_zero_of_dvd hdvd]
  split_ifs <;> omega

theorem shortestShift_bounds {n₁ n₂ : ℤ} (h : n₁.natAbs < size) (hn₂ : n₂ = shortestShift size n₁) :
    2 * n₂.natAbs ≤ size ∧
      (0 < n₂ ↔ if n₁ < 0 then size / 2 < n₁.natAbs else 0 < n₁ ∧ n₁ ≤ (size / 2 : ℕ)) ∧
      (¬ 0 < n₂ → n₂.natAbs = (-n₁ % size).toNat) := by
  rw [emod_of_natAbs_lt (show (-n₁).natAbs < size by omega)]
  rw [shortestShift] at hn₂
  by_cases hback : n₁ < 0
  · rw [if_pos hback, if_pos (by omega)]
    split_ifs at hn₂ <;> omega
  · rw [if_neg hback]
    split_ifs at hn₂ ⊢ <;> omega

theorem shortestShift_spec (hsize : 0 < size) {n₂ : ℤ}
    (hn₂ : n₂ = shortestShift size (reducedShift size n)) :
    n₂ ≡ n [ZMOD size] ∧ 2 * n₂.natAbs ≤ size ∧ (0 < n₂ ↔ ToRight size n) ∧
      (¬ 0 < n₂ → n₂.natAbs = (-n % size).toNat) := by
  have hmod := reducedShift_modEq size n
  refine ⟨hn₂ ▸ (shortestShift_modEq size _).trans hmod, ?_⟩
  obtain ⟨n₁, hn₁⟩ : ∃ n₁, n₁ = reducedShift size n := ⟨_, rfl⟩
  rw [← hn₁] at hn₂ hmod
  rw [reducedShift] at hn₁
  have hneg : -n % size = -n₁ % size := hmod.neg.symm
  clear hmod
  by_cases hlt : size < n.natAbs
  · rw [if_pos hlt] at hn₁
    have hnonneg : 0 ≤ n₁ := hn₁ ▸ Int.emod_nonneg n (by omega)
    have hmodlt : n₁ < size := hn₁ ▸ Int.emod_lt_of_pos n (by omega)
    have hbounds := shortestShift_bounds (by omega) hn₂
    rw [if_neg (by omega)] at hbounds
    rw [ToRight, if_neg (by omega), ← hn₁, hneg]
    exact hbounds
  rw [if_neg hlt] at hn₁
  subst hn₁
  by_cases hturn : n₁.natAbs = size
  · obtain ⟨hright, hemod⟩ := not_toRight_of_natAbs_eq hturn
    have hzero : n₂ = 0 := by
      rw [shortestShift] at hn₂
      split_ifs at hn₂ <;> omega
    rw [hzero, hemod]
    exact ⟨by omega, iff_of_false (by omega) hright, fun _ => rfl⟩
  · obtain ⟨hle, hright, hleft⟩ := shortestShift_bounds (by omega) hn₂
    refine ⟨hle, hright.trans ?_, hleft⟩
    rw [ToRight]
    by_cases hback : n₁ < 0
    · rw [if_pos hback, if_pos (by omega)]
      exact iff_self_and.mpr fun _ => by omega
    · rw [if_neg hback, if_neg (by omega), Int.emod_eq_of_lt (by omega) (by omega)]

end Direction

section Rotation

variable {ptr ptr' : Block α 1} {memory : ℕ → α} {tsize size : ℕ} {n : ℤ}

/-- The bytes of the element `i` are the ones of the element `i + n`, modulo the size. -/
def Rotates (ptr ptr' : Block α 1) (tsize size : ℕ) (n : ℤ) : Prop :=
  ∀ i < size, ∀ j < tsize,
    ptr'.cells ((((i : ℤ) + n) % size).toNat * tsize + j) = ptr.cells (i * tsize + j)

/-- The function ends with a rotation through a buffer of at most half of the array. -/
def Shifts (ptr : Block α 1) (memory : ℕ → α) (tsize size : ℕ) (n : ℤ) : Prop :=
  ∃ ptr' tmp, foreignCircularShift ptr memory tsize size n = some (ptr', tmp) ∧
    2 * tmp ≤ size * tsize ∧ Rotates ptr ptr' tsize size n

theorem rotates_of_bytes {n₂ : ℤ} (hmod : n₂ ≡ n [ZMOD size])
    (h : ∀ x < size * tsize,
      ptr'.cells x = ptr.cells (((x : ℤ) - n₂ * tsize) % (size * tsize : ℕ)).toNat) :
    Rotates ptr ptr' tsize size n := by
  intro i hi j hj
  have hsize : (0 : ℤ) < size := by omega
  obtain ⟨q, hq⟩ : ∃ q : ℕ, (q : ℤ) = ((i : ℤ) + n) % size :=
    ⟨_, Int.toNat_of_nonneg (Int.emod_nonneg _ hsize.ne')⟩
  have hqlt : q < size := by
    have := Int.emod_lt_of_pos ((i : ℤ) + n) hsize
    omega
  rw [← hq, Int.toNat_natCast]
  have hback : (q : ℤ) - n₂ ≡ i [ZMOD size] := by
    rw [hq]
    have := ((Int.mod_modEq ((i : ℤ) + n) size)).sub hmod
    rwa [Int.add_sub_cancel] at this
  obtain ⟨c, hc⟩ := hback.symm.dvd
  have hlt : ∀ {k : ℕ}, k < size → k * tsize + j < size * tsize := fun {k} hk => by
    calc k * tsize + j < k * tsize + tsize := by omega
      _ = (k + 1) * tsize := by ring
      _ ≤ size * tsize := Nat.mul_le_mul_right tsize hk
  rw [h _ (hlt hqlt), CircularShift.toNat_emod_eq (hlt hi) c]
  have hq' : (q : ℤ) = i + n₂ + size * c := by omega
  push_cast
  rw [hq']
  ring

theorem circshift_iff {n₂ : ℤ} (hptr : ptr.size = size * tsize) (hhalf : 2 * n₂.natAbs ≤ size)
    (hmod : n₂ ≡ n [ZMOD size]) :
    (∃ ptr' tmp, circshift ptr memory (n₂.natAbs * tsize) (size * tsize) n₂ = some (ptr', tmp) ∧
      2 * tmp ≤ size * tsize ∧ Rotates ptr ptr' tsize size n) ↔
    size * tsize < 2 ^ 32 ∧ if 0 < n₂ then size * tsize < 2 ^ 31
      else (size - n₂.natAbs) * tsize < 2 ^ 31 := by
  have hbytes : 2 * (n₂.natAbs * tsize) ≤ size * tsize := by
    rw [← Nat.mul_assoc]
    exact Nat.mul_le_mul_right tsize hhalf
  rw [circshift]
  by_cases hlen : size * tsize < 2 ^ 32
  swap
  · rw [dif_neg (fun h => hlen h.2)]
    exact iff_of_false (fun ⟨_, _, h, _⟩ => nomatch h) fun h => hlen h.1
  rw [dif_pos ⟨by omega, hlen⟩, and_iff_right hlen]
  simp only
  by_cases hpos : 0 < n₂
  · rw [if_pos hpos, if_pos hpos]
    by_cases hint : size * tsize < 2 ^ 31
    · refine iff_of_true ?_ hint
      rw [circularRshift_eq hptr (size_foreignAlloc _ _ _) (by omega) hint, Option.map_some]
      refine ⟨_, _, rfl, hbytes, rotates_of_bytes hmod fun x hx => ?_⟩
      simp only
      rw [CircularShift.circularRshift_apply _ (by omega) hx]
      congr 3
      push_cast
      rw [abs_of_pos hpos]
    · refine iff_of_false ?_ hint
      rw [circularRshift_none (by omega) (by omega) hlen]
      exact fun ⟨_, _, h, _⟩ => nomatch h
  · rw [if_neg hpos, if_neg hpos, Nat.sub_mul]
    by_cases hint : size * tsize - n₂.natAbs * tsize < 2 ^ 31
    · refine iff_of_true ?_ hint
      rw [circularLshift_eq hptr (size_foreignAlloc _ _ _) (by omega) (by omega) hint,
        Option.map_some]
      refine ⟨_, _, rfl, hbytes, rotates_of_bytes hmod fun x hx => ?_⟩
      simp only
      rw [CircularShift.circularLshift_apply _ (by omega) hx]
      congr 3
      push_cast
      rw [abs_of_nonpos (not_lt.mp hpos)]
      ring
    · refine iff_of_false ?_ hint
      rw [circularLshift_none (by omega)]
      exact fun ⟨_, _, h, _⟩ => nomatch h

/-- The condition on the arguments. Without a shift there is no condition on the bytes. -/
def Fits (tsize size : ℕ) (n : ℤ) : Prop :=
  size < 2 ^ 62 ∧ n.natAbs < 2 ^ 62 ∧
    (n % size = 0 ∧ n.natAbs ≠ size ∨
      size * tsize < 2 ^ 32 ∧
        if ToRight size n then size * tsize < 2 ^ 31
        else (size - (-n % size).toNat) * tsize < 2 ^ 31)

/-- The array is rotated iff the numbers are fixnums, the number of the bytes is an `unsigned int`
and the counter of the loop is an `int`. -/
theorem shifts_iff (ptr : Block α 1) (memory : ℕ → α) (n : ℤ) (hsize : 0 < size)
    (hptr : ptr.size = size * tsize) : Shifts ptr memory tsize size n ↔ Fits tsize size n := by
  rw [Shifts, Fits, foreignCircularShift]
  by_cases hfix : size < 2 ^ 62 ∧ n.natAbs < 2 ^ 62
  swap
  · rw [if_neg hfix]
    exact iff_of_false (fun ⟨_, _, h, _⟩ => nomatch h) fun h => hfix ⟨h.1, h.2.1⟩
  rw [if_pos hfix, and_iff_right hfix.1, and_iff_right hfix.2]
  simp only
  by_cases hzero : (reducedShift size n).natAbs = 0
  · have hturn := (reducedShift_eq_zero hsize).mp hzero
    rw [if_pos hzero]
    have hmod : (0 : ℤ) ≡ n [ZMOD size] :=
      (Int.modEq_zero_iff_dvd.mpr (Int.dvd_of_emod_eq_zero hturn.1)).symm
    refine iff_of_true ⟨ptr, 0, rfl, by omega, rotates_of_bytes hmod fun x hx => ?_⟩ (.inl hturn)
    rw [CircularShift.toNat_emod_eq hx 0 (by omega)]
  rw [if_neg hzero, or_iff_right (fun h => hzero ((reducedShift_eq_zero hsize).mpr h))]
  obtain ⟨hmod, hhalf, hright, hleft⟩ := shortestShift_spec hsize rfl
  rw [circshift_iff hptr hhalf hmod]
  refine and_congr Iff.rfl ?_
  by_cases hpos : 0 < shortestShift size (reducedShift size n)
  · rw [if_pos hpos, if_pos (hright.mp hpos)]
  · rw [if_neg hpos, if_neg (fun h => hpos (hright.mpr h)), hleft hpos]

def charBlock (size : ℕ) (h : size < 2 ^ 64) : Block ℕ 1 where
  size := size
  cells i := i
  width_pos := Nat.one_pos
  bytes_lt := by omega

theorem shifts_iff_six : Shifts (charBlock 6 (by decide)) (fun _ => 0) 2 3 (-4) :=
  (shifts_iff (charBlock 6 (by decide)) (fun _ => 0) (-4) (by decide) rfl).mpr
    ⟨by decide, by decide, .inr ⟨by decide, by decide⟩⟩

/-- The counter of the bytes to move to the right overflows. -/
theorem not_shifts : ¬ ∀ (ptr : Block ℕ 1) (memory : ℕ → ℕ) (tsize size : ℕ) (n : ℤ), 0 < size →
    ptr.size = size * tsize → Shifts ptr memory tsize size n := by
  intro h
  obtain ⟨ptr', tmp, hsome, hhalf, hrotates⟩ := h (charBlock (2 ^ 31) (by decide))
    (fun _ => 0) 1 (2 ^ 31) 1 (by decide) rfl
  have hreduced : reducedShift (2 ^ 31) 1 = 1 := by decide
  have hshortest : shortestShift (2 ^ 31) 1 = 1 := by decide
  rw [foreignCircularShift, if_pos (by decide)] at hsome
  simp only [hreduced, hshortest] at hsome
  rw [if_neg (by decide)] at hsome
  have hfits := (circshift_iff rfl (by decide) (Int.ModEq.refl 1)).mp
    ⟨ptr', tmp, hsome, hhalf, hrotates⟩
  exact absurd hfits (by decide)

end Rotation

end Incudine.ForeignShift

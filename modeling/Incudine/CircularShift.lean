import Incudine.ForeignMemory

/-!
# Circular shift of a foreign array

The loops over the values of a foreign array and its rotation through a temporary buffer, in the
direction that requires the smaller one. The bytes of a value are moved together.
-/

namespace Incudine.CircularShift

open Function ForeignMemory

variable {K : Type*}

def forEach (f : ℕ → K → K) (offset n : ℕ) (buf : ℕ → K) : ℕ → K :=
  dotimes (fun i buf => update buf (offset + i) (f i (buf (offset + i)))) n buf

theorem forEach_apply (f : ℕ → K → K) (offset n : ℕ) (buf : ℕ → K) (i : ℕ) :
    forEach f offset n buf i =
      if offset ≤ i ∧ i < offset + n then f (i - offset) (buf i) else buf i := by
  induction n with
  | zero =>
    rw [if_neg (by omega)]
    rfl
  | succ n ih =>
    have hsucc : forEach f offset (n + 1) buf = update (forEach f offset n buf) (offset + n)
        (f n (forEach f offset n buf (offset + n))) := rfl
    by_cases hlast : i = offset + n
    · subst hlast
      rw [if_neg (by omega)] at ih
      rw [hsucc, update_self, ih, if_pos (by omega), Nat.add_sub_cancel_left]
    · rw [hsucc, update_of_ne hlast, ih]
      exact if_congr (by omega) rfl rfl

def circularRshift (buf : ℕ → K) (bytes size : ℕ) : ℕ → K :=
  let tmp := memcpy buf 0 buf (size - bytes) bytes
  let buf := dotimes (fun i buf => update buf (size - 1 - i) (buf (size - bytes - 1 - i)))
    (size - bytes) buf
  memcpy buf 0 tmp 0 bytes

def circularLshift (buf : ℕ → K) (bytes size : ℕ) : ℕ → K :=
  let tmp := memcpy buf 0 buf 0 bytes
  let buf := dotimes (fun i buf => update buf i (buf (bytes + i))) (size - bytes) buf
  memcpy buf (size - bytes) tmp 0 bytes

def foreignCircularShift (ptr : ℕ → K) (size : ℕ) (n : ℤ) : ℕ → K :=
  let n := if size < n.natAbs then n % size else n
  if n.natAbs = 0 then ptr
  else
    let n := if size / 2 < n.natAbs then if 0 < n then n - size else n + size else n
    if 0 < n then circularRshift ptr n.natAbs size else circularLshift ptr n.natAbs size

theorem rshift_loop (buf : ℕ → K) {bytes size n : ℕ} (hn : n + bytes ≤ size) (i : ℕ) :
    dotimes (fun i buf => update buf (size - 1 - i) (buf (size - bytes - 1 - i))) n buf i =
      if size - n ≤ i ∧ i < size then buf (i - bytes) else buf i := by
  induction n generalizing i with
  | zero =>
    rw [if_neg (by omega)]
    rfl
  | succ n ih =>
    have ih := @ih (by omega)
    rw [dotimes, update_apply, ih, ih, if_neg (show ¬ (_ ∧ _) by omega)]
    by_cases hfirst : i = size - 1 - n
    · rw [if_pos hfirst, if_pos (by omega)]
      congr 1
      omega
    · rw [if_neg hfirst]
      exact if_congr (by omega) rfl rfl

theorem lshift_loop (buf : ℕ → K) (bytes n i : ℕ) :
    dotimes (fun i buf => update buf i (buf (bytes + i))) n buf i =
      if i < n then buf (bytes + i) else buf i := by
  induction n generalizing i with
  | zero =>
    rw [if_neg (by omega)]
    rfl
  | succ n ih =>
    have hread := ih (bytes + n)
    rw [if_neg (by omega)] at hread
    rw [dotimes, update_apply, hread, ih]
    by_cases hlast : i = n
    · rw [if_pos hlast, if_pos (by omega), hlast]
    · rw [if_neg hlast]
      exact if_congr (by omega) rfl rfl

section

variable {size i : ℕ} {n : ℤ}

theorem toNat_emod_eq {a : ℤ} {k : ℕ} (hk : k < size) (c : ℤ) (h : a = k + size * c) :
    (a % size).toNat = k := by
  rw [h, Int.add_mul_emod_self_left, Int.emod_eq_of_lt (by omega) (by omega), Int.toNat_natCast]

theorem circularRshift_apply (buf : ℕ → K) {bytes : ℕ} (hbytes : bytes ≤ size) (hi : i < size) :
    circularRshift buf bytes size i = buf (((i : ℤ) - bytes) % size).toNat := by
  simp only [circularRshift, memcpy, rshift_loop buf (show size - bytes + bytes ≤ size by omega)]
  by_cases hfirst : i < bytes
  · rw [if_pos (by omega), if_pos (by omega)]
    rw [@toNat_emod_eq size _ (size - bytes + i) (by omega) (-1) (by omega)]
    congr 1
    omega
  · rw [if_neg (by omega), if_pos (by omega)]
    rw [@toNat_emod_eq size _ (i - bytes) (by omega) 0 (by omega)]

theorem circularLshift_apply (buf : ℕ → K) {bytes : ℕ} (hbytes : bytes ≤ size) (hi : i < size) :
    circularLshift buf bytes size i = buf (((i : ℤ) + bytes) % size).toNat := by
  simp only [circularLshift, memcpy, lshift_loop]
  by_cases hlast : size - bytes ≤ i
  · rw [if_pos (by omega), if_pos (by omega)]
    rw [@toNat_emod_eq size _ (i - (size - bytes)) (by omega) 1 (by omega)]
    congr 1
    omega
  · rw [if_neg (by omega), if_pos (by omega)]
    rw [@toNat_emod_eq size _ (bytes + i) (by omega) 0 (by omega)]

theorem sub_emod_of_modEq {n n' : ℤ} (h : n' ≡ n [ZMOD size]) (i : ℤ) :
    (i - n') % size = (i - n) % size :=
  (Int.ModEq.refl i).sub h

theorem foreignCircularShift_apply (buf : ℕ → K) (n : ℤ) (hi : i < size) :
    foreignCircularShift buf size n i = buf (((i : ℤ) - n) % size).toNat := by
  obtain ⟨n₁, hn₁, hmod₁, hle₁⟩ : ∃ n₁, n₁ = (if size < n.natAbs then n % size else n) ∧
      n₁ ≡ n [ZMOD size] ∧ n₁.natAbs ≤ size := by
    refine ⟨_, rfl, ?_, ?_⟩
    · split_ifs
      · exact Int.mod_modEq _ _
      · exact Int.ModEq.refl n
    · split_ifs
      · have hnonneg := Int.emod_nonneg n (show (size : ℤ) ≠ 0 by omega)
        have hlt := Int.emod_lt_of_pos n (show (0 : ℤ) < size by omega)
        omega
      · omega
  have hself : (i : ℤ) = i + size * 0 := by omega
  rw [foreignCircularShift, ← hn₁]
  by_cases hzero : n₁.natAbs = 0
  · rw [if_pos hzero, ← sub_emod_of_modEq hmod₁, Int.natAbs_eq_zero.mp hzero, sub_zero,
      toNat_emod_eq hi 0 hself]
  rw [if_neg hzero]
  obtain ⟨n₂, hn₂, hmod₂, hle₂⟩ : ∃ n₂,
      n₂ = (if size / 2 < n₁.natAbs then if 0 < n₁ then n₁ - size else n₁ + size else n₁) ∧
      n₂ ≡ n [ZMOD size] ∧ n₂.natAbs ≤ size := by
    refine ⟨_, rfl, ?_, by split_ifs <;> omega⟩
    refine Int.ModEq.trans ?_ hmod₁
    split_ifs
    · exact Int.sub_modulus_modEq_iff.mpr (Int.ModEq.refl n₁)
    · exact Int.add_modulus_modEq_iff.mpr (Int.ModEq.refl n₁)
    · exact Int.ModEq.refl n₁
  rw [← hn₂, ← sub_emod_of_modEq hmod₂]
  by_cases hpos : 0 < n₂
  · rw [if_pos hpos, circularRshift_apply buf hle₂ hi]
    congr 3
    omega
  · rw [if_neg hpos, circularLshift_apply buf hle₂ hi]
    congr 3
    omega

end

end Incudine.CircularShift

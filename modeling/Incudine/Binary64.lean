import Mathlib.Data.Nat.Log
import Mathlib.Tactic.NormNum
import Mathlib.Tactic.Ring

/-!
# Floating point numbers of 64 bits

The value of a pattern of bits: sign, exponent of eleven bits and fraction of 52 bits. A natural
number less than `2 ^ 53` has an exact representation.
-/

namespace Binary64

def value (bits : ℕ) : ℚ :=
  let sign : ℚ := if bits / 2 ^ 63 % 2 = 0 then 1 else -1
  let exponent : ℕ := bits / 2 ^ 52 % 2 ^ 11
  let fraction : ℚ := (bits % 2 ^ 52 : ℕ)
  if exponent = 0 then sign * fraction * 2 ^ (-1074 : ℤ)
  else sign * (2 ^ 52 + fraction) * 2 ^ ((exponent : ℤ) - 1075)

/-- The number is shifted until the bit 52 is the highest one. -/
def significand (n : ℕ) : ℕ := n * 2 ^ (52 - Nat.log 2 n)

def ofNat (n : ℕ) : ℕ :=
  if n = 0 then 0 else (Nat.log 2 n + 1023) * 2 ^ 52 + (significand n - 2 ^ 52)

theorem log_le {n : ℕ} (h : n < 2 ^ 53) : Nat.log 2 n ≤ 52 :=
  Nat.lt_succ_iff.mp (Nat.log_lt_of_lt_pow' (by decide) h)

theorem significand_bounds {n : ℕ} (hn : n ≠ 0) (h : n < 2 ^ 53) :
    2 ^ 52 ≤ significand n ∧ significand n < 2 ^ 53 := by
  have hlog := log_le h
  have hlow := Nat.mul_le_mul_right (2 ^ (52 - Nat.log 2 n)) (Nat.pow_log_le_self 2 hn)
  have hhigh := Nat.mul_lt_mul_of_pos_right (Nat.lt_pow_succ_log_self (b := 2) (by decide) n)
    (Nat.two_pow_pos (52 - Nat.log 2 n))
  rw [← pow_add, show Nat.log 2 n + (52 - Nat.log 2 n) = 52 by omega] at hlow
  rw [← pow_add, show (Nat.log 2 n).succ + (52 - Nat.log 2 n) = 53 by omega] at hhigh
  exact ⟨hlow, hhigh⟩

theorem ofNat_lt {n : ℕ} (h : n < 2 ^ 53) : ofNat n < 2 ^ 64 := by
  unfold ofNat
  split_ifs with hn
  · decide
  · have hlog := log_le h
    have hbounds := significand_bounds hn h
    omega

theorem value_ofNat {n : ℕ} (h : n < 2 ^ 53) : value (ofNat n) = n := by
  by_cases hn : n = 0
  · rw [hn]
    norm_num [value, ofNat]
  have hlog := log_le h
  have hbounds := significand_bounds hn h
  set m := significand n with hm
  have hbits : ofNat n = (Nat.log 2 n + 1023) * 2 ^ 52 + (m - 2 ^ 52) := if_neg hn
  have hsign : ofNat n / 2 ^ 63 % 2 = 0 := by omega
  have hexponent : ofNat n / 2 ^ 52 % 2 ^ 11 = Nat.log 2 n + 1023 := by omega
  have hfraction : ofNat n % 2 ^ 52 = m - 2 ^ 52 := by omega
  have hpow : (2 : ℚ) ^ (52 - Nat.log 2 n) * 2 ^ (((Nat.log 2 n + 1023 : ℕ) : ℤ) - 1075) = 1 := by
    rw [← zpow_natCast, ← zpow_add₀ (by norm_num)]
    have hzero : ((52 - Nat.log 2 n : ℕ) : ℤ) + (((Nat.log 2 n + 1023 : ℕ) : ℤ) - 1075) = 0 := by
      omega
    rw [hzero, zpow_zero]
  simp only [value, hsign, hexponent, hfraction, if_true]
  have hcast : (2 ^ 52 : ℚ) + ((m - 2 ^ 52 : ℕ) : ℚ) = n * 2 ^ (52 - Nat.log 2 n) := by
    rw [Nat.cast_sub hbounds.1, Nat.cast_pow, Nat.cast_ofNat, add_sub_cancel, hm, significand,
      Nat.cast_mul, Nat.cast_pow, Nat.cast_ofNat]
  rw [if_neg (by omega), one_mul, hcast, mul_assoc, hpow, mul_one]

end Binary64

import Mathlib.Data.List.Basic
import Mathlib.Data.Nat.Log
import Mathlib.Tactic.Ring

/-!
# Octets

Arrays with a stretch overwritten, quantities of a variable number of octets (seven bits in
each, the highest first, the high bit set in all but the last) and integers of two and four
octets, also with the lowest octet first.
-/

namespace Octets

variable {i : ℕ}

section Splice

variable {α : Type*}

/-- The array `l` with the elements of `m` stored from the index `i` on. -/
def splice (l : List α) (i : ℕ) (m : List α) : List α :=
  l.take i ++ m ++ l.drop (i + m.length)

theorem splice_nil (l : List α) (i : ℕ) : splice l i [] = l := by
  simp [splice]

theorem length_splice {l m : List α} (h : i + m.length ≤ l.length) :
    (splice l i m).length = l.length := by
  simp only [splice, List.length_append, List.length_take, List.length_drop]
  omega

theorem take_splice {l : List α} (h : i ≤ l.length) (m : List α) :
    (splice l i m).take (i + m.length) = l.take i ++ m := by
  have hlen : (l.take i ++ m).length = i + m.length := by simp [h]
  rw [splice, ← hlen, List.take_left]

theorem take_start_splice {l : List α} (h : i ≤ l.length) (m : List α) :
    (splice l i m).take i = l.take i := by
  rw [splice, List.append_assoc, List.take_append_of_le_length (by rw [List.length_take]; omega),
    List.take_take, Nat.min_self]

theorem drop_splice {l m : List α} (h : i ≤ l.length) :
    (splice l i m).drop (i + m.length) = l.drop (i + m.length) := by
  have hlen : (l.take i ++ m).length = i + m.length := by simp [h]
  rw [splice, ← hlen, List.drop_left]

theorem set_eq_splice {l : List α} (h : i < l.length) (a : α) : l.set i a = splice l i [a] := by
  rw [List.set_eq_take_append_cons_drop, if_pos h, splice]
  simp

theorem splice_splice {l a b : List α} (h : i ≤ l.length) :
    splice (splice l i a) (i + a.length) b = splice l i (a ++ b) := by
  have hdrop : (splice l i a).drop (i + a.length + b.length) =
      l.drop (i + a.length + b.length) := by
    rw [← List.drop_drop, drop_splice h, List.drop_drop]
  rw [splice, take_splice h, hdrop, splice, List.length_append, Nat.add_assoc]
  simp only [List.append_assoc]

theorem getElem?_splice {l m : List α} {k : ℕ} (h : i ≤ l.length) (hk : k < m.length) :
    (splice l i m)[i + k]? = m[k]? := by
  have hlen : (l.take i).length = i := by simp [h]
  rw [splice, List.append_assoc, List.getElem?_append_right (by omega), hlen,
    Nat.add_sub_cancel_left, List.getElem?_append_left hk]

end Splice

section Quantity

/-- The octets of one quantity: the high bit is set in all but the last. -/
def Delimited : List UInt8 → Prop
  | [] => False
  | [b] => b.toNat < 0x80
  | b :: c :: bs => 0x80 ≤ b.toNat ∧ Delimited (c :: bs)

theorem Delimited.cons {bs : List UInt8} {b : UInt8} (h : Delimited bs) (hb : ¬ b < 0x80) :
    Delimited (b :: bs) := by
  rw [UInt8.lt_iff_toNat_lt] at hb
  cases bs with
  | nil => exact h.elim
  | cons c cs => exact ⟨Nat.le_of_not_lt hb, h⟩

theorem Delimited.length_pos {bs : List UInt8} (h : Delimited bs) : 0 < bs.length := by
  cases bs with
  | nil => exact h.elim
  | cons b bs => simp

/-- The quantity `v` followed by the bits of further octets. -/
def extend (v : ℕ) (bs : List UInt8) : ℕ :=
  bs.foldl (fun v b => v * 0x80 + b.toNat % 0x80) v

def quantity (bs : List UInt8) : ℕ :=
  extend 0 bs

@[simp] theorem extend_nil (v : ℕ) : extend v [] = v := rfl

@[simp] theorem extend_cons (v : ℕ) (b : UInt8) (bs : List UInt8) :
    extend v (b :: bs) = extend (v * 0x80 + b.toNat % 0x80) bs := rfl

/-- The lowest `n` groups of seven bits of `v`, one in each octet. -/
def groups (v : ℕ) : ℕ → List UInt8
  | 0 => []
  | 1 => [UInt8.ofNat (v % 0x80)]
  | n + 2 => UInt8.ofNat (0x80 + v / 0x80 ^ (n + 1) % 0x80) :: groups v (n + 1)

theorem length_groups (v n : ℕ) : (groups v n).length = n := by
  induction n with
  | zero => rfl
  | succ n ih =>
    cases n with
    | zero => rfl
    | succ n => simp only [groups, List.length_cons, ih]

theorem delimited_groups (v n : ℕ) : Delimited (groups v (n + 1)) := by
  induction n with
  | zero =>
    simp only [groups, Delimited, UInt8.toNat_ofNat']
    omega
  | succ n ih =>
    have hhigh : 0x80 ≤ (UInt8.ofNat (0x80 + v / 0x80 ^ (n + 1) % 0x80)).toNat := by
      rw [UInt8.toNat_ofNat']
      omega
    cases hg : groups v (n + 1) with
    | nil =>
      have hlen := length_groups v (n + 1)
      simp [hg] at hlen
    | cons c bs =>
      rw [groups, hg]
      rw [hg] at ih
      exact ⟨hhigh, ih⟩

theorem extend_groups (w v n : ℕ) :
    extend w (groups v n) = w * 0x80 ^ n + v % 0x80 ^ n := by
  induction n generalizing w with
  | zero => simp [groups, Nat.mod_one]
  | succ n ih =>
    cases n with
    | zero =>
      simp only [groups, extend_cons, extend_nil, UInt8.toNat_ofNat']
      omega
    | succ n =>
      have hgroup : (UInt8.ofNat (0x80 + v / 0x80 ^ (n + 1) % 0x80)).toNat % 0x80 =
          v / 0x80 ^ (n + 1) % 0x80 := by
        rw [UInt8.toNat_ofNat']
        omega
      have hmod : v % 0x80 ^ (n + 1 + 1) =
          v % 0x80 ^ (n + 1) + 0x80 ^ (n + 1) * (v / 0x80 ^ (n + 1) % 0x80) := Nat.mod_pow_succ
      rw [groups, extend_cons, ih, hgroup, hmod]
      ring

theorem quantity_groups {v n : ℕ} (h : v < 0x80 ^ n) : quantity (groups v n) = v := by
  rw [quantity, extend_groups, Nat.zero_mul, Nat.zero_add, Nat.mod_eq_of_lt h]

theorem extend_lt (v : ℕ) (bs : List UInt8) : extend v bs < (v + 1) * 0x80 ^ bs.length := by
  induction bs generalizing v with
  | nil => simp
  | cons b bs ih =>
    have hstep : (v * 0x80 + b.toNat % 0x80 + 1) * 0x80 ^ bs.length ≤
        (v + 1) * 0x80 * 0x80 ^ bs.length := by
      apply Nat.mul_le_mul_right
      omega
    rw [extend_cons, List.length_cons, Nat.pow_succ']
    calc extend (v * 0x80 + b.toNat % 0x80) bs
        < (v * 0x80 + b.toNat % 0x80 + 1) * 0x80 ^ bs.length := ih _
      _ ≤ (v + 1) * 0x80 * 0x80 ^ bs.length := hstep
      _ = (v + 1) * (0x80 * 0x80 ^ bs.length) := Nat.mul_assoc _ _ _

theorem quantity_lt (bs : List UInt8) : quantity bs < 0x80 ^ bs.length := by
  simpa [quantity] using extend_lt 0 bs

def bits (v : ℕ) : ℕ :=
  if v = 0 then 0 else v.log2 + 1

theorem bits_le_iff {v k : ℕ} : bits v ≤ k ↔ v < 2 ^ k := by
  by_cases hv : v = 0
  · simp [bits, hv]
  · rw [bits, if_neg hv, Nat.succ_le_iff, Nat.log2_lt hv]

def octetCount (v : ℕ) : ℕ :=
  max 1 ((bits v + 6) / 7)

theorem octetCount_pos (v : ℕ) : 0 < octetCount v :=
  Nat.lt_of_lt_of_le Nat.one_pos (le_max_left _ _)

theorem octetCount_le_iff {v k : ℕ} (hk : 0 < k) : octetCount v ≤ k ↔ v < 0x80 ^ k := by
  have hpow : (0x80 : ℕ) ^ k = 2 ^ (7 * k) := by
    rw [pow_mul]
    rfl
  have hdiv : (bits v + 6) / 7 ≤ k ↔ bits v ≤ 7 * k := by omega
  rw [octetCount, max_le_iff, hdiv, bits_le_iff, hpow]
  exact ⟨fun h => h.2, fun h => ⟨hk, h⟩⟩

theorem lt_pow_octetCount (v : ℕ) : v < 0x80 ^ octetCount v :=
  (octetCount_le_iff (octetCount_pos v)).mp le_rfl

/-- The shortest octets of the quantity `v`. -/
def encode (v : ℕ) : List UInt8 :=
  groups v (octetCount v)

theorem length_encode (v : ℕ) : (encode v).length = octetCount v :=
  length_groups v _

theorem delimited_encode (v : ℕ) : Delimited (encode v) := by
  obtain ⟨n, hn⟩ := Nat.exists_eq_succ_of_ne_zero (octetCount_pos v).ne'
  rw [encode, hn]
  exact delimited_groups v n

theorem quantity_encode (v : ℕ) : quantity (encode v) = v :=
  quantity_groups (lt_pow_octetCount v)

end Quantity

section Integers

theorem toNat_low (n : ℕ) : (UInt8.ofNat (n &&& 0xff)).toNat = n % 0x100 := by
  rw [UInt8.toNat_ofNat', Nat.and_two_pow_sub_one_eq_mod n 8]
  omega

theorem toNat_high (n : ℕ) : (UInt8.ofNat (n >>> 8 &&& 0xff)).toNat = n / 0x100 % 0x100 := by
  rw [toNat_low, Nat.shiftRight_eq_div_pow]

theorem two_octets (n : ℕ) :
    (UInt8.ofNat (n >>> 8 &&& 0xff)).toNat <<< 8 ||| (UInt8.ofNat (n &&& 0xff)).toNat =
      n % 0x10000 := by
  have hlow : n % 0x100 < 2 ^ 8 := Nat.mod_lt n (by decide)
  rw [toNat_high, toNat_low, ← Nat.shiftLeft_add_eq_or_of_lt hlow, Nat.shiftLeft_eq]
  omega

theorem two_halves (n : ℕ) : (n >>> 16) <<< 16 ||| n % 0x10000 = n := by
  have hlow : n % 0x10000 < 2 ^ 16 := Nat.mod_lt n (by decide)
  rw [← Nat.shiftLeft_add_eq_or_of_lt hlow, Nat.shiftLeft_eq, Nat.shiftRight_eq_div_pow]
  omega

end Integers

section LittleEndian

/-- The first `k` octets of an integer, the lowest first. -/
def littleEndian : ℕ → ℕ → List UInt8
  | 0, _ => []
  | k + 1, n => UInt8.ofNat n :: littleEndian k (n / 0x100)

/-- The integer of a list of octets, the lowest first. -/
def ofLittleEndian : List UInt8 → ℕ
  | [] => 0
  | b :: bs => b.toNat + 0x100 * ofLittleEndian bs

@[simp] theorem length_littleEndian (k n : ℕ) : (littleEndian k n).length = k := by
  induction k generalizing n with
  | zero => rfl
  | succ k ih => rw [littleEndian, List.length_cons, ih]

theorem ofLittleEndian_littleEndian {k n : ℕ} (h : n < 0x100 ^ k) :
    ofLittleEndian (littleEndian k n) = n := by
  induction k generalizing n with
  | zero =>
    rw [pow_zero, Nat.lt_one_iff] at h
    exact h.symm
  | succ k ih =>
    have hdiv : n / 0x100 < 0x100 ^ k := by
      rw [Nat.div_lt_iff_lt_mul (by decide), ← pow_succ]
      exact h
    rw [littleEndian, ofLittleEndian, ih hdiv, UInt8.toNat_ofNat']
    exact Nat.mod_add_div n 0x100

theorem ofLittleEndian_lt (bs : List UInt8) : ofLittleEndian bs < 0x100 ^ bs.length := by
  induction bs with
  | nil => exact Nat.one_pos
  | cons b bs ih =>
    have hb := b.toNat_lt
    rw [ofLittleEndian, List.length_cons, Nat.pow_succ']
    omega

theorem littleEndian_ofLittleEndian (bs : List UInt8) :
    littleEndian bs.length (ofLittleEndian bs) = bs := by
  induction bs with
  | nil => rfl
  | cons b bs ih =>
    have hb := b.toNat_lt
    have hlow : UInt8.ofNat (b.toNat + 0x100 * ofLittleEndian bs) = b := by
      apply UInt8.toNat_inj.mp
      rw [UInt8.toNat_ofNat']
      omega
    have hhigh : (b.toNat + 0x100 * ofLittleEndian bs) / 0x100 = ofLittleEndian bs := by omega
    rw [List.length_cons, ofLittleEndian, littleEndian, hlow, hhigh, ih]

end LittleEndian

section BigEndian

/-- The first `k` octets of an integer, the highest first. -/
def bigEndian (k n : ℕ) : List UInt8 := (littleEndian k n).reverse

/-- The integer of a list of octets, the highest first. -/
def ofBigEndian (bs : List UInt8) : ℕ := ofLittleEndian bs.reverse

@[simp] theorem length_bigEndian (k n : ℕ) : (bigEndian k n).length = k := by
  rw [bigEndian, List.length_reverse, length_littleEndian]

theorem ofBigEndian_bigEndian {k n : ℕ} (h : n < 0x100 ^ k) : ofBigEndian (bigEndian k n) = n := by
  rw [ofBigEndian, bigEndian, List.reverse_reverse, ofLittleEndian_littleEndian h]

theorem ofBigEndian_lt (bs : List UInt8) : ofBigEndian bs < 0x100 ^ bs.length := by
  rw [← List.length_reverse]
  exact ofLittleEndian_lt bs.reverse

theorem bigEndian_ofBigEndian (bs : List UInt8) : bigEndian bs.length (ofBigEndian bs) = bs := by
  rw [bigEndian, ofBigEndian, ← List.length_reverse, littleEndian_ofLittleEndian,
    List.reverse_reverse]

end BigEndian

end Octets

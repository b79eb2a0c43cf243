import Mathlib.Algebra.BigOperators.Intervals
import Mathlib.Algebra.BigOperators.Ring.Finset
import Mathlib.Tactic.Ring

/-!
# Convolution by blocks

A signal is a function on the integers. Its convolution with a finite response is computed from
circular convolutions of zero-padded blocks: the second half of a block overlaps the first half of
the next one.
-/

namespace Incudine.BlockConvolution

open Finset

variable {R : Type*} [CommRing R]

/-- The convolution of a signal with the first `taps` values of a response. -/
def conv (x : ℤ → R) (h : ℕ → R) (taps : ℕ) (n : ℤ) : R := ∑ m ∈ range taps, x (n - m) * h m

/-- The circular convolution of two blocks of `n` values. -/
def circular (n : ℕ) (a b : ℕ → R) (i : ℕ) : R := ∑ j ∈ range n, a ((i + (n - j)) % n) * b j

def padded (size : ℕ) (a : ℕ → R) (i : ℕ) : R := if i < size then a i else 0

def block (size : ℕ) (x : ℤ → R) (k : ℤ) (i : ℕ) : R := x (k * size + i)

/-- The values of a response from the block `p` on. -/
def part (size : ℕ) (h : ℕ → R) (p i : ℕ) : R := h (p * size + i)

variable {size i : ℕ}

theorem padded_of_lt (hi : i < size) (a : ℕ → R) : padded size a i = a i := if_pos hi

theorem padded_of_le (hi : size ≤ i) (a : ℕ → R) : padded size a i = 0 :=
  if_neg (Nat.not_lt_of_le hi)

theorem circular_padded (size : ℕ) (a b : ℕ → R) (i : ℕ) :
    circular (2 * size) a (padded size b) i =
      ∑ j ∈ range size, a ((i + (2 * size - j)) % (2 * size)) * b j := by
  have hsplit : 2 * size = size + size := Nat.two_mul size
  rw [circular]
  conv_lhs => rw [hsplit, Finset.sum_range_add]
  have hzero : ∑ j ∈ range size, a ((i + (size + size - (size + j))) % (size + size)) *
      padded size b (size + j) = 0 :=
    Finset.sum_eq_zero fun j _ => by rw [padded_of_le (Nat.le_add_right _ _), mul_zero]
  rw [hzero, add_zero, hsplit]
  refine Finset.sum_congr rfl fun j hj => ?_
  rw [padded_of_lt (Finset.mem_range.mp hj)]

theorem block_add_block {j : ℕ} (hi : i < size) (hj : j < size) (x : ℤ → R) (k : ℤ) :
    padded size (block size x k) ((i + (2 * size - j)) % (2 * size)) +
        padded size (block size x (k - 1)) ((size + i + (2 * size - j)) % (2 * size)) =
      x (k * size + i - j) := by
  rcases Nat.lt_or_ge i j with hlt | hge
  · have hfirst : (i + (2 * size - j)) % (2 * size) = 2 * size + i - j := by
      rw [Nat.mod_eq_of_lt (by omega)]
      omega
    have hsecond : (size + i + (2 * size - j)) % (2 * size) = size + i - j := by
      rw [Nat.mod_eq_sub_mod (by omega), Nat.mod_eq_of_lt (by omega)]
      omega
    rw [hfirst, hsecond, padded_of_le (by omega), padded_of_lt (by omega), zero_add, block,
      Nat.cast_sub (by omega)]
    congr 1
    push_cast
    ring
  · have hfirst : (i + (2 * size - j)) % (2 * size) = i - j := by
      rw [Nat.mod_eq_sub_mod (by omega), Nat.mod_eq_of_lt (by omega)]
      omega
    have hsecond : (size + i + (2 * size - j)) % (2 * size) = size + i - j := by
      rw [Nat.mod_eq_sub_mod (by omega), Nat.mod_eq_of_lt (by omega)]
      omega
    rw [hfirst, hsecond, padded_of_lt (by omega), padded_of_le (by omega), add_zero, block,
      Nat.cast_sub hge]
    congr 1
    ring

theorem circular_add_circular (hi : i < size) (x : ℤ → R) (b : ℕ → R) (k : ℤ) :
    circular (2 * size) (padded size (block size x k)) (padded size b) i +
        circular (2 * size) (padded size (block size x (k - 1))) (padded size b) (size + i) =
      conv x b size (k * size + i) := by
  rw [circular_padded, circular_padded, ← Finset.sum_add_distrib]
  refine Finset.sum_congr rfl fun j hj => ?_
  rw [← add_mul, block_add_block hi (Finset.mem_range.mp hj)]

theorem conv_mul (size : ℕ) (x : ℤ → R) (h : ℕ → R) (parts : ℕ) (n : ℤ) :
    conv x h (parts * size) n = ∑ p ∈ range parts, conv x (part size h p) size (n - p * size) := by
  induction parts with
  | zero => simp [conv]
  | succ parts ih =>
    rw [Finset.sum_range_succ, ← ih, conv, Nat.succ_mul, Finset.sum_range_add]
    congr 1
    refine Finset.sum_congr rfl fun j _ => ?_
    rw [part]
    congr 2
    push_cast
    ring

theorem overlap_add (hi : i < size) (x : ℤ → R) (h : ℕ → R) (parts : ℕ) (k : ℤ) :
    (∑ p ∈ range parts,
        circular (2 * size) (padded size (block size x (k - p))) (padded size (part size h p)) i) +
      ∑ p ∈ range parts, circular (2 * size) (padded size (block size x (k - 1 - p)))
        (padded size (part size h p)) (size + i) =
      conv x h (parts * size) (k * size + i) := by
  rw [conv_mul, ← Finset.sum_add_distrib]
  refine Finset.sum_congr rfl fun p _ => ?_
  have hprevious : k - 1 - (p : ℤ) = k - p - 1 := by ring
  rw [hprevious, circular_add_circular hi]
  congr 1
  ring

theorem conv_eq_of_zero (x : ℤ → R) {h : ℕ → R} {taps taps' : ℕ} (hle : taps ≤ taps')
    (hzero : ∀ i, taps ≤ i → i < taps' → h i = 0) (n : ℤ) : conv x h taps' n = conv x h taps n := by
  obtain ⟨k, rfl⟩ := Nat.exists_eq_add_of_le hle
  rw [conv, Finset.sum_range_add]
  refine add_eq_left.mpr (Finset.sum_eq_zero fun j hj => ?_)
  rw [hzero _ (Nat.le_add_right _ _) (Nat.add_lt_add_left (Finset.mem_range.mp hj) _), mul_zero]

theorem conv_impulse (h : ℕ → R) {taps : ℕ} (n : ℕ) (hi : i < taps) :
    conv (fun k => if k = n then 1 else 0) h taps (n + i) = h i := by
  rw [conv, Finset.sum_eq_single i]
  · simp
  · intro m _ hne
    have hne' : ¬ ((n : ℤ) + i - m = n) := by omega
    rw [if_neg hne', zero_mul]
  · exact fun h => absurd (Finset.mem_range.mpr hi) h

theorem conv_impulse_of_le (h : ℕ → R) {taps : ℕ} (n : ℕ) (hi : taps ≤ i) :
    conv (fun k => if k = n then 1 else 0) h taps (n + i) = 0 := by
  refine Finset.sum_eq_zero fun m hm => ?_
  have hlt := Finset.mem_range.mp hm
  have hne : ¬ ((n : ℤ) + i - m = n) := by omega
  simp only [if_neg hne, zero_mul]

theorem circular_congr {n : ℕ} (a : ℕ → R) {b b' : ℕ → R} (h : ∀ j < n, b j = b' j) (i : ℕ) :
    circular n a b i = circular n a b' i :=
  Finset.sum_congr rfl fun j hj => by rw [h j (Finset.mem_range.mp hj)]

theorem circular_impulse {n m : ℕ} (b : ℕ → R) (hm : m < n) :
    circular n (fun j => if j = m then 1 else 0) b i = b ((i + (n - m)) % n) := by
  have hpos : 0 < n := Nat.zero_lt_of_lt hm
  have hi := Nat.mod_lt i hpos
  have hturn : ∀ j < n, (i + (n - j)) % n = m ↔ j = (i + (n - m)) % n := by
    intro j hj
    have hmod : ∀ k < n, (i + (n - k)) % n = if k ≤ i % n then i % n - k else i % n + n - k := by
      intro k hk
      rw [← Nat.mod_add_mod]
      split_ifs with hle
      · rw [Nat.mod_eq_sub_mod (by omega), Nat.mod_eq_of_lt (by omega)]
        omega
      · rw [Nat.mod_eq_of_lt (by omega)]
        omega
    rw [hmod j hj, hmod m hm]
    split_ifs <;> omega
  rw [circular, Finset.sum_eq_single ((i + (n - m)) % n)]
  · rw [if_pos ((hturn _ (Nat.mod_lt _ hpos)).mpr rfl), one_mul]
  · intro j hj hne
    rw [if_neg fun h => hne ((hturn j (Finset.mem_range.mp hj)).mp h), zero_mul]
  · exact fun h => absurd (Finset.mem_range.mpr (Nat.mod_lt _ hpos)) h

theorem padded_block_impulse {m : ℕ} (hm : m < size) (k : ℤ) :
    padded size (block size (fun n => if n = m then (1 : R) else 0) k) =
      if k = 0 then fun i => if i = m then 1 else 0 else fun _ => 0 := by
  funext i
  rw [padded, block]
  by_cases hk : k = 0
  · subst hk
    rw [if_pos rfl]
    split_ifs <;> first | rfl | omega
  · rw [if_neg hk]
    split_ifs with hi hn
    · exfalso
      rcases Int.lt_or_gt_of_ne hk with hneg | hpos
      · have hmul := Int.mul_le_mul_of_nonneg_right (show k ≤ -1 by omega) (Int.natCast_nonneg size)
        omega
      · have hmul := Int.mul_le_mul_of_nonneg_right (show 1 ≤ k by omega) (Int.natCast_nonneg size)
        omega
    · rfl
    · rfl

/-- A padded block that is equal to one of its rotations is silent. -/
theorem eq_zero_of_turned {size r : ℕ} {a : ℕ → R} (hr : 0 < r) (hlt : r < 2 * size)
    (h : ∀ i < 2 * size, padded size a ((i + r) % (2 * size)) = padded size a i) :
    ∀ i < size, a i = 0 := by
  rcases Nat.lt_or_ge size r with hlarge | hsmall
  · intro i
    induction i using Nat.strong_induction_on with
    | h i ih =>
      intro hi
      rw [← padded_of_lt hi a, ← h i (by omega)]
      rcases Nat.lt_or_ge (i + r) (2 * size) with hin | hout
      · rw [Nat.mod_eq_of_lt hin, padded_of_le (by omega)]
      · rw [Nat.mod_eq_sub_mod hout, Nat.mod_eq_of_lt (by omega), padded_of_lt (by omega)]
        exact ih _ (by omega) (by omega)
  · have hback : ∀ k i, i + k = size → a i = 0 ∨ k = 0 := by
      intro k
      induction k using Nat.strong_induction_on with
      | h k ih =>
        intro i hi
        rcases Nat.eq_zero_or_pos k with rfl | hpos
        · exact .inr rfl
        left
        rw [← padded_of_lt (show i < size by omega) a, ← h i (by omega), Nat.mod_eq_of_lt (by omega)]
        rcases Nat.lt_or_ge (i + r) size with hin | hout
        · rw [padded_of_lt hin]
          exact (ih (k - r) (by omega) (i + r) (by omega)).resolve_right (by omega)
        · exact padded_of_le hout a
    intro i hi
    exact (hback (size - i) i (by omega)).resolve_right (by omega)

/-- Two arrays with the same values and the same beginning: if the rest of the first one is silent,
also the rest of the second one is. -/
theorem eq_zero_of_perm {f g : ℕ → R} {n s : ℕ}
    (hperm : ((List.range n).map f).Perm ((List.range n).map g)) (hs : s ≤ n)
    (hsame : ∀ i < s, f i = g i) (hzero : ∀ i, s ≤ i → i < n → f i = 0) :
    ∀ i, s ≤ i → i < n → g i = 0 := by
  obtain ⟨m, rfl⟩ := Nat.exists_eq_add_of_le hs
  have hfirst : (List.range s).map f = (List.range s).map g :=
    List.map_congr_left fun i hi => hsame i (List.mem_range.mp hi)
  rw [List.range_add, List.map_append, List.map_append, hfirst, List.perm_append_left_iff,
    List.map_map, List.map_map] at hperm
  intro i hle hlt
  have hmem : g i ∈ (List.range m).map (g ∘ (s + ·)) :=
    List.mem_map.mpr ⟨i - s, List.mem_range.mpr (by omega), congrArg g (by simp only; omega)⟩
  obtain ⟨j, hj, heq⟩ := List.mem_map.mp (hperm.mem_iff.mpr hmem)
  have hjlt := List.mem_range.mp hj
  rw [← heq]
  exact hzero (s + j) (by omega) (by omega)

end Incudine.BlockConvolution

import Incudine.FunctionFifo
import Incudine.Interpolation
import Mathlib.Data.Int.Bitwise
import Mathlib.Data.Rat.Floor

/-!
# Delay lines

A ring buffer whose size is a power of two. For each sample the delayed one is read, possibly with
the neighbours for the interpolation, before the input is written.
-/

namespace Incudine.DelayLine

open Function Interpolation
open FunctionFifo (nextPowerOfTwo)

variable {K : Type*} [Field K]

section Source

def logand (i : ℤ) (mask : ℕ) : ℕ := (Int.land i mask).toNat

structure Ringbuffer (K : Type*) where
  data : ℕ → K
  readHead : ℕ
  writeHead : ℕ

def withRingbufferHeads (delaySamples mask : ℕ) : Ringbuffer K where
  data _ := 0
  readHead := logand (0 - delaySamples) mask
  writeHead := 0

def updateRingbuffer (input : K) (mask : ℕ) (s : Ringbuffer K) : Ringbuffer K where
  data := update s.data s.writeHead input
  readHead := logand (1 + s.readHead) mask
  writeHead := logand (1 + s.writeHead) mask

def run (delaySamples mask : ℕ) (input : ℕ → K) : ℕ → Ringbuffer K
  | 0 => withRingbufferHeads delaySamples mask
  | n + 1 => updateRingbuffer (input n) mask (run delaySamples mask input n)

def delayS (maxDelaySamples delaySamples : ℕ) (input : ℕ → K) (n : ℕ) : K × List ℕ :=
  let size := nextPowerOfTwo maxDelaySamples
  let mask := size - 1
  let s := run delaySamples mask input n
  (s.data s.readHead, [s.readHead, s.writeHead])

inductive Interp
  | linear
  | cubic
  | none

def selectDelayInterp (index mask : ℕ) : Interp → List ℕ
  | .linear => [index, logand (index - 1) mask]
  | .cubic =>
    let index0 := logand (index + 1) mask
    let index2 := logand (index - 1) mask
    let index3 := logand (index - 2) mask
    [index0, index, index2, index3]
  | .none => [index]

def clip (x low high : ℤ) : ℤ := max low (min x high)

/-- `vdelay` with a constant delay in samples: the output and the accessed indices. -/
def vdelay [LinearOrder K] [FloorRing K] (interpolation : Interp) (maxDelaySamples delaySamples : K)
    (input : ℕ → K) (n : ℕ) : K × List ℕ :=
  let size := nextPowerOfTwo (sampleToFixnum maxDelaySamples).toNat
  let mask := size - 1
  let isamps := sampleToFixnum delaySamples
  let dt := (clip isamps 0 mask).toNat
  let s := run dt mask input n
  let indices := selectDelayInterp s.readHead mask interpolation
  (interp (delaySamples - isamps) (indices.map s.data), indices ++ [s.writeHead])

end Source

section Mask

variable {k : ℕ}

theorem logand_mask (i : ℤ) (k : ℕ) : (logand i (2 ^ k - 1) : ℤ) = i % 2 ^ k := by
  cases i with
  | ofNat i =>
    have hland : Int.land (Int.ofNat i) ((2 ^ k - 1 : ℕ) : ℤ) = ((i &&& (2 ^ k - 1) : ℕ) : ℤ) := rfl
    rw [logand, hland, Int.toNat_natCast, Nat.and_two_pow_sub_one_eq_mod]
    simp
  | negSucc i =>
    have hland : Int.land (Int.negSucc i) ((2 ^ k - 1 : ℕ) : ℤ) =
        ((Nat.ldiff (2 ^ k - 1) i : ℕ) : ℤ) := rfl
    have hpos : 0 < 2 ^ k := Nat.two_pow_pos k
    have hlt := Nat.mod_lt i hpos
    have hdiff : Nat.ldiff (2 ^ k - 1) i = 2 ^ k - (i % 2 ^ k + 1) := by
      apply Nat.eq_of_testBit_eq
      intro b
      rw [Nat.testBit_ldiff, Nat.testBit_two_pow_sub_one, Nat.testBit_two_pow_sub_succ hlt,
        Nat.testBit_mod_two_pow]
      cases hb : decide (b < k) <;> simp
    rw [logand, hland, Int.toNat_natCast, hdiff, Int.negSucc_emod _ (by exact_mod_cast hpos),
      Nat.cast_sub (by omega)]
    push_cast
    ring

theorem nextPowerOfTwo_eq_two_pow (n : ℕ) : ∃ k, nextPowerOfTwo n = 2 ^ k :=
  ⟨_, FunctionFifo.nextPowerOfTwo_eq n⟩

theorem le_nextPowerOfTwo (n : ℕ) : n ≤ nextPowerOfTwo n := by
  rw [FunctionFifo.nextPowerOfTwo_eq]
  exact CircularArray.le_two_pow_size_pred n

end Mask

section Specification

def signal (input : ℕ → K) (t : ℤ) : K := if 0 ≤ t then input t.toNat else 0

/-- The samples around the delay, from the next one to the previous ones. -/
def Interp.offsets : Interp → List ℤ
  | .linear => [0, 1]
  | .cubic => [-1, 0, 1, 2]
  | .none => [0]

/-- The delayed signal: a sample for an integer delay, otherwise the interpolation of the samples
around. -/
def delayed [LinearOrder K] [FloorRing K] (interpolation : Interp) (delay : K) (input : ℕ → K)
    (n : ℕ) : K :=
  if Int.fract delay = 0 then signal input (n - ⌊delay⌋)
  else interp (Int.fract delay)
    (interpolation.offsets.map fun k => signal input (n - ⌊delay⌋ - k))

/-- `vdelay` outputs the delayed signal, for any input, and the accesses are inside the ring
buffer. -/
def VdelayDelays [LinearOrder K] [FloorRing K] (interpolation : Interp) (maxDelay delay : K) : Prop :=
  ∀ (input : ℕ → K) (n : ℕ),
    (vdelay interpolation maxDelay delay input n).1 = delayed interpolation delay input n ∧
      ∀ i ∈ (vdelay interpolation maxDelay delay input n).2, i < nextPowerOfTwo ⌊maxDelay⌋.toNat

def DelaySDelays (K : Type*) [Field K] (maxDelaySamples delaySamples : ℕ) : Prop :=
  ∀ (input : ℕ → K) (n : ℕ),
    (delayS maxDelaySamples delaySamples input n).1 = signal input (n - delaySamples) ∧
      ∀ i ∈ (delayS maxDelaySamples delaySamples input n).2, i < nextPowerOfTwo maxDelaySamples

end Specification

section Run

variable {size delaySamples : ℕ} {input : ℕ → K} {n : ℕ}

/-- The heads and the last `size` samples of the signal. -/
structure Holds (s : Ringbuffer K) (size delaySamples : ℕ) (input : ℕ → K) (n : ℕ) : Prop where
  readHead : (s.readHead : ℤ) = (n - delaySamples) % size
  writeHead : s.writeHead = n % size
  data : ∀ t : ℤ, n - size ≤ t → t < n → s.data (t % size).toNat = signal input t

theorem emod_ne {t : ℤ} (hlow : n + 1 - size ≤ t) (hhigh : t < n) :
    (t % (size : ℤ)).toNat ≠ n % size := by
  intro heq
  have hpos : (0 : ℤ) < size := by omega
  have hmod : t % (size : ℤ) = n % size := by
    have hnneg := Int.emod_nonneg t hpos.ne'
    omega
  have hdvd : (size : ℤ) ∣ n - t := Int.ModEq.dvd hmod
  have hle := Int.le_of_dvd (by omega) hdvd
  omega

theorem run_holds {k : ℕ} (hsize : size = 2 ^ k) (delaySamples : ℕ) (input : ℕ → K) (n : ℕ) :
    Holds (run delaySamples (size - 1) input n) size delaySamples input n := by
  subst hsize
  have hpos : 0 < 2 ^ k := Nat.two_pow_pos k
  induction n with
  | zero =>
    refine ⟨?_, ?_, fun t _ hlt => ?_⟩
    · rw [run, withRingbufferHeads, logand_mask]
      push_cast
      ring_nf
    · exact (Nat.zero_mod _).symm
    · exact (if_neg (by omega)).symm
  | succ n ih =>
    refine ⟨?_, ?_, fun t hlow hlt => ?_⟩
    · rw [run, updateRingbuffer, logand_mask, ih.readHead]
      push_cast
      rw [Int.add_emod_emod]
      ring_nf
    · have hhead := logand_mask (1 + (run delaySamples (2 ^ k - 1) input n).writeHead) k
      rw [ih.writeHead] at hhead
      push_cast at hhead
      rw [Int.add_emod_emod] at hhead
      rw [run, updateRingbuffer, ih.writeHead]
      zify
      rw [hhead]
      ring_nf
    · rw [run, updateRingbuffer]
      simp only [ih.writeHead]
      rcases (Int.lt_add_one_iff.mp (by exact_mod_cast hlt) : t ≤ n).lt_or_eq with hlt | rfl
      · rw [update_of_ne (emod_ne (by push_cast at hlow ⊢; omega) hlt)]
        exact ih.data t (by push_cast at hlow ⊢; omega) hlt
      · have hindex : ((n : ℤ) % ((2 ^ k : ℕ) : ℤ)).toNat = n % 2 ^ k := by
          rw [← Int.natCast_mod, Int.toNat_natCast]
        rw [hindex, update_self, signal, if_pos (Int.natCast_nonneg n), Int.toNat_natCast]

theorem Holds.tap {s : Ringbuffer K} (h : Holds s size delaySamples input n) {delay : ℤ}
    (hlow : 1 ≤ delay) (hhigh : delay ≤ size) :
    s.data ((n - delay) % size).toNat = signal input (n - delay) :=
  h.data (n - delay) (by omega) (by omega)

theorem Holds.zero {s : Ringbuffer K} (h : Holds s size delaySamples input n) (hpos : 0 < size)
    (hzero : ∀ t : ℤ, n - size ≤ t → t < n → signal input t = 0) (t : ℤ) :
    s.data (t % size).toNat = 0 := by
  have hpos' : (0 : ℤ) < size := by omega
  have hlow := Int.emod_nonneg (n - 1 - t) hpos'.ne'
  have hhigh := Int.emod_lt_of_pos (n - 1 - t) hpos'
  have hindex : t % (size : ℤ) = (n - 1 - (n - 1 - t) % size) % size := by
    rw [Int.sub_emod, Int.emod_emod, ← Int.sub_emod]
    congr 1
    ring
  rw [hindex, h.data _ (by omega) (by omega)]
  exact hzero _ (by omega) (by omega)

end Run

section Taps

theorem selectDelayInterp_eq {index k : ℕ} (hindex : index < 2 ^ k) (interpolation : Interp) :
    selectDelayInterp index (2 ^ k - 1) interpolation =
      interpolation.offsets.map fun o => (((index : ℤ) - o) % (2 ^ k : ℕ)).toNat := by
  have hlogand (i : ℤ) : logand i (2 ^ k - 1) = (i % (2 ^ k : ℕ)).toNat := by
    have hmask := logand_mask i k
    push_cast
    omega
  have hself : ((index : ℤ) % (2 ^ k : ℕ)).toNat = index := by
    rw [← Int.natCast_mod, Int.toNat_natCast, Nat.mod_eq_of_lt hindex]
  cases interpolation <;>
    simp only [selectDelayInterp, Interp.offsets, List.map_cons, List.map_nil, hlogand, sub_zero,
      sub_neg_eq_add, hself]

variable {x : K}

theorem interp_zero (interpolation : Interp) (g : ℤ → K) :
    interp 0 (interpolation.offsets.map g) = g 0 := by
  cases interpolation with
  | linear => exact linearInterp_zero _ _
  | cubic => exact cubicInterp_zero _ _ _ _
  | none => rfl

theorem interp_zeros (x : K) (interpolation : Interp) :
    interp x (interpolation.offsets.map fun _ => 0) = 0 := by
  cases interpolation with
  | linear => exact linearInterp_zeros x
  | cubic => exact cubicInterp_zeros x
  | none => rfl

variable [LinearOrder K] [FloorRing K]

theorem delayed_eq (interpolation : Interp) (delay : K) (input : ℕ → K) (n : ℕ) :
    delayed interpolation delay input n = interp (Int.fract delay)
      (interpolation.offsets.map fun k => signal input (n - ⌊delay⌋ - k)) := by
  rw [delayed]
  split_ifs with hfract
  · rw [hfract, interp_zero, sub_zero]
  · rfl

def ringSize (maxDelay : K) : ℕ := nextPowerOfTwo ⌊maxDelay⌋.toNat

def limited (maxDelay delay : K) : ℕ := (clip ⌊delay⌋ 0 (ringSize maxDelay - 1 : ℕ)).toNat

def vdelayRun (maxDelay delay : K) (input : ℕ → K) (n : ℕ) : Ringbuffer K :=
  run (limited maxDelay delay) (ringSize maxDelay - 1) input n

variable (maxDelay delay : K) (input : ℕ → K) (n : ℕ)

theorem ringSize_pos : 0 < ringSize maxDelay := by
  obtain ⟨k, hk⟩ := nextPowerOfTwo_eq_two_pow ⌊maxDelay⌋.toNat
  rw [ringSize, hk]
  exact Nat.two_pow_pos k

theorem vdelayRun_holds :
    Holds (vdelayRun maxDelay delay input n) (ringSize maxDelay) (limited maxDelay delay) input n := by
  obtain ⟨k, hk⟩ := nextPowerOfTwo_eq_two_pow ⌊maxDelay⌋.toNat
  exact run_holds hk _ _ _

theorem vdelay_eq (interpolation : Interp) :
    vdelay interpolation maxDelay delay input n =
      (interp (Int.fract delay) (interpolation.offsets.map fun o =>
        (vdelayRun maxDelay delay input n).data
          (((n : ℤ) - limited maxDelay delay - o) % ringSize maxDelay).toNat),
      (interpolation.offsets.map fun o =>
        (((n : ℤ) - limited maxDelay delay - o) % ringSize maxDelay).toNat) ++
          [n % ringSize maxDelay]) := by
  obtain ⟨k, hk⟩ := nextPowerOfTwo_eq_two_pow ⌊maxDelay⌋.toNat
  have hholds := vdelayRun_holds maxDelay delay input n
  have hpos : (0 : ℤ) < ringSize maxDelay := by exact_mod_cast ringSize_pos maxDelay
  have hsize : ringSize maxDelay = 2 ^ k := hk
  have hlt : (vdelayRun maxDelay delay input n).readHead < 2 ^ k := by
    have hmod := Int.emod_lt_of_pos ((n : ℤ) - limited maxDelay delay) hpos
    rw [← hholds.readHead, hsize] at hmod
    exact_mod_cast hmod
  have hindices : selectDelayInterp (vdelayRun maxDelay delay input n).readHead
      (ringSize maxDelay - 1) interpolation = interpolation.offsets.map fun o =>
        (((n : ℤ) - limited maxDelay delay - o) % ringSize maxDelay).toNat := by
    rw [hsize, selectDelayInterp_eq hlt, hholds.readHead, hsize]
    simp only [Int.emod_sub_emod]
  change (interp (delay - ⌊delay⌋) ((selectDelayInterp (vdelayRun maxDelay delay input n).readHead
    (ringSize maxDelay - 1) interpolation).map (vdelayRun maxDelay delay input n).data),
    selectDelayInterp (vdelayRun maxDelay delay input n).readHead (ringSize maxDelay - 1)
      interpolation ++ [(vdelayRun maxDelay delay input n).writeHead]) = _
  rw [hindices, List.map_map, Int.self_sub_floor, hholds.writeHead]
  rfl

theorem vdelay_inside (interpolation : Interp) :
    ∀ i ∈ (vdelay interpolation maxDelay delay input n).2, i < ringSize maxDelay := by
  intro i hi
  rw [vdelay_eq] at hi
  have hpos : (0 : ℤ) < ringSize maxDelay := by exact_mod_cast ringSize_pos maxDelay
  rcases List.mem_append.mp hi with hread | hwrite
  · obtain ⟨o, -, rfl⟩ := List.mem_map.mp hread
    have hlt := Int.emod_lt_of_pos ((n : ℤ) - limited maxDelay delay - o) hpos
    have hnneg := Int.emod_nonneg ((n : ℤ) - limited maxDelay delay - o) hpos.ne'
    omega
  · rw [List.mem_singleton.mp hwrite]
    exact Nat.mod_lt _ (ringSize_pos maxDelay)

end Taps

theorem delayS_delays {maxDelaySamples delaySamples : ℕ} (hlow : 1 ≤ delaySamples)
    (hhigh : delaySamples ≤ maxDelaySamples) : DelaySDelays K maxDelaySamples delaySamples := by
  intro input n
  obtain ⟨k, hk⟩ := nextPowerOfTwo_eq_two_pow maxDelaySamples
  have hle := le_nextPowerOfTwo maxDelaySamples
  have hpos : 0 < nextPowerOfTwo maxDelaySamples := by omega
  have hholds := @run_holds K _ _ k hk delaySamples input n
  have hread := Int.emod_lt_of_pos ((n : ℤ) - delaySamples)
    (by exact_mod_cast hpos : (0 : ℤ) < nextPowerOfTwo maxDelaySamples)
  have hindex := hholds.readHead
  rw [← hindex] at hread
  constructor
  · have htap := @Holds.tap K _ _ _ _ _ _ hholds delaySamples (by omega) (by omega)
    rw [← hindex, Int.toNat_natCast] at htap
    exact htap
  · intro i hi
    change i ∈ [_, _] at hi
    rcases List.mem_cons.mp hi with rfl | hi
    · exact_mod_cast hread
    · rw [List.mem_singleton.mp hi, hholds.writeHead]
      exact Nat.mod_lt _ hpos

variable {interpolation : Interp}

section Vdelay

variable [LinearOrder K] [FloorRing K] {maxDelay delay : K}

/-- The offsets of the samples that are necessary for the output. -/
def Interp.needed (interpolation : Interp) (delay : K) : List ℤ :=
  if Int.fract delay = 0 then [0] else interpolation.offsets

/-- The necessary samples are in the ring buffer, and the delay is not limited unless the size of
the ring buffer is one. -/
def Interp.Inside (interpolation : Interp) (maxDelay delay : K) : Prop :=
  (∀ o ∈ interpolation.needed delay, 1 ≤ ⌊delay⌋ + o ∧ ⌊delay⌋ + o ≤ ringSize maxDelay) ∧
    (⌊delay⌋ < ringSize maxDelay ∨ ringSize maxDelay = 1)

theorem limited_eq (hnneg : 0 ≤ ⌊delay⌋) :
    (limited maxDelay delay : ℤ) = min ⌊delay⌋ (ringSize maxDelay - 1) := by
  have hpos := ringSize_pos maxDelay
  rw [limited, clip]
  omega

theorem index_eq (h : interpolation.Inside maxDelay delay) (hnneg : 0 ≤ ⌊delay⌋) (n : ℕ) (o : ℤ) :
    ((n : ℤ) - limited maxDelay delay - o) % ringSize maxDelay =
      ((n : ℤ) - (⌊delay⌋ + o)) % ringSize maxDelay := by
  rcases h.2 with hlt | hone
  · rw [limited_eq hnneg, min_eq_left (by omega), Int.sub_sub]
  · rw [hone, Nat.cast_one, Int.emod_one, Int.emod_one]

theorem Interp.Inside.delays (h : interpolation.Inside maxDelay delay) (hnneg : 0 ≤ ⌊delay⌋) :
    VdelayDelays interpolation maxDelay delay := by
  intro input n
  refine ⟨?_, vdelay_inside maxDelay delay input n interpolation⟩
  have hholds := vdelayRun_holds maxDelay delay input n
  have htap : ∀ o ∈ interpolation.needed delay, (vdelayRun maxDelay delay input n).data
      (((n : ℤ) - limited maxDelay delay - o) % ringSize maxDelay).toNat =
        signal input (n - ⌊delay⌋ - o) := by
    intro o ho
    obtain ⟨hlow, hhigh⟩ := h.1 o ho
    rw [index_eq h hnneg, hholds.tap hlow hhigh, Int.sub_sub]
  rw [vdelay_eq, delayed_eq]
  rw [Interp.needed] at htap
  by_cases hfract : Int.fract delay = 0
  · rw [if_pos hfract] at htap
    simp only [hfract, interp_zero]
    exact htap 0 List.mem_cons_self
  · rw [if_neg hfract] at htap
    rw [List.map_congr_left htap]

def impulse (j : ℕ) : ℕ → K := Pi.single j 1

omit [LinearOrder K] [FloorRing K] in
theorem signal_impulse (j : ℕ) (t : ℤ) : signal (impulse j : ℕ → K) t = if t = j then 1 else 0 := by
  rw [signal, impulse]
  by_cases ht : 0 ≤ t
  · rw [if_pos ht, Pi.single_apply]
    congr 1
    exact propext ⟨fun h => by omega, fun h => by omega⟩
  · rw [if_neg ht, if_neg (by omega)]

theorem VdelayDelays.weight_eq_zero (h : VdelayDelays interpolation maxDelay delay) {o : ℤ}
    (ho : ⌊delay⌋ + o < 1 ∨ ringSize maxDelay < ⌊delay⌋ + o) :
    interp (Int.fract delay) (interpolation.offsets.map fun k => if k = o then (1 : K) else 0) = 0 := by
  obtain ⟨n, j, hnj, hout⟩ : ∃ n j : ℕ, (n : ℤ) - ⌊delay⌋ - o = j ∧
      ((j : ℤ) < n - ringSize maxDelay ∨ n ≤ j) := by
    rcases ho with hlow | hhigh
    · exact ⟨0, (-(⌊delay⌋ + o)).toNat, by omega, by omega⟩
    · exact ⟨(⌊delay⌋ + o).toNat, 0, by omega, by omega⟩
  have hdelayed := (h (impulse j) n).1
  have hzero := (vdelayRun_holds maxDelay delay (impulse j : ℕ → K) n).zero (ringSize_pos maxDelay)
    fun t hlow hhigh => by rw [signal_impulse, if_neg (by omega)]
  rw [vdelay_eq, delayed_eq] at hdelayed
  have hoffset (k : ℤ) : (n : ℤ) - ⌊delay⌋ - k = j ↔ k = o := by omega
  simp only [hzero, interp_zeros, signal_impulse, hoffset] at hdelayed
  exact hdelayed.symm

variable [IsStrictOrderedRing K]

theorem weight_ne_zero (interpolation : Interp) (delay : K) :
    ∃ first last, (∀ o ∈ interpolation.needed delay, first ≤ o ∧ o ≤ last) ∧
      (∀ o, o = first ∨ o = last → interp (Int.fract delay)
        (interpolation.offsets.map fun k => if k = o then (1 : K) else 0) ≠ 0) ∧
      (interpolation = .none ∨ Int.fract delay = 0 ∨ 0 < last) := by
  have hlt := Int.fract_lt_one delay
  have hsub : Int.fract delay - 1 ≠ 0 := sub_ne_zero.mpr hlt.ne
  rw [Interp.needed]
  by_cases hfract : Int.fract delay = 0
  · refine ⟨0, 0, ?_, ?_, .inr (.inl hfract)⟩
    · simp [hfract]
    · rintro o (rfl | rfl) <;> simp [hfract, interp_zero]
  rw [if_neg hfract]
  cases interpolation with
  | linear =>
    refine ⟨0, 1, by simp [Interp.offsets], ?_, .inr (.inr Int.one_pos)⟩
    rintro o (rfl | rfl)
    · simpa [Interp.offsets, interp, linearInterp, ← sub_eq_add_neg] using sub_ne_zero.mpr hlt.ne'
    · simpa [Interp.offsets, interp, linearInterp] using hfract
  | cubic =>
    refine ⟨-1, 2, by simp [Interp.offsets], ?_, .inr (.inr (by decide))⟩
    have hhalf : (1 / 2 : K) ≠ 0 := one_div_ne_zero two_ne_zero
    rintro o (rfl | rfl)
    · have hfirst : cubicInterp (Int.fract delay) 1 0 0 0 ≠ 0 := by
        rw [cubicInterp_first]
        exact mul_ne_zero (neg_ne_zero.mpr hhalf) (mul_ne_zero hfract (pow_ne_zero 2 hsub))
      simpa [Interp.offsets, interp] using hfirst
    · have hlast : cubicInterp (Int.fract delay) 0 0 0 1 ≠ 0 := by
        rw [cubicInterp_last]
        exact mul_ne_zero hhalf (mul_ne_zero (pow_ne_zero 2 hfract) hsub)
      simpa [Interp.offsets, interp] using hlast
  | none =>
    refine ⟨0, 0, by simp [Interp.offsets], ?_, .inl rfl⟩
    rintro o (rfl | rfl) <;> simp [Interp.offsets, interp]

theorem VdelayDelays.inside (h : VdelayDelays interpolation maxDelay delay)
    (hle : ⌊delay⌋ ≤ ringSize maxDelay) : interpolation.Inside maxDelay delay := by
  obtain ⟨first, last, hneeded, hweight, hlast⟩ := weight_ne_zero interpolation delay
  have hfirst : 1 ≤ ⌊delay⌋ + first ∧ ⌊delay⌋ + first ≤ ringSize maxDelay := by
    by_contra hnot
    exact hweight first (.inl rfl) (h.weight_eq_zero (by omega))
  have hlast' : 1 ≤ ⌊delay⌋ + last ∧ ⌊delay⌋ + last ≤ ringSize maxDelay := by
    by_contra hnot
    exact hweight last (.inr rfl) (h.weight_eq_zero (by omega))
  refine ⟨fun o ho => ?_, ?_⟩
  · obtain ⟨hlow, hhigh⟩ := hneeded o ho
    exact ⟨by omega, by omega⟩
  by_contra hnot
  obtain ⟨hge, hone⟩ := not_or.mp hnot
  have hpos := ringSize_pos maxDelay
  have hmiddle : interpolation = .none ∨ Int.fract delay = 0 := by
    rcases hlast with hnone | hfract | hplus
    · exact .inl hnone
    · exact .inr hfract
    · omega
  have hinterp (g : ℤ → K) : interp (Int.fract delay) (interpolation.offsets.map g) = g 0 := by
    rcases hmiddle with rfl | hfract
    · rfl
    · rw [hfract, interp_zero]
  have hdelayed := (h (impulse 0) (ringSize maxDelay)).1
  have htap := (vdelayRun_holds maxDelay delay (impulse 0 : ℕ → K) (ringSize maxDelay)).tap
    (by omega : 1 ≤ (ringSize maxDelay : ℤ) - 1) (by omega)
  have hlimited : (limited maxDelay delay : ℤ) = ringSize maxDelay - 1 := by
    rw [limited_eq (by omega)]
    omega
  rw [vdelay_eq, delayed_eq, hinterp, hinterp, hlimited, sub_zero, htap, signal_impulse,
    signal_impulse, if_neg (by omega), if_pos (by omega)] at hdelayed
  exact zero_ne_one hdelayed

omit [IsStrictOrderedRing K] in
theorem floor_le_ringSize (hle : delay ≤ maxDelay) : ⌊delay⌋ ≤ ringSize maxDelay := by
  have hfloor := Int.floor_le_floor hle
  have hsize := le_nextPowerOfTwo ⌊maxDelay⌋.toNat
  rw [ringSize]
  omega

/-- The delay lines delay, `vdelay` if the necessary samples are in the ring buffer. -/
theorem delays_iff (interpolation : Interp) (hnneg : 0 ≤ delay) (hle : delay ≤ maxDelay)
    {maxDelaySamples delaySamples : ℕ} (hlow : 1 ≤ delaySamples)
    (hhigh : delaySamples ≤ maxDelaySamples) :
    VdelayDelays interpolation maxDelay delay ∧ DelaySDelays K maxDelaySamples delaySamples ↔
      interpolation.Inside maxDelay delay := by
  constructor
  · rintro ⟨h, -⟩
    exact h.inside (floor_le_ringSize hle)
  · intro h
    exact ⟨h.delays (Int.floor_nonneg.mpr hnneg), delayS_delays hlow hhigh⟩

end Vdelay

theorem delays_iff_linear :
    VdelayDelays .linear (4 : ℚ) (3 / 2) ∧ DelaySDelays ℚ 4 4 :=
  (delays_iff .linear (by norm_num) (by norm_num) (by decide) le_rfl).mpr
    ⟨by decide +kernel, by decide +kernel⟩

/-- Without a delay the output is the oldest sample, with the maximum delay of four samples the
output is delayed by three samples. -/
theorem not_delays : ¬ VdelayDelays .linear (4 : ℚ) 0 ∧ ¬ VdelayDelays .linear (4 : ℚ) 4 := by
  constructor
  · intro h
    have hinside := h.inside (by decide +kernel)
    revert hinside
    simp only [Interp.Inside]
    decide +kernel
  · intro h
    have hinside := h.inside (by decide +kernel)
    revert hinside
    simp only [Interp.Inside]
    decide +kernel

end Incudine.DelayLine

import Incudine.Literals
import Incudine.TuningSearch
import Mathlib.Data.Int.ModEq
import Mathlib.Data.Nat.Size

/-!
# Pitch classes

A key number is converted to the octave, from the bits of the integer part of the frequency of the
first degree, and the degree. In the other direction the periods are walked from the reference to
the first one of the octave.
-/

namespace Incudine.PitchClass

open Nearest TuningSearch
open scoped Literals

/-- The number of the degrees, the reference and the frequencies of the keys of a tuning. -/
structure Scale (K : Type) where
  degrees : ℕ
  keynumBase : ℕ
  degreeIndex : ℕ
  cps : ℕ → K
  degrees_pos : 0 < degrees
  keynumBase_lt : keynumBase < 128

namespace Scale

section Periods

variable {K : Type} (t : Scale K)

def first : ℕ := (t.keynumBase - t.degreeIndex) % t.degrees

def degree (k : ℕ) : ℕ :=
  if t.first ≤ k then (k - t.first) % t.degrees else k + t.degrees - t.first

/-- The key that gives the octave: the first one of the period, or of the next period if the period
starts before the table. -/
def periodKey (k : ℕ) : ℕ := if t.first ≤ k then k - t.degree k else t.first

variable {t} {k : ℕ}

theorem first_lt : t.first < t.degrees := Nat.mod_lt _ t.degrees_pos

theorem degree_lt : t.degree k < t.degrees := by
  rw [degree]
  split_ifs with h
  · exact Nat.mod_lt _ t.degrees_pos
  · have hfirst := t.first_lt
    omega

theorem periodKey_le : t.periodKey k ≤ max t.first k := by
  rw [periodKey]
  split_ifs
  · omega
  · omega

theorem first_lt_128 : t.first < 128 := by
  have hle := Nat.mod_le (t.keynumBase - t.degreeIndex) t.degrees
  have hlt := t.keynumBase_lt
  rw [first]
  omega

theorem emod_degree (k : ℕ) :
    ((k : ℤ) - (t.keynumBase - t.degreeIndex : ℕ)) % t.degrees = t.degree k := by
  have hlt : t.degree k < t.degrees := degree_lt
  have hdiv := Nat.mod_add_div (t.keynumBase - t.degreeIndex) t.degrees
  have hmod : ((k : ℤ) - (t.keynumBase - t.degreeIndex : ℕ)) ≡ t.degree k [ZMOD t.degrees] := by
    rw [Int.modEq_iff_dvd, degree, ← hdiv, ← first]
    split_ifs with h
    · have hdiv' := Nat.mod_add_div (k - t.first) t.degrees
      refine ⟨((t.keynumBase - t.degreeIndex) / t.degrees : ℕ) -
        ((k - t.first) / t.degrees : ℕ), ?_⟩
      zify [h] at hdiv' ⊢
      linarith
    · refine ⟨((t.keynumBase - t.degreeIndex) / t.degrees : ℕ) + 1, ?_⟩
      have hfirst := t.first_lt
      zify [show t.first ≤ k + t.degrees by omega]
      ring
  rw [hmod, Int.emod_eq_of_lt (by omega) (by omega)]

theorem periodKey_lt (hk : k < 128) : t.periodKey k < 128 := by
  have hle := @periodKey_le K t k
  have hfirst := t.first_lt_128
  omega

theorem first_le_periodKey : t.first ≤ t.periodKey k := by
  rw [periodKey, degree]
  split_ifs
  · have hmod := Nat.mod_le (k - t.first) t.degrees
    omega
  · exact le_rfl

theorem periodKey_mod (t : Scale K) (k : ℕ) : ∃ m, t.periodKey k = t.first + m * t.degrees := by
  by_cases h : t.first ≤ k
  · refine ⟨(k - t.first) / t.degrees, ?_⟩
    have hdiv := Nat.mod_add_div' (k - t.first) t.degrees
    rw [periodKey, degree, if_pos h, if_pos h]
    omega
  · exact ⟨0, by rw [periodKey, if_neg h, Nat.zero_mul, Nat.add_zero]⟩

theorem reference_eq {start m : ℕ} (hstart : start = t.first + m * t.degrees) :
    ∃ n, t.keynumBase - t.degreeIndex = start + n * t.degrees ∨
      t.keynumBase - t.degreeIndex + n * t.degrees = start := by
  set reference := t.keynumBase - t.degreeIndex with href
  have hdiv : t.first + reference / t.degrees * t.degrees = reference :=
    Nat.mod_add_div' reference t.degrees
  rcases le_total m (reference / t.degrees) with hle | hle
  · refine ⟨reference / t.degrees - m, .inl ?_⟩
    rw [hstart, Nat.add_assoc, ← Nat.add_mul, Nat.add_sub_cancel' hle, hdiv]
  · refine ⟨m - reference / t.degrees, .inr ?_⟩
    calc reference + (m - reference / t.degrees) * t.degrees
        = t.first + (reference / t.degrees + (m - reference / t.degrees)) * t.degrees := by
          rw [Nat.add_mul, ← Nat.add_assoc, hdiv]
      _ = start := by rw [Nat.add_sub_cancel' hle, hstart]

end Periods

variable {K : Type} [Field K] [LinearOrder K] [FloorRing K] (t : Scale K)

def keynumBaseRange : Except Stop ℕ :=
  if t.degreeIndex ≤ t.keynumBase then .ok (t.keynumBase - t.degreeIndex) else .error .typeError

def integerLength (n : ℤ) : ℕ := if 0 ≤ n then n.toNat.size else (-n - 1).toNat.size

def tuningCps (keynum : ℤ) : Except Stop ℤ :=
  if 0 ≤ keynum ∧ keynum ≤ 127 then tuncps t.cps keynum.toNat else .error .typeError

def keynumToOctaveDegree (keynum : ℕ) : Except Stop (ℤ × ℤ) := do
  let start ← t.keynumBaseRange
  let delta := (keynum : ℤ) - start
  let degree := delta % t.degrees
  let keynum0 := start - degree + delta
  let octOffset := -1
  let (keynum0, octOffset) :=
    if keynum0 < 0 then (keynum0 + t.degrees, octOffset - 1) else (keynum0, octOffset)
  let freq ← t.tuningCps keynum0
  .ok (integerLength freq + octOffset, degree)

def keynumToPch (keynum : ℕ) : Except Stop K := do
  let (oct, degree) ← t.keynumToOctaveDegree keynum
  .ok (oct + degree / 100)

def prevStart (cps : ℤ) (curr : ℕ) : Except Stop ℕ :=
  if curr < t.degrees then .ok curr
  else do
    let prev ← tuncps t.cps (curr - t.degrees)
    if prev < cps then .ok curr else prevStart cps (curr - t.degrees)
termination_by curr
decreasing_by
  have hpos := t.degrees_pos
  omega

def nextStart (cps : ℤ) (curr : ℕ) : Except Stop ℕ :=
  if 127 ≤ curr then .ok 127
  else do
    let freq ← tuncps t.cps curr
    if cps ≤ freq then .ok curr else nextStart cps (curr + t.degrees)
termination_by 127 - curr
decreasing_by
  have hpos := t.degrees_pos
  omega

def getStart (cps : ℤ) (index : ℕ) : Except Stop ℕ := do
  let prev ← t.prevStart cps index
  if prev < index then .ok prev else t.nextStart cps index

def startIndex (octave : ℕ) : Except Stop ℕ := do
  let cps : ℤ := 2 ^ octave
  let last ← tuncps t.cps 127
  if last ≤ cps then .ok 127
  else do
    let start ← t.keynumBaseRange
    t.getStart cps start

/-- `decode-pitch-class`: the octave from 0 to 14, the degree from 0 to 99 and the fractional
part. -/
def decodePitchClass (pch : K) : Except Stop (ℕ × ℕ × K) :=
  if 0 ≤ pch ∧ pch ≤ 15 then
    let oct := ⌊pch⌋
    let index := ⌊(pch - oct) * 100⌋
    if oct ≤ 14 then .ok (oct.toNat, index.toNat, (pch - oct) * 100 - index)
    else .error .typeError
  else .error .typeError

def pchToKeynum (pitchClass : K) : Except Stop (ℤ × K) := do
  let (minOct, degree0) ← t.keynumToOctaveDegree 0
  let (oct, index, frac) ← decodePitchClass pitchClass
  let index : ℤ := if oct = minOct ∧ 0 < degree0 then index - t.degrees else index
  if minOct ≤ oct then do
    let start ← t.startIndex oct
    let index := index + start
    .ok (if index < 0 then (0, 0) else (min index 127, frac))
  else .ok (min index 127, frac)

/-- The key number that is obtained from the pitch class of a key. -/
def roundTrip (keynum : ℕ) : Except Stop (ℤ × K) := do
  let pch ← t.keynumToPch keynum
  t.pchToKeynum pch

def octave (k : ℕ) : ℤ :=
  integerLength ⌊t.cps (t.periodKey k)⌋ + if t.first ≤ k then -1 else -2

section

variable {t} {k : ℕ}

theorem tuningCps_natCast {index : ℤ} {key : ℕ} (hindex : index = key) (hkey : key < 128) :
    t.tuningCps index = tuncps t.cps key := by
  rw [tuningCps, if_pos (by omega), hindex, Int.toNat_natCast]

theorem keynumToOctaveDegree_eq (hle : t.degreeIndex ≤ t.keynumBase) (hk : k < 128) :
    t.keynumToOctaveDegree k = tuncps t.cps (t.periodKey k) >>= fun freq =>
      .ok (integerLength freq + (if t.first ≤ k then -1 else -2 : ℤ), (t.degree k : ℤ)) := by
  have hfirst := t.first_lt
  have hfirst' := t.first_lt_128
  have hemod := t.emod_degree k
  have hkey : ((t.keynumBase - t.degreeIndex : ℕ) : ℤ) - t.degree k +
      (k - (t.keynumBase - t.degreeIndex : ℕ)) = k - t.degree k := by ring
  simp only [keynumToOctaveDegree, keynumBaseRange, if_pos hle, bind, Except.bind, hemod, hkey]
  by_cases h : t.first ≤ k
  · have hdegree : t.degree k ≤ k := by
      have hmod := Nat.mod_le (k - t.first) t.degrees
      rw [degree, if_pos h]
      omega
    have hread : t.tuningCps ((k : ℤ) - t.degree k) = tuncps t.cps (t.periodKey k) := by
      rw [periodKey, if_pos h]
      exact tuningCps_natCast (by omega) (by omega)
    rw [if_neg (by omega), hread, if_pos h]
  · have hdegree : t.degree k = k + t.degrees - t.first := if_neg h
    have hread : t.tuningCps ((k : ℤ) - t.degree k + t.degrees) =
        tuncps t.cps (t.periodKey k) := by
      rw [periodKey, if_neg h]
      exact tuningCps_natCast (by omega) hfirst'
    rw [if_pos (by omega), hread, if_neg h]
    rfl

theorem octave_bounds {n : ℤ} (hn : 1 ≤ n) :
    2 ^ (integerLength n - 1) ≤ n ∧ n < 2 ^ integerLength n ∧ 0 < integerLength n := by
  obtain ⟨m, rfl⟩ := Int.eq_ofNat_of_zero_le (by omega : 0 ≤ n)
  rw [integerLength, if_pos (by omega), Int.toNat_natCast]
  have hpos : 0 < m.size := Nat.size_pos.mpr (by omega)
  have hle : 2 ^ (m.size - 1) ≤ m := Nat.lt_size.mp (by omega)
  have hlt : m < 2 ^ m.size := Nat.lt_size_self m
  exact ⟨by exact_mod_cast hle, by exact_mod_cast hlt, hpos⟩

theorem integerLength_le {m n : ℤ} (hm : 1 ≤ m) (hmn : m ≤ n) :
    integerLength m ≤ integerLength n := by
  rw [integerLength, integerLength, if_pos (by omega), if_pos (by omega)]
  exact Nat.size_le_size (by omega)

theorem integerLength_le_iff {n : ℤ} (hn : 1 ≤ n) (j : ℕ) : integerLength n ≤ j ↔ n < 2 ^ j := by
  obtain ⟨m, rfl⟩ := Int.eq_ofNat_of_zero_le (by omega : 0 ≤ n)
  rw [integerLength, if_pos (by omega), Int.toNat_natCast, Nat.size_le]
  exact_mod_cast Iff.rfl

theorem decodePitchClass_eq [IsStrictOrderedRing K] {oct : ℤ} {degree : ℕ} (hdegree : degree < 99) :
    decodePitchClass ((oct : K) + (degree : ℤ) / 100) =
      if 0 ≤ oct ∧ oct ≤ 14 then .ok (oct.toNat, degree, 0) else .error .typeError := by
  have hlt : ((degree : ℤ) : K) / 100 < 1 := by
    rw [div_lt_one (by norm_num)]
    exact_mod_cast (by omega : degree < 100)
  have hnonneg : (0 : K) ≤ ((degree : ℤ) : K) / 100 := by positivity
  have hfloor : ⌊(oct : K) + (degree : ℤ) / 100⌋ = oct := by
    rw [Int.floor_eq_iff]
    constructor <;> linarith
  have hindex : ((oct : K) + (degree : ℤ) / 100 - oct) * 100 = (degree : ℤ) := by
    field_simp
    ring
  have hiff : (0 ≤ (oct : K) + (degree : ℤ) / 100 ∧ (oct : K) + (degree : ℤ) / 100 ≤ 15) ∧
      oct ≤ 14 ↔ 0 ≤ oct ∧ oct ≤ 14 := by
    constructor
    · rintro ⟨⟨hlow, -⟩, hle⟩
      refine ⟨?_, hle⟩
      have h := Int.floor_nonneg.mpr hlow
      rwa [hfloor] at h
    · rintro ⟨hlow, hle⟩
      have hlow' : (0 : K) ≤ oct := by exact_mod_cast hlow
      have hle' : (oct : K) ≤ 14 := by exact_mod_cast hle
      exact ⟨⟨by linarith, by linarith⟩, hle⟩
  simp only [decodePitchClass, hfloor, hindex, Int.floor_intCast, sub_self, Int.toNat_natCast]
  by_cases h : 0 ≤ oct ∧ oct ≤ 14
  · rw [if_pos h, if_pos (hiff.mpr h).1, if_pos h.2]
  · rw [if_neg h]
    split_ifs with hrange hle
    · exact absurd (hiff.mp ⟨hrange, hle⟩) h
    · rfl
    · rfl

section Walk

variable {cps : ℤ} {start curr : ℕ}

/-- The first degree that reaches the frequency of the start of the octave. -/
structure IsStart (t : Scale K) (cps : ℤ) (start : ℕ) : Prop where
  lt : start < 128
  reaches : cps ≤ ⌊t.cps start⌋
  before : t.degrees ≤ start → ⌊t.cps (start - t.degrees)⌋ < cps

variable (hc : Sorted t.cps 128) (hrange : ∀ j < 128, InSampleRange (t.cps j))

include hc hrange

theorem prevStart_eq (h : IsStart t cps start) (m : ℕ) (hcurr : start + m * t.degrees < 128) :
    t.prevStart cps (start + m * t.degrees) = .ok start := by
  have hpos := t.degrees_pos
  induction m with
  | zero =>
    rw [Nat.zero_mul, Nat.add_zero] at hcurr ⊢
    rw [prevStart]
    by_cases hfirst : start < t.degrees
    · rw [if_pos hfirst]
    · rw [if_neg hfirst, tuncps_bind (hrange _ (by omega)), if_pos (h.before (by omega))]
  | succ m ih =>
    rw [Nat.succ_mul, ← Nat.add_assoc] at hcurr ⊢
    have hle := Int.floor_le_floor (hc start (start + m * t.degrees) (Nat.le_add_right _ _)
      (by omega))
    have hreaches := h.reaches
    rw [prevStart, if_neg (by omega), Nat.add_sub_cancel, tuncps_bind (hrange _ (by omega)),
      if_neg (by omega), ih (by omega)]

theorem nextStart_eq (h : IsStart t cps start) (m : ℕ) (hcurr : curr + m * t.degrees = start) :
    t.nextStart cps curr = .ok start := by
  have hpos := t.degrees_pos
  have hlt := h.lt
  induction m generalizing curr with
  | zero =>
    obtain rfl : curr = start := by simpa using hcurr
    rw [nextStart]
    by_cases hlast : 127 ≤ curr
    · rw [if_pos hlast, show curr = 127 by omega]
    · rw [if_neg hlast, tuncps_bind (hrange _ hlt), if_pos h.reaches]
  | succ m ih =>
    rw [Nat.succ_mul] at hcurr
    have hle := Int.floor_le_floor (hc curr (start - t.degrees) (by omega) (by omega))
    have hbefore := h.before (by omega)
    rw [nextStart, if_neg (by omega), tuncps_bind (hrange _ (by omega)), if_neg (by omega),
      ih (by omega)]

theorem getStart_eq (h : IsStart t cps start) {m : ℕ}
    (hcurr : curr = start + m * t.degrees ∨ curr + m * t.degrees = start) (hlt : curr < 128) :
    t.getStart cps curr = .ok start := by
  have hpos := t.degrees_pos
  rcases hcurr with rfl | hcurr
  · rw [getStart, prevStart_eq hc hrange h m hlt]
    change (if _ then _ else _) = _
    rcases Nat.eq_zero_or_pos m with rfl | hm
    · rw [if_neg (by omega), Nat.zero_mul, Nat.add_zero]
      exact nextStart_eq hc hrange h 0 (by omega)
    · rw [if_pos (Nat.lt_add_of_pos_right (Nat.mul_pos hm hpos))]
  · rcases Nat.eq_zero_or_pos m with rfl | hm
    · rw [Nat.zero_mul, Nat.add_zero] at hcurr
      rw [getStart, show t.prevStart cps curr = .ok start by
        simpa [hcurr] using prevStart_eq hc hrange h 0 (by omega)]
      change (if _ then _ else _) = _
      rw [if_neg (by omega)]
      exact nextStart_eq hc hrange h 0 (by omega)
    have hmul : t.degrees ≤ m * t.degrees := Nat.le_mul_of_pos_left _ hm
    have hle := Int.floor_le_floor (hc curr (start - t.degrees) (by omega) (by have := h.lt; omega))
    have hprev : t.prevStart cps curr = .ok curr := by
      rw [prevStart]
      by_cases hfirst : curr < t.degrees
      · rw [if_pos hfirst]
      · have hle' := Int.floor_le_floor (hc (curr - t.degrees) curr (Nat.sub_le _ _) hlt)
        have hbefore := h.before (by omega)
        rw [if_neg hfirst, tuncps_bind (hrange _ (by omega)), if_pos (by omega)]
    rw [getStart, hprev]
    change (if _ then _ else _) = _
    rw [if_neg (lt_irrefl _)]
    exact nextStart_eq hc hrange h m hcurr

end Walk

/-- The table is sorted, without frequencies below one hertz, and it is repeated at the octave. -/
structure Octaves (t : Scale K) : Prop where
  sorted : Sorted t.cps 128
  one_le : ∀ k < 128, 1 ≤ t.cps k
  period : ∀ k, k + t.degrees < 128 → t.cps (k + t.degrees) = 2 * t.cps k
  degrees_le : t.degrees ≤ 99
  degreeIndex_le : t.degreeIndex ≤ t.keynumBase

namespace Octaves

variable (h : t.Octaves)

include h

theorem one_le_floor (hk : k < 128) : 1 ≤ ⌊t.cps k⌋ :=
  Int.le_floor.mpr (by exact_mod_cast h.one_le k hk)

theorem startIndex_eq (hrange : ∀ j < 128, InSampleRange (t.cps j)) {oct : ℕ}
    (hstart : t.IsStart (2 ^ oct) (t.periodKey k)) :
    t.startIndex oct = if ⌊t.cps 127⌋ ≤ 2 ^ oct then .ok 127 else .ok (t.periodKey k) := by
  obtain ⟨m, hm⟩ := t.periodKey_mod k
  obtain ⟨n, hn⟩ := reference_eq hm
  have hbase := t.keynumBase_lt
  rw [startIndex, tuncps_bind (hrange _ (by norm_num)), keynumBaseRange, if_pos h.degreeIndex_le]
  change (if _ then _ else t.getStart (2 ^ oct) (t.keynumBase - t.degreeIndex)) = _
  rw [getStart_eq h.sorted hrange hstart hn (by omega)]

theorem octave_zero_lt (hfirst : 0 < t.first) (hle : t.first ≤ k) (hk : k < 128) :
    t.octave 0 < t.octave k := by
  have hmono := integerLength_le (h.one_le_floor t.first_lt_128)
    (Int.floor_le_floor (h.sorted _ _ first_le_periodKey (periodKey_lt hk)))
  have hzero : t.periodKey 0 = t.first := if_neg (by omega)
  rw [octave, octave, hzero, if_neg (by omega), if_pos hle]
  omega

theorem octave_zero_le (hk : k < 128) : t.octave 0 ≤ t.octave k := by
  by_cases hle : t.first ≤ k
  · rcases Nat.eq_zero_or_pos t.first with hzero | hpos
    · have hkey : t.periodKey 0 = 0 := by
        rw [periodKey, if_pos hzero.le]
        omega
      have hmono := integerLength_le (h.one_le_floor (k := 0) (by norm_num))
        (Int.floor_le_floor (h.sorted 0 (t.periodKey k) (Nat.zero_le _) (periodKey_lt hk)))
      rw [octave, octave, hkey, if_pos hzero.le, if_pos hle]
      omega
    · exact (h.octave_zero_lt hpos hle hk).le
  · have hkey : t.periodKey 0 = t.periodKey k := by
      rw [periodKey, periodKey, if_neg (by omega), if_neg hle]
    rw [octave, octave, hkey, if_neg (by omega), if_neg hle]

theorem isStart [IsStrictOrderedRing K] (hk : k < 128) (hle : t.first ≤ k) :
    t.IsStart (2 ^ (t.octave k).toNat) (t.periodKey k) := by
  have hkey := @periodKey_lt K t k hk
  obtain ⟨hlow, hlt, hpos⟩ := octave_bounds (h.one_le_floor hkey)
  have hoct : (t.octave k).toNat = integerLength ⌊t.cps (t.periodKey k)⌋ - 1 := by
    rw [octave, if_pos hle]
    omega
  rw [hoct]
  refine ⟨hkey, hlow, fun hdegrees => ?_⟩
  have hperiod := h.period (t.periodKey k - t.degrees) (by omega)
  rw [Nat.sub_add_cancel hdegrees] at hperiod
  rw [Int.floor_lt]
  have hlt' := Int.floor_lt.mp hlt
  have hpow : (2 : ℤ) ^ integerLength ⌊t.cps (t.periodKey k)⌋ =
      2 * 2 ^ (integerLength ⌊t.cps (t.periodKey k)⌋ - 1) := by
    rw [← pow_succ', Nat.sub_add_cancel hpos]
  rw [hpow] at hlt'
  push_cast at hlt' ⊢
  linarith

theorem isStart_first (hk : k < 128) (hlt : k < t.first) (hoct : 0 ≤ t.octave k) :
    t.IsStart (2 ^ (t.octave k).toNat) (t.periodKey k) ∧
      2 ^ (t.octave k).toNat < ⌊t.cps (t.periodKey k)⌋ := by
  have hkey := @periodKey_lt K t k hk
  have hfirst : t.periodKey k = t.first := if_neg (by omega)
  obtain ⟨hlow, -, -⟩ := octave_bounds (h.one_le_floor hkey)
  have hoct' : (t.octave k).toNat + 1 = integerLength ⌊t.cps (t.periodKey k)⌋ - 1 := by
    rw [octave, if_neg (by omega)] at hoct ⊢
    omega
  have hless : 2 ^ (t.octave k).toNat < ⌊t.cps (t.periodKey k)⌋ := by
    rw [← hoct', pow_succ] at hlow
    have hpos : (0 : ℤ) < 2 ^ (t.octave k).toNat := by positivity
    omega
  refine ⟨⟨hkey, hless.le, fun hle => ?_⟩, hless⟩
  have hfirst' := t.first_lt
  omega

theorem pchToKeynum_eq [IsStrictOrderedRing K] (hrange : ∀ j < 128, InSampleRange (t.cps j))
    (hk : k < 128) : t.pchToKeynum ((t.octave k : K) + (t.degree k : ℤ) / 100) =
      if 0 ≤ t.octave k ∧ t.octave k ≤ 14 then
        if t.first ≤ k ∧ ⌊t.cps 127⌋ ≤ 2 ^ (t.octave k).toNat then .ok (127, 0) else .ok (k, 0)
      else .error .typeError := by
  have hdegree : t.degree k < 99 := (t.degree_lt).trans_le h.degrees_le
  have hzero : t.keynumToOctaveDegree 0 = .ok (t.octave 0, (t.degree 0 : ℤ)) := by
    rw [keynumToOctaveDegree_eq h.degreeIndex_le (by norm_num),
      tuncps_bind (hrange _ (periodKey_lt (by norm_num)))]
    rfl
  rw [pchToKeynum, hzero, decodePitchClass_eq hdegree]
  by_cases hoct : 0 ≤ t.octave k ∧ t.octave k ≤ 14
  · have hcast : ((t.octave k).toNat : ℤ) = t.octave k := Int.toNat_of_nonneg hoct.1
    have hmin := h.octave_zero_le hk
    simp only [if_pos hoct, bind, Except.bind, hcast, if_pos hmin]
    by_cases hle : t.first ≤ k
    · have hlower : ¬ (t.octave k = t.octave 0 ∧ (0 : ℤ) < t.degree 0) := by
        rintro ⟨heq, hpos⟩
        rcases Nat.eq_zero_or_pos t.first with hzero | hfirst
        · rw [degree, if_pos hzero.le, hzero] at hpos
          simp at hpos
        · exact (h.octave_zero_lt hfirst hle hk).ne' heq
      have hdegree : t.degree k ≤ k := by
        have hmod := Nat.mod_le (k - t.first) t.degrees
        rw [degree, if_pos hle]
        omega
      have hkey : t.periodKey k = k - t.degree k := if_pos hle
      rw [if_neg hlower, h.startIndex_eq hrange (h.isStart hk hle)]
      by_cases hlast : ⌊t.cps 127⌋ ≤ 2 ^ (t.octave k).toNat
      · rw [if_pos hlast, if_pos ⟨hle, hlast⟩]
        simp only
        rw [if_neg (by omega), min_eq_right (by omega)]
      · rw [if_neg hlast, if_neg fun hand => hlast hand.2]
        simp only
        rw [if_neg (by omega), hkey, min_eq_left (by omega)]
        congr 2
        omega
    · obtain ⟨hstart, hless⟩ := h.isStart_first hk (not_le.mp hle) hoct.1
      have hkey : t.periodKey 0 = t.periodKey k := by
        rw [periodKey, periodKey, if_neg (by omega), if_neg hle]
      have hoctave : t.octave k = t.octave 0 := by
        rw [octave, octave, hkey, if_neg hle, if_neg (by omega)]
      have hfirst := t.first_lt
      have hzeroDegree : t.degree 0 = t.degrees - t.first := by
        rw [degree, if_neg (by omega), Nat.zero_add]
      have hkDegree : t.degree k = k + t.degrees - t.first := if_neg hle
      have hlast := Int.floor_le_floor (h.sorted (t.periodKey k) 127
        (Nat.le_of_lt_succ (periodKey_lt hk)) (by norm_num))
      rw [if_pos ⟨hoctave, by omega⟩, h.startIndex_eq hrange hstart, if_neg (by omega),
        if_neg fun hand => hle hand.1, periodKey, if_neg hle]
      simp only
      rw [if_neg (by omega), min_eq_left (by omega)]
      congr 2
      omega
  · rw [if_neg hoct, if_neg hoct]
    rfl

theorem roundTrip_eq [IsStrictOrderedRing K] (hlast : InSampleRange (t.cps 127)) (hk : k < 128) :
    t.roundTrip k = if 0 ≤ t.octave k ∧ t.octave k ≤ 14 then
        if t.first ≤ k ∧ ⌊t.cps 127⌋ ≤ 2 ^ (t.octave k).toNat then .ok (127, 0) else .ok (k, 0)
      else .error .typeError := by
  have hrange (j : ℕ) (hj : j < 128) : InSampleRange (t.cps j) :=
    ⟨le_trans (by norm_num) (h.one_le j hj),
      (h.sorted j 127 (by omega) (by norm_num)).trans hlast.2⟩
  rw [← h.pchToKeynum_eq hrange hk, roundTrip, keynumToPch,
    keynumToOctaveDegree_eq h.degreeIndex_le hk, tuncps_bind (hrange _ (periodKey_lt hk))]
  rfl

theorem range_of_roundTrip [IsStrictOrderedRing K] (hk : k < 128) {result : ℤ × K}
    (hok : t.roundTrip k = .ok result) : InSampleRange (t.cps 127) := by
  by_contra hlast
  have hread : tuncps t.cps 127 = .error .typeError := if_neg hlast
  have hdegree : t.degree k < 99 := (t.degree_lt).trans_le h.degrees_le
  rw [roundTrip, keynumToPch, keynumToOctaveDegree_eq h.degreeIndex_le hk] at hok
  rcases tuncps_cases t.cps (t.periodKey k) with ⟨hrange, -⟩ | ⟨-, herror⟩
  · rw [tuncps_bind hrange] at hok
    change t.pchToKeynum ((t.octave k : K) + (t.degree k : ℤ) / 100) = _ at hok
    rw [pchToKeynum, keynumToOctaveDegree_eq h.degreeIndex_le (by norm_num),
      decodePitchClass_eq hdegree] at hok
    rcases tuncps_cases t.cps (t.periodKey 0) with ⟨hrange', -⟩ | ⟨-, herror⟩
    · rw [tuncps_bind hrange'] at hok
      by_cases hoct : 0 ≤ t.octave k ∧ t.octave k ≤ 14
      · have hmin : t.octave 0 ≤ ((t.octave k).toNat : ℤ) := by
          rw [Int.toNat_of_nonneg hoct.1]
          exact h.octave_zero_le hk
        rw [octave] at hmin
        simp only [if_pos hoct, bind, Except.bind, if_pos hmin, startIndex, hread] at hok
        cases hok
      · rw [if_neg hoct] at hok
        cases hok
    · rw [herror] at hok
      cases hok
  · rw [herror] at hok
    cases hok

theorem octave_iff [IsStrictOrderedRing K] (hk : k < 128) :
    0 ≤ t.octave k ∧ t.octave k ≤ 14 ↔
      (k < t.first → 2 ≤ t.cps t.first ∧ t.cps t.first < 2 ^ 16) ∧
        (t.first ≤ k → t.cps (t.periodKey k) < 2 ^ 15) := by
  have hlength (key j : ℕ) (hkey : key < 128) :
      integerLength ⌊t.cps key⌋ ≤ j ↔ t.cps key < 2 ^ j := by
    rw [integerLength_le_iff (h.one_le_floor hkey), Int.floor_lt]
    push_cast
    rfl
  have hkey := @periodKey_lt K t k hk
  obtain ⟨-, -, hpos⟩ := octave_bounds (h.one_le_floor hkey)
  by_cases hle : t.first ≤ k
  · rw [octave, if_pos hle, ← hlength _ _ hkey]
    constructor
    · rintro ⟨-, hoct⟩
      exact ⟨fun hlt => by omega, fun _ => by omega⟩
    · rintro ⟨-, hlt⟩
      have hlt := hlt hle
      omega
  · have hfirst : t.periodKey k = t.first := if_neg hle
    have htwo : (2 : K) ≤ t.cps t.first ↔ 1 < integerLength ⌊t.cps t.first⌋ := by
      rw [← not_le, hlength _ _ t.first_lt_128, not_lt, pow_one]
    rw [octave, if_neg hle, hfirst, htwo, ← hlength _ _ t.first_lt_128]
    constructor
    · rintro ⟨hnonneg, hoct⟩
      exact ⟨fun _ => ⟨by omega, by omega⟩, fun hle' => absurd hle' hle⟩
    · rintro ⟨hand, -⟩
      have hand := hand (not_le.mp hle)
      omega

theorem last_iff [IsStrictOrderedRing K] (hk : k < 128) (hle : t.first ≤ k) :
    ⌊t.cps 127⌋ ≤ 2 ^ (t.octave k).toNat ↔
      ¬ ∀ o : ℕ, 2 ^ o ≤ t.cps (t.periodKey k) → 2 ^ o + 1 ≤ t.cps 127 := by
  obtain ⟨hlow, hlt, hpos⟩ := octave_bounds (h.one_le_floor (@periodKey_lt K t k hk))
  have hoct : (t.octave k).toNat = integerLength ⌊t.cps (t.periodKey k)⌋ - 1 := by
    rw [octave, if_pos hle]
    omega
  have hfloor (o : ℕ) : (2 : K) ^ o + 1 ≤ t.cps 127 ↔ 2 ^ o < ⌊t.cps 127⌋ := by
    rw [Int.lt_iff_add_one_le, Int.le_floor]
    push_cast
    rfl
  have hreach (o : ℕ) : (2 : K) ^ o ≤ t.cps (t.periodKey k) ↔ 2 ^ o ≤ ⌊t.cps (t.periodKey k)⌋ := by
    rw [Int.le_floor]
    push_cast
    rfl
  simp only [hfloor, hreach, hoct]
  constructor
  · intro hlast hall
    exact absurd (hall _ hlow) (not_lt.mpr hlast)
  · intro hnot
    by_contra hlast
    refine hnot fun o ho => lt_of_le_of_lt ?_ (not_le.mp hlast)
    have hexp : o < integerLength ⌊t.cps (t.periodKey k)⌋ :=
      (pow_lt_pow_iff_right₀ (by norm_num : (1 : ℤ) < 2)).mp (ho.trans_lt hlt)
    exact pow_le_pow_right₀ (by norm_num) (by omega)

end Octaves

/-- The frequencies can be converted, the octave of the key is in the range from 0 to 14, also if
it is the one before the first whole period, and the last frequency is at least a hertz above the
powers of two that the period reaches. -/
structure RoundTrips (t : Scale K) (k : ℕ) : Prop where
  range : t.cps 127 ≤ 2 ^ 61
  before : k < t.first → 2 ≤ t.cps t.first ∧ t.cps t.first < 2 ^ 16
  octave : t.first ≤ k → t.cps (t.periodKey k) < 2 ^ 15
  last : t.first ≤ k → k ≠ 127 → ∀ o : ℕ, 2 ^ o ≤ t.cps (t.periodKey k) → 2 ^ o + 1 ≤ t.cps 127

/-- The key that is obtained from the pitch class of a key. -/
theorem roundTrip_iff [IsStrictOrderedRing K] (h : t.Octaves) (hk : k < 128) :
    t.roundTrip k = .ok ((k : ℤ), 0) ↔ t.RoundTrips k := by
  constructor
  · intro hok
    have hlast := h.range_of_roundTrip hk hok
    rw [h.roundTrip_eq hlast hk] at hok
    by_cases hoct : 0 ≤ t.octave k ∧ t.octave k ≤ 14
    · obtain ⟨hbefore, hoctave⟩ := (h.octave_iff hk).mp hoct
      refine ⟨hlast.2, hbefore, hoctave, fun hle hne => ?_⟩
      by_contra hnot
      rw [if_pos hoct, if_pos ⟨hle, (h.last_iff hk hle).mpr hnot⟩] at hok
      have hkey := congrArg Prod.fst (Except.ok.inj hok)
      simp only at hkey
      omega
    · rw [if_neg hoct] at hok
      exact nomatch hok
  · intro htrip
    have hlast : InSampleRange (t.cps 127) :=
      ⟨le_trans (by norm_num) (h.one_le 127 (by norm_num)), htrip.range⟩
    rw [h.roundTrip_eq hlast hk, if_pos ((h.octave_iff hk).mpr ⟨htrip.before, htrip.octave⟩)]
    split_ifs with hend
    · obtain rfl : k = 127 := by
        by_contra hne
        exact (h.last_iff hk hend.1).mp hend.2 (htrip.last hend.1 hne)
      rfl
    · rfl

theorem lateScale_keynumBase_lt : 69 < 128 := by decide

/-- A period of 99 degrees starts at the last key but one, whose frequency is a power of two. -/
def lateScale : Scale ℚ where
  degrees := 99
  keynumBase := 69
  degreeIndex := 42
  cps k := if k < 99 then 128 + ((k : ℚ) - 27) / 1000 else 256 + ((k : ℚ) - 126) / 500
  degrees_pos := by norm_num
  keynumBase_lt := lateScale_keynumBase_lt

theorem lateScale_lt {i j : ℕ} (hij : i < j) (hj : j < 128) :
    lateScale.cps i < lateScale.cps j := by
  have hcast : (i : ℚ) < j := by exact_mod_cast hij
  simp only [lateScale]
  split_ifs with hi' hj'
  · linarith
  · have hi : (i : ℚ) < 99 := by exact_mod_cast hi'
    have hge : (99 : ℚ) ≤ j := by exact_mod_cast not_lt.mp hj'
    linarith
  · omega
  · linarith

theorem octaves_lateScale : lateScale.Octaves where
  sorted i j hij hj := by
    rcases hij.eq_or_lt with rfl | hlt
    · exact le_rfl
    · exact (lateScale_lt hlt hj).le
  one_le k hk := by
    have hnonneg : (0 : ℚ) ≤ k := Nat.cast_nonneg k
    simp only [lateScale]
    split_ifs <;> linarith
  period k hk := by
    have hk' : k < 99 := by
      change k + 99 < 128 at hk
      omega
    simp only [lateScale, if_pos hk', if_neg (show ¬ k + 99 < 99 by omega)]
    push_cast
    ring
  degrees_le := by norm_num [lateScale]
  degreeIndex_le := by norm_num [lateScale]

/-- A key of the period that ends before the last key but one. -/
theorem roundTrip_iff_lateScale : lateScale.roundTrip 50 = .ok (((50 : ℕ) : ℤ), 0) := by
  have hkey : lateScale.periodKey 50 = 27 := rfl
  have hfirst : lateScale.first = 27 := rfl
  refine (roundTrip_iff octaves_lateScale (by norm_num)).mpr ⟨?_, ?_, fun _ => ?_, fun _ _ o ho => ?_⟩
  · norm_num [lateScale]
  · rw [hfirst]
    norm_num
  · rw [hkey]
    norm_num [lateScale]
  · rw [hkey] at ho
    norm_num [lateScale] at ho ⊢
    linarith

/-- The last key but one is changed in the last one. -/
theorem not_roundTrip : ¬ ∀ t : Scale ℚ, t.Octaves →
    (∀ i j, i < j → j < 128 → t.cps i < t.cps j) →
      ∀ k < 128, t.roundTrip k = .ok ((k : ℤ), 0) := by
  intro hall
  have hok := hall lateScale octaves_lateScale (fun _ _ => lateScale_lt) 126 (by norm_num)
  have h := octaves_lateScale
  have hfirst : lateScale.first = 27 := rfl
  have hkey : lateScale.periodKey 126 = 126 := rfl
  have hfreq : lateScale.cps 126 = 256 := by norm_num [lateScale]
  have hfreq' : lateScale.cps 127 = 256 + 1 / 500 := by norm_num [lateScale]
  have hoct : 0 ≤ lateScale.octave 126 ∧ lateScale.octave 126 ≤ 14 := by
    rw [h.octave_iff (by norm_num), hfirst, hkey, hfreq]
    exact ⟨fun hlt => by omega, fun _ => by norm_num⟩
  have hlast : ⌊lateScale.cps 127⌋ ≤ 2 ^ (lateScale.octave 126).toNat := by
    rw [h.last_iff (by norm_num) (by rw [hfirst]; norm_num), hkey, hfreq, hfreq']
    intro hpow
    have hle := hpow 8 (by norm_num)
    norm_num at hle
  have hrange : InSampleRange (lateScale.cps 127) := by
    rw [hfreq']
    constructor <;> norm_num
  rw [h.roundTrip_eq hrange (by norm_num), if_pos hoct,
    if_pos ⟨by rw [hfirst]; norm_num, hlast⟩] at hok
  have hkeys := congrArg Prod.fst (Except.ok.inj hok)
  norm_num at hkeys

end

end Scale

end Incudine.PitchClass

import Incudine.Literals
import Incudine.Tuning
import Mathlib.Analysis.Complex.ExponentialBounds

/-!
# MIDI tuning messages

The tuning messages send for every key the semitone below its frequency and the fraction of a
semitone in 14 bits. The semitone is searched in the frequencies of the equal temperament, the
fraction is computed from the cents of the degrees, which are walked from the key zero.
-/

namespace Incudine.MidiTuning

open Function Tuning
open scoped Literals

noncomputable def tuningEt12 : Tuning where
  degrees := 12
  ratios i := ratioOf (100 * i)
  keynumBase := 69
  freqBase := 440
  degreeIndex := 9
  degrees_pos := by norm_num
  degrees_le := by norm_num
  ratios_zero := ratioOf_semitones_zero
  ratios_pos := ratioOf_semitones_pos
  keynumBase_lt := by norm_num
  freqBase_nonneg := by norm_num

noncomputable def roundEven (x : ℝ) : ℤ :=
  if Int.fract x < 1 / 2 then ⌊x⌋
  else if 1 / 2 < Int.fract x then ⌊x⌋ + 1
  else if Even ⌊x⌋ then ⌊x⌋ else ⌊x⌋ + 1

/-- The search ends before the last key, whose frequency is greater. -/
noncomputable def positionNearestEt12Frequency (t : Tuning) (keynum : ℕ) : ℕ :=
  let freq := t.cps keynum
  if freq < tuningEt12.cps 0 then 0
  else if tuningEt12.cps 127 ≤ freq then 127
  else ((List.range' 1 127).find? fun k => freq < tuningEt12.cps k).getD 0 - 1

noncomputable def tuningEt12CentsOffset (t : Tuning) : ℝ := Real.logb 2 (t.cps 0 / 8.1758) * 1200

noncomputable def midiTuningFractionBytes (centsDiff : ℝ) : ℕ × ℕ :=
  if 0 < centsDiff then
    let value := (roundEven (centsDiff * 2 ^ 14 * 0.01)).toNat
    (value / 2 ^ 7 % 2 ^ 7, value % 2 ^ 7)
  else (0, 0)

/-- The data word for the key `k`, where `i` and `os` are the degree and the offset of the walk. -/
noncomputable def dataWord (t : Tuning) (k i : ℕ) (os : ℝ) : ℕ × ℕ × ℕ :=
  let xx := positionNearestEt12Frequency t k
  (xx, midiTuningFractionBytes (os + t.cents i - xx * 100))

def bulkTuningDumpNameIndex : ℕ := 6

def bulkTuningDumpNameLength : ℕ := 16

def bulkTuningDumpFreqDataIndex : ℕ := 22

def bulkTuningDumpChecksumIndex : ℕ := 406

/-- F0 7E DEVICE-ID 08 01 PROGRAM, and F7 at the end. -/
def prepareMidiBulkTuningDumpBuffer (deviceId program : ℕ) : ℕ → ℕ
  | 0 => 0xf0
  | 1 => 0x7e
  | 2 => deviceId
  | 3 => 8
  | 4 => 1
  | 5 => program
  | 407 => 0xf7
  | _ => 0

def setMidiBulkTuningName (name : List ℕ) (buf : ℕ → ℕ) (j : ℕ) : ℕ :=
  if bulkTuningDumpNameIndex ≤ j ∧ j < bulkTuningDumpNameIndex + bulkTuningDumpNameLength then
    name.getD (j - bulkTuningDumpNameIndex) 0
  else buf j

def midiDumpChecksum (buf : ℕ → ℕ) : ℕ :=
  (List.range' 1 (bulkTuningDumpChecksumIndex - 1)).foldl (fun sum i => sum ^^^ buf i) 0 &&& 0x7f

/-- The loop over the keys from `k`, with the number of the keys that are left. -/
noncomputable def setFreqs (t : Tuning) : ℕ → ℕ → ℕ → ℕ → ℝ → (ℕ → ℕ) → (ℕ → ℕ)
  | 0, _, _, _, _, buf => buf
  | left + 1, k, i, j, os, buf =>
    let word := dataWord t k i os
    let buf := update (update (update buf j word.1) (j + 1) word.2.1) (j + 2) word.2.2
    let i := (k + 1) % t.degrees
    setFreqs t left (k + 1) i (j + 3) (if i = 0 then os + t.cents t.degrees else os) buf

noncomputable def midiBulkTuningDump (t : Tuning) (name : List ℕ) (deviceId program : ℕ)
    (checksum : (ℕ → ℕ) → ℕ) : ℕ → ℕ :=
  let buf := setMidiBulkTuningName name (prepareMidiBulkTuningDumpBuffer deviceId program)
  let buf := setFreqs t 128 0 0 bulkTuningDumpFreqDataIndex (tuningEt12CentsOffset t) buf
  update buf bulkTuningDumpChecksumIndex (checksum buf)

/-- F0 7F DEVICE-ID 08 02 PROGRAM 01 KEYNUM XX YY ZZ F7. -/
def singleNoteMessage (deviceId program keynum : ℕ) (word : ℕ × ℕ × ℕ) : List ℕ :=
  [0xf0, 0x7f, deviceId, 8, 2, program, 1, keynum, word.1, word.2.1, word.2.2, 0xf7]

/-- The messages from the key `k`, with the number of the keys that are left. -/
noncomputable def sendLoop (t : Tuning) (deviceId program : ℕ) : ℕ → ℕ → ℕ → ℝ → List (List ℕ)
  | 0, _, _, _ => []
  | left + 1, k, i, os =>
    let message := singleNoteMessage deviceId program k (dataWord t k i os)
    let i := (k + 1) % t.degrees
    message :: sendLoop t deviceId program left (k + 1) i
      (if i = 0 then os + t.cents t.degrees else os)

noncomputable def midi128SingleNoteTuning (t : Tuning) (deviceId program : ℕ) : List (List ℕ) :=
  sendLoop t deviceId program 128 0 0 (tuningEt12CentsOffset t)

def bulkWord (buf : ℕ → ℕ) (k : ℕ) : ℕ × ℕ × ℕ :=
  let j := bulkTuningDumpFreqDataIndex + 3 * k
  (buf j, buf (j + 1), buf (j + 2))

noncomputable def walkOffset (t : Tuning) (k : ℕ) : ℝ :=
  tuningEt12CentsOffset t + (k / t.degrees : ℕ) * t.cents t.degrees

noncomputable def sentWord (t : Tuning) (k : ℕ) : ℕ × ℕ × ℕ :=
  dataWord t k (k % t.degrees) (walkOffset t k)

variable {t : Tuning} {k : ℕ}

theorem walkOffset_succ (t : Tuning) (k : ℕ) :
    (if (k + 1) % t.degrees = 0 then walkOffset t k + t.cents t.degrees else walkOffset t k) =
      walkOffset t (k + 1) := by
  unfold walkOffset
  split_ifs with hzero
  · rw [Nat.succ_div_of_dvd (Nat.dvd_of_mod_eq_zero hzero)]
    push_cast
    ring
  · rw [Nat.succ_div_of_not_dvd fun hdvd => hzero (Nat.mod_eq_zero_of_dvd hdvd)]

theorem setFreqs_walk (t : Tuning) (left k : ℕ) (buf : ℕ → ℕ) :
    (∀ j, j < bulkTuningDumpFreqDataIndex + 3 * k →
      setFreqs t left k (k % t.degrees) (bulkTuningDumpFreqDataIndex + 3 * k) (walkOffset t k) buf j =
        buf j) ∧
    ∀ m, k ≤ m → m < k + left →
      bulkWord (setFreqs t left k (k % t.degrees) (bulkTuningDumpFreqDataIndex + 3 * k)
        (walkOffset t k) buf) m = sentWord t m := by
  induction left generalizing k buf with
  | zero => exact ⟨fun _ _ => rfl, fun m hm hlt => by omega⟩
  | succ left ih =>
    rw [setFreqs, walkOffset_succ]
    set j := bulkTuningDumpFreqDataIndex + 3 * k with hj
    set buf' := update (update (update buf j (sentWord t k).1) (j + 1) (sentWord t k).2.1) (j + 2)
      (sentWord t k).2.2 with hbuf'
    have hnext : j + 3 = bulkTuningDumpFreqDataIndex + 3 * (k + 1) := by omega
    obtain ⟨hbelow, habove⟩ := ih (k + 1) buf'
    rw [← hnext] at hbelow habove
    refine ⟨fun i hi => ?_, fun m hm hlt => ?_⟩
    · refine (hbelow i (by omega)).trans ?_
      rw [hbuf', update_of_ne (by omega), update_of_ne (by omega), update_of_ne (by omega)]
    · rcases hm.eq_or_lt with rfl | hm
      · have h₀ := hbelow j (by omega)
        have h₁ := hbelow (j + 1) (by omega)
        have h₂ := hbelow (j + 2) (by omega)
        rw [hbuf', update_of_ne (by omega), update_of_ne (by omega), update_self] at h₀
        rw [hbuf', update_of_ne (by omega), update_self] at h₁
        rw [hbuf', update_self] at h₂
        exact Prod.ext h₀ (Prod.ext h₁ h₂)
      · exact habove m hm (by omega)

theorem bulkWord_eq (name : List ℕ) (deviceId program : ℕ) (checksum : (ℕ → ℕ) → ℕ) (hk : k < 128) :
    bulkWord (midiBulkTuningDump t name deviceId program checksum) k = sentWord t k := by
  have hzero : walkOffset t 0 = tuningEt12CentsOffset t := by
    rw [walkOffset, Nat.zero_div, Nat.cast_zero, zero_mul, add_zero]
  have hword := (setFreqs_walk t 128 0
    (setMidiBulkTuningName name (prepareMidiBulkTuningDumpBuffer deviceId program))).2 k
    (Nat.zero_le k) (by omega)
  rw [Nat.zero_mod, mul_zero, add_zero, hzero] at hword
  rw [← hword, midiBulkTuningDump]
  unfold bulkWord bulkTuningDumpFreqDataIndex bulkTuningDumpChecksumIndex
  simp only [update_of_ne (show 22 + 3 * k ≠ 406 by omega),
    update_of_ne (show 22 + 3 * k + 1 ≠ 406 by omega),
    update_of_ne (show 22 + 3 * k + 2 ≠ 406 by omega)]

theorem sendLoop_walk (t : Tuning) (deviceId program left k m : ℕ) (hm : m < left) :
    (sendLoop t deviceId program left k (k % t.degrees) (walkOffset t k))[m]? =
      some (singleNoteMessage deviceId program (k + m) (sentWord t (k + m))) := by
  induction left generalizing k m with
  | zero => omega
  | succ left ih =>
    rw [sendLoop, walkOffset_succ]
    cases m with
    | zero => rfl
    | succ m =>
      rw [List.getElem?_cons_succ, ih (k + 1) m (by omega), Nat.add_right_comm, Nat.add_assoc]

theorem midi128SingleNoteTuning_eq (deviceId program : ℕ) (hk : k < 128) :
    (midi128SingleNoteTuning t deviceId program)[k]? =
      some (singleNoteMessage deviceId program k (sentWord t k)) := by
  have hzero : walkOffset t 0 = tuningEt12CentsOffset t := by
    rw [walkOffset, Nat.zero_div, Nat.cast_zero, zero_mul, add_zero]
  have h := sendLoop_walk t deviceId program 128 0 k hk
  rwa [Nat.zero_mod, hzero, Nat.zero_add] at h

noncomputable def keyCents (t : Tuning) (k : ℕ) : ℝ := centsOf (t.cps k / 8.1758)

/-- The difference between the walk from the key zero, whose degree is taken as the unison, and the
frequency of the key. -/
noncomputable def drift (t : Tuning) (k : ℕ) : ℝ :=
  t.pitch k - (t.pitch (t.shift + k) + t.jump k - (t.pitch t.shift + t.jump 0))

noncomputable def unit : ℝ := 100 / 2 ^ 14

/-- The frequency 8.1758 Hz above the key zero of the equal temperament, in cents. -/
noncomputable def baseOffset : ℝ := centsOf (8.1758 / 440) + 6900

theorem keyCents_eq (hk : k < 128) (hfreq : 0 < t.freqBase) : keyCents t k =
    centsOf (t.freqBase / 8.1758) +
      (t.pitch (t.shift + k) - t.cents (t.degreeIntervalIndex + 1) + t.jump k) := by
  have hbase : (0 : ℝ) < 8.1758 := by norm_num
  rw [keyCents, Tuning.cps_eq hk, mul_div_right_comm, centsOf_mul (div_pos hfreq hbase)
    (ratioOf_pos _), centsOf_ratioOf]

theorem walk_eq (hk : k < 128) (hfreq : 0 < t.freqBase) :
    walkOffset t k + t.cents (k % t.degrees) = keyCents t k + drift t k := by
  have hpitch : t.pitch k = (k / t.degrees : ℕ) * t.cents t.degrees + t.cents (k % t.degrees) := by
    rw [Tuning.pitch, extended, ← Int.natCast_ediv, ← Int.natCast_emod, Int.toNat_natCast,
      Int.cast_natCast]
  have hoffset : tuningEt12CentsOffset t = keyCents t 0 := mul_comm _ _
  rw [walkOffset, hoffset, keyCents_eq hk hfreq, keyCents_eq (by norm_num) hfreq, drift, hpitch,
    Nat.cast_zero, add_zero]
  ring

theorem drift_eq_zero (haligned : (t.degreeIndex : ℤ) ≡ t.keynumBase [ZMOD t.degrees])
    (hjump : t.degreeIntervalIndex = 0 → t.keynumBase = 0) : drift t k = 0 := by
  have hpos := t.degrees_pos
  have hjump' (j : ℕ) : t.jump j = 0 := by
    rw [Tuning.jump, if_neg]
    rintro ⟨hzero, hj⟩
    rw [hjump hzero] at hj
    exact absurd hj (Nat.not_lt_zero j)
  obtain ⟨m, hm⟩ : ∃ m : ℤ, t.shift = m * t.degrees := by
    have hdegree : (t.degreeIntervalIndex : ℤ) = ((t.degreeIndex : ℤ) - 1) % t.degrees :=
      Int.toNat_of_nonneg (Int.emod_nonneg _ (by omega))
    have hmod : ((t.degreeIndex : ℤ) - 1) % t.degrees ≡ (t.keynumBase : ℤ) - 1 [ZMOD t.degrees] :=
      (Int.mod_modEq _ _).trans (haligned.sub_right 1)
    obtain ⟨m, hm⟩ := (Int.modEq_iff_dvd.mp hmod.symm)
    refine ⟨m, ?_⟩
    rw [Tuning.shift, Nat.cast_succ, hdegree, mul_comm, ← hm]
    ring
  have hshift : t.pitch (t.shift + k) = t.pitch k + m * t.cents t.degrees := by
    rw [hm, add_comm]
    exact extended_add_mul hpos _ _
  rw [drift, hshift, hjump', hjump', hm, Tuning.pitch_mul]
  ring

theorem baseOffset_eq : baseOffset = 100 * Real.logb 2 ((8.1758 / 440) ^ 12 * 2 ^ 69) := by
  have hlog : Real.logb 2 ((8.1758 / 440) ^ 12 * 2 ^ 69) =
      12 * Real.logb 2 (8.1758 / 440) + 69 := by
    rw [Real.logb_mul (by norm_num) (by norm_num), Real.logb_pow, Real.logb_pow,
      Real.logb_self_eq_one one_lt_two]
    norm_num
  rw [baseOffset, hlog, centsOf]
  ring

theorem baseOffset_bounds : 0 ≤ baseOffset ∧ baseOffset < unit / 4 := by
  rw [baseOffset_eq]
  set z : ℝ := (8.1758 / 440) ^ 12 * 2 ^ 69 with hz
  have hone : 1 ≤ z := by
    rw [hz]
    norm_num
  have hle : z - 1 < 1 / 2 ^ 17 := by
    rw [hz]
    norm_num
  have hlog : Real.log z < 1 / 2 ^ 17 :=
    (Real.log_le_sub_one_of_pos (by linarith)).trans_lt hle
  have htwo : 1 / 2 < Real.log 2 := by
    have h := Real.log_two_gt_d9
    linarith
  have hlogb : Real.logb 2 z < 1 / 2 ^ 16 := by
    rw [Real.logb, div_lt_iff₀ (by linarith)]
    linarith
  refine ⟨mul_nonneg (by norm_num) (Real.logb_nonneg one_lt_two hone), ?_⟩
  rw [unit]
  linarith

theorem pitch_et12 (n : ℤ) : tuningEt12.pitch n = 100 * n := by
  have hcents (i : ℕ) : tuningEt12.cents i = 100 * i := centsOf_ratioOf _
  have hnonneg : 0 ≤ n % (12 : ℤ) := Int.emod_nonneg n (by norm_num)
  have hcast : ((n % (12 : ℤ)).toNat : ℝ) = ((n % 12 : ℤ) : ℝ) := by
    exact_mod_cast Int.toNat_of_nonneg hnonneg
  have hsum : (n : ℝ) = ((n / 12 : ℤ) : ℝ) * 12 + ((n % 12 : ℤ) : ℝ) := by
    exact_mod_cast (Int.ediv_mul_add_emod n 12).symm
  have hdegrees : tuningEt12.degrees = 12 := rfl
  rw [Tuning.pitch, extended, hdegrees, hcents, hcents, Nat.cast_ofNat, Nat.cast_ofNat, hcast, hsum]
  ring

theorem keyCents_et12 (hk : k < 128) : keyCents tuningEt12 k = 100 * k - baseOffset := by
  have hfreq : tuningEt12.freqBase = 440 := rfl
  have hdegree : tuningEt12.degreeIntervalIndex = 8 := rfl
  have hshift : tuningEt12.shift = -60 := rfl
  have hcents (i : ℕ) : tuningEt12.cents i = 100 * i := centsOf_ratioOf _
  have hbase : centsOf (440 / 8.1758) = -centsOf (8.1758 / 440) := by
    rw [centsOf_div (by norm_num) (by norm_num), centsOf_div (by norm_num) (by norm_num)]
    ring
  have hjump : tuningEt12.jump k = 0 := by
    rw [Tuning.jump, hdegree, if_neg]
    rintro ⟨h, -⟩
    cases h
  rw [keyCents_eq hk (by rw [hfreq]; norm_num), hfreq, hbase, hdegree, hshift, hjump, hcents,
    pitch_et12, baseOffset]
  push_cast
  ring

/-- The keys whose frequency is between those of the first and of the last key of the equal
temperament. -/
def InRange (t : Tuning) (k : ℕ) : Prop :=
  tuningEt12.cps 0 ≤ t.cps k ∧ t.cps k ≤ tuningEt12.cps 127

theorem cps_pos_et12 (hk : k < 128) : 0 < tuningEt12.cps k := by
  rw [Tuning.cps_eq hk]
  exact mul_pos (show (0 : ℝ) < 440 by norm_num) (ratioOf_pos _)

theorem InRange.cps_pos (h : InRange t k) : 0 < t.cps k := (cps_pos_et12 (by norm_num)).trans_le h.1

theorem InRange.freqBase_pos (h : InRange t k) (hk : k < 128) : 0 < t.freqBase := by
  have hpos := h.cps_pos
  rw [Tuning.cps_eq hk] at hpos
  exact pos_of_mul_pos_left hpos (ratioOf_pos _).le

theorem keyCents_lt {t' : Tuning} {k' : ℕ} (h : 0 < t.cps k) (h' : 0 < t'.cps k') :
    keyCents t k < keyCents t' k' ↔ t.cps k < t'.cps k' := by
  have hbase : (0 : ℝ) < 8.1758 := by norm_num
  rw [keyCents, keyCents, centsOf_lt (div_pos h hbase) (div_pos h' hbase)]
  exact div_lt_div_iff_of_pos_right hbase

theorem position_spec (hrange : InRange t k) :
    positionNearestEt12Frequency t k ≤ 127 ∧
      100 * (positionNearestEt12Frequency t k : ℝ) - baseOffset ≤ keyCents t k ∧
      keyCents t k < 100 * (positionNearestEt12Frequency t k + 1 : ℝ) - baseOffset := by
  have hlt (n : ℕ) (hn : n < 128) :
      t.cps k < tuningEt12.cps n ↔ keyCents t k < 100 * n - baseOffset := by
    rw [← keyCents_et12 hn, keyCents_lt hrange.cps_pos (cps_pos_et12 hn)]
  unfold positionNearestEt12Frequency
  dsimp only
  rw [if_neg (not_lt.mpr hrange.1)]
  split_ifs with hlast
  · have hle := (hlt 127 (by norm_num)).not.mp (not_lt.mpr hlast)
    have heq : keyCents t k = keyCents tuningEt12 127 := by
      rw [keyCents, keyCents, le_antisymm hrange.2 hlast]
    rw [keyCents_et12 (by norm_num)] at heq
    refine ⟨le_rfl, ?_, ?_⟩
    · rw [heq]
    · rw [heq]
      push_cast
      linarith
  · rw [not_le] at hlast
    cases hfind : (List.range' 1 127).find? fun n => decide (t.cps k < tuningEt12.cps n) with
    | none =>
      rw [List.find?_range'_eq_none] at hfind
      have h := hfind 127 (by norm_num) (by norm_num)
      rw [Bool.not_eq_true', decide_eq_false_iff_not] at h
      exact absurd hlast h
    | some n =>
      rw [List.find?_range'_eq_some, decide_eq_true_iff] at hfind
      obtain ⟨hn, hmem, hbefore⟩ := hfind
      obtain ⟨hone, hle⟩ : 1 ≤ n ∧ n < 128 := by simpa [List.mem_range'_1] using hmem
      obtain ⟨m, rfl⟩ : ∃ m, n = m + 1 := ⟨n - 1, by omega⟩
      rw [Option.getD_some, Nat.add_sub_cancel]
      refine ⟨by omega, ?_, ?_⟩
      · rcases Nat.eq_zero_or_pos m with rfl | hm
        · exact not_lt.mp ((hlt 0 (by norm_num)).not.mp (not_lt.mpr hrange.1))
        · have h := hbefore m hm (by omega)
          rw [Bool.not_eq_true', decide_eq_false_iff_not] at h
          exact not_lt.mp ((hlt m (by omega)).not.mp h)
      · have h := (hlt (m + 1) hle).mp hn
        push_cast at h
        exact h

theorem abs_roundEven_sub_le (x : ℝ) : |(roundEven x : ℝ) - x| ≤ 1 / 2 := by
  have hfract := Int.self_sub_floor x
  have hlt := Int.fract_lt_one x
  have hnonneg := Int.fract_nonneg x
  rw [abs_le]
  unfold roundEven
  split_ifs with hbelow habove <;> push_cast <;> constructor <;> linarith

theorem roundEven_nonneg {x : ℝ} (hx : 0 ≤ x) : 0 ≤ roundEven x := by
  have hfloor := Int.floor_nonneg.mpr hx
  unfold roundEven
  split_ifs <;> omega

theorem roundEven_of_even {x : ℝ} {n : ℤ} (hn : Even n) (hle : n - 1 / 2 ≤ x) (hlt : x < n) :
    roundEven x = n := by
  have hfloor : ⌊x⌋ = n - 1 := by
    rw [Int.floor_eq_iff]
    push_cast
    constructor <;> linarith
  have hfract : 1 / 2 ≤ Int.fract x := by
    rw [← Int.self_sub_floor, hfloor]
    push_cast
    linarith
  have hodd : ¬ Even (n - 1) := by
    rw [Int.not_even_iff_odd]
    exact hn.sub_odd odd_one
  rw [roundEven, if_neg (not_lt.mpr hfract), hfloor, if_neg hodd, ite_self, sub_add_cancel]

def fractionValue (bytes : ℕ × ℕ) : ℕ := 128 * bytes.1 + bytes.2

theorem fractionBytes_lt (x : ℝ) :
    (midiTuningFractionBytes x).1 < 128 ∧ (midiTuningFractionBytes x).2 < 128 := by
  unfold midiTuningFractionBytes
  split_ifs
  · exact ⟨Nat.mod_lt _ (by norm_num), Nat.mod_lt _ (by norm_num)⟩
  · exact ⟨by norm_num, by norm_num⟩

theorem fractionValue_of_pos {x : ℝ} (hx : 0 < x) :
    fractionValue (midiTuningFractionBytes x) = (roundEven (x / unit)).toNat % 2 ^ 14 := by
  have hunits : x * 2 ^ 14 * 0.01 = x / unit := by
    rw [unit]
    field_simp
    norm_num
  rw [midiTuningFractionBytes, if_pos hx, hunits, fractionValue]
  dsimp only
  omega

theorem fractionValue_of_nonpos {x : ℝ} (hx : x ≤ 0) :
    fractionValue (midiTuningFractionBytes x) = 0 := by
  rw [midiTuningFractionBytes, if_neg (not_lt.mpr hx)]
  rfl

theorem exists_fractionValue {x : ℝ} (hx : 0 < x) : ∃ m : ℕ,
    |fractionValue (midiTuningFractionBytes x) * unit + 100 * m - x| ≤ unit / 2 := by
  have hunit : 0 < unit := by
    rw [unit]
    norm_num
  have hround := abs_roundEven_sub_le (x / unit)
  have hnonneg := roundEven_nonneg (div_pos hx hunit).le
  set v := (roundEven (x / unit)).toNat with hv
  have hcast : (roundEven (x / unit) : ℝ) = v := by
    exact_mod_cast (Int.toNat_of_nonneg hnonneg).symm
  have hsplit : (v : ℝ) = 2 ^ 14 * (v / 2 ^ 14 : ℕ) + (v % 2 ^ 14 : ℕ) := by
    exact_mod_cast (Nat.div_add_mod v (2 ^ 14)).symm
  refine ⟨v / 2 ^ 14, ?_⟩
  have hsum : ((v % 2 ^ 14 : ℕ) : ℝ) * unit + 100 * (v / 2 ^ 14 : ℕ) - x = (v - x / unit) * unit := by
    rw [hsplit, sub_mul, div_mul_cancel₀ x hunit.ne']
    rw [unit]
    ring
  rw [fractionValue_of_pos hx, hsum, abs_mul, abs_of_pos hunit]
  rw [hcast] at hround
  linarith [mul_le_mul_of_nonneg_right hround hunit.le]

noncomputable def decoded (word : ℕ × ℕ × ℕ) : ℝ :=
  8.1758 * 2 ^ ((word.1 + (128 * word.2.1 + word.2.2) / 2 ^ 14) / 12 : ℝ)

/-- The bytes have seven bits and the frequency is right within half a unit of the last place. -/
def Decodes (word : ℕ × ℕ × ℕ) (freq : ℝ) : Prop :=
  (word.1 < 128 ∧ word.2.1 < 128 ∧ word.2.2 < 128) ∧
    |centsOf (decoded word / freq)| ≤ 100 / 2 ^ 15

def EncodesKey (t : Tuning) (k : ℕ) : Prop :=
  (∀ name deviceId program checksum,
    Decodes (bulkWord (midiBulkTuningDump t name deviceId program checksum) k) (t.cps k)) ∧
  ∀ deviceId program, ∃ word, (midi128SingleNoteTuning t deviceId program)[k]? =
    some (singleNoteMessage deviceId program k word) ∧ Decodes word (t.cps k)

theorem encodesKey_iff (hk : k < 128) :
    EncodesKey t k ↔ Decodes (sentWord t k) (t.cps k) := by
  constructor
  · rintro ⟨hbulk, -⟩
    have h := hbulk [] 0 0 midiDumpChecksum
    rwa [bulkWord_eq _ _ _ _ hk] at h
  · intro h
    refine ⟨fun name deviceId program checksum => ?_, fun deviceId program => ?_⟩
    · rwa [bulkWord_eq _ _ _ _ hk]
    · exact ⟨_, midi128SingleNoteTuning_eq deviceId program hk, h⟩

theorem decodes_sentWord_iff (hrange : InRange t k) :
    Decodes (sentWord t k) (t.cps k) ↔
      |100 * (positionNearestEt12Frequency t k : ℝ) + fractionValue (sentWord t k).2 * unit -
        keyCents t k| ≤ unit / 2 := by
  have hbase : (0 : ℝ) < 8.1758 := by norm_num
  have hbytes : (sentWord t k).1 < 128 ∧ (sentWord t k).2.1 < 128 ∧ (sentWord t k).2.2 < 128 :=
    ⟨Nat.lt_succ_of_le (position_spec hrange).1, fractionBytes_lt _⟩
  have hcents : centsOf (decoded (sentWord t k) / t.cps k) =
      100 * (positionNearestEt12Frequency t k : ℝ) + fractionValue (sentWord t k).2 * unit -
        keyCents t k := by
    have hdecoded : decoded (sentWord t k) = 8.1758 *
        ratioOf (100 * (positionNearestEt12Frequency t k : ℝ) +
          fractionValue (sentWord t k).2 * unit) := by
      rw [decoded, ratioOf, fractionValue, unit]
      congr 2
      push_cast
      change ((positionNearestEt12Frequency t k : ℝ) + _) / 12 = _
      ring
    rw [hdecoded, mul_comm, mul_div_assoc, centsOf_mul (ratioOf_pos _) (div_pos hbase hrange.cps_pos),
      centsOf_ratioOf, keyCents, centsOf_div hrange.cps_pos hbase, centsOf_div hbase hrange.cps_pos]
    ring
  have hhalf : (100 : ℝ) / 2 ^ 15 = unit / 2 := by
    rw [unit]
    norm_num
  rw [Decodes, hcents, hhalf]
  exact and_iff_right hbytes

/-- The frequency is below a semitone of the equal temperament by half a unit of the last place or
less, so the fraction is rounded to the next semitone. -/
def NearNext (freq : ℝ) : Prop :=
  ∃ n : ℕ, n < 128 ∧ 8.1758 * 2 ^ ((n - 1 / 2 ^ 15) / 12 : ℝ) ≤ freq ∧ freq < tuningEt12.cps n

/-- The key zero is the unison of the scale, with the frequency of `update-tuning-data`. -/
def Aligned (t : Tuning) : Prop :=
  (t.degreeIndex : ℤ) ≡ t.keynumBase [ZMOD t.degrees] ∧
    (t.degreeIntervalIndex = 0 → t.keynumBase = 0)

theorem nearNext_iff (hpos : 0 < t.cps k) : NearNext (t.cps k) ↔
    ∃ n : ℕ, n < 128 ∧ 100 * (n : ℝ) - unit / 2 ≤ keyCents t k ∧
      keyCents t k < 100 * n - baseOffset := by
  have hbase : (0 : ℝ) < 8.1758 := by norm_num
  have hle (n : ℕ) : 8.1758 * 2 ^ ((n - 1 / 2 ^ 15) / 12 : ℝ) ≤ t.cps k ↔
      100 * (n : ℝ) - unit / 2 ≤ keyCents t k := by
    have hratio : (2 : ℝ) ^ ((n - 1 / 2 ^ 15) / 12 : ℝ) = ratioOf (100 * n - unit / 2) := by
      rw [ratioOf, unit]
      congr 1
      ring
    have hcents : ratioOf (100 * (n : ℝ) - unit / 2) ≤ ratioOf (centsOf (t.cps k / 8.1758)) ↔ _ :=
      ratioOf_le
    rw [hratio, keyCents, ← hcents, ratioOf_centsOf (div_pos hpos hbase), le_div_iff₀' hbase]
  refine exists_congr fun n => and_congr_right fun hn => ?_
  rw [hle n, ← keyCents_et12 hn, keyCents_lt hpos (cps_pos_et12 hn)]

theorem encodesKey_iff_of_drift (hk : k < 128) (hrange : InRange t k) (hdrift : drift t k = 0) :
    EncodesKey t k ↔ ¬ NearNext (t.cps k) := by
  obtain ⟨hlast, hlow, hhigh⟩ := position_spec hrange
  obtain ⟨hnonneg, hsmall⟩ := baseOffset_bounds
  have hunit : unit = 100 / 2 ^ 14 := rfl
  set n := positionNearestEt12Frequency t k with hn
  have hword : (sentWord t k).2 = midiTuningFractionBytes (keyCents t k - 100 * n) := by
    rw [sentWord, dataWord, walk_eq hk (hrange.freqBase_pos hk), hdrift, add_zero, mul_comm]
  rw [encodesKey_iff hk, decodes_sentWord_iff hrange, hword, nearNext_iff hrange.cps_pos, ← hn]
  set x := keyCents t k - 100 * (n : ℝ) with hx
  have hnear : (∃ n : ℕ, n < 128 ∧ 100 * (n : ℝ) - unit / 2 ≤ keyCents t k ∧
      keyCents t k < 100 * n - baseOffset) ↔ 100 - unit / 2 ≤ x := by
    constructor
    · rintro ⟨m, -, hle, hlt⟩
      have hm : n < m := by
        by_contra hm
        have hcast : (m : ℝ) ≤ n := Nat.cast_le.mpr (Nat.le_of_not_lt hm)
        linarith
      have hcast : (n : ℝ) + 1 ≤ m := by exact_mod_cast hm
      linarith
    · intro hle
      have hne : n ≠ 127 := by
        intro heq
        have hmax : keyCents t k ≤ keyCents tuningEt12 127 := by
          have hlt := keyCents_lt (cps_pos_et12 (by norm_num : 127 < 128)) hrange.cps_pos
          exact not_lt.mp (hlt.not.mpr (not_lt.mpr hrange.2))
        rw [keyCents_et12 (by norm_num)] at hmax
        rw [heq] at hx
        push_cast at hx hmax
        rw [hx, hunit] at hle
        linarith
      refine ⟨n + 1, by omega, ?_, ?_⟩
      · push_cast
        linarith
      · push_cast
        exact hhigh
  rw [hnear, not_le]
  have hsub : 100 * (n : ℝ) + fractionValue (midiTuningFractionBytes x) * unit - keyCents t k =
      fractionValue (midiTuningFractionBytes x) * unit - x := by
    rw [hx]
    ring
  rw [hsub]
  have hpos : 0 < unit := by
    rw [hunit]
    norm_num
  rcases le_or_gt x 0 with hx0 | hx0
  · rw [fractionValue_of_nonpos hx0, Nat.cast_zero, zero_mul, zero_sub, abs_neg, abs_of_nonpos hx0]
    refine iff_of_true ?_ ?_
    · linarith
    · rw [hunit] at *
      linarith
  · have hlt : x / unit < 2 ^ 14 := by
      rw [div_lt_iff₀ hpos, hunit]
      linarith
    constructor
    · intro hle
      by_contra hcarry
      rw [not_lt] at hcarry
      have hround : roundEven (x / unit) = ((2 ^ 14 : ℕ) : ℤ) := by
        refine roundEven_of_even ⟨2 ^ 13, by norm_num⟩ ?_ ?_
        · rw [le_div_iff₀ hpos, hunit]
          rw [hunit] at hcarry
          push_cast
          linarith
        · exact_mod_cast hlt
      have hvalue : fractionValue (midiTuningFractionBytes x) = 0 := by
        rw [fractionValue_of_pos hx0, hround, Int.toNat_natCast, Nat.mod_self]
      rw [hvalue, Nat.cast_zero, zero_mul, zero_sub, abs_neg, abs_of_pos hx0] at hle
      rw [hunit] at *
      linarith
    · intro hcarry
      obtain ⟨m, hm⟩ := exists_fractionValue hx0
      obtain rfl : m = 0 := by
        by_contra hne
        have hone : (1 : ℝ) ≤ m := by exact_mod_cast Nat.one_le_iff_ne_zero.mpr hne
        have hvalue : (0 : ℝ) ≤ fractionValue (midiTuningFractionBytes x) * unit :=
          mul_nonneg (Nat.cast_nonneg _) hpos.le
        have habove := (abs_le.mp hm).2
        linarith
      rwa [Nat.cast_zero, mul_zero, add_zero] at hm

theorem drift_of_encodesKey (hk : k < 128) (hrange : InRange t k) (h : EncodesKey t k) :
    (∃ m : ℕ, |drift t k - 100 * m| ≤ unit) ∨ ∃ n : ℕ, |keyCents t k - 100 * n| ≤ unit / 2 := by
  rw [encodesKey_iff hk, decodes_sentWord_iff hrange] at h
  set n := positionNearestEt12Frequency t k with hn
  have hword : (sentWord t k).2 = midiTuningFractionBytes (keyCents t k + drift t k - 100 * n) := by
    rw [sentWord, dataWord, walk_eq hk (hrange.freqBase_pos hk), mul_comm]
  rw [hword] at h
  rcases le_or_gt (keyCents t k + drift t k - 100 * (n : ℝ)) 0 with hx | hx
  · rw [fractionValue_of_nonpos hx, Nat.cast_zero, zero_mul, add_zero, abs_sub_comm] at h
    exact .inr ⟨n, h⟩
  · obtain ⟨m, hm⟩ := exists_fractionValue hx
    refine .inl ⟨m, ?_⟩
    rw [abs_le] at h hm ⊢
    constructor <;> linarith

/-- In real arithmetic, if the walk of the cents is right, both messages are right for a key if
and only if its frequency is not rounded to the next semitone. The walk is right if the key zero is
the unison. Otherwise the messages are wrong, unless the key is on a semitone or the walk
is right within a unit but for a number of semitones. -/
theorem encodesKey_iff_of_inRange (t : Tuning) {k : ℕ} (hk : k < 128) (hrange : InRange t k) :
    (drift t k = 0 → (EncodesKey t k ↔ ¬ NearNext (t.cps k))) ∧
      (Aligned t → drift t k = 0) ∧
      (EncodesKey t k → (∃ m : ℕ, |drift t k - 100 * m| ≤ 100 / 2 ^ 14) ∨
        ∃ n : ℕ, |keyCents t k - 100 * n| ≤ 100 / 2 ^ 15) := by
  refine ⟨encodesKey_iff_of_drift hk hrange, fun h => drift_eq_zero h.1 h.2, fun h => ?_⟩
  have hhalf : unit / 2 = 100 / 2 ^ 15 := by
    rw [unit]
    norm_num
  rw [← hhalf]
  exact drift_of_encodesKey hk hrange h

theorem aligned_et12 : Aligned tuningEt12 := by
  refine ⟨?_, fun h => ?_⟩
  · change (9 : ℤ) ≡ 69 [ZMOD 12]
    decide
  · cases h

theorem inRange_et12 (hk : k < 128) : InRange tuningEt12 k := by
  have hle {m n : ℕ} (hm : m < 128) (hn : n < 128) (hmn : m ≤ n) :
      tuningEt12.cps m ≤ tuningEt12.cps n := by
    rw [← not_lt, ← keyCents_lt (cps_pos_et12 hn) (cps_pos_et12 hm), keyCents_et12 hm,
      keyCents_et12 hn, not_lt]
    have hcast : (m : ℝ) ≤ n := Nat.cast_le.mpr hmn
    linarith
  exact ⟨hle (by norm_num) hk (Nat.zero_le k), hle hk (by norm_num) (Nat.le_of_lt_succ hk)⟩

theorem encodesKey_et12 : EncodesKey tuningEt12 60 := by
  have hrange : InRange tuningEt12 60 := inRange_et12 (by norm_num)
  obtain ⟨hiff, haligned, -⟩ := encodesKey_iff_of_inRange tuningEt12 (by norm_num) hrange
  refine (hiff (haligned aligned_et12)).mpr ?_
  rw [nearNext_iff hrange.cps_pos, keyCents_et12 (by norm_num)]
  rintro ⟨n, -, hle, hlt⟩
  obtain ⟨hnonneg, hsmall⟩ := baseOffset_bounds
  have hunit : unit = 100 / 2 ^ 14 := rfl
  have hn : 60 < n := by
    have h : ((60 : ℕ) : ℝ) < n := by linarith
    exact_mod_cast h
  have hcast : (61 : ℝ) ≤ n := by exact_mod_cast hn
  rw [hunit] at hle
  push_cast at hle
  linarith

/-- A tuning whose keys have the same frequency, a quarter of a unit below a semitone. -/
noncomputable def belowSemitone : Tuning where
  degrees := 1
  ratios _ := 1
  keynumBase := 0
  freqBase := 8.1758 * ratioOf (100 - unit / 4)
  degreeIndex := 0
  degrees_pos := Nat.one_pos
  degrees_le := by norm_num
  ratios_zero := rfl
  ratios_pos _ := one_pos
  keynumBase_lt := by norm_num
  freqBase_nonneg := mul_nonneg (by norm_num) (ratioOf_pos _).le

/-- The fraction of a key is rounded to a semitone, and the carry is lost. -/
theorem not_encodesKey :
    ¬ ∀ (t : Tuning) (k : ℕ), k < 128 → InRange t k → EncodesKey t k := by
  intro hall
  obtain ⟨hnonneg, hsmall⟩ := baseOffset_bounds
  have hunit : unit = 100 / 2 ^ 14 := rfl
  have hcents (i : ℕ) : belowSemitone.cents i = 0 := centsOf_one
  have hpitch (n : ℤ) : belowSemitone.pitch n = 0 := by
    rw [Tuning.pitch, extended, hcents, hcents, mul_zero, add_zero]
  have hjump (j : ℕ) : belowSemitone.jump j = 0 := by
    rw [Tuning.jump, hcents, ite_self]
  have hfreq : 0 < belowSemitone.freqBase := mul_pos (by norm_num) (ratioOf_pos _)
  have hkey : keyCents belowSemitone 0 = 100 - unit / 4 := by
    have hratio : belowSemitone.freqBase / 8.1758 = ratioOf (100 - unit / 4) :=
      mul_div_cancel_left₀ _ (by norm_num)
    rw [keyCents_eq (by norm_num) hfreq, hratio, hpitch, hcents, hjump, centsOf_ratioOf]
    ring
  have hpos : 0 < belowSemitone.cps 0 := by
    rw [Tuning.cps_eq (by norm_num)]
    exact mul_pos hfreq (ratioOf_pos _)
  have hrange : InRange belowSemitone 0 := by
    constructor
    · rw [← not_lt, ← keyCents_lt hpos (cps_pos_et12 (by norm_num)), hkey,
        keyCents_et12 (by norm_num), hunit]
      push_cast
      linarith
    · rw [← not_lt, ← keyCents_lt (cps_pos_et12 (by norm_num)) hpos, hkey,
        keyCents_et12 (by norm_num)]
      push_cast
      linarith
  have hdrift : drift belowSemitone 0 = 0 := by
    rw [drift, hpitch, hpitch, hpitch, hjump]
    ring
  refine (encodesKey_iff_of_drift (by norm_num) hrange hdrift).mp (hall _ 0 (by norm_num) hrange) ?_
  rw [nearNext_iff hpos, hkey]
  refine ⟨1, by norm_num, ?_, ?_⟩
  · push_cast
    linarith
  · push_cast
    linarith

end Incudine.MidiTuning

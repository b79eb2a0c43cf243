import Mathlib.Analysis.SpecialFunctions.Pow.Real
import Mathlib.Data.UInt

/-!
# Decoders of the bulk tuning dump

A data word is three bytes for each of the 128 keys. In the events of PortMidi four bytes of the
message precede four bytes of timestamp, and a cycle of the decoder crosses three events. The other
decoder reads the plain bytes.
-/

namespace Incudine.BulkTuningDump

open Function

variable {K : Type}

abbrev Word := UInt8 × UInt8 × UInt8

def wordAt (data : ℕ → UInt8) (d : ℕ) : Word := (data d, data (d + 1), data (d + 2))

/-- A byte is not in the seven bits of the data. -/
def IsHigh (w : Word) : Prop := (w.1 ||| w.2.1 ||| w.2.2) &&& 0x80 ≠ 0

instance : DecidablePred IsHigh := fun _ => inferInstanceAs (Decidable (_ ≠ _))

def IsNoChange (w : Word) : Prop := w.1 &&& w.2.1 &&& w.2.2 = 0x7f

instance : DecidablePred IsNoChange := fun _ => inferInstanceAs (Decidable (_ = _))

/-- The frequency of a word: a semitone and the fraction of a semitone in 14 bits. -/
noncomputable def tuningFreq (w : Word) : ℝ :=
  (8.1758 : ℝ) * 2 ^
    (((w.1.toNat : ℝ) + ((w.2.1.toNat <<< 7 ||| w.2.2.toNat : ℕ) : ℝ) / 2 ^ 14) / 12)

structure Keys (K : Type) where
  j : ℕ
  freqs : ℕ → K

/-- `update_tuning_freq`. The index is an expression, which is evaluated only if it is returned or
if the frequency is set. The returned value is the error. -/
def updateTuningFreq (freqOf : Word → K) (increment : Bool) (w : Word) (s : Keys K) :
    Except (ℕ × (ℕ → K)) (Keys K) :=
  if IsHigh w then .error (s.j, s.freqs)
  else if ¬ IsNoChange w then
    .ok ⟨if increment then s.j + 1 else s.j, update s.freqs s.j (freqOf w)⟩
  else .ok s

/-- The body of the loop: the words of four keys. -/
def updateCycle (freqOf : Word → K) (ev : ℕ → UInt8) (x i : ℕ) (s : Keys K) :
    Except (ℕ × (ℕ → K)) (Keys K) := do
  let y := x + 1
  let s ← updateTuningFreq freqOf true (ev x, ev y, ev i) s
  let s ← updateTuningFreq freqOf true (ev (i + 1), ev (i + 2), ev (i + 3)) s
  let i := i + 8
  let s ← updateTuningFreq freqOf true (ev i, ev (i + 1), ev (i + 2)) s
  let x := i + 3
  let i := i + 8
  updateTuningFreq freqOf false (ev x, ev i, ev (i + 1)) s

theorem le_of_updateTuningFreq {freqOf : Word → K} {increment : Bool} {w : Word} {s s' : Keys K}
    (h : updateTuningFreq freqOf increment w s = .ok s') : s.j ≤ s'.j := by
  rw [updateTuningFreq] at h
  split_ifs at h with hhigh hchange hincrement
  · obtain rfl := Except.ok.inj h
    exact le_rfl
  · obtain rfl := Except.ok.inj h
    exact Nat.le_succ _
  · obtain rfl := Except.ok.inj h
    exact le_rfl

theorem bind_eq_ok {ε α β : Type} {x : Except ε α} {f : α → Except ε β} {b : β}
    (h : x >>= f = .ok b) : ∃ a, x = .ok a ∧ f a = .ok b := by
  cases x with
  | error e => exact nomatch h
  | ok a => exact ⟨a, rfl, h⟩

variable {i : ℕ}

theorem le_of_updateCycle {freqOf : Word → K} {ev : ℕ → UInt8} {x : ℕ} {s s' : Keys K}
    (h : updateCycle freqOf ev x i s = .ok s') : s.j ≤ s'.j := by
  obtain ⟨s₁, h₁, h⟩ := bind_eq_ok h
  obtain ⟨s₂, h₂, h⟩ := bind_eq_ok h
  obtain ⟨s₃, h₃, h₄⟩ := bind_eq_ok h
  exact (le_of_updateTuningFreq h₁).trans ((le_of_updateTuningFreq h₂).trans
    ((le_of_updateTuningFreq h₃).trans (le_of_updateTuningFreq h₄)))

/-- The loop of `set_freqs_from_midi`, from the offset `x` of the first byte and `i` of the third
one. -/
def setFreqsLoop (freqOf : Word → K) (ev : ℕ → UInt8) (x i : ℕ) (s : Keys K) : ℕ × (ℕ → K) :=
  if s.j < 128 then
    match h : updateCycle freqOf ev x i s with
    | .error result => result
    | .ok s' => setFreqsLoop freqOf ev (i + 18) (i + 24) ⟨s'.j + 1, s'.freqs⟩
  else (0, s.freqs)
termination_by 128 - s.j
decreasing_by
  have hle := le_of_updateCycle h
  omega

def pmTimestampSize : ℕ := 4

def bulkTuningDumpNameIndex : ℕ := 6

def bulkTuningDumpNameLength : ℕ := 16

def bulkTuningDumpFreqDataIndex : ℕ := 22

def nameLoop (ev : ℕ → UInt8) : ℕ → ℕ → ℕ → List UInt8
  | 0, _, _ => [0]
  | left + 1, i, j =>
    let i := if j % 4 = bulkTuningDumpNameIndex % 4 then i + pmTimestampSize else i
    ev i :: nameLoop ev left (i + 1) (j + 1)

def setFreqsFromMidi (freqOf : Word → K) (ev : ℕ → UInt8) (freqs : ℕ → K) :
    (ℕ × (ℕ → K)) × List UInt8 :=
  let name := nameLoop ev bulkTuningDumpNameLength (bulkTuningDumpNameIndex + pmTimestampSize) 0
  let x := bulkTuningDumpFreqDataIndex * 2 - bulkTuningDumpFreqDataIndex % pmTimestampSize
  (setFreqsLoop freqOf ev x (x + 2 + pmTimestampSize) ⟨0, freqs⟩, name)

def dataFormatLoop (freqOf : Word → K) (data : ℕ → UInt8) :
    ℕ → ℕ → ℕ → (ℕ → K) → ℕ × (ℕ → K)
  | 0, _, _, freqs => (0, freqs)
  | left + 1, i, d, freqs =>
    let w := wordAt data d
    if IsHigh w then (i, freqs)
    -- The pointer is still at the last byte of the word.
    else if IsNoChange w then dataFormatLoop freqOf data left (i + 1) (d + 2) freqs
    else dataFormatLoop freqOf data left (i + 1) (d + 3) (update freqs i (freqOf w))

def setFreqsFromMidiDataFormat (freqOf : Word → K) (freqs : ℕ → K) (data : ℕ → UInt8) (size : ℕ) :
    ℕ × (ℕ → K) :=
  dataFormatLoop freqOf data size 0 0 freqs

/-- A message of 408 bytes, the last one is F7. -/
structure Dump where
  byte : ℕ → UInt8
  byte_last : byte 407 = 0xf7

namespace Dump

variable (msg : Dump)

def data (m : ℕ) : UInt8 := msg.byte (bulkTuningDumpFreqDataIndex + m)

def events (timestamp : ℕ → UInt8) (n : ℕ) : UInt8 :=
  if n % 8 < 4 then msg.byte (4 * (n / 8) + n % 8) else timestamp n

end Dump

/-- The first word with a high byte, or the number of the words. -/
def stopIndex (data : ℕ → UInt8) : ℕ :=
  Nat.find (p := fun k => 128 ≤ k ∨ IsHigh (wordAt data (3 * k))) ⟨128, .inl le_rfl⟩

def decodedTo (freqOf : Word → K) (data : ℕ → UInt8) (freqs : ℕ → K) (stop k : ℕ) : K :=
  if k < stop ∧ ¬ IsNoChange (wordAt data (3 * k)) then freqOf (wordAt data (3 * k)) else freqs k

/-- The index of the first word that is not valid, or zero, and the frequencies of the words before
it. -/
def decoded (freqOf : Word → K) (data : ℕ → UInt8) (freqs : ℕ → K) : ℕ × (ℕ → K) :=
  (if stopIndex data < 128 then stopIndex data else 0,
    decodedTo freqOf data freqs (stopIndex data))

theorem and_high (b : UInt8) : b &&& 0x80 ≠ 0 ↔ 0x80 ≤ b := by
  have h : ∀ v : BitVec 8, v &&& 0x80 ≠ 0 ↔ 0x80 ≤ v := by decide
  have hb := h b.toBitVec
  simp only [UInt8.le_iff_toBitVec_le, ne_eq, ← UInt8.toBitVec_inj]
  exact hb

theorem or_and_high (x y z : UInt8) :
    (x ||| y ||| z) &&& 0x80 ≠ 0 ↔ 0x80 ≤ x ∨ 0x80 ≤ y ∨ 0x80 ≤ z := by
  rw [← and_high x, ← and_high y, ← and_high z]
  have h (a b : UInt8) : (a ||| b) &&& 0x80 = (a &&& 0x80) ||| (b &&& 0x80) := by
    apply UInt8.toBitVec_inj.mp
    ext i
    simp [Bool.and_or_distrib_right]
  rw [h, h]
  simp only [ne_eq, UInt8.or_eq_zero_iff, not_and_or, or_assoc]

theorem and_low (b : UInt8) (hb : b < 0x80) : b &&& 0x7f = b := by
  have h : ∀ v : BitVec 8, v < 0x80 → v &&& 0x7f = v := by decide +kernel
  exact UInt8.toBitVec_inj.mp (h b.toBitVec hb)

theorem and_and_low {x y z : UInt8} (hx : x < 0x80) (hy : y < 0x80) (hz : z < 0x80) :
    x &&& y &&& z = 0x7f ↔ x = 0x7f ∧ y = 0x7f ∧ z = 0x7f := by
  constructor
  · intro h
    have hleft (a b : UInt8) (ha : a < 0x80) (hand : a &&& b = 0x7f) : a = 0x7f := by
      rw [← and_low a ha, ← hand, ← UInt8.and_assoc, UInt8.and_self]
    have hxy : x &&& y = 0x7f := by
      have hlow : (x &&& y) &&& 0x7f = x &&& y := by rw [UInt8.and_assoc, and_low y hy]
      rw [← hlow, ← h, ← UInt8.and_assoc, UInt8.and_self]
    refine ⟨hleft x y hx hxy, hleft y x hy (by rwa [UInt8.and_comm]), ?_⟩
    rw [hxy, UInt8.and_comm] at h
    exact hleft z 0x7f hz h
  · rintro ⟨rfl, rfl, rfl⟩
    decide

theorem isHigh_iff (w : Word) : IsHigh w ↔ 0x80 ≤ w.1 ∨ 0x80 ≤ w.2.1 ∨ 0x80 ≤ w.2.2 :=
  or_and_high w.1 w.2.1 w.2.2

theorem isNoChange_iff {w : Word} (h : ¬ IsHigh w) : IsNoChange w ↔ w = (0x7f, 0x7f, 0x7f) := by
  rw [isHigh_iff, not_or, not_or, UInt8.not_le, UInt8.not_le, UInt8.not_le] at h
  obtain ⟨x, y, z⟩ := w
  rw [IsNoChange, and_and_low h.1 h.2.1 h.2.2, Prod.mk.injEq, Prod.mk.injEq]

theorem not_isHigh_noChange : ¬ IsHigh (0x7f, 0x7f, 0x7f) := by decide

section Stop

variable {data : ℕ → UInt8} {k : ℕ}

theorem stopIndex_le : stopIndex data ≤ 128 := Nat.find_le (.inl le_rfl)

theorem not_isHigh (hk : k < stopIndex data) : ¬ IsHigh (wordAt data (3 * k)) := fun h =>
  Nat.find_min _ hk (.inr h)

theorem isHigh_stopIndex (hlt : stopIndex data < 128) :
    IsHigh (wordAt data (3 * stopIndex data)) := by
  have hspec := Nat.find_spec (p := fun k => 128 ≤ k ∨ IsHigh (wordAt data (3 * k)))
    ⟨128, .inl le_rfl⟩
  exact hspec.resolve_left (not_le.mpr hlt)

end Stop

/-- The word of a key, and the increment at the end of a cycle. -/
def wordStep (freqOf : Word → K) (data : ℕ → UInt8) (k : ℕ) (s : Keys K) :
    Except (ℕ × (ℕ → K)) (Keys K) := do
  let s ← updateTuningFreq freqOf (k % 4 ≠ 3) (wordAt data (3 * k)) s
  .ok (if k % 4 = 3 then ⟨s.j + 1, s.freqs⟩ else s)

def runWords (freqOf : Word → K) (data : ℕ → UInt8) : ℕ → ℕ → Keys K →
    Except (ℕ × (ℕ → K)) (Keys K)
  | 0, _, s => .ok s
  | n + 1, k, s => do
    let s ← wordStep freqOf data k s
    runWords freqOf data n (k + 1) s

def cycles (freqOf : Word → K) (msg : Dump) (timestamp : ℕ → UInt8) (b : ℕ) (s : Keys K) :
    ℕ × (ℕ → K) :=
  setFreqsLoop freqOf (msg.events timestamp) (42 + 24 * b) (48 + 24 * b) s

section Events

variable {freqOf : Word → K} {msg : Dump} {timestamp : ℕ → UInt8} {b : ℕ} {s : Keys K}

theorem Dump.events_eq {n m : ℕ} (hn : n % 8 < 4)
    (hm : bulkTuningDumpFreqDataIndex + m = 4 * (n / 8) + n % 8) :
    msg.events timestamp n = msg.data m := by
  rw [Dump.events, if_pos hn, Dump.data, hm]

theorem updateCycle_eq (s : Keys K) :
    updateCycle freqOf (msg.events timestamp) (42 + 24 * b) (48 + 24 * b) s = (do
      let s ← updateTuningFreq freqOf true (wordAt msg.data (3 * (4 * b))) s
      let s ← updateTuningFreq freqOf true (wordAt msg.data (3 * (4 * b + 1))) s
      let s ← updateTuningFreq freqOf true (wordAt msg.data (3 * (4 * b + 2))) s
      updateTuningFreq freqOf false (wordAt msg.data (3 * (4 * b + 3))) s) := by
  have hread (n m : ℕ) (hn : n % 8 < 4) (hm : 22 + m = 4 * (n / 8) + n % 8) :
      msg.events timestamp n = msg.data m := Dump.events_eq hn hm
  have h₀ : (msg.events timestamp (42 + 24 * b), msg.events timestamp (42 + 24 * b + 1),
      msg.events timestamp (48 + 24 * b)) = wordAt msg.data (3 * (4 * b)) := by
    rw [hread _ (3 * (4 * b)) (by omega) (by omega),
      hread _ (3 * (4 * b) + 1) (by omega) (by omega),
      hread _ (3 * (4 * b) + 2) (by omega) (by omega)]
    rfl
  have h₁ : (msg.events timestamp (48 + 24 * b + 1), msg.events timestamp (48 + 24 * b + 2),
      msg.events timestamp (48 + 24 * b + 3)) = wordAt msg.data (3 * (4 * b + 1)) := by
    rw [hread _ (3 * (4 * b + 1)) (by omega) (by omega),
      hread _ (3 * (4 * b + 1) + 1) (by omega) (by omega),
      hread _ (3 * (4 * b + 1) + 2) (by omega) (by omega)]
    rfl
  have h₂ : (msg.events timestamp (48 + 24 * b + 8), msg.events timestamp (48 + 24 * b + 8 + 1),
      msg.events timestamp (48 + 24 * b + 8 + 2)) = wordAt msg.data (3 * (4 * b + 2)) := by
    rw [hread _ (3 * (4 * b + 2)) (by omega) (by omega),
      hread _ (3 * (4 * b + 2) + 1) (by omega) (by omega),
      hread _ (3 * (4 * b + 2) + 2) (by omega) (by omega)]
    rfl
  have h₃ : (msg.events timestamp (48 + 24 * b + 8 + 3), msg.events timestamp (48 + 24 * b + 8 + 8),
      msg.events timestamp (48 + 24 * b + 8 + 8 + 1)) = wordAt msg.data (3 * (4 * b + 3)) := by
    rw [hread _ (3 * (4 * b + 3)) (by omega) (by omega),
      hread _ (3 * (4 * b + 3) + 1) (by omega) (by omega),
      hread _ (3 * (4 * b + 3) + 2) (by omega) (by omega)]
    rfl
  simp only [updateCycle, h₀, h₁, h₂, h₃]

theorem wordStep_of_ne {data : ℕ → UInt8} {k : ℕ} (hk : k % 4 ≠ 3) (s : Keys K) :
    wordStep freqOf data k s = updateTuningFreq freqOf true (wordAt data (3 * k)) s := by
  rw [wordStep, decide_eq_true hk]
  cases updateTuningFreq freqOf true (wordAt data (3 * k)) s with
  | error result => rfl
  | ok s' =>
    change Except.ok (if k % 4 = 3 then _ else s') = _
    rw [if_neg hk]

theorem wordStep_of_eq {data : ℕ → UInt8} {k : ℕ} (hk : k % 4 = 3) (s : Keys K) :
    wordStep freqOf data k s = (do
      let s ← updateTuningFreq freqOf false (wordAt data (3 * k)) s
      .ok ⟨s.j + 1, s.freqs⟩) := by
  rw [wordStep, decide_eq_false (not_not.mpr hk)]
  simp only [if_pos hk]

theorem runWords_cycle (s : Keys K) : runWords freqOf msg.data 4 (4 * b) s = (do
    let s ← updateCycle freqOf (msg.events timestamp) (42 + 24 * b) (48 + 24 * b) s
    .ok ⟨s.j + 1, s.freqs⟩) := by
  simp only [updateCycle_eq, runWords, wordStep_of_ne (show 4 * b % 4 ≠ 3 by omega),
    wordStep_of_ne (show (4 * b + 1) % 4 ≠ 3 by omega),
    wordStep_of_ne (show (4 * b + 1 + 1) % 4 ≠ 3 by omega),
    wordStep_of_eq (show (4 * b + 1 + 1 + 1) % 4 = 3 by omega)]
  cases updateTuningFreq freqOf true (wordAt msg.data (3 * (4 * b))) s with
  | error result => rfl
  | ok s₁ =>
    simp only [bind, Except.bind]
    cases updateTuningFreq freqOf true (wordAt msg.data (3 * (4 * b + 1))) s₁ with
    | error result => rfl
    | ok s₂ =>
      simp only
      cases updateTuningFreq freqOf true (wordAt msg.data (3 * (4 * b + 2))) s₂ with
      | error result => rfl
      | ok s₃ =>
        simp only
        cases updateTuningFreq freqOf false (wordAt msg.data (3 * (4 * b + 3))) s₃ with
        | error result => rfl
        | ok s₄ => rfl

theorem cycles_eq (s : Keys K) : cycles freqOf msg timestamp b s =
    if s.j < 128 then
      match runWords freqOf msg.data 4 (4 * b) s with
      | .error result => result
      | .ok s' => cycles freqOf msg timestamp (b + 1) s'
    else (0, s.freqs) := by
  have hcycle := @runWords_cycle K freqOf msg timestamp b s
  rw [cycles, setFreqsLoop, hcycle]
  by_cases hj : s.j < 128
  · rw [if_pos hj, if_pos hj]
    split
    · next result heq =>
      rw [heq]
      rfl
    · next s' heq =>
      rw [heq]
      change _ = setFreqsLoop freqOf (msg.events timestamp) (42 + 24 * (b + 1))
        (48 + 24 * (b + 1)) _
      rw [show 42 + 24 * (b + 1) = 48 + 24 * b + 18 by ring,
        show 48 + 24 * (b + 1) = 48 + 24 * b + 24 by ring]
  · rw [if_neg hj, if_neg hj]

end Events

section Frame

/-- The frequencies of the keys before the index are not changed. -/
def Frame (s : Keys K) : Except (ℕ × (ℕ → K)) (Keys K) → Prop
  | .error result => ∀ i < s.j, result.2 i = s.freqs i
  | .ok s' => s.j ≤ s'.j ∧ ∀ i < s.j, s'.freqs i = s.freqs i

theorem Frame.bind {s : Keys K} {x : Except (ℕ × (ℕ → K)) (Keys K)}
    {f : Keys K → Except (ℕ × (ℕ → K)) (Keys K)} (hx : Frame s x) (hf : ∀ s', Frame s' (f s')) :
    Frame s (x >>= f) := by
  cases x with
  | error result => exact hx
  | ok s' =>
    have hf := hf s'
    change Frame s (f s')
    cases heq : f s' with
    | error result =>
      rw [heq] at hf
      exact fun i hi => (hf i (by have := hx.1; omega)).trans (hx.2 i hi)
    | ok s'' =>
      rw [heq] at hf
      exact ⟨hx.1.trans hf.1, fun i hi => (hf.2 i (by have := hx.1; omega)).trans (hx.2 i hi)⟩

variable {freqOf : Word → K}

theorem frame_updateTuningFreq (increment : Bool) (w : Word) (s : Keys K) :
    Frame s (updateTuningFreq freqOf increment w s) := by
  rw [updateTuningFreq]
  split_ifs with hhigh hchange hincrement
  · exact fun _ _ => rfl
  · exact ⟨le_rfl, fun _ _ => rfl⟩
  · exact ⟨Nat.le_succ _, fun i hi => update_of_ne hi.ne _ _⟩
  · exact ⟨le_rfl, fun i hi => update_of_ne hi.ne _ _⟩

theorem frame_updateCycle (ev : ℕ → UInt8) (x i : ℕ) (s : Keys K) :
    Frame s (updateCycle freqOf ev x i s) :=
  (frame_updateTuningFreq _ _ s).bind fun s₁ => (frame_updateTuningFreq _ _ s₁).bind fun s₂ =>
    (frame_updateTuningFreq _ _ s₂).bind fun s₃ => frame_updateTuningFreq _ _ s₃

theorem setFreqsLoop_frame (ev : ℕ → UInt8) (x i : ℕ) (s : Keys K) {k : ℕ} (hk : k < s.j) :
    (setFreqsLoop freqOf ev x i s).2 k = s.freqs k := by
  fun_induction setFreqsLoop freqOf ev x i s with
  | case1 x i s hj result heq =>
    have hframe := @frame_updateCycle K freqOf ev x i s
    rw [heq] at hframe
    exact hframe k hk
  | case2 x i s hj s' heq ih =>
    have hframe := @frame_updateCycle K freqOf ev x i s
    rw [heq] at hframe
    exact (ih (Nat.lt_succ_of_lt (hk.trans_le hframe.1))).trans (hframe.2 k hk)
  | case3 => rfl

end Frame

section Cycles

variable {freqOf : Word → K} {data : ℕ → UInt8} {freqs : ℕ → K} {k : ℕ} {s : Keys K}

theorem decodedTo_succ (hchange : ¬ IsNoChange (wordAt data (3 * k))) :
    decodedTo freqOf data freqs (k + 1) =
      update (decodedTo freqOf data freqs k) k (freqOf (wordAt data (3 * k))) := by
  funext i
  rcases eq_or_ne i k with rfl | hne
  · rw [update_self, decodedTo, if_pos ⟨Nat.lt_succ_self i, hchange⟩]
  · rw [update_of_ne hne, decodedTo, decodedTo]
    exact if_congr (and_congr_left fun _ => by omega) rfl rfl

theorem decodedTo_succ_noChange (hnoChange : IsNoChange (wordAt data (3 * k))) :
    decodedTo freqOf data freqs (k + 1) = decodedTo freqOf data freqs k := by
  funext i
  rw [decodedTo, decodedTo]
  refine if_congr (and_congr_left fun hchange => ?_) rfl rfl
  have hne : i ≠ k := fun heq => hchange (heq ▸ hnoChange)
  omega

theorem decodedTo_noChange {stop : ℕ} (hnoChange : IsNoChange (wordAt data (3 * k))) :
    decodedTo freqOf data freqs stop k = freqs k :=
  if_neg fun h => h.2 hnoChange

def ChangesInCycles (data : ℕ → UInt8) : Prop :=
  ∀ p < stopIndex data, IsNoChange (wordAt data (3 * p)) → p % 4 = 3

/-- The index is the one of the word. -/
structure Synced (freqOf : Word → K) (data : ℕ → UInt8) (freqs : ℕ → K) (k : ℕ) (s : Keys K) :
    Prop where
  le_stop : k ≤ stopIndex data
  changes : ∀ p < k, IsNoChange (wordAt data (3 * p)) → p % 4 = 3
  eq : s = ⟨k, decodedTo freqOf data freqs k⟩

/-- The index is behind the word; the frequencies were not set from the index on. -/
structure Late (data : ℕ → UInt8) (k : ℕ) (s : Keys K) : Prop where
  le_stop : k ≤ stopIndex data
  lt : s.j < k
  noChange : ∀ q, s.j ≤ q → q < k → IsNoChange (wordAt data (3 * q))
  pos : k % 4 = 0 → 0 < s.j

/-- A frequency was set from the word of another key. -/
def Spoiled (freqOf : Word → K) (data : ℕ → UInt8) (freqs : ℕ → K) (s : Keys K) : Prop :=
  ∃ i < s.j, s.freqs i ≠ decodedTo freqOf data freqs (stopIndex data) i

def Track (freqOf : Word → K) (data : ℕ → UInt8) (freqs : ℕ → K) (k : ℕ) (s : Keys K) : Prop :=
  Synced freqOf data freqs k s ∨
    ¬ ChangesInCycles data ∧ (Late data k s ∨ Spoiled freqOf data freqs s)

/-- A step that returns is right if the words without a change are at the end of a cycle. -/
def Tracks (freqOf : Word → K) (data : ℕ → UInt8) (freqs : ℕ → K) (k : ℕ) :
    Except (ℕ × (ℕ → K)) (Keys K) → Prop
  | .error result => result = decoded freqOf data freqs ↔ ChangesInCycles data
  | .ok s' => Track freqOf data freqs k s'

theorem wordStep_high (hhigh : IsHigh (wordAt data (3 * k))) (s : Keys K) :
    wordStep freqOf data k s = .error (s.j, s.freqs) := by
  rw [wordStep, updateTuningFreq, if_pos hhigh]
  rfl

theorem wordStep_change (hhigh : ¬ IsHigh (wordAt data (3 * k)))
    (hchange : ¬ IsNoChange (wordAt data (3 * k))) (s : Keys K) :
    wordStep freqOf data k s =
      .ok ⟨s.j + 1, update s.freqs s.j (freqOf (wordAt data (3 * k)))⟩ := by
  by_cases hk : k % 4 = 3
  · rw [wordStep_of_eq hk, updateTuningFreq, if_neg hhigh, if_pos hchange]
    rfl
  · rw [wordStep_of_ne hk, updateTuningFreq, if_neg hhigh, if_pos hchange]
    rfl

theorem wordStep_noChange (hhigh : ¬ IsHigh (wordAt data (3 * k)))
    (hnoChange : IsNoChange (wordAt data (3 * k))) (s : Keys K) :
    wordStep freqOf data k s = .ok (if k % 4 = 3 then ⟨s.j + 1, s.freqs⟩ else s) := by
  by_cases hk : k % 4 = 3
  · rw [wordStep_of_eq hk, updateTuningFreq, if_neg hhigh, if_neg (not_not.mpr hnoChange),
      if_pos hk]
    rfl
  · rw [wordStep_of_ne hk, updateTuningFreq, if_neg hhigh, if_neg (not_not.mpr hnoChange),
      if_neg hk]

theorem Synced.step (h : Synced freqOf data freqs k s) (hk : k < 128) :
    Tracks freqOf data freqs (k + 1) (wordStep freqOf data k s) := by
  obtain ⟨hle, hchanges, rfl⟩ := h
  rcases hle.eq_or_lt with heq | hlt
  · subst heq
    rw [wordStep_high (isHigh_stopIndex hk)]
    refine iff_of_true ?_ hchanges
    rw [decoded, if_pos hk]
  have hhigh := not_isHigh hlt
  by_cases hchange : IsNoChange (wordAt data (3 * k))
  · rw [wordStep_noChange hhigh hchange]
    by_cases hlast : k % 4 = 3
    · rw [if_pos hlast]
      refine .inl ⟨hlt, fun p hp hp' => ?_, by rw [decodedTo_succ_noChange hchange]⟩
      rcases (Nat.le_of_lt_succ hp).eq_or_lt with rfl | hp
      · exact hlast
      · exact hchanges p hp hp'
    · rw [if_neg hlast]
      refine .inr ⟨fun hall => hlast (hall k hlt hchange), .inl ⟨hlt, Nat.lt_succ_self k, ?_, ?_⟩⟩
      · intro q hq hq'
        rwa [show q = k from Nat.le_antisymm (Nat.le_of_lt_succ hq') hq]
      · intro hmod
        omega
  · rw [wordStep_change hhigh hchange]
    refine .inl ⟨hlt, fun p hp hp' => ?_, by rw [decodedTo_succ hchange]⟩
    rcases (Nat.le_of_lt_succ hp).eq_or_lt with rfl | hp
    · exact absurd hp' hchange
    · exact hchanges p hp hp'

theorem Late.step (h : Late data k s) (hnot : ¬ ChangesInCycles data) (hk : k < 128)
    (hfreqs : ∀ i w, freqOf w ≠ freqs i) :
    Tracks freqOf data freqs (k + 1) (wordStep freqOf data k s) := by
  obtain ⟨hle, hlate, hnoChange, hpos⟩ := h
  rcases hle.eq_or_lt with heq | hlt
  · subst heq
    rw [wordStep_high (isHigh_stopIndex hk)]
    refine iff_of_false (fun hresult => ?_) hnot
    rw [decoded, if_pos hk] at hresult
    exact hlate.ne (congrArg Prod.fst hresult)
  have hhigh := not_isHigh hlt
  by_cases hchange : IsNoChange (wordAt data (3 * k))
  · rw [wordStep_noChange hhigh hchange]
    have hnoChange (q : ℕ) (hq : s.j ≤ q) (hq' : q < k + 1) :
        IsNoChange (wordAt data (3 * q)) := by
      rcases (Nat.le_of_lt_succ hq').eq_or_lt with rfl | hq'
      · exact hchange
      · exact hnoChange q hq hq'
    by_cases hlast : k % 4 = 3
    · rw [if_pos hlast]
      exact .inr ⟨hnot, .inl ⟨hlt, Nat.succ_lt_succ hlate,
        fun q hq hq' => hnoChange q (Nat.le_of_succ_le hq) hq', fun _ => Nat.succ_pos _⟩⟩
    · rw [if_neg hlast]
      exact .inr ⟨hnot, .inl ⟨hlt, Nat.lt_succ_of_lt hlate, hnoChange, fun hmod => by omega⟩⟩
  · rw [wordStep_change hhigh hchange]
    refine .inr ⟨hnot, .inr ⟨s.j, Nat.lt_succ_self _, ?_⟩⟩
    change update s.freqs s.j _ s.j ≠ _
    rw [update_self, decodedTo_noChange (hnoChange s.j le_rfl hlate)]
    exact hfreqs _ _

theorem frame_wordStep (s : Keys K) : Frame s (wordStep freqOf data k s) := by
  refine (frame_updateTuningFreq _ _ s).bind fun s' => ?_
  split_ifs
  · exact ⟨Nat.le_succ _, fun _ _ => rfl⟩
  · exact ⟨le_rfl, fun _ _ => rfl⟩

theorem Spoiled.step (h : Spoiled freqOf data freqs s) (hnot : ¬ ChangesInCycles data) :
    Tracks freqOf data freqs (k + 1) (wordStep freqOf data k s) := by
  obtain ⟨i, hi, hne⟩ := h
  have hframe := @frame_wordStep K freqOf data k s
  cases heq : wordStep freqOf data k s with
  | error result =>
    rw [heq] at hframe
    refine iff_of_false (fun hresult => hne ?_) hnot
    rw [← hframe i hi, hresult]
    rfl
  | ok s' =>
    rw [heq] at hframe
    exact .inr ⟨hnot, .inr ⟨i, hi.trans_le hframe.1, by rwa [hframe.2 i hi]⟩⟩

theorem Track.step (h : Track freqOf data freqs k s) (hk : k < 128)
    (hfreqs : ChangesInCycles data ∨ ∀ i w, freqOf w ≠ freqs i) :
    Tracks freqOf data freqs (k + 1) (wordStep freqOf data k s) := by
  rcases h with h | ⟨hnot, h | h⟩
  · exact h.step hk
  · exact h.step hnot hk (hfreqs.resolve_left hnot)
  · exact h.step hnot

theorem Track.run (n : ℕ) (h : Track freqOf data freqs k s) (hk : k + n ≤ 128)
    (hfreqs : ChangesInCycles data ∨ ∀ i w, freqOf w ≠ freqs i) :
    Tracks freqOf data freqs (k + n) (runWords freqOf data n k s) := by
  induction n generalizing k s with
  | zero => exact h
  | succ n ih =>
    have hstep := h.step (by omega) hfreqs
    rw [runWords]
    cases heq : wordStep freqOf data k s with
    | error result =>
      rw [heq] at hstep
      exact hstep
    | ok s' =>
      rw [heq] at hstep
      have hrun := ih hstep (by omega)
      rwa [Nat.add_assoc, Nat.add_comm 1 n] at hrun

theorem stopIndex_eq (h : 128 ≤ k) (hle : k ≤ stopIndex data) : stopIndex data = 128 := by
  have hstop := @stopIndex_le data
  omega

theorem Late.cycles_ne {msg : Dump} {timestamp : ℕ → UInt8} (h : Late msg.data 128 s) :
    cycles freqOf msg timestamp 32 s ≠ decoded freqOf msg.data freqs := by
  have hhigh : IsHigh (wordAt msg.data (3 * (4 * 32))) := by
    rw [isHigh_iff]
    refine .inr (.inl ?_)
    change 0x80 ≤ msg.byte 407
    rw [msg.byte_last]
    decide
  intro heq
  have hresult := congrArg Prod.fst heq
  rw [cycles_eq, if_pos h.lt, runWords, wordStep_high hhigh, decoded,
    stopIndex_eq le_rfl h.le_stop] at hresult
  exact (h.pos rfl).ne' hresult

theorem Spoiled.cycles_ne {msg : Dump} {timestamp : ℕ → UInt8} {b : ℕ}
    (h : Spoiled freqOf msg.data freqs s) :
    cycles freqOf msg timestamp b s ≠ decoded freqOf msg.data freqs := by
  obtain ⟨i, hi, hne⟩ := h
  intro heq
  have hframe :=
    @setFreqsLoop_frame K freqOf (msg.events timestamp) (42 + 24 * b) (48 + 24 * b) s i hi
  change (cycles freqOf msg timestamp b s).2 i = _ at hframe
  rw [heq] at hframe
  exact hne hframe.symm

theorem Track.cycles {msg : Dump} {timestamp : ℕ → UInt8} {b : ℕ} (hb : b ≤ 32)
    (h : Track freqOf msg.data freqs (4 * b) s)
    (hfreqs : ChangesInCycles msg.data ∨ ∀ i w, freqOf w ≠ freqs i) :
    cycles freqOf msg timestamp b s = decoded freqOf msg.data freqs ↔ ChangesInCycles msg.data := by
  induction hleft : 32 - b generalizing b s with
  | zero =>
    obtain rfl : b = 32 := by omega
    rcases h with h | ⟨hnot, h | h⟩
    · obtain ⟨hle, hchanges, rfl⟩ := h
      have hstop := stopIndex_eq (show 128 ≤ 4 * 32 by norm_num) hle
      refine iff_of_true ?_ fun p hp => hchanges p (by omega)
      rw [cycles_eq, if_neg (by norm_num), decoded, hstop, if_neg (lt_irrefl _)]
    · exact iff_of_false h.cycles_ne hnot
    · exact iff_of_false h.cycles_ne hnot
  | succ left ih =>
    have hrun := h.run 4 (by omega) hfreqs
    rw [cycles_eq]
    by_cases hj : s.j < 128
    · rw [if_pos hj]
      cases heq : runWords freqOf msg.data 4 (4 * b) s with
      | error result =>
        rw [heq] at hrun
        exact hrun
      | ok s' =>
        rw [heq] at hrun
        exact ih (by omega) hrun (by omega)
    · rcases h with h | ⟨hnot, h | h⟩
      · rw [h.eq] at hj
        exact absurd (show 4 * b < 128 by omega) hj
      · have hlt := h.lt
        omega
      · have hne : cycles freqOf msg timestamp b s ≠ decoded freqOf msg.data freqs := h.cycles_ne
        rw [cycles_eq, if_neg hj] at hne
        rw [if_neg hj]
        exact iff_of_false hne hnot

theorem setFreqsFromMidi_iff (msg : Dump) (timestamp : ℕ → UInt8)
    (hfreqs : ChangesInCycles msg.data ∨ ∀ i w, freqOf w ≠ freqs i) :
    (setFreqsFromMidi freqOf (msg.events timestamp) freqs).1 = decoded freqOf msg.data freqs ↔
      ChangesInCycles msg.data := by
  have hstart : Synced freqOf msg.data freqs (4 * 0) ⟨0, freqs⟩ := by
    refine ⟨Nat.zero_le _, fun p hp => absurd hp (Nat.not_lt_zero p), ?_⟩
    have hzero : decodedTo freqOf msg.data freqs 0 = freqs :=
      funext fun i => if_neg fun h => Nat.not_lt_zero i h.1
    rw [Nat.mul_zero, hzero]
  exact Track.cycles (Nat.zero_le 32) (.inl hstart) hfreqs

end Cycles

variable {left d p : ℕ}

section DataFormat

variable {freqOf : Word → K} {data : ℕ → UInt8} {freqs : ℕ → K}

/-- The words from the first one without a change up to the stop are without a change, and the stop
is recognized with the pointer that is a byte behind for each of them. -/
def ChangesBeforeStop (data : ℕ → UInt8) : Prop :=
  ∀ p < stopIndex data, IsNoChange (wordAt data (3 * p)) →
    (∀ q, p ≤ q → q < stopIndex data → IsNoChange (wordAt data (3 * q))) ∧
      (stopIndex data = 128 ∨
        ∃ b, b + (stopIndex data - p) < 3 ∧ 0x80 ≤ data (3 * stopIndex data + b))

/-- The frequencies have to be different from each other and from the ones of the table. -/
structure Distinct (freqOf : Word → K) (freqs : ℕ → K) : Prop where
  ne : ∀ i w, freqOf w ≠ freqs i
  injective : ∀ w w', ¬ IsHigh w → ¬ IsHigh w' → freqOf w = freqOf w' → w = w'

theorem dataFormatLoop_frame {k : ℕ} (hk : k < i) :
    (dataFormatLoop freqOf data left i d freqs).2 k = freqs k := by
  induction left generalizing i d freqs with
  | zero => rfl
  | succ left ih =>
    rw [dataFormatLoop]
    split_ifs
    · rfl
    · exact ih (Nat.lt_succ_of_lt hk)
    · rw [ih (Nat.lt_succ_of_lt hk), update_of_ne hk.ne]

theorem dataFormatLoop_index (freqOf : Word → K) (data : ℕ → UInt8) (left i d : ℕ)
    (freqs : ℕ → K) : (dataFormatLoop freqOf data left i d freqs).1 = 0 ∨
      i ≤ (dataFormatLoop freqOf data left i d freqs).1 := by
  induction left generalizing i d freqs with
  | zero => exact .inl rfl
  | succ left ih =>
    rw [dataFormatLoop]
    split_ifs
    · exact .inr le_rfl
    · exact (ih (i + 1) (d + 2) freqs).imp id fun h => Nat.le_of_succ_le h
    · exact (ih (i + 1) (d + 3) _).imp id fun h => Nat.le_of_succ_le h

theorem dataFormatLoop_index_ne {k : ℕ} {freqs : ℕ → K} (hk : 0 < k) :
    (dataFormatLoop freqOf data left (k + 1) d freqs).1 ≠ k := by
  rcases dataFormatLoop_index freqOf data left (k + 1) d freqs with hzero | hle
  · rw [hzero]
    exact hk.ne
  · exact (Nat.lt_of_succ_le hle).ne'

/-- The words from `p` up to `i` are without a change: the pointer is a byte behind for each of
them. -/
structure Behind (data : ℕ → UInt8) (p i d : ℕ) : Prop where
  lt : p < i
  le_stop : i ≤ stopIndex data
  offset : d + (i - p) = 3 * i
  first : ∀ q < p, ¬ IsNoChange (wordAt data (3 * q))
  noChange : ∀ q, p ≤ q → q < i → IsNoChange (wordAt data (3 * q))

section

variable (h : Behind data p i d)
include h

theorem Behind.le_of_noChange {q : ℕ} (hq : IsNoChange (wordAt data (3 * q))) : p ≤ q :=
  not_lt.mp fun hlt => h.first q hlt hq

theorem Behind.byte {n : ℕ} (hn : 3 * p ≤ n) (hn' : n < 3 * i) : data n = 0x7f := by
  have hstop := h.le_stop
  have hword := (isNoChange_iff (not_isHigh (by omega))).mp
    (h.noChange (n / 3) (by omega) (by omega))
  simp only [wordAt, Prod.mk.injEq] at hword
  have hmod : n = 3 * (n / 3) ∨ n = 3 * (n / 3) + 1 ∨ n = 3 * (n / 3) + 2 := by omega
  rcases hmod with hmod | hmod | hmod
  · rw [hmod]
    exact hword.1
  · rw [hmod]
    exact hword.2.1
  · rw [hmod]
    exact hword.2.2

theorem Behind.isHigh_iff :
    IsHigh (wordAt data d) ↔ ∃ b, b + (i - p) < 3 ∧ 0x80 ≤ data (3 * i + b) := by
  have hlt := h.lt
  have hoffset := h.offset
  have hlow (m : ℕ) (hm : d + m < 3 * i) : ¬ (0x80 : UInt8) ≤ data (d + m) := by
    rw [h.byte (by omega) hm]
    decide
  rw [BulkTuningDump.isHigh_iff]
  change (0x80 ≤ data (d + 0) ∨ 0x80 ≤ data (d + 1) ∨ 0x80 ≤ data (d + 2)) ↔ _
  constructor
  · have hread (m : ℕ) (hm : m < 3) (hhigh : 0x80 ≤ data (d + m)) :
        ∃ b, b + (i - p) < 3 ∧ 0x80 ≤ data (3 * i + b) := by
      have hge : 3 * i ≤ d + m := not_lt.mp fun hlt => hlow m hlt hhigh
      refine ⟨d + m - 3 * i, by omega, ?_⟩
      rwa [Nat.add_sub_cancel' hge]
    rintro (hhigh | hhigh | hhigh)
    · exact hread 0 (by norm_num) hhigh
    · exact hread 1 (by norm_num) hhigh
    · exact hread 2 (by norm_num) hhigh
  · rintro ⟨b, hb, hhigh⟩
    have hcases : 3 * i + b = d + 0 ∨ 3 * i + b = d + 1 ∨ 3 * i + b = d + 2 := by omega
    rcases hcases with heq | heq | heq
    · exact .inl (heq ▸ hhigh)
    · exact .inr (.inl (heq ▸ hhigh))
    · exact .inr (.inr (heq ▸ hhigh))

theorem Behind.wordAt_ne (hi : i < stopIndex data) (hchange : ¬ IsNoChange (wordAt data (3 * i))) :
    wordAt data d ≠ wordAt data (3 * i) := by
  have hlt := h.lt
  have hoffset := h.offset
  intro heq
  simp only [wordAt, Prod.mk.injEq] at heq
  obtain ⟨hfirst, hsecond, hthird⟩ := heq
  have h₀ : data (3 * i) = 0x7f := by rw [← hfirst, h.byte (by omega) (by omega)]
  have h₁ : data (3 * i + 1) = 0x7f := by
    rw [← hsecond]
    rcases lt_or_ge (d + 1) (3 * i) with hlt' | hge
    · exact h.byte (by omega) hlt'
    · rwa [show d + 1 = 3 * i by omega]
  have h₂ : data (3 * i + 2) = 0x7f := by
    rw [← hthird]
    rcases lt_or_ge (d + 2) (3 * i) with hlt' | hge
    · exact h.byte (by omega) hlt'
    · have hcases : d + 2 = 3 * i ∨ d + 2 = 3 * i + 1 := by omega
      rcases hcases with heq | heq
      · rwa [heq]
      · rwa [heq]
  refine hchange ((isNoChange_iff (not_isHigh hi)).mpr ?_)
  simp only [wordAt, h₀, h₁, h₂]

theorem Behind.noChange_word (hi : i < stopIndex data)
    (hnoChange : IsNoChange (wordAt data (3 * i))) :
    Behind data p (i + 1) (d + 2) ∧ ¬ IsHigh (wordAt data d) ∧ IsNoChange (wordAt data d) := by
  have hlt := h.lt
  have hoffset := h.offset
  have hnext : Behind data p (i + 1) (d + 2) := by
    refine ⟨by omega, hi, by omega, h.first, fun q hq hq' => ?_⟩
    rcases (Nat.le_of_lt_succ hq').eq_or_lt with rfl | hq'
    · exact hnoChange
    · exact h.noChange q hq hq'
  have hword : wordAt data d = (0x7f, 0x7f, 0x7f) := by
    rw [wordAt, hnext.byte (by omega) (by omega), hnext.byte (by omega) (by omega),
      hnext.byte (by omega) (by omega)]
  rw [hword]
  exact ⟨hnext, not_isHigh_noChange, (isNoChange_iff not_isHigh_noChange).mpr rfl⟩

theorem Behind.not_isHigh_word (hi : i < stopIndex data) : ¬ IsHigh (wordAt data d) := fun hhigh => by
  obtain ⟨b, hb, hbyte⟩ := h.isHigh_iff.mp hhigh
  have hlt := h.lt
  have hlow := not_isHigh hi
  rw [BulkTuningDump.isHigh_iff] at hlow
  have hcases : b = 0 ∨ b = 1 := by omega
  rcases hcases with rfl | rfl
  · exact hlow (.inl hbyte)
  · exact hlow (.inr (.inl hbyte))

theorem Behind.dataFormatLoop_iff (hleft : i + left = 128)
    (hfreqs : ChangesBeforeStop data ∨ Distinct freqOf freqs) :
    dataFormatLoop freqOf data left i d (decodedTo freqOf data freqs i) =
      decoded freqOf data freqs ↔ ChangesBeforeStop data := by
  induction left generalizing i d with
  | zero =>
    have hstop := stopIndex_eq (show 128 ≤ i by omega) h.le_stop
    have hi : i = 128 := hleft
    rw [dataFormatLoop, decoded, hstop, if_neg (lt_irrefl _), hi]
    refine iff_of_true rfl fun p' hp' hnoChange => ⟨fun q hq hq' => ?_, .inl hstop⟩
    exact h.noChange q ((h.le_of_noChange hnoChange).trans hq) (by omega)
  | succ left ih =>
    have hlt := h.lt
    have hp := h.noChange p le_rfl hlt
    rw [dataFormatLoop]
    rcases h.le_stop.eq_or_lt with heq | hi
    · subst heq
      have hstop : stopIndex data < 128 := by omega
      by_cases hhigh : IsHigh (wordAt data d)
      · rw [if_pos hhigh, decoded, if_pos hstop]
        obtain ⟨b, hb, hbyte⟩ := h.isHigh_iff.mp hhigh
        refine iff_of_true rfl fun p' hp' hnoChange => ⟨fun q hq hq' => ?_, .inr ⟨b, ?_, hbyte⟩⟩
        · exact h.noChange q ((h.le_of_noChange hnoChange).trans hq) hq'
        · have hle := h.le_of_noChange hnoChange
          omega
      · rw [if_neg hhigh]
        refine iff_of_false (fun hresult => ?_) fun hall => ?_
        · have hindex := congrArg Prod.fst hresult
          rw [decoded, if_pos hstop] at hindex
          have hpos := Nat.zero_lt_of_lt hlt
          split_ifs at hindex
          · exact dataFormatLoop_index_ne hpos hindex
          · exact dataFormatLoop_index_ne hpos hindex
        · exact hhigh (h.isHigh_iff.mpr ((hall p hlt hp).2.resolve_left hstop.ne))
    · by_cases hnoChange : IsNoChange (wordAt data (3 * i))
      · obtain ⟨hnext, hlow, hcode⟩ := h.noChange_word hi hnoChange
        rw [if_neg hlow, if_pos hcode, ← decodedTo_succ_noChange hnoChange]
        exact ih hnext (by omega)
      · have hnot : ¬ ChangesBeforeStop data := fun hall =>
          hnoChange ((hall p (hlt.trans hi) hp).1 i hlt.le hi)
        have hdistinct := hfreqs.resolve_left hnot
        have hlow := h.not_isHigh_word hi
        rw [if_neg hlow]
        have hexpected : (decoded freqOf data freqs).2 i = freqOf (wordAt data (3 * i)) :=
          if_pos ⟨hi, hnoChange⟩
        refine iff_of_false (fun hresult => ?_) hnot
        rw [← hresult] at hexpected
        split_ifs at hexpected with hcode
        · rw [dataFormatLoop_frame (Nat.lt_succ_self i)] at hexpected
          exact hdistinct.ne i _ (hexpected.symm.trans (if_neg fun hand => lt_irrefl i hand.1))
        · rw [dataFormatLoop_frame (Nat.lt_succ_self i), update_self] at hexpected
          exact h.wordAt_ne hi hnoChange
            (hdistinct.injective _ _ hlow (not_isHigh hi) hexpected)

end

theorem dataFormatLoop_iff (hleft : i + left = 128) (hle : i ≤ stopIndex data)
    (hchanges : ∀ q < i, ¬ IsNoChange (wordAt data (3 * q)))
    (hfreqs : ChangesBeforeStop data ∨ Distinct freqOf freqs) :
    dataFormatLoop freqOf data left i (3 * i) (decodedTo freqOf data freqs i) =
      decoded freqOf data freqs ↔ ChangesBeforeStop data := by
  induction left generalizing i with
  | zero =>
    have hstop := stopIndex_eq (show 128 ≤ i by omega) hle
    have hi : i = 128 := hleft
    rw [dataFormatLoop, decoded, hstop, if_neg (lt_irrefl _), hi]
    exact iff_of_true rfl fun p hp hnoChange => absurd hnoChange (hchanges p (by omega))
  | succ left ih =>
    rw [dataFormatLoop]
    rcases hle.eq_or_lt with heq | hi
    · subst heq
      have hstop : stopIndex data < 128 := by omega
      rw [if_pos (isHigh_stopIndex hstop), decoded, if_pos hstop]
      exact iff_of_true rfl fun p hp hnoChange => absurd hnoChange (hchanges p hp)
    · rw [if_neg (not_isHigh hi)]
      by_cases hnoChange : IsNoChange (wordAt data (3 * i))
      · have hbehind : Behind data i (i + 1) (3 * i + 2) := by
          refine ⟨Nat.lt_succ_self i, hi, by omega, hchanges, fun q hq hq' => ?_⟩
          rwa [show q = i from Nat.le_antisymm (Nat.le_of_lt_succ hq') hq]
        rw [if_pos hnoChange, ← decodedTo_succ_noChange hnoChange]
        exact hbehind.dataFormatLoop_iff (by omega) hfreqs
      · rw [if_neg hnoChange, ← decodedTo_succ hnoChange]
        refine ih (by omega) hi fun q hq => ?_
        rcases (Nat.le_of_lt_succ hq).eq_or_lt with rfl | hq
        · exact hnoChange
        · exact hchanges q hq

theorem setFreqsFromMidiDataFormat_iff
    (hfreqs : ChangesBeforeStop data ∨ Distinct freqOf freqs) :
    setFreqsFromMidiDataFormat freqOf freqs data 128 = decoded freqOf data freqs ↔
      ChangesBeforeStop data := by
  have hzero : decodedTo freqOf data freqs 0 = freqs :=
    funext fun i => if_neg fun h => Nat.not_lt_zero i h.1
  have hiff := dataFormatLoop_iff (show 0 + 128 = 128 from rfl) (Nat.zero_le _)
    (fun q hq => absurd hq (Nat.not_lt_zero q)) hfreqs
  rwa [Nat.mul_zero, hzero] at hiff

end DataFormat

theorem tuningFreq_pos (w : Word) : 0 < tuningFreq w :=
  mul_pos (by norm_num) (Real.rpow_pos_of_pos two_pos _)

theorem fraction_eq {y z : UInt8} (hz : z < 0x80) :
    y.toNat <<< 7 ||| z.toNat = 128 * y.toNat + z.toNat := by
  have hlt : z.toNat < 2 ^ 7 := UInt8.lt_iff_toNat_lt.mp hz
  rw [← Nat.shiftLeft_add_eq_or_of_lt hlt, Nat.shiftLeft_eq]
  ring

theorem tuningFreq_injective {w w' : Word} (hw : ¬ IsHigh w) (hw' : ¬ IsHigh w')
    (heq : tuningFreq w = tuningFreq w') : w = w' := by
  obtain ⟨x, y, z⟩ := w
  obtain ⟨x', y', z'⟩ := w'
  rw [isHigh_iff, not_or, not_or, UInt8.not_le, UInt8.not_le, UInt8.not_le] at hw hw'
  obtain ⟨-, hy, hz⟩ := hw
  obtain ⟨-, hy', hz'⟩ := hw'
  have hpow := mul_left_cancel₀ (by norm_num) heq
  have hexp := (Real.rpow_right_inj two_pos (by norm_num)).mp hpow
  simp only [fraction_eq hz, fraction_eq hz'] at hexp
  have hsum : (2 ^ 14 * x.toNat + (128 * y.toNat + z.toNat) : ℝ) =
      2 ^ 14 * x'.toNat + (128 * y'.toNat + z'.toNat) := by
    push_cast at hexp
    linarith
  have hnat : 2 ^ 14 * x.toNat + (128 * y.toNat + z.toNat) =
      2 ^ 14 * x'.toNat + (128 * y'.toNat + z'.toNat) := by exact_mod_cast hsum
  have hyLt : y.toNat < 128 := UInt8.lt_iff_toNat_lt.mp hy
  have hyLt' : y'.toNat < 128 := UInt8.lt_iff_toNat_lt.mp hy'
  have hzLt : z.toNat < 128 := UInt8.lt_iff_toNat_lt.mp hz
  have hzLt' : z'.toNat < 128 := UInt8.lt_iff_toNat_lt.mp hz'
  rw [Prod.mk.injEq, Prod.mk.injEq]
  exact ⟨UInt8.toNat_inj.mp (by omega), UInt8.toNat_inj.mp (by omega),
    UInt8.toNat_inj.mp (by omega)⟩

theorem distinct_zero : Distinct tuningFreq fun _ => 0 where
  ne _ w := (tuningFreq_pos w).ne'
  injective _ _ := tuningFreq_injective

def Agrees (msg : Dump) : Prop :=
  ∀ (timestamp : ℕ → UInt8) (freqs : ℕ → ℝ),
    (setFreqsFromMidi tuningFreq (msg.events timestamp) freqs).1 =
        decoded tuningFreq msg.data freqs ∧
      setFreqsFromMidiDataFormat tuningFreq freqs msg.data 128 = decoded tuningFreq msg.data freqs

theorem agrees_iff_changes (msg : Dump) :
    Agrees msg ↔ ChangesInCycles msg.data ∧ ChangesBeforeStop msg.data := by
  constructor
  · intro h
    obtain ⟨hevents, hdata⟩ := h (fun _ => 0) fun _ => 0
    exact ⟨(setFreqsFromMidi_iff msg _ (.inr distinct_zero.ne)).mp hevents,
      (setFreqsFromMidiDataFormat_iff (.inr distinct_zero)).mp hdata⟩
  · rintro ⟨hcycles, hstop⟩ timestamp freqs
    exact ⟨(setFreqsFromMidi_iff msg timestamp (.inl hcycles)).mpr hcycles,
      (setFreqsFromMidiDataFormat_iff (.inl hstop)).mpr hstop⟩

/-- The decoders are right exactly if only the last word before the stop is without a change, it is
at the end of a cycle, and one of the first two bytes of the word of the stop is not valid. -/
theorem agrees_iff (msg : Dump) : Agrees msg ↔
    ∀ p < stopIndex msg.data, IsNoChange (wordAt msg.data (3 * p)) →
      p % 4 = 3 ∧ p + 1 = stopIndex msg.data ∧
        (stopIndex msg.data = 128 ∨ ∃ b < 2, 0x80 ≤ msg.data (3 * stopIndex msg.data + b)) := by
  rw [agrees_iff_changes]
  constructor
  · rintro ⟨hcycles, hstop⟩ p hp hnoChange
    obtain ⟨hall, hbyte⟩ := hstop p hp hnoChange
    have hlast := hcycles p hp hnoChange
    have hnext : p + 1 = stopIndex msg.data := by
      by_contra hne
      have hlt : p + 1 < stopIndex msg.data := by omega
      have hmod := hcycles (p + 1) hlt (hall (p + 1) (Nat.le_succ p) hlt)
      omega
    refine ⟨hlast, hnext, hbyte.imp id ?_⟩
    rintro ⟨b, hb, hhigh⟩
    exact ⟨b, by omega, hhigh⟩
  · intro h
    refine ⟨fun p hp hnoChange => (h p hp hnoChange).1, fun p hp hnoChange => ?_⟩
    obtain ⟨-, hnext, hbyte⟩ := h p hp hnoChange
    refine ⟨fun q hq hq' => ?_, hbyte.imp id ?_⟩
    · rwa [show q = p by omega]
    · rintro ⟨b, hb, hhigh⟩
      exact ⟨b, by omega, hhigh⟩

/-- The word of the key 0 is without a change. -/
def firstUnchanged : Dump where
  byte n := if n = 407 then 0xf7 else if 22 ≤ n ∧ n < 25 then 0x7f else 0
  byte_last := rfl

theorem not_agrees : ¬ Agrees firstUnchanged := by
  rw [agrees_iff_changes]
  rintro ⟨hcycles, -⟩
  have hpos : 0 < stopIndex firstUnchanged.data := by
    rw [stopIndex, Nat.find_pos]
    decide
  exact absurd (hcycles 0 hpos (by decide)) (by norm_num)

end Incudine.BulkTuningDump

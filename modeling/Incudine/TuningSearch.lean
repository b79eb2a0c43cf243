import Incudine.Literals
import Incudine.Nearest
import Mathlib.Data.Rat.Floor
import Mathlib.Tactic.IntervalCases

/-!
# Search of the nearest key of a tuning

The search compares the integer parts of the frequencies. The step is halved up to zero: at the last
index, which is odd, the two neighbours were visited before, so they are around the frequency for
any table.
-/

namespace Incudine.TuningSearch

open Nearest
open scoped Literals

/-- What ends a call without a value: a value that is not of the declared type, or the number of
steps if it is too small. -/
inductive Stop where
  | typeError
  | running
  deriving DecidableEq

variable {K : Type} [Field K] [LinearOrder K] [FloorRing K]

def IsFixnum (n : ℤ) : Prop := -2 ^ 62 ≤ n ∧ n < 2 ^ 62

instance (n : ℤ) : Decidable (IsFixnum n) := inferInstanceAs (Decidable (_ ∧ _))

def InSampleRange (value : K) : Prop := -2 ^ 61 ≤ value ∧ value ≤ 2 ^ 61

instance (value : K) : Decidable (InSampleRange value) := inferInstanceAs (Decidable (_ ∧ _))

def sampleToFixnum (value : K) : Except Stop ℤ :=
  if InSampleRange value then .ok ⌊value⌋ else .error .typeError

/-- The integer part of the frequency of a key. -/
def tuncps (cps : ℕ → K) (index : ℕ) : Except Stop ℤ := sampleToFixnum (cps index)

/-- The key and the second value, true if the frequency is rounded up. The type of the index is
`(integer 0 127)`. -/
def tquantize (freq : ℤ) (cps : ℕ → K) : ℕ → ℕ → ℕ → Except Stop (ℕ × Bool)
  | 0, _, _ => .error .running
  | steps + 1, i, delta =>
    if i = 0 ∨ i = 127 then .ok (i, false)
    else do
      let prev ← tuncps cps (i - 1)
      let next ← tuncps cps (i + 1)
      let curr ← tuncps cps i
      if prev < freq ∧ freq ≤ next then
        if freq - prev < |freq - curr| then .ok (i - 1, false)
        else if next - freq < |freq - curr| then .ok (i + 1, true)
        else .ok (i, freq - curr < 0)
      else if freq ≤ curr then
        if delta ≤ i then tquantize freq cps steps (i - delta) (delta / 2)
        else .error .typeError
      else
        if i + delta ≤ 127 then tquantize freq cps steps (i + delta) (delta / 2)
        else .error .typeError

def tuningNearestKeynum (steps : ℕ) (freq : K) (cps : ℕ → K) : Except Stop (ℕ × Bool) :=
  let freq := ⌊freq⌋
  if ¬ IsFixnum freq then .error .typeError
  else do
    let first ← tuncps cps 0
    if freq ≤ first then .ok (0, false)
    else do
      let last ← tuncps cps 127
      if last ≤ freq then .ok (127, false) else tquantize freq cps steps 64 32

def quantize (steps : ℕ) (obj : K) (cps : ℕ → K) : Except Stop (K × ℕ) := do
  let (keynum, _) ← tuningNearestKeynum steps obj cps
  .ok (cps keynum, keynum)

def Returns {α : Type} (run : ℕ → Except Stop α) (a : α) : Prop :=
  ∃ steps, ∀ fuel ≥ steps, run fuel = .ok a

theorem Returns.unique {α : Type} {run : ℕ → Except Stop α} {a b : α} (ha : Returns run a)
    (hb : Returns run b) : a = b := by
  obtain ⟨m, hm⟩ := ha
  obtain ⟨n, hn⟩ := hb
  have h := (hm (max m n) (le_max_left _ _)).symm.trans (hn (max m n) (le_max_right _ _))
  exact Except.ok.inj h

theorem tuncps_bind {α : Type} {cps : ℕ → K} {k : ℕ} (h : InSampleRange (cps k))
    (f : ℤ → Except Stop α) : (tuncps cps k >>= f) = f ⌊cps k⌋ := by
  rw [tuncps, sampleToFixnum, if_pos h]
  rfl

theorem tuncps_cases (cps : ℕ → K) (i : ℕ) :
    InSampleRange (cps i) ∧ tuncps cps i = .ok ⌊cps i⌋ ∨
      ¬ InSampleRange (cps i) ∧ tuncps cps i = .error .typeError := by
  by_cases h : InSampleRange (cps i)
  · exact .inl ⟨h, if_pos h⟩
  · exact .inr ⟨h, if_neg h⟩

/-- The keys around the index are below and above the frequency, at the distance of two steps
or, if the step is zero, of one; the last key of the table is followed by the end of the search. -/
structure Bracket (freq : ℤ) (cps : ℕ → K) (n i : ℕ) : Prop where
  dvd : 2 ^ n ∣ i
  le : 2 ^ n ≤ i
  add_le : i + 2 ^ n ≤ 128
  lower : ⌊cps (i - 2 ^ n)⌋ < freq
  upper : i + 2 ^ n < 128 → freq ≤ ⌊cps (i + 2 ^ n)⌋

section Bracket

variable {freq : ℤ} {cps : ℕ → K} {n i : ℕ}

theorem Bracket.start (hlower : ⌊cps 0⌋ < freq) : Bracket freq cps 6 64 where
  dvd := by norm_num
  le := by norm_num
  add_le := by norm_num
  lower := hlower
  upper h := absurd h (by norm_num)

theorem Bracket.below (h : Bracket freq cps (n + 1) i) (hcurr : freq ≤ ⌊cps i⌋) :
    Bracket freq cps n (i - 2 ^ n) := by
  have hpow : 2 ^ (n + 1) = 2 ^ n + 2 ^ n := by rw [pow_succ]; omega
  have hle := h.le
  have hadd := h.add_le
  have hlower := h.lower
  have hpos := Nat.two_pow_pos n
  have hback : i - 2 ^ n + 2 ^ n = i := Nat.sub_add_cancel (by omega)
  refine ⟨Nat.dvd_sub ((Dvd.intro _ rfl).trans h.dvd) dvd_rfl, by omega, by omega, ?_, fun _ => ?_⟩
  · rwa [show i - 2 ^ n - 2 ^ n = i - 2 ^ (n + 1) by omega]
  · rwa [hback]

theorem Bracket.above (h : Bracket freq cps (n + 1) i) (hcurr : ⌊cps i⌋ < freq) :
    Bracket freq cps n (i + 2 ^ n) := by
  have hpow : 2 ^ (n + 1) = 2 ^ n + 2 ^ n := by rw [pow_succ]; omega
  have hle := h.le
  have hadd := h.add_le
  refine ⟨Nat.dvd_add ((Dvd.intro _ rfl).trans h.dvd) dvd_rfl, by omega, by omega, ?_,
    fun hlt => ?_⟩
  · rwa [Nat.add_sub_cancel]
  · rw [show i + 2 ^ n + 2 ^ n = i + 2 ^ (n + 1) by omega] at hlt ⊢
    exact h.upper hlt

end Bracket

/-- The call ends with a key, or with a type error if there is a frequency that cannot be
converted. -/
def Ends (cps : ℕ → K) (result : Except Stop (ℕ × Bool)) : Prop :=
  (∃ k up, result = .ok (k, up) ∧ k < 128) ∨
    result = .error .typeError ∧ ∃ k < 128, ¬ InSampleRange (cps k)

theorem ends_of_read {cps : ℕ → K} {k : ℕ} (hk : k < 128) {f : ℤ → Except Stop (ℕ × Bool)}
    (h : InSampleRange (cps k) → Ends cps (f ⌊cps k⌋)) : Ends cps (tuncps cps k >>= f) := by
  rcases tuncps_cases cps k with ⟨hrange, hread⟩ | ⟨hrange, hread⟩
  · rw [hread]
    exact h hrange
  · rw [hread]
    exact .inr ⟨rfl, k, hk, hrange⟩

theorem tquantize_ends {freq : ℤ} {cps : ℕ → K} {n i steps : ℕ} (h : Bracket freq cps n i)
    (hsteps : n < steps) : Ends cps (tquantize freq cps steps i (2 ^ n / 2)) := by
  induction n generalizing i steps with
  | zero =>
    obtain ⟨steps, rfl⟩ := Nat.exists_eq_succ_of_ne_zero (Nat.ne_of_gt hsteps)
    have hle := h.le
    have hadd := h.add_le
    rw [pow_zero] at hle hadd
    rw [tquantize]
    by_cases hend : i = 0 ∨ i = 127
    · rw [if_pos hend]
      exact .inl ⟨i, false, rfl, by omega⟩
    have hlower := h.lower
    have hupper := h.upper (by rw [pow_zero]; omega)
    rw [pow_zero] at hlower hupper
    rw [if_neg hend]
    refine ends_of_read (by omega) fun hprev => ends_of_read (by omega) fun hnext =>
      ends_of_read (by omega) fun _ => ?_
    rw [if_pos ⟨hlower, hupper⟩]
    split_ifs
    · exact .inl ⟨_, _, rfl, by omega⟩
    · exact .inl ⟨_, _, rfl, by omega⟩
    · exact .inl ⟨_, _, rfl, by omega⟩
  | succ n ih =>
    obtain ⟨steps, rfl⟩ := Nat.exists_eq_succ_of_ne_zero (Nat.ne_of_gt (Nat.zero_lt_of_lt hsteps))
    have hpos := Nat.two_pow_pos n
    have hpow : 2 ^ (n + 1) = 2 ^ n + 2 ^ n := by rw [pow_succ]; omega
    have hhalf : 2 ^ (n + 1) / 2 = 2 ^ n := by omega
    have hle := h.le
    have hadd := h.add_le
    rw [tquantize, hhalf]
    by_cases hend : i = 0 ∨ i = 127
    · rw [if_pos hend]
      exact .inl ⟨i, false, rfl, by omega⟩
    rw [if_neg hend]
    refine ends_of_read (by omega) fun _ => ends_of_read (by omega) fun _ =>
      ends_of_read (by omega) fun _ => ?_
    split_ifs with hwindow _ _ hcurr
    · exact .inl ⟨_, _, rfl, by omega⟩
    · exact .inl ⟨_, _, rfl, by omega⟩
    · exact .inl ⟨_, _, rfl, by omega⟩
    · exact ih (h.below hcurr) (by omega)
    · omega
    · exact ih (h.above (not_le.mp hcurr)) (by omega)
    · omega

/-- The search ends for any content of the table and any frequency. -/
theorem tuningNearestKeynum_ends (cps : ℕ → K) (freq : K) : ∃ steps, ∀ fuel ≥ steps,
    (∃ k up, tuningNearestKeynum fuel freq cps = .ok (k, up) ∧ k < 128) ∨
      tuningNearestKeynum fuel freq cps = .error .typeError ∧
        (¬ IsFixnum ⌊freq⌋ ∨ ∃ k < 128, ¬ InSampleRange (cps k)) := by
  refine ⟨7, fun fuel hfuel => ?_⟩
  rw [tuningNearestKeynum]
  by_cases hfix : IsFixnum ⌊freq⌋
  · rw [if_neg (not_not.mpr hfix)]
    have hends : Ends cps (tuncps cps 0 >>= fun first => if ⌊freq⌋ ≤ first then .ok (0, false)
        else tuncps cps 127 >>= fun last => if last ≤ ⌊freq⌋ then .ok (127, false)
          else tquantize ⌊freq⌋ cps fuel 64 32) := by
      refine ends_of_read (by norm_num) fun _ => ?_
      split_ifs with hfirst
      · exact .inl ⟨_, _, rfl, by norm_num⟩
      refine ends_of_read (by norm_num) fun _ => ?_
      split_ifs with hlast
      · exact .inl ⟨_, _, rfl, by norm_num⟩
      · exact tquantize_ends (Bracket.start (not_le.mp hfirst)) hfuel
    exact hends.imp id fun h => ⟨h.1, .inr h.2⟩
  · rw [if_pos hfix]
    exact .inr ⟨rfl, .inl hfix⟩

/-- A frequency whose integer part is not a fixnum is not of the declared type. -/
theorem not_tuningNearestKeynum_ends : ¬ ∀ (cps : ℕ → ℚ) (freq : ℚ), ∃ steps, ∀ fuel ≥ steps,
    ∃ k up, tuningNearestKeynum fuel freq cps = .ok (k, up) ∧ k < 128 := by
  intro h
  obtain ⟨steps, hsteps⟩ := h (fun _ => 440) (2 ^ 62)
  obtain ⟨k, up, hk, -⟩ := hsteps steps le_rfl
  have hfloor : ⌊(2 ^ 62 : ℚ)⌋ = 2 ^ 62 := by exact_mod_cast Int.floor_natCast (R := ℚ) (2 ^ 62)
  have hfix : ¬ IsFixnum ⌊(2 ^ 62 : ℚ)⌋ := by rw [hfloor]; decide
  rw [tuningNearestKeynum, if_pos hfix] at hk
  exact nomatch hk

/-- The integer parts of the frequencies of two keys are around the one of the frequency. -/
def Between (cps : ℕ → K) (freq : K) (m : ℕ) : Prop :=
  m < 127 ∧ ⌊cps m⌋ < ⌊freq⌋ ∧ ⌊freq⌋ ≤ ⌊cps (m + 1)⌋ ∧ ⌊freq⌋ < ⌊cps 127⌋

/-- The integer part of the frequency is nearer to the upper key. Half-way it goes to the even key,
or to the key one. -/
def RoundsUp (cps : ℕ → K) (freq : K) (m : ℕ) : Prop :=
  ⌊cps m⌋ + ⌊cps (m + 1)⌋ < ⌊freq⌋ + ⌊freq⌋ ∨
    ⌊cps m⌋ + ⌊cps (m + 1)⌋ = ⌊freq⌋ + ⌊freq⌋ ∧ (m = 0 ∨ m % 2 = 1)

section Sorted

variable {cps : ℕ → K}

/-- The interval of the search; the keys at its ends were visited, apart from the ends of the
table. -/
structure Narrowed (freq : ℤ) (cps : ℕ → K) (n i : ℕ) : Prop extends Bracket freq cps n i where
  lower_succ : i = 2 ^ n ∨ ⌊cps (i - 2 ^ n + 1)⌋ < freq
  upper_pred : i + 2 ^ n = 128 ∨ freq ≤ ⌊cps (i + 2 ^ n - 1)⌋

/-- The window where the search of a sorted table stops: the key is even, or it is the first one. -/
structure Window (freq : ℤ) (cps : ℕ → K) (i : ℕ) : Prop where
  pos : 0 < i
  lt : i < 127
  prev : ⌊cps (i - 1)⌋ < freq
  next : freq ≤ ⌊cps (i + 1)⌋
  even : i % 2 = 0 ∨ i = 1 ∧ freq ≤ ⌊cps 1⌋

def windowKey (freq : ℤ) (cps : ℕ → K) (i : ℕ) : ℕ :=
  if freq - ⌊cps (i - 1)⌋ < |freq - ⌊cps i⌋| then i - 1
  else if ⌊cps (i + 1)⌋ - freq < |freq - ⌊cps i⌋| then i + 1
  else i

theorem tquantize_window {freq : ℤ} {i : ℕ} (hrange : ∀ k < 128, InSampleRange (cps k))
    (h : Window freq cps i) (delta : ℕ) : ∃ up, ∀ steps,
      tquantize freq cps (steps + 1) i delta = .ok (windowKey freq cps i, up) := by
  have hpos := h.pos
  have hlt := h.lt
  have heq (steps : ℕ) : tquantize freq cps (steps + 1) i delta =
      if freq - ⌊cps (i - 1)⌋ < |freq - ⌊cps i⌋| then .ok (i - 1, false)
      else if ⌊cps (i + 1)⌋ - freq < |freq - ⌊cps i⌋| then .ok (i + 1, true)
      else .ok (i, freq - ⌊cps i⌋ < 0) := by
    rw [tquantize, if_neg (by omega), tuncps_bind (hrange _ (by omega)),
      tuncps_bind (hrange _ (by omega)), tuncps_bind (hrange _ (by omega)),
      if_pos ⟨h.prev, h.next⟩]
  simp only [heq, windowKey]
  split_ifs
  · exact ⟨_, fun _ => rfl⟩
  · exact ⟨_, fun _ => rfl⟩
  · exact ⟨_, fun _ => rfl⟩

theorem Narrowed.below {freq : ℤ} {n i : ℕ} (h : Narrowed freq cps (n + 1) i)
    (hcurr : freq ≤ ⌊cps i⌋) (hprev : freq ≤ ⌊cps (i - 1)⌋) : Narrowed freq cps n (i - 2 ^ n) where
  toBracket := h.toBracket.below hcurr
  lower_succ := by
    have hpow : 2 ^ (n + 1) = 2 ^ n + 2 ^ n := by rw [pow_succ]; omega
    have hlower := h.lower_succ
    rw [hpow] at hlower
    rw [Nat.sub_sub]
    exact hlower.imp (fun heq => by omega) id
  upper_pred := by
    have hpos := Nat.two_pow_pos n
    have hpow : 2 ^ (n + 1) = 2 ^ n + 2 ^ n := by rw [pow_succ]; omega
    have hle := h.le
    rw [Nat.sub_add_cancel (by omega)]
    exact .inr hprev

theorem Narrowed.above {freq : ℤ} {n i : ℕ} (h : Narrowed freq cps (n + 1) i)
    (hcurr : ⌊cps i⌋ < freq) (hnext : ⌊cps (i + 1)⌋ < freq) : Narrowed freq cps n (i + 2 ^ n) where
  toBracket := h.toBracket.above hcurr
  lower_succ := by
    rw [Nat.add_sub_cancel]
    exact .inr hnext
  upper_pred := by
    have hpow : 2 ^ (n + 1) = 2 ^ n + 2 ^ n := by rw [pow_succ]; omega
    have hupper := h.upper_pred
    rwa [hpow, ← Nat.add_assoc] at hupper

theorem tquantize_sorted {freq : ℤ} {n i : ℕ} (hc : Sorted cps 128)
    (hrange : ∀ k < 128, InSampleRange (cps k)) (h : Narrowed freq cps n i)
    (hlast : freq < ⌊cps 127⌋) : ∃ i' up, Window freq cps i' ∧ ∀ steps ≥ n,
      tquantize freq cps (steps + 1) i (2 ^ n / 2) = .ok (windowKey freq cps i', up) := by
  have hfloor (j k : ℕ) (hjk : j ≤ k) (hk : k < 128) : ⌊cps j⌋ ≤ ⌊cps k⌋ :=
    Int.floor_le_floor (hc j k hjk hk)
  induction n generalizing i with
  | zero =>
    obtain ⟨⟨-, hle, hadd, hlower, hupper⟩, hlowerSucc, hupperPred⟩ := h
    simp only [pow_zero] at hle hadd hlower hupper hlowerSucc hupperPred
    rw [Nat.sub_add_cancel hle] at hlowerSucc
    rw [Nat.add_sub_cancel] at hupperPred
    have hlt : i < 127 := by
      by_contra hge
      obtain rfl : i = 127 := by omega
      rcases hlowerSucc with heq | hlt
      · omega
      · omega
    have hcurr : freq ≤ ⌊cps i⌋ := hupperPred.resolve_left (by omega)
    have hfirst : i = 1 := hlowerSucc.resolve_right (by omega)
    have hwindow : Window freq cps i :=
      ⟨hle, hlt, hlower, hupper (by omega), .inr ⟨hfirst, hfirst ▸ hcurr⟩⟩
    obtain ⟨up, hup⟩ := tquantize_window hrange hwindow (2 ^ 0 / 2)
    exact ⟨i, up, hwindow, fun steps _ => hup steps⟩
  | succ n ih =>
    have hpos := Nat.two_pow_pos n
    have hpow : 2 ^ (n + 1) = 2 ^ n + 2 ^ n := by rw [pow_succ]; omega
    have hhalf : 2 ^ (n + 1) / 2 = 2 ^ n := by omega
    have hle := h.le
    have hadd := h.add_le
    have heven : i % 2 = 0 := Nat.mod_eq_zero_of_dvd ((dvd_pow_self 2 n.succ_ne_zero).trans h.dvd)
    by_cases hwindow : ⌊cps (i - 1)⌋ < freq ∧ freq ≤ ⌊cps (i + 1)⌋
    · have hwindow : Window freq cps i := ⟨by omega, by omega, hwindow.1, hwindow.2, .inl heven⟩
      obtain ⟨up, hup⟩ := tquantize_window hrange hwindow (2 ^ (n + 1) / 2)
      exact ⟨i, up, hwindow, fun steps _ => hup steps⟩
    have hprev := hfloor (i - 1) i (Nat.sub_le i 1) (by omega)
    have hnext := hfloor i (i + 1) (Nat.le_succ i) (by omega)
    have hstep (steps : ℕ) : tquantize freq cps (steps + 1) i (2 ^ (n + 1) / 2) =
        if freq ≤ ⌊cps i⌋ then tquantize freq cps steps (i - 2 ^ n) (2 ^ n / 2)
        else tquantize freq cps steps (i + 2 ^ n) (2 ^ n / 2) := by
      rw [tquantize, if_neg (by omega), tuncps_bind (hrange _ (by omega)),
        tuncps_bind (hrange _ (by omega)), tuncps_bind (hrange _ (by omega)), if_neg hwindow, hhalf,
        if_pos (show 2 ^ n ≤ i by omega), if_pos (show i + 2 ^ n ≤ 127 by omega)]
    by_cases hcurr : freq ≤ ⌊cps i⌋
    · obtain ⟨i', up, hwindow, hup⟩ := ih (h.below hcurr (by omega))
      refine ⟨i', up, hwindow, fun steps hsteps => ?_⟩
      obtain ⟨steps, rfl⟩ := Nat.exists_eq_succ_of_ne_zero (by omega : steps ≠ 0)
      rw [hstep, if_pos hcurr, hup steps (by omega)]
    · obtain ⟨i', up, hwindow, hup⟩ := ih (h.above (not_le.mp hcurr) (by omega))
      refine ⟨i', up, hwindow, fun steps hsteps => ?_⟩
      obtain ⟨steps, rfl⟩ := Nat.exists_eq_succ_of_ne_zero (by omega : steps ≠ 0)
      rw [hstep, if_neg hcurr, hup steps (by omega)]

variable {freq : K}

theorem windowKey_eq {i : ℕ} (hc : Sorted cps 128) (h : Window ⌊freq⌋ cps i)
    (hlast : ⌊freq⌋ < ⌊cps 127⌋) : ∃ m, Between cps freq m ∧
      (RoundsUp cps freq m ∧ windowKey ⌊freq⌋ cps i = m + 1 ∨
        ¬ RoundsUp cps freq m ∧ windowKey ⌊freq⌋ cps i = m) := by
  obtain ⟨hpos, hlt, hprev, hnext, heven⟩ := h
  have hle : ⌊cps (i - 1)⌋ ≤ ⌊cps i⌋ := Int.floor_le_floor (hc _ _ (Nat.sub_le i 1) (by omega))
  have hle' : ⌊cps i⌋ ≤ ⌊cps (i + 1)⌋ := Int.floor_le_floor (hc _ _ (Nat.le_succ i) (by omega))
  rw [windowKey]
  rcases lt_or_ge ⌊cps i⌋ ⌊freq⌋ with hcurr | hcurr
  · have habs : |⌊freq⌋ - ⌊cps i⌋| = ⌊freq⌋ - ⌊cps i⌋ := abs_of_pos (sub_pos.mpr hcurr)
    have heven : i % 2 = 0 := heven.resolve_right fun h => by
      rw [h.1] at hcurr
      omega
    refine ⟨i, ⟨hlt, hcurr, hnext, hlast⟩, ?_⟩
    rw [habs, if_neg (by omega), RoundsUp]
    split_ifs with hup
    · exact .inl ⟨.inl (by omega), rfl⟩
    · exact .inr ⟨by omega, rfl⟩
  · have habs : |⌊freq⌋ - ⌊cps i⌋| = ⌊cps i⌋ - ⌊freq⌋ := by
      rw [abs_sub_comm, abs_of_nonneg (sub_nonneg.mpr hcurr)]
    obtain ⟨m, rfl⟩ := Nat.exists_eq_succ_of_ne_zero hpos.ne'
    rw [Nat.succ_sub_one] at hprev hle ⊢
    refine ⟨m, ⟨by omega, hprev, hcurr, hlast⟩, ?_⟩
    rw [habs, RoundsUp]
    simp only [Nat.succ_eq_add_one] at *
    by_cases hdown : ⌊freq⌋ - ⌊cps m⌋ < ⌊cps (m + 1)⌋ - ⌊freq⌋
    · rw [if_pos hdown]
      exact .inr ⟨by omega, rfl⟩
    · rw [if_neg hdown, if_neg (by omega)]
      exact .inl ⟨by omega, rfl⟩

theorem tuningNearestKeynum_eq (hfix : IsFixnum ⌊freq⌋) (hfirst : InSampleRange (cps 0))
    (fuel : ℕ) :
    tuningNearestKeynum fuel freq cps = if ⌊freq⌋ ≤ ⌊cps 0⌋ then .ok (0, false)
      else tuncps cps 127 >>= fun last => if last ≤ ⌊freq⌋ then .ok (127, false)
        else tquantize ⌊freq⌋ cps fuel 64 32 := by
  rw [tuningNearestKeynum, if_neg (not_not.mpr hfix), tuncps_bind hfirst]

/-- The key that is nearest to the integer part of the frequency. -/
def ByParts (cps : ℕ → K) (freq : K) (k : ℕ) : Prop :=
  ⌊freq⌋ ≤ ⌊cps 0⌋ ∧ k = 0 ∨
    ⌊cps 0⌋ < ⌊freq⌋ ∧ ⌊cps 127⌋ ≤ ⌊freq⌋ ∧ k = 127 ∨
      ∃ m, Between cps freq m ∧ (RoundsUp cps freq m ∧ k = m + 1 ∨ ¬ RoundsUp cps freq m ∧ k = m)

theorem tuningNearestKeynum_sorted (hc : Sorted cps 128) (hfix : IsFixnum ⌊freq⌋)
    (hfirst : InSampleRange (cps 0)) (hlast : ⌊cps 0⌋ < ⌊freq⌋ → InSampleRange (cps 127)) :
    ∃ k up, Returns (fun fuel => tuningNearestKeynum fuel freq cps) (k, up) ∧
      ByParts cps freq k := by
  by_cases hbelow : ⌊freq⌋ ≤ ⌊cps 0⌋
  · refine ⟨0, false, ⟨0, fun fuel _ => ?_⟩, .inl ⟨hbelow, rfl⟩⟩
    exact (tuningNearestKeynum_eq hfix hfirst fuel).trans (if_pos hbelow)
  have hlast := hlast (not_le.mp hbelow)
  by_cases habove : ⌊cps 127⌋ ≤ ⌊freq⌋
  · refine ⟨127, false, ⟨0, fun fuel _ => ?_⟩, .inr (.inl ⟨not_le.mp hbelow, habove, rfl⟩)⟩
    refine (tuningNearestKeynum_eq hfix hfirst fuel).trans ?_
    rw [if_neg hbelow, tuncps_bind hlast, if_pos habove]
  have hrange (k : ℕ) (hk : k < 128) : InSampleRange (cps k) :=
    ⟨hfirst.1.trans (hc 0 k (Nat.zero_le k) hk), (hc k 127 (by omega) (by norm_num)).trans hlast.2⟩
  have hstart : Narrowed ⌊freq⌋ cps 6 64 :=
    ⟨Bracket.start (not_le.mp hbelow), .inl rfl, .inl rfl⟩
  obtain ⟨i, up, hwindow, hup⟩ := tquantize_sorted hc hrange hstart (not_le.mp habove)
  refine ⟨_, up, ⟨7, fun fuel hfuel => ?_⟩,
    .inr (.inr (windowKey_eq hc hwindow (not_le.mp habove)))⟩
  obtain ⟨fuel, rfl⟩ := Nat.exists_eq_succ_of_ne_zero (by omega : fuel ≠ 0)
  refine (tuningNearestKeynum_eq hfix hfirst _).trans ?_
  rw [if_neg hbelow, tuncps_bind hlast, if_neg habove]
  exact hup fuel (by omega)

/-- The point that is half-way between two neighbouring frequencies is on the same side of the
frequency as the one between their integer parts is of its integer part, and the frequency is not
nearer to a frequency above, which has the same integer part. The frequency does not exceed the
table by an integer part, or it is not beyond the first point that is half-way. -/
structure NearestByParts (cps : ℕ → K) (freq : K) : Prop where
  fixnum : IsFixnum ⌊freq⌋
  first : InSampleRange (cps 0)
  last : ⌊cps 0⌋ < ⌊freq⌋ → InSampleRange (cps 127)
  below : ⌊freq⌋ ≤ ⌊cps 0⌋ → ∀ j < 128, cps 0 < cps j → freq + freq ≤ cps 0 + cps j
  above : ⌊cps 0⌋ < ⌊freq⌋ → ⌊cps 127⌋ ≤ ⌊freq⌋ →
    ∀ j < 128, cps j < cps 127 → cps j + cps 127 ≤ freq + freq
  down : ∀ m, Between cps freq m → ¬ RoundsUp cps freq m → freq + freq ≤ cps m + cps (m + 1)
  up : ∀ m, Between cps freq m → RoundsUp cps freq m → cps m + cps (m + 1) ≤ freq + freq ∧
    ∀ j < 128, cps (m + 1) < cps j → freq + freq ≤ cps (m + 1) + cps j

theorem Between.unique {m m' : ℕ} (hc : Sorted cps 128) (h : Between cps freq m)
    (h' : Between cps freq m') : m = m' := by
  have hfloor (j k : ℕ) (hjk : j ≤ k) (hk : k < 128) : ⌊cps j⌋ ≤ ⌊cps k⌋ :=
    Int.floor_le_floor (hc j k hjk hk)
  obtain ⟨hm, hlower, hupper, -⟩ := h
  obtain ⟨hm', hlower', hupper', -⟩ := h'
  rcases lt_trichotomy m m' with hlt | heq | hgt
  · have hle := hfloor (m + 1) m' hlt (by omega)
    omega
  · exact heq
  · have hle := hfloor (m' + 1) m hgt (by omega)
    omega

theorem not_between_of_le {m : ℕ} (hc : Sorted cps 128) (hle : ⌊freq⌋ ≤ ⌊cps 0⌋) :
    ¬ Between cps freq m := fun h => by
  have hfirst := Int.floor_le_floor (hc 0 m (Nat.zero_le m) (by have := h.1; omega))
  have hlower := h.2.1
  omega

theorem Between.lt {m : ℕ} (h : Between cps freq m) : cps m < freq :=
  Int.floor_lt.mp h.2.1 |>.trans_le (Int.floor_le freq)

variable [IsStrictOrderedRing K]

theorem Between.lt_succ {m : ℕ} (h : Between cps freq m) : cps m < cps (m + 1) :=
  (Int.floor_lt.mp h.2.1).trans_le ((Int.cast_le.mpr h.2.2.1).trans (Int.floor_le _))

theorem Between.isNearest_iff {m : ℕ} (hc : Sorted cps 128) (h : Between cps freq m) :
    IsNearest cps 128 freq m ↔ freq + freq ≤ cps m + cps (m + 1) := by
  have hm := h.1
  have hlt := h.lt
  rw [Nearest.isNearest_iff hc (by omega)]
  constructor
  · rintro ⟨-, habove⟩
    exact habove (m + 1) (by omega) (Nat.lt_succ_self m) h.lt_succ
  · intro hle
    refine ⟨fun j _ hj => by linarith, fun j hj hmj _ => ?_⟩
    have hnext := hc (m + 1) j hmj hj
    linarith

theorem Between.isNearest_succ_iff {m : ℕ} (hc : Sorted cps 128) (h : Between cps freq m) :
    IsNearest cps 128 freq (m + 1) ↔ cps m + cps (m + 1) ≤ freq + freq ∧
      ∀ j < 128, cps (m + 1) < cps j → freq + freq ≤ cps (m + 1) + cps j := by
  have hm := h.1
  rw [Nearest.isNearest_iff hc (by omega)]
  constructor
  · rintro ⟨hbelow, habove⟩
    refine ⟨hbelow m (Nat.lt_succ_self m) h.lt_succ, fun j hj hlt => ?_⟩
    refine habove j hj (lt_of_not_ge fun hle => ?_) hlt
    exact hlt.not_ge (hc j (m + 1) hle (by omega))
  · rintro ⟨hle, habove⟩
    refine ⟨fun j hj _ => ?_, fun j hj _ hlt => habove j hj hlt⟩
    have hprev := hc j m (Nat.le_of_lt_succ hj) (by omega)
    linarith

omit [IsStrictOrderedRing K] in
theorem range_of_returns {k : ℕ} {up : Bool}
    (h : Returns (fun fuel => tuningNearestKeynum fuel freq cps) (k, up)) :
    IsFixnum ⌊freq⌋ ∧ InSampleRange (cps 0) ∧ (⌊cps 0⌋ < ⌊freq⌋ → InSampleRange (cps 127)) := by
  obtain ⟨steps, hsteps⟩ := h
  have hok := hsteps steps le_rfl
  have hfix : IsFixnum ⌊freq⌋ := by
    by_contra hnot
    simp only [tuningNearestKeynum, if_pos hnot, reduceCtorEq] at hok
  have hfirst : InSampleRange (cps 0) := by
    rcases tuncps_cases cps 0 with ⟨hrange, -⟩ | ⟨-, hread⟩
    · exact hrange
    · simp only [tuningNearestKeynum, if_neg (not_not.mpr hfix), hread] at hok
      exact nomatch hok
  refine ⟨hfix, hfirst, fun hlt => ?_⟩
  rcases tuncps_cases cps 127 with ⟨hrange, -⟩ | ⟨-, hread⟩
  · exact hrange
  · have heq := (tuningNearestKeynum_eq hfix hfirst steps).symm.trans hok
    rw [if_neg (not_le.mpr hlt), hread] at heq
    exact nomatch heq

omit [IsStrictOrderedRing K] in
theorem quantize_returns {k : ℕ} {up : Bool}
    (h : Returns (fun fuel => tuningNearestKeynum fuel freq cps) (k, up)) :
    Returns (fun fuel => quantize fuel freq cps) (cps k, k) := by
  obtain ⟨steps, hsteps⟩ := h
  refine ⟨steps, fun fuel hfuel => ?_⟩
  have hok : tuningNearestKeynum fuel freq cps = .ok (k, up) := hsteps fuel hfuel
  simp only [quantize, hok]
  rfl

theorem ByParts.isNearest_iff {k : ℕ} (hc : Sorted cps 128) (hfix : IsFixnum ⌊freq⌋)
    (hfirst : InSampleRange (cps 0)) (hlast : ⌊cps 0⌋ < ⌊freq⌋ → InSampleRange (cps 127))
    (h : ByParts cps freq k) : IsNearest cps 128 freq k ↔ NearestByParts cps freq := by
  rcases h with ⟨hle, rfl⟩ | ⟨hlt, hle, rfl⟩ | ⟨m, hm, hkey⟩
  · have hnot (m : ℕ) : ¬ Between cps freq m := not_between_of_le hc hle
    rw [Nearest.isNearest_iff hc (by norm_num)]
    constructor
    · rintro ⟨-, habove⟩
      refine ⟨hfix, hfirst, hlast, fun _ j hj hlt => ?_, fun hlt => absurd hle (not_le.mpr hlt),
        fun m hm => absurd hm (hnot m), fun m hm => absurd hm (hnot m)⟩
      exact habove j hj (Nat.pos_of_ne_zero fun hj => hlt.ne (hj ▸ rfl)) hlt
    · intro h
      exact ⟨fun j hj => absurd hj (Nat.not_lt_zero j), fun j hj _ hlt => h.below hle j hj hlt⟩
  · have hnot (m : ℕ) : ¬ Between cps freq m := fun hm => hm.2.2.2.not_ge hle
    rw [Nearest.isNearest_iff hc (by norm_num)]
    constructor
    · rintro ⟨hbelow, -⟩
      refine ⟨hfix, hfirst, hlast, fun hle => absurd hle (not_le.mpr hlt), fun _ _ j hj hlt => ?_,
        fun m hm => absurd hm (hnot m), fun m hm => absurd hm (hnot m)⟩
      exact hbelow j (lt_of_le_of_ne (Nat.le_of_lt_succ hj) fun hj => hlt.ne (hj ▸ rfl)) hlt
    · intro h
      exact ⟨fun j hj hlt' => h.above hlt hle j (by omega) hlt', fun j hj hj' => by omega⟩
  · have hle : ¬ ⌊freq⌋ ≤ ⌊cps 0⌋ := fun hle => not_between_of_le hc hle hm
    have habove : ¬ ⌊cps 127⌋ ≤ ⌊freq⌋ := hm.2.2.2.not_ge
    rcases hkey with ⟨hup, rfl⟩ | ⟨hdown, rfl⟩
    · rw [hm.isNearest_succ_iff hc]
      constructor
      · intro h
        exact ⟨hfix, hfirst, hlast, fun h => absurd h hle, fun _ h => absurd h habove,
          fun m' hm' hdown => absurd (hm.unique hc hm' ▸ hup) hdown,
          fun m' hm' _ => hm.unique hc hm' ▸ h⟩
      · intro h
        exact h.up m hm hup
    · rw [hm.isNearest_iff hc]
      constructor
      · intro h
        exact ⟨hfix, hfirst, hlast, fun h => absurd h hle, fun _ h => absurd h habove,
          fun m' hm' _ => hm.unique hc hm' ▸ h,
          fun m' hm' hup => absurd (hm.unique hc hm' ▸ hup) hdown⟩
      · intro h
        exact h.down k hm hdown

/-- The key that is returned is the nearest one and `quantize` returns its frequency exactly if the
integer parts of the frequencies are enough to find it. -/
theorem nearest_iff (hc : Sorted cps 128) :
    (∃ k up, Returns (fun fuel => tuningNearestKeynum fuel freq cps) (k, up) ∧
      IsNearest cps 128 freq k ∧ Returns (fun fuel => quantize fuel freq cps) (cps k, k)) ↔
    NearestByParts cps freq := by
  constructor
  · rintro ⟨k, up, hreturns, hnearest, -⟩
    obtain ⟨hfix, hfirst, hlast⟩ := range_of_returns hreturns
    obtain ⟨k', up', hreturns', hkey⟩ := tuningNearestKeynum_sorted hc hfix hfirst hlast
    obtain rfl : k = k' := congrArg Prod.fst (hreturns.unique hreturns')
    exact (hkey.isNearest_iff hc hfix hfirst hlast).mp hnearest
  · intro h
    obtain ⟨k, up, hreturns, hkey⟩ := tuningNearestKeynum_sorted hc h.fixnum h.first h.last
    have hnearest := (hkey.isNearest_iff hc h.fixnum h.first h.last).mpr h
    exact ⟨k, up, hreturns, hnearest, quantize_returns hreturns⟩

end Sorted

theorem nearest_iff_tens : ∃ k up,
    Returns (fun fuel => tuningNearestKeynum fuel (653 / 2 : ℚ) fun k => ((10 * k : ℕ) : ℚ)) (k, up) ∧
      IsNearest (fun k => ((10 * k : ℕ) : ℚ)) 128 (653 / 2) k ∧
        Returns (fun fuel => quantize fuel (653 / 2 : ℚ) fun k => ((10 * k : ℕ) : ℚ))
          (((10 * k : ℕ) : ℚ), k) := by
  have hfloor : ⌊(653 / 2 : ℚ)⌋ = 326 := by norm_num
  have hmiddle (m : ℕ) (hm : Between (fun k => ((10 * k : ℕ) : ℚ)) (653 / 2) m) : m = 32 := by
    simp only [Between, hfloor, Int.floor_natCast] at hm
    omega
  have hup : RoundsUp (fun k => ((10 * k : ℕ) : ℚ)) (653 / 2) 32 := by
    rw [RoundsUp, hfloor, Int.floor_natCast, Int.floor_natCast]
    norm_num
  refine (nearest_iff fun i j hij _ => ?_).mpr ⟨?_, ?_, ?_, ?_, ?_, ?_, ?_⟩
  · exact Nat.cast_le.mpr (Nat.mul_le_mul_left 10 hij)
  · rw [hfloor]
    decide
  · norm_num [InSampleRange]
  · norm_num [InSampleRange]
  · intro hle
    rw [hfloor, Int.floor_natCast] at hle
    norm_num at hle
  · intro _ hle
    rw [hfloor, Int.floor_natCast] at hle
    norm_num at hle
  · intro m hm hdown
    exact absurd (hmiddle m hm ▸ hup) hdown
  · intro m hm _
    obtain rfl := hmiddle m hm
    refine ⟨by norm_num, fun j _ hlt => ?_⟩
    have hj : 34 ≤ j := by
      have := Nat.cast_lt.mp hlt
      omega
    have hcast : (34 : ℚ) ≤ j := by exact_mod_cast hj
    push_cast
    linarith

/-- The first two keys have the same integer part. -/
def lowFrequencies (k : ℕ) : ℚ := if k = 0 then 8 else 17 / 2

theorem sorted_lowFrequencies : Sorted lowFrequencies 128 := fun i j hij _ => by
  simp only [lowFrequencies]
  split_ifs
  · exact le_rfl
  · norm_num
  · omega
  · exact le_rfl

/-- The frequency of the key 1 is quantized to the key 0. -/
theorem not_nearest : ¬ ∀ (cps : ℕ → ℚ) (freq : ℚ), Sorted cps 128 →
    ∃ k up, Returns (fun fuel => tuningNearestKeynum fuel freq cps) (k, up) ∧
      IsNearest cps 128 freq k ∧ Returns (fun fuel => quantize fuel freq cps) (cps k, k) := by
  intro h
  obtain ⟨k, up, hreturns, hnearest, -⟩ := h lowFrequencies (17 / 2) sorted_lowFrequencies
  have hfloor : ⌊(17 / 2 : ℚ)⌋ = 8 := by norm_num
  have hfirst : ⌊lowFrequencies 0⌋ = 8 := by norm_num [lowFrequencies]
  have hzero : Returns (fun fuel => tuningNearestKeynum fuel (17 / 2) lowFrequencies)
      (0, false) := by
    refine ⟨0, fun fuel _ => (tuningNearestKeynum_eq ?_ ?_ fuel).trans (if_pos ?_)⟩
    · rw [hfloor]
      decide
    · norm_num [InSampleRange, lowFrequencies]
    · rw [hfloor, hfirst]
  obtain rfl : k = 0 := congrArg Prod.fst (hreturns.unique hzero)
  have hle := hnearest.2 1 (by norm_num)
  norm_num [lowFrequencies] at hle

end Incudine.TuningSearch

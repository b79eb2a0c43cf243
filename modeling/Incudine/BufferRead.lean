import Incudine.BufferFromTextfile
import Incudine.Interpolation
import Mathlib.Data.Rat.Floor

/-!
# Interpolated reading of a buffer

The index of a sample is computed from the phase in frames and corrected near the first and the last
frames. The phase wraps around or is limited to the last frame.
-/

namespace Incudine.Buffers

open Interpolation

variable {K : Type*} [Field K] [LinearOrder K] [FloorRing K]

section Source

def wrapPhase (max phs : K) : K :=
  let rRange := 1 / max
  if max = 0 then 0
  else if max ≤ phs then
    let phs := phs - max
    if max ≤ phs then phs - max * sampleToFixnum (phs * rRange) else phs
  else if phs < 0 then
    let phs := phs + max
    if phs < 0 then phs - max * sampleToFixnum (phs * rRange) else phs
  else phs

def limitPhase (max phs : K) : K × Bool :=
  if max ≤ phs then (max, true)
  else if phs < 0 then (0, true)
  else (phs, false)

/-- `wrap-phase-func`, without the flag. -/
def checkPhase (frames : ℕ) (wrapP : Bool) (phs : K) : K :=
  if wrapP then wrapPhase (frames : K) phs else (limitPhase ((frames : K) - 1) phs).1

inductive Points
  | one
  | two
  | four
  deriving DecidableEq

def noInterp (channels iphase : ℤ) : List ℤ := [iphase * channels]

def twoPoints (frames channels size : ℤ) (wrapP : Bool) (iphase : ℤ) : List ℤ :=
  let guardFrame := frames - 2
  let decr := -(if wrapP then size else channels)
  let y0 := iphase * channels
  let y1 := y0 + channels
  if guardFrame < iphase then [y0, y1 + decr] else [y0, y1]

def fourPoints (frames channels size : ℤ) (wrapP : Bool) (iphase : ℤ) : List ℤ :=
  let guardFrame := frames - 2
  let incr1 := if wrapP then size else channels
  let incr2 := if wrapP then size else 2 * channels
  let decr1 := -incr1
  let decr2 := -incr2
  let y1 := iphase * channels
  let y0 := y1 - channels
  let y2 := y1 + channels
  let y3 := y2 + channels
  if iphase = 0 then [y0 + incr1, y1, y2, y3]
  else if iphase = guardFrame then [y0, y1, y2, y3 + decr1]
  else if guardFrame < iphase then [y0, y1, y2 + decr1, y3 + decr2]
  else [y0, y1, y2, y3]

def Points.indices (points : Points) (frames channels : ℕ) (wrapP : Bool) (phs : K)
    (currentChannel : ℕ) : List ℤ :=
  let size : ℤ := frames * channels
  let iphase := sampleToFixnum phs
  let y :=
    match points with
    | .one => noInterp channels iphase
    | .two => twoPoints frames channels size wrapP iphase
    | .four => fourPoints frames channels size wrapP iphase
  y.map (· + (currentChannel : ℤ))

def bufferRead (points : Points) (buffer : Buffer K) (wrapP : Bool) (phs : K)
    (currentChannel : ℕ) : K :=
  let phs := checkPhase buffer.frames wrapP phs
  let frac := phs - sampleToFixnum phs
  if currentChannel < buffer.channels then
    interp frac ((points.indices buffer.frames buffer.channels wrapP phs currentChannel).map
      fun y => buffer.data y.toNat)
  else 0

end Source

section Phase

variable [IsStrictOrderedRing K] {max : K}

theorem sub_mul_floor (hpos : 0 < max) (phs : K) :
    0 ≤ phs - max * sampleToFixnum (phs * (1 / max)) ∧
      phs - max * sampleToFixnum (phs * (1 / max)) < max := by
  have hphs : max * (phs * (1 / max)) = phs := by
    rw [mul_comm phs, ← mul_assoc, mul_one_div_cancel hpos.ne', one_mul]
  have hlow := mul_le_mul_of_nonneg_left (Int.floor_le (phs * (1 / max))) hpos.le
  have hhigh := mul_lt_mul_of_pos_left (Int.lt_floor_add_one (phs * (1 / max))) hpos
  rw [hphs] at hlow hhigh
  rw [mul_add, mul_one] at hhigh
  simp only [sampleToFixnum]
  constructor <;> linarith

theorem wrapPhase_mem (hpos : 0 < max) (phs : K) : 0 ≤ wrapPhase max phs ∧ wrapPhase max phs < max := by
  have hfloor (phs : K) := sub_mul_floor hpos phs
  simp only [wrapPhase, hpos.ne', if_false]
  by_cases hhigh : max ≤ phs
  · rw [if_pos hhigh]
    by_cases hagain : max ≤ phs - max
    · rw [if_pos hagain]
      exact hfloor _
    · rw [if_neg hagain]
      constructor <;> linarith
  rw [if_neg hhigh]
  by_cases hlow : phs < 0
  · rw [if_pos hlow]
    by_cases hagain : phs + max < 0
    · rw [if_pos hagain]
      exact hfloor _
    · rw [if_neg hagain]
      constructor <;> linarith
  · rw [if_neg hlow]
    exact ⟨not_lt.mp hlow, not_le.mp hhigh⟩

omit [IsStrictOrderedRing K] in
theorem wrapPhase_eq (hpos : 0 < max) (phs : K) : ∃ n : ℤ, wrapPhase max phs = phs - max * n := by
  simp only [wrapPhase, hpos.ne', if_false]
  by_cases hhigh : max ≤ phs
  · rw [if_pos hhigh]
    by_cases hagain : max ≤ phs - max
    · refine ⟨1 + sampleToFixnum ((phs - max) * (1 / max)), ?_⟩
      rw [if_pos hagain, Int.cast_add, Int.cast_one]
      ring
    · refine ⟨1, ?_⟩
      rw [if_neg hagain, Int.cast_one, mul_one]
  rw [if_neg hhigh]
  by_cases hlow : phs < 0
  · rw [if_pos hlow]
    by_cases hagain : phs + max < 0
    · refine ⟨-1 + sampleToFixnum ((phs + max) * (1 / max)), ?_⟩
      rw [if_pos hagain, Int.cast_add, Int.cast_neg, Int.cast_one]
      ring
    · refine ⟨-1, ?_⟩
      rw [if_neg hagain, Int.cast_neg, Int.cast_one]
      ring
  · refine ⟨0, ?_⟩
    rw [if_neg hlow, Int.cast_zero, mul_zero, sub_zero]

omit [FloorRing K] [IsStrictOrderedRing K] in
theorem limitPhase_eq (hnneg : 0 ≤ max) (phs : K) :
    (limitPhase max phs).1 = Max.max 0 (min phs max) := by
  rw [limitPhase]
  by_cases hhigh : max ≤ phs
  · rw [if_pos hhigh, min_eq_right hhigh, max_eq_right hnneg]
  rw [if_neg hhigh, min_eq_left (not_le.mp hhigh).le]
  by_cases hlow : phs < 0
  · rw [if_pos hlow, max_eq_left hlow.le]
  · rw [if_neg hlow, max_eq_right (not_lt.mp hlow)]

omit [FloorRing K] [IsStrictOrderedRing K] in
theorem limitPhase_mem (hnneg : 0 ≤ max) (phs : K) :
    0 ≤ (limitPhase max phs).1 ∧ (limitPhase max phs).1 ≤ max := by
  rw [limitPhase]
  by_cases hhigh : max ≤ phs
  · rw [if_pos hhigh]
    exact ⟨hnneg, le_rfl⟩
  rw [if_neg hhigh]
  by_cases hlow : phs < 0
  · rw [if_pos hlow]
    exact ⟨le_rfl, hnneg⟩
  · rw [if_neg hlow]
    exact ⟨not_lt.mp hlow, (not_le.mp hhigh).le⟩

def InRange (frames : ℕ) (wrapP : Bool) (phs : K) : Prop :=
  0 ≤ phs ∧ if wrapP then phs < frames else phs ≤ frames - 1

theorem checkPhase_inRange {frames : ℕ} (hframes : 0 < frames) (wrapP : Bool) (phs : K) :
    InRange frames wrapP (checkPhase frames wrapP phs) := by
  have hone : (1 : K) ≤ frames := by exact_mod_cast hframes
  cases wrapP with
  | true => exact wrapPhase_mem (lt_of_lt_of_le one_pos hone) phs
  | false => exact limitPhase_mem (sub_nonneg.mpr hone) phs

end Phase

section Neighbours

def Points.offsets : Points → List ℤ
  | .one => [0]
  | .two => [0, 1]
  | .four => [-1, 0, 1, 2]

/-- A frame modulo the number of the frames or limited to the first and the last one. -/
def neighbour (frames : ℤ) (wrapP : Bool) (frame : ℤ) : ℤ :=
  if wrapP then frame % frames else max 0 (min frame (frames - 1))

/-- The samples of a channel at the frames around the phase, inside the buffer. -/
def Points.Exact (points : Points) (frames channels : ℕ) (wrapP : Bool) (phs : K)
    (currentChannel : ℕ) : Prop :=
  points.indices frames channels wrapP phs currentChannel =
      points.offsets.map (fun k => neighbour frames wrapP (⌊phs⌋ + k) * channels + currentChannel) ∧
    ∀ y ∈ points.indices frames channels wrapP phs currentChannel, 0 ≤ y ∧ y < frames * channels

variable {frames : ℤ} {wrapP : Bool} {i : ℤ}

theorem neighbour_eq (hlow : -frames ≤ i) (hhigh : i < 2 * frames) :
    neighbour frames wrapP i =
      if i < 0 then (if wrapP then i + frames else 0)
      else if i < frames then i
      else (if wrapP then i - frames else frames - 1) := by
  cases wrapP with
  | true =>
    simp only [neighbour, if_true]
    by_cases hneg : i < 0
    · rw [if_pos hneg, ← Int.add_emod_right, Int.emod_eq_of_lt (by omega) (by omega)]
    rw [if_neg hneg]
    by_cases hlt : i < frames
    · rw [if_pos hlt, Int.emod_eq_of_lt (by omega) hlt]
    · rw [if_neg hlt, ← Int.sub_emod_right, Int.emod_eq_of_lt (by omega) (by omega)]
  | false =>
    simp only [neighbour, Bool.false_eq_true, if_false]
    omega

theorem neighbour_mem (hframes : 0 < frames) (i : ℤ) :
    0 ≤ neighbour frames wrapP i ∧ neighbour frames wrapP i < frames := by
  cases wrapP with
  | true => exact ⟨Int.emod_nonneg _ hframes.ne', Int.emod_lt_of_pos _ hframes⟩
  | false =>
    simp only [neighbour, Bool.false_eq_true, if_false]
    omega

def twoFrames (frames : ℤ) (wrapP : Bool) (i : ℤ) : List ℤ :=
  [i, if frames - 2 < i then i + 1 - (if wrapP then frames else 1) else i + 1]

theorem twoPoints_eq (channels : ℤ) :
    twoPoints frames channels (frames * channels) wrapP i =
      (twoFrames frames wrapP i).map (· * channels) := by
  simp only [twoPoints, twoFrames, List.map_cons, List.map_nil]
  by_cases hguard : frames - 2 < i
  · cases wrapP <;> simp [hguard]
    ring
  · simp only [if_neg hguard]
    ring_nf

theorem twoFrames_eq (hlow : 0 ≤ i) (hhigh : i < frames) :
    twoFrames frames wrapP i = Points.two.offsets.map fun k => neighbour frames wrapP (i + k) := by
  simp only [twoFrames, Points.offsets, List.map_cons, List.map_nil, List.cons.injEq, and_true]
  rw [neighbour_eq (by omega) (by omega), neighbour_eq (by omega) (by omega)]
  cases wrapP <;> simp <;> omega

def fourFrames (frames : ℤ) (wrapP : Bool) (i : ℤ) : List ℤ :=
  let incr1 := if wrapP then frames else 1
  let incr2 := if wrapP then frames else 2
  if i = 0 then [i - 1 + incr1, i, i + 1, i + 2]
  else if i = frames - 2 then [i - 1, i, i + 1, i + 2 - incr1]
  else if frames - 2 < i then [i - 1, i, i + 1 - incr1, i + 2 - incr2]
  else [i - 1, i, i + 1, i + 2]

theorem fourPoints_eq (channels : ℤ) :
    fourPoints frames channels (frames * channels) wrapP i =
      (fourFrames frames wrapP i).map (· * channels) := by
  simp only [fourPoints, fourFrames]
  split_ifs <;> simp only [List.map_cons, List.map_nil] <;> ring_nf

theorem fourFrames_iff (hlow : 0 ≤ i) (hhigh : i < frames) (hframes : 2 ≤ frames) :
    (fourFrames frames wrapP i = Points.four.offsets.map fun k => neighbour frames wrapP (i + k)) ↔
      ¬ (frames = 2 ∧ i = 0) := by
  simp only [Points.offsets, List.map_cons, List.map_nil]
  rw [neighbour_eq (by omega) (by omega), neighbour_eq (by omega) (by omega),
    neighbour_eq (by omega) (by omega), neighbour_eq (by omega) (by omega)]
  rw [fourFrames]
  by_cases hfirst : i = 0
  · subst hfirst
    cases wrapP <;> simp <;> omega
  by_cases hguard : i = frames - 2
  · have hother : ¬ (frames = 2 ∧ i = 0) := fun h => hfirst h.2
    simp only [if_neg hfirst, if_pos hguard, hother, not_false_iff, iff_true, List.cons.injEq, and_true]
    cases wrapP <;> simp <;> omega
  by_cases hlast : frames - 2 < i
  · cases wrapP <;> simp [hfirst, hguard, hlast] <;> omega
  · cases wrapP <;> simp [hfirst, hguard, hlast] <;> omega

end Neighbours

section Result

variable {points : Points} {frames channels currentChannel : ℕ} {wrapP : Bool} {phs : K}

def Points.frameList : Points → ℤ → Bool → ℤ → List ℤ
  | .one => fun _ _ i => [i]
  | .two => twoFrames
  | .four => fourFrames

theorem Points.indices_eq :
    points.indices frames channels wrapP phs currentChannel =
      (points.frameList frames wrapP ⌊phs⌋).map
        fun frame : ℤ => frame * channels + currentChannel := by
  cases points with
  | one => simp [Points.indices, sampleToFixnum, noInterp, Points.frameList]
  | two => simp [Points.indices, sampleToFixnum, twoPoints_eq, Points.frameList, Function.comp_def]
  | four => simp [Points.indices, sampleToFixnum, fourPoints_eq, Points.frameList, Function.comp_def]

theorem Points.exact_iff_frames (hframes : 0 < frames) (hc : currentChannel < channels) :
    points.Exact frames channels wrapP phs currentChannel ↔
      points.frameList frames wrapP ⌊phs⌋ =
        points.offsets.map fun k => neighbour frames wrapP (⌊phs⌋ + k) := by
  have hpos : (0 : ℤ) < channels := by omega
  have hinjective : Function.Injective fun frame : ℤ => frame * channels + currentChannel := by
    intro m n heq
    exact Int.eq_of_mul_eq_mul_right hpos.ne' (by simpa using heq)
  rw [Points.Exact, Points.indices_eq]
  constructor
  · rintro ⟨heq, -⟩
    apply List.map_injective_iff.mpr hinjective
    rw [heq, List.map_map]
    exact List.map_congr_left fun k _ => rfl
  · intro heq
    rw [heq, List.map_map]
    refine ⟨rfl, fun y hy => ?_⟩
    obtain ⟨k, -, rfl⟩ := List.mem_map.mp hy
    obtain ⟨hlow, hhigh⟩ := @neighbour_mem frames wrapP (by omega) (⌊phs⌋ + k)
    have hindex : (neighbour frames wrapP (⌊phs⌋ + k) + 1) * channels ≤ frames * channels :=
      Int.mul_le_mul_of_nonneg_right hhigh hpos.le
    have hnneg := Int.mul_nonneg hlow hpos.le
    rw [Int.add_mul, Int.one_mul] at hindex
    simp only [Function.comp_apply]
    omega

variable [IsStrictOrderedRing K]

theorem InRange.floor_mem (h : InRange frames wrapP phs) : 0 ≤ ⌊phs⌋ ∧ ⌊phs⌋ < frames := by
  refine ⟨Int.floor_nonneg.mpr h.1, Int.floor_lt.mpr ?_⟩
  cases wrapP with
  | true => exact_mod_cast h.2
  | false =>
    have hle : phs ≤ (frames : K) - 1 := h.2
    exact_mod_cast hle.trans_lt (sub_one_lt _)

/-- The readers access the neighbours, except the four-point reader in the first of two frames. -/
theorem Points.exact_iff (points : Points) (wrapP : Bool) (hframes : 2 ≤ frames)
    (hphs : InRange frames wrapP phs) (hc : currentChannel < channels) :
    points.Exact frames channels wrapP phs currentChannel ↔
      ¬ (points = .four ∧ frames = 2 ∧ phs < 1) := by
  obtain ⟨hlow, hhigh⟩ := hphs.floor_mem
  rw [Points.exact_iff_frames (by omega) hc]
  cases points with
  | one =>
    have hsame : neighbour frames wrapP ⌊phs⌋ = ⌊phs⌋ := by
      rw [neighbour_eq (by omega) (by omega), if_neg (by omega), if_pos hhigh]
    simp [Points.frameList, Points.offsets, hsame]
  | two => simp [Points.frameList, twoFrames_eq hlow hhigh]
  | four =>
    have hfloor : ⌊phs⌋ = 0 ↔ phs < 1 := by
      rw [Int.floor_eq_zero_iff, Set.mem_Ico]
      exact and_iff_right hphs.1
    have htwo : (frames : ℤ) = 2 ↔ frames = 2 := by omega
    rw [Points.frameList, fourFrames_iff hlow hhigh (by omega), hfloor, htwo]
    simp

/-- The phase itself if it wraps, else the phase limited to the first and the last frame. -/
def framePhase (frames : ℕ) (wrapP : Bool) (phs : K) : K :=
  if wrapP then phs else max 0 (min phs (frames - 1))

theorem checkPhase_eq (hframes : 0 < frames) (wrapP : Bool) (phs : K) :
    Int.fract (checkPhase frames wrapP phs) = Int.fract (framePhase frames wrapP phs) ∧
      ∀ k, neighbour frames wrapP (⌊checkPhase frames wrapP phs⌋ + k) =
        neighbour frames wrapP (⌊framePhase frames wrapP phs⌋ + k) := by
  have hone : (1 : K) ≤ frames := by exact_mod_cast hframes
  cases wrapP with
  | true =>
    obtain ⟨n, hn⟩ := wrapPhase_eq (lt_of_lt_of_le one_pos hone) phs
    have hcheck : checkPhase frames true phs = phs - ((frames * n : ℤ) : K) := by
      rw [Int.cast_mul, Int.cast_natCast]
      exact hn
    rw [hcheck, framePhase, if_pos rfl]
    refine ⟨Int.fract_sub_intCast _ _, fun k => ?_⟩
    rw [Int.floor_sub_intCast, sub_add_eq_add_sub]
    exact Int.sub_mul_emod_self_left _ _ _
  | false =>
    have hcheck : checkPhase frames false phs = framePhase frames false phs :=
      limitPhase_eq (sub_nonneg.mpr hone) phs
    exact ⟨by rw [hcheck], fun k => by rw [hcheck]⟩

/-- The samples at the frames around the phase, modulo the number of the frames if it wraps, are
interpolated by the fraction of the phase. -/
theorem bufferRead_eq (buffer : Buffer K) (hframes : 2 ≤ buffer.frames)
    (hc : currentChannel < buffer.channels)
    (hexact : points = .four → buffer.frames ≠ 2) (phs : K) :
    bufferRead points buffer wrapP phs currentChannel =
      interp (Int.fract (framePhase buffer.frames wrapP phs)) (points.offsets.map fun k =>
        buffer.data ((neighbour buffer.frames wrapP
          (⌊framePhase buffer.frames wrapP phs⌋ + k) * buffer.channels + currentChannel).toNat)) := by
  have hphs := @checkPhase_inRange K _ _ _ _ buffer.frames (by omega) wrapP phs
  have hindices := ((points.exact_iff wrapP hframes hphs hc).mpr fun h => hexact h.1 h.2.1).1
  obtain ⟨hfract, hfloor⟩ := @checkPhase_eq K _ _ _ buffer.frames _ (by omega) wrapP phs
  rw [← hfract]
  simp only [bufferRead, if_pos hc, hindices, List.map_map, ← hfloor]
  rfl

theorem bufferRead_eq_wrapped :
    bufferRead .four ⟨3, 1, fun i => if i = 2 then 16 else 0⟩ true (-1 / 2 : ℚ) 0 = 9 :=
  (bufferRead_eq _ (by decide) (by decide) (fun _ => by decide) _).trans (by decide +kernel)

theorem exact_iff_second : Points.four.Exact 2 1 true (1 : ℚ) 0 :=
  (Points.exact_iff .four true le_rfl ⟨by decide, by decide +kernel⟩ Nat.zero_lt_one).mpr
    fun h => absurd h.2.2 (lt_irrefl 1)

/-- Two frames, read in the first one: the last index is outside of the buffer. -/
theorem not_exact : ¬ Points.four.Exact 2 1 true (0 : ℚ) 0 := by
  rw [Points.exact_iff_frames (by decide) Nat.zero_lt_one, Int.floor_zero]
  decide

end Result

end Incudine.Buffers

import Incudine.EnvelopeLevels
import Mathlib.Algebra.BigOperators.Intervals
import Mathlib.Algebra.BigOperators.Ring.Finset
import Mathlib.Algebra.Order.BigOperators.Group.Finset
import Mathlib.Data.Int.ConditionallyCompleteOrder
import Mathlib.Data.Rat.Floor

/-!
# The table of an envelope

A table is filled with the segments of an envelope. The length of a segment is truncated, and it is
one sample at least. The last segment takes the rest of the table, if the segments before it leave
a rest.
-/

namespace Incudine

open Signals

structure SegmentFrame (K : Type) where
  level : K
  stop : K
  curve : K
  grow : K
  a2 : K
  b1 : K
  y1 : K
  y2 : K

/-- The functions of the curves: `%segment-init`, `segment-stack-reposition` and
`%segment-update-level`. They do not change the end of a segment. -/
structure SegmentFunctions (K : Type) where
  init : SegmentFrame K → ℕ → SegmentFrame K
  reposition : SegmentFrame K → ℕ → ℤ → SegmentFrame K
  update : SegmentFrame K → SegmentFrame K
  stop_init : ∀ f dur, (init f dur).stop = f.stop
  stop_update : ∀ f, (update f).stop = f.stop

namespace Envelope

variable {K : Type} [Field K] [LinearOrder K]

/-- The size of the data and the total duration. -/
structure WellFormed (env : Envelope K) : Prop where
  dataSize : env.dataSize = computeEnvelopeDataSize env.points
  duration : env.duration = ∑ k ∈ Finset.range (env.points - 1), env.data (k * 3 + 1)

theorem wellFormed_edit {log : K → K} {env env' : Envelope K} {levels times : List K}
    {curve : List (CurveSpec K)} {base : Option K} {loopNode releaseNode : Option ℤ}
    (hsize : env.dataSize = computeEnvelopeDataSize env.points)
    (h : edit log levels times curve base loopNode releaseNode env = .ok () env') :
    env'.WellFormed := by
  obtain ⟨-, hdata, hduration, -⟩ := edit_spec h
  exact ⟨hdata hsize, hduration⟩

/-- An operation writes levels and curves only, and inside the data. -/
structure Preserves (env env' : Envelope K) : Prop where
  points : env'.points = env.points
  dataSize : env'.dataSize = env.dataSize
  duration : env'.duration = env.duration
  times : ∀ k, env'.data (k * 3 + 1) = env.data (k * 3 + 1)
  outside : ∀ x, computeEnvelopeDataSize env.points ≤ x → env'.data x = env.data x

section Preserves

variable {env env' env'' : Envelope K} {log : K → K}

omit [Field K] [LinearOrder K] in
theorem Preserves.refl (env : Envelope K) : Preserves env env :=
  ⟨rfl, rfl, rfl, fun _ => rfl, fun _ _ => rfl⟩

omit [Field K] [LinearOrder K] in
theorem Preserves.trans (h : Preserves env env') (h' : Preserves env' env'') :
    Preserves env env'' :=
  ⟨h'.points.trans h.points, h'.dataSize.trans h.dataSize, h'.duration.trans h.duration,
    fun k => (h'.times k).trans (h.times k),
    fun x hx => (h'.outside x (h.points.symm ▸ hx)).trans (h.outside x hx)⟩

theorem preserves_setLevel (env : Envelope K) (node : ℕ) (x : K) :
    Preserves env (env.setLevel node x) := by
  by_cases hnode : node < env.points
  · have hdata := setLevel_data (x := x) hnode
    have hsame (y : ℕ) (hy : y ≠ levelIndex node) : (env.setLevel node x).data y = env.data y := by
      rw [hdata, Function.update_of_ne hy]
    refine ⟨points_setLevel, ?_, ?_, fun k => hsame _ ?_, fun y hy => hsame y ?_⟩
    · rw [setLevel, if_pos hnode]
    · rw [setLevel, if_pos hnode]
    · rw [levelIndex]
      split <;> omega
    · rw [computeEnvelopeDataSize] at hy
      rw [levelIndex]
      split <;> omega
  · rw [setLevel, if_neg hnode]
    exact .refl env

theorem preserves_setCurve (env : Envelope K) (node : ℕ) (c : CurveSpec K) :
    Preserves env (env.setCurve node c) := by
  by_cases hnode : 0 < node ∧ node < env.points
  · have hsame (y : ℕ) (hy : y ≠ node * 3)
        (hy' : ¬ (y = levelIndex (node - 1) ∨ y = levelIndex node)) :
        (env.setCurve node c).data y = env.data y := by
      rw [setCurve_data hnode, if_neg hy, if_neg hy']
    refine ⟨points_setCurve, ?_, ?_, fun k => hsame _ (by omega) ?_, fun y hy => hsame y ?_ ?_⟩
    · rw [setCurve, if_pos hnode]
    · rw [setCurve, if_pos hnode]
    · rw [levelIndex, levelIndex]
      split <;> split <;> omega
    · rw [computeEnvelopeDataSize] at hy
      omega
    · rw [computeEnvelopeDataSize] at hy
      rw [levelIndex, levelIndex]
      split <;> split <;> omega
  · rw [setCurve, if_neg hnode]
    exact .refl env

theorem preserves_setCurves (curves : List (CurveSpec K)) (env : Envelope K) (i : ℕ) :
    Preserves env (env.setCurves curves i) := by
  induction curves generalizing env i with
  | nil => exact .refl env
  | cons c curves ih => exact (preserves_setCurve env i c).trans (ih _ _)

theorem preserves_scaleLoop (mult : K) (n i : ℕ) (env : Envelope K) :
    Preserves env (scaleLoop mult n i env) := by
  induction n generalizing env i with
  | zero => exact .refl env
  | succ n ih => exact (preserves_setLevel env i _).trans (ih _ _)

theorem preserves_setLevels (lo newDelta oldDelta oldMin : K) (n index offset : ℕ)
    (env : Envelope K) : Preserves env (setLevels lo newDelta oldDelta oldMin n index offset env) := by
  induction n generalizing env index offset with
  | zero => exact .refl env
  | succ n ih => exact (preserves_setLevel env index _).trans (ih _ _ _)

theorem preserves_rescale {lo hi : K} (h : env.rescale lo hi = some env') :
    Preserves env env' := by
  rw [rescale] at h
  generalize rescLoop env 2 (env.level 0) (env.level 0) = r at h
  obtain ⟨oldMin, oldMax⟩ := r
  dsimp only at h
  split at h
  · cases h
  · obtain rfl := Option.some.inj h
    exact (preserves_setLevel env 0 _).trans (preserves_setLevels ..)

theorem preserves_setBase {base : K} (h : env.setBase log base = some env') :
    Preserves env env' := by
  rw [setBase, Option.map_eq_some_iff] at h
  obtain ⟨curves, -, rfl⟩ := h
  exact preserves_setCurves curves env 1

/-- The call of an edit returns. -/
def Operation.Returns (log : K → K) (env : Envelope K) : Operation K → Prop
  | .edit levels times curve base loopNode releaseNode =>
    ∃ env', editEnvelope log levels times curve base loopNode releaseNode env = .ok () env'
  | _ => True

theorem apply_cases (log : K → K) (env : Envelope K) (op : Operation K) :
    (∃ levels times curve base loopNode releaseNode, levels ≠ [] ∧
      op = .edit levels times curve base loopNode releaseNode) ∨
        Preserves env (op.apply log env) := by
  cases op with
  | edit levels times curve base loopNode releaseNode =>
    by_cases hlevels : levels = []
    · right
      rw [Operation.apply, editEnvelope, if_pos (List.isEmpty_iff.mpr hlevels)]
      exact .refl env
    · exact .inl ⟨_, _, _, _, _, _, hlevels, rfl⟩
  | setLevel node level => exact .inr (preserves_setLevel env node level)
  | setCurve node curve => exact .inr (preserves_setCurve env node curve)
  | setBase base =>
    right
    rw [Operation.apply]
    cases h : env.setBase log base with
    | none => exact .refl env
    | some env' => exact preserves_setBase h
  | scale mult => exact .inr ((preserves_setLevel env 0 _).trans (preserves_scaleLoop ..))
  | rescale lo hi =>
    right
    rw [Operation.apply]
    cases h : env.rescale lo hi with
    | none => exact .refl env
    | some env' => exact preserves_rescale h

theorem apply_edit {levels times : List K} {curve : List (CurveSpec K)} {base : Option K}
    {loopNode releaseNode : Option ℤ} (hlevels : levels ≠ [])
    (h : (Operation.edit levels times curve base loopNode releaseNode).Returns log env) :
    edit log levels times curve base loopNode releaseNode env =
      .ok () ((Operation.edit levels times curve base loopNode releaseNode).apply log env) := by
  obtain ⟨env', hedit⟩ := h
  rw [Operation.apply, after_ok hedit]
  rwa [editEnvelope, if_neg (mt List.isEmpty_iff.mp hlevels)] at hedit

theorem WellFormed.apply {op : Operation K} (hw : env.WellFormed) (h : op.Returns log env) :
    (op.apply log env).WellFormed := by
  obtain ⟨levels, times, curve, base, loopNode, releaseNode, hlevels, rfl⟩ | hpreserves :=
    apply_cases log env op
  · exact wellFormed_edit hw.dataSize (apply_edit hlevels h)
  · refine ⟨by rw [hpreserves.dataSize, hpreserves.points, hw.dataSize], ?_⟩
    rw [hpreserves.duration, hpreserves.points, hw.duration]
    exact Finset.sum_congr rfl fun k _ => (hpreserves.times k).symm

/-- In every run of calls that return, from a list of levels that is not empty, the size of the data
and the duration are those of the points and the times. The operations do not write outside the
data, and only an edit changes the times. -/
theorem wellFormed_of_run
    (h : Run log (fun levels _ _ _ => levels ≠ []) (fun env op => op.Returns log env) env) :
    env.WellFormed ∧ ∀ op : Operation K, op.Returns log env →
      (∀ x, (op.apply log env).dataSize ≤ x → (op.apply log env).data x = env.data x) ∧
        ((∃ levels times curve base loopNode releaseNode, levels ≠ [] ∧
          op = .edit levels times curve base loopNode releaseNode) ∨
            Preserves env (op.apply log env)) := by
  have hw : env.WellFormed := by
    induction h with
    | make hlevels hmake =>
      obtain ⟨env₀, hsize, hedit⟩ := make_eq_some hlevels hmake
      exact wellFormed_edit hsize hedit
    | step _ hreturns ih => exact ih.apply hreturns
  refine ⟨hw, fun op hreturns => ⟨fun x hx => ?_, apply_cases log env op⟩⟩
  rw [(hw.apply hreturns).dataSize] at hx
  obtain ⟨levels, times, curve, base, loopNode, releaseNode, hlevels, rfl⟩ | hpreserves :=
    apply_cases log env op
  · obtain ⟨-, -, -, houtside, -⟩ := edit_spec (apply_edit hlevels hreturns)
    exact houtside x hx
  · exact hpreserves.outside x (hpreserves.points ▸ hx)

def setTime (env : Envelope K) (node : ℕ) (time : K) : Envelope K :=
  if 0 < node ∧ node < env.points then
    { env with data := Function.update env.data (node * 3 - 2) time }
  else env

omit [LinearOrder K] in
/-- The setter of a time does not update the duration. -/
theorem wellFormed_setTime_iff (hw : env.WellFormed) {node : ℕ} (h : 0 < node ∧ node < env.points)
    (time : K) : (env.setTime node time).WellFormed ↔ time = env.data (node * 3 - 2) := by
  have hdata (k : ℕ) : Function.update env.data (node * 3 - 2) time (k * 3 + 1) =
      Function.update (fun k => env.data (k * 3 + 1)) (node - 1) time k := by
    rw [Function.update_apply, Function.update_apply]
    exact if_congr (by omega) rfl rfl
  have hmem : node - 1 ∈ Finset.range (env.points - 1) := Finset.mem_range.mpr (by omega)
  have hold := Finset.add_sum_erase _ (fun k => env.data (k * 3 + 1)) hmem
  have hsum := Finset.sum_update_of_mem hmem (fun k => env.data (k * 3 + 1)) time
  rw [← Finset.sum_congr rfl fun k _ => hdata k, Finset.sdiff_singleton_eq_erase] at hsum
  rw [show (node - 1) * 3 + 1 = node * 3 - 2 by omega, ← hw.duration] at hold
  rw [setTime, if_pos h]
  constructor
  · intro hw'
    exact (add_right_cancel (hold.trans (hw'.duration.trans hsum))).symm
  · rintro rfl
    exact ⟨hw.dataSize, hold.symm.trans hsum.symm⟩

theorem wellFormed_of_run_triangle : ∃ env : Envelope ℚ, env.points = 4 ∧ env.WellFormed := by
  have hmake : (make id (fun _ => 0) [0, 1, 0] [1, 1] [.linear] none (-1) (-1) :
      Option (Envelope ℚ)).isSome := rfl
  obtain ⟨env, henv⟩ := Option.isSome_iff_exists.mp hmake
  let Reached := Run id (fun levels _ _ _ => levels ≠ [])
    (fun (env : Envelope ℚ) op => op.Returns id env)
  have hscale : Reached (env.scale 5) :=
    @Run.step _ _ _ _ _ _ env (.scale 5) (Run.make (by simp) henv) trivial
  obtain ⟨-, env', hedit⟩ | ⟨hfails, -⟩ :=
    @edit_cases ℚ _ _ id [0, 1, 2, 0] [1, 3] [.linear] none none none (by simp) (env.scale 5)
  · have hreturns : Operation.Returns id (env.scale 5) (.edit [0, 1, 2, 0] [1, 3] [.linear] none none
      none) := ⟨env', hedit⟩
    have hreached := Run.step hscale hreturns
    have happly := apply_edit (by simp) hreturns
    exact ⟨_, (edit_spec happly).1, (wellFormed_of_run hreached).1⟩
  · exact absurd ⟨rfl, by simp⟩ hfails

end Preserves

end Envelope

namespace GenEnvelope

open Envelope

variable {K : Type} [Field K] [LinearOrder K] [FloorRing K]

/-- The variables of the loop of `gen:envelope`. -/
structure State (K : Type) where
  sizeRemained : ℤ
  index : ℕ
  dur : ℕ
  remain : ℕ
  frame : SegmentFrame K
  absLevel : K
  maxLevel : K
  /-- The message of a corrupted envelope. -/
  corrupted : Bool
  /-- The places and the lengths of the segments that are started. -/
  starts : List (ℕ × ℕ)

def initial (env : Envelope K) (size : ℕ) : State K where
  sizeRemained := size
  index := 0
  dur := 0
  remain := 0
  frame := ⟨env.data 0, env.data 0, segLinFunc, 0, 0, 0, 0, 0⟩
  absLevel := |env.data 0|
  maxLevel := |env.data 0|
  corrupted := false
  starts := []

/-- The loop at the place `i` of the table. -/
def step (env : Envelope K) (functions : SegmentFunctions K) (timeScale : K) (i : ℕ)
    (s : State K) : State K :=
  if s.remain = 0 then
    let index := s.index + 1
    if env.dataSize ≤ index then { s with index := index, corrupted := true }
    else
      let (dur, sizeRemained) :=
        if index = env.dataSize - 3 then ((max 1 s.sizeRemained).toNat, s.sizeRemained)
        else
          let dur := (max 1 ⌊env.data index * timeScale⌋).toNat
          (dur, s.sizeRemained - dur)
      let frame := { s.frame with
        level := s.frame.stop
        stop := env.data (index + 1)
        curve := env.data (index + 2) }
      { s with
        sizeRemained := sizeRemained
        index := index + 2
        dur := dur
        remain := dur - 1
        frame := functions.init frame dur
        absLevel := |s.frame.stop|
        maxLevel := max s.maxLevel |s.frame.stop|
        starts := s.starts ++ [(i, dur)] }
  else { s with remain := s.remain - 1, frame := functions.update s.frame }

/-- The loop before the place `i` of a table with `size` samples. -/
def fill (env : Envelope K) (functions : SegmentFunctions K) (size : ℕ) : ℕ → State K
  | 0 => initial env size
  | i + 1 => step env functions (size / env.duration) i (fill env functions size i)

def segmentsSize (periodicP : Bool) (size : ℕ) : ℕ := if periodicP then size else size - 1

/-- The function that `gen:envelope` returns: the table, the scale factor and `normalize-p`. -/
def genEnvelope (env : Envelope K) (functions : SegmentFunctions K) (periodicP normalizeP : Bool)
    (size : ℕ) : (ℕ → K) × K × Bool :=
  let n := segmentsSize periodicP size
  let s := fill env functions n n
  (fun i => if i < n then (fill env functions n (i + 1)).frame.level else s.frame.stop,
    if s.maxLevel = 0 then s.maxLevel else 1 / s.maxLevel, normalizeP)

/-- The segments are a partition of a table with `size` samples. -/
structure Partitions (env : Envelope K) (functions : SegmentFunctions K) (size : ℕ) : Prop where
  notCorrupted : (fill env functions size size).corrupted = false
  notNegative : ∀ i ≤ size, 0 ≤ (fill env functions size i).sizeRemained
  all : (fill env functions size size).starts.length = env.points - 1
  inside : ∀ start ∈ (fill env functions size size).starts, start.1 < size
  inOrder : ((fill env functions size size).starts.map Prod.fst).Pairwise (· < ·)
  sum : ((fill env functions size size).starts.map Prod.snd).sum = size

def segmentTime (env : Envelope K) (size k : ℕ) : K := env.data (k * 3 + 1) * (size / env.duration)

/-- The samples that the segments of less than one sample gain are fewer than the ones of the last
segment and of the fractions that the others lose. -/
def LeavesRest (env : Envelope K) (size : ℕ) : Prop :=
  ∑ k ∈ Finset.range (env.points - 2),
      (if segmentTime env size k < 1 then 1 - segmentTime env size k else 0) <
    segmentTime env size (env.points - 2) + ∑ k ∈ Finset.range (env.points - 2),
      if segmentTime env size k < 1 then 0 else Int.fract (segmentTime env size k)

instance (env : Envelope K) (size : ℕ) : Decidable (LeavesRest env size) :=
  inferInstanceAs (Decidable (_ < _))

def segmentLength (env : Envelope K) (size k : ℕ) : ℕ :=
  (max 1 ⌊segmentTime env size k⌋).toNat

def segmentStart (env : Envelope K) (size k : ℕ) : ℕ :=
  ∑ j ∈ Finset.range k, segmentLength env size j

section Places

variable {env : Envelope K} {functions : SegmentFunctions K} {size i : ℕ}

theorem segmentLength_pos (k : ℕ) : 0 < segmentLength env size k := by
  have hone : 1 ≤ max 1 ⌊segmentTime env size k⌋ := le_max_left _ _
  rw [segmentLength]
  omega

theorem segmentStart_succ (k : ℕ) :
    segmentStart env size (k + 1) = segmentStart env size k + segmentLength env size k :=
  Finset.sum_range_succ _ k

theorem segmentStart_strictMono : StrictMono (segmentStart env size) :=
  strictMono_nat_of_lt_succ fun k => by
    have hpos := @segmentLength_pos K _ _ _ env size k
    rw [segmentStart_succ]
    omega

theorem fill_inside {m : ℕ} (hm : m ≤ (fill env functions size i).remain) :
    (fill env functions size (i + m)).remain = (fill env functions size i).remain - m ∧
      (fill env functions size (i + m)).index = (fill env functions size i).index ∧
      (fill env functions size (i + m)).sizeRemained = (fill env functions size i).sizeRemained ∧
      (fill env functions size (i + m)).starts = (fill env functions size i).starts ∧
      (fill env functions size (i + m)).corrupted = (fill env functions size i).corrupted := by
  induction m with
  | zero => exact ⟨rfl, rfl, rfl, rfl, rfl⟩
  | succ m ih =>
    obtain ⟨hremain, hindex, hsize, hstarts, hcorrupted⟩ := ih (Nat.le_of_succ_le hm)
    have hne : (fill env functions size (i + m)).remain ≠ 0 := by omega
    rw [← Nat.add_assoc, fill, step, if_neg hne]
    exact ⟨by simp only [hremain]; omega, hindex, hsize, hstarts, hcorrupted⟩

/-- The loop before a segment. -/
structure Before (env : Envelope K) (size k : ℕ) (s : State K) : Prop where
  remain : s.remain = 0
  index : s.index = k * 3
  sizeRemained : s.sizeRemained = size - segmentStart env size k
  starts : s.starts =
    (List.range k).map fun j => (segmentStart env size j, segmentLength env size j)
  corrupted : s.corrupted = false

theorem step_segment (functions : SegmentFunctions K) (hw : env.WellFormed) {k : ℕ}
    {s : State K} (h : Before env size k s) (hk : k + 2 < env.points) (i : ℕ) :
    (step env functions (size / env.duration) i s).remain = segmentLength env size k - 1 ∧
      (step env functions (size / env.duration) i s).index = (k + 1) * 3 ∧
      (step env functions (size / env.duration) i s).sizeRemained =
        size - segmentStart env size (k + 1) ∧
      (step env functions (size / env.duration) i s).starts =
        s.starts ++ [(i, segmentLength env size k)] ∧
      (step env functions (size / env.duration) i s).corrupted = false := by
  have hsize : env.dataSize = env.points * 3 - 2 := hw.dataSize
  have hindex : ¬ env.dataSize ≤ k * 3 + 1 := by omega
  have hguard : k * 3 + 1 ≠ env.dataSize - 3 := by omega
  have hlength : (max 1 ⌊env.data (k * 3 + 1) * (size / env.duration)⌋).toNat =
    segmentLength env size k := rfl
  rw [step, if_pos h.remain, h.index, if_neg hindex, if_neg hguard, hlength, h.sizeRemained]
  refine ⟨rfl, ?_, ?_, rfl, h.corrupted⟩
  · rw [Nat.add_mul]
  · rw [segmentStart_succ]
    push_cast
    ring

theorem step_last (functions : SegmentFunctions K) (hw : env.WellFormed)
    (hpoints : 2 ≤ env.points) {s : State K} (h : Before env size (env.points - 2) s)
    (timeScale : K) (i : ℕ) :
    let dur := (max 1 ((size : ℤ) - segmentStart env size (env.points - 2))).toNat
    (step env functions timeScale i s).remain = dur - 1 ∧
      (step env functions timeScale i s).sizeRemained =
        size - segmentStart env size (env.points - 2) ∧
      (step env functions timeScale i s).starts = s.starts ++ [(i, dur)] ∧
      (step env functions timeScale i s).corrupted = false := by
  have hsize : env.dataSize = env.points * 3 - 2 := hw.dataSize
  have hindex : ¬ env.dataSize ≤ (env.points - 2) * 3 + 1 := by omega
  have hguard : (env.points - 2) * 3 + 1 = env.dataSize - 3 := by omega
  rw [step, if_pos h.remain, h.index, if_neg hindex, if_pos hguard, h.sizeRemained]
  exact ⟨rfl, rfl, rfl, h.corrupted⟩

theorem fill_before (functions : SegmentFunctions K) (size : ℕ) (hw : env.WellFormed) (k : ℕ)
    (hk : k ≤ env.points - 2) :
    Before env size k (fill env functions size (segmentStart env size k)) := by
  induction k with
  | zero => exact ⟨rfl, rfl, by simp [segmentStart, fill, initial], rfl, rfl⟩
  | succ k ih =>
    have hbefore := ih (Nat.le_of_succ_le hk)
    obtain ⟨hremain, hindex, hsize, hstarts, hcorrupted⟩ :=
      step_segment functions hw hbefore (by omega) (segmentStart env size k)
    have hpos := @segmentLength_pos K _ _ _ env size k
    have hstart : segmentStart env size (k + 1) =
        segmentStart env size k + 1 + (segmentLength env size k - 1) := by
      rw [segmentStart_succ]
      omega
    obtain ⟨hremain', hindex', hsize', hstarts', hcorrupted'⟩ :=
      @fill_inside K _ _ _ env functions size (segmentStart env size k + 1)
        (segmentLength env size k - 1) (by rw [fill, hremain])
    rw [← hstart] at hremain' hindex' hsize' hstarts' hcorrupted'
    rw [fill] at hremain' hindex' hsize' hstarts' hcorrupted'
    refine ⟨?_, hindex'.trans hindex, hsize'.trans hsize, ?_, hcorrupted'.trans hcorrupted⟩
    · rw [hremain', hremain, Nat.sub_self]
    · rw [hstarts', hstarts, hbefore.starts, List.range_succ, List.map_append, List.map_singleton]

theorem step_mono (timeScale : K) (s : State K) :
    (step env functions timeScale i s).sizeRemained ≤ s.sizeRemained ∧
      s.starts.length ≤ (step env functions timeScale i s).starts.length := by
  rw [step]
  split
  · dsimp only
    split
    · exact ⟨le_rfl, le_rfl⟩
    · refine ⟨?_, ?_⟩
      · split
        · exact le_rfl
        · dsimp only
          omega
      · rw [List.length_append]
        exact Nat.le_add_right _ _
  · exact ⟨le_rfl, le_rfl⟩

theorem sizeRemained_antitone (env : Envelope K) (functions : SegmentFunctions K) (size : ℕ) :
    Antitone fun i => (fill env functions size i).sizeRemained :=
  antitone_nat_of_succ_le fun _ => (step_mono (size / env.duration) _).1

theorem length_starts_mono (env : Envelope K) (functions : SegmentFunctions K) (size : ℕ) :
    Monotone fun i => (fill env functions size i).starts.length :=
  monotone_nat_of_le_succ fun _ => (step_mono (size / env.duration) _).2

theorem fst_starts (n : ℕ) : ((List.range n).map fun j =>
    (segmentStart env size j, segmentLength env size j)).map Prod.fst =
      (List.range n).map (segmentStart env size) := by
  rw [List.map_map]
  rfl

theorem snd_starts (n : ℕ) : (((List.range n).map fun j =>
    (segmentStart env size j, segmentLength env size j)).map Prod.snd).sum =
      segmentStart env size n := by
  rw [List.map_map]
  rfl

theorem partitions_iff_start (hw : env.WellFormed) (hpoints : 2 ≤ env.points) :
    Partitions env functions size ↔ segmentStart env size (env.points - 2) < size := by
  have hbefore := fill_before functions size hw (env.points - 2) le_rfl
  have hstarts : (fill env functions size
      (segmentStart env size (env.points - 2))).starts.length = env.points - 2 := by
    rw [hbefore.starts, List.length_map, List.length_range]
  constructor
  · intro h
    by_contra hle
    have hlength := length_starts_mono env functions size (not_lt.mp hle)
    simp only [hstarts, h.all] at hlength
    omega
  · intro hlt
    set start := segmentStart env size (env.points - 2) with hstart
    obtain ⟨hremain, hsize, hlist, hcorrupted⟩ :=
      step_last functions hw hpoints hbefore (size / env.duration) start
    have hdur : (max 1 ((size : ℤ) - start)).toNat = size - start := by omega
    rw [← hstart, hdur] at hremain hlist
    obtain ⟨-, -, hsize', hlist', hcorrupted'⟩ :=
      @fill_inside K _ _ _ env functions size (start + 1) (size - start - 1) (by rw [fill, hremain])
    have hend : start + 1 + (size - start - 1) = size := by omega
    rw [hend, fill] at hsize' hlist' hcorrupted'
    rw [hsize] at hsize'
    rw [hlist, hbefore.starts] at hlist'
    refine ⟨hcorrupted'.trans hcorrupted, fun i hi => ?_, ?_, ?_, ?_, ?_⟩
    · have hanti := sizeRemained_antitone env functions size hi
      simp only [hsize'] at hanti
      omega
    · rw [hlist', List.length_append, List.length_map, List.length_range, List.length_singleton]
      omega
    · intro x hx
      rw [hlist', List.mem_append, List.mem_map, List.mem_singleton] at hx
      rcases hx with ⟨j, hj, rfl⟩ | rfl
      · exact (segmentStart_strictMono (List.mem_range.mp hj)).trans hlt
      · exact hlt
    · have hfst : [(start, size - start)].map Prod.fst =
        [env.points - 2].map (segmentStart env size) := rfl
      rw [hlist', List.map_append, fst_starts, hfst, ← List.map_append, ← List.range_succ,
        List.pairwise_map]
      exact List.pairwise_lt_range.imp fun hij => segmentStart_strictMono hij
    · rw [hlist', List.map_append, List.sum_append, snd_starts, ← hstart, List.map_singleton,
        List.sum_singleton]
      omega

theorem cast_segmentLength [IsStrictOrderedRing K] (k : ℕ) : (segmentLength env size k : K) =
    segmentTime env size k +
      (if segmentTime env size k < 1 then 1 - segmentTime env size k else 0) -
      if segmentTime env size k < 1 then 0 else Int.fract (segmentTime env size k) := by
  rw [segmentLength]
  generalize segmentTime env size k = x
  by_cases hx : x < 1
  · have hfloor : ⌊x⌋ < 1 := Int.floor_lt.mpr (by exact_mod_cast hx)
    rw [if_pos hx, if_pos hx, max_eq_left hfloor.le, Int.toNat_one]
    push_cast
    ring
  · have hfloor : 1 ≤ ⌊x⌋ := Int.le_floor.mpr (by exact_mod_cast not_lt.mp hx)
    have hcast : ((⌊x⌋.toNat : ℕ) : K) = ⌊x⌋ := by
      rw [← Int.cast_natCast, Int.toNat_of_nonneg (by omega)]
    rw [if_neg hx, if_neg hx, max_eq_right hfloor, hcast, Int.fract]
    ring

/-- `gen:envelope` makes a partition of the table iff the segments before the last one leave
a rest. -/
theorem partitions_iff [IsStrictOrderedRing K] (hw : env.WellFormed) (hduration : 0 < env.duration)
    (functions : SegmentFunctions K) (periodicP : Bool) (size : ℕ) :
    Partitions env functions (segmentsSize periodicP size) ↔
      LeavesRest env (segmentsSize periodicP size) := by
  generalize segmentsSize periodicP size = n
  have hpoints : 2 ≤ env.points := by
    by_contra hlt
    have hzero : env.points - 1 = 0 := by omega
    rw [hw.duration, hzero, Finset.range_zero, Finset.sum_empty] at hduration
    exact lt_irrefl 0 hduration
  have htotal : ∑ k ∈ Finset.range (env.points - 2), segmentTime env n k +
      segmentTime env n (env.points - 2) = n := by
    have hsucc : env.points - 1 = env.points - 2 + 1 := by omega
    have hsum := hw.duration
    rw [hsucc] at hsum
    rw [← Finset.sum_range_succ]
    simp only [segmentTime]
    rw [← Finset.sum_mul, ← hsum, mul_div_cancel₀ _ hduration.ne']
  have hcast : (segmentStart env n (env.points - 2) : K) < n ↔
      segmentStart env n (env.points - 2) < n := Nat.cast_lt
  rw [partitions_iff_start hw hpoints, ← hcast, segmentStart, Nat.cast_sum,
    Finset.sum_congr rfl fun k _ => cast_segmentLength k, Finset.sum_sub_distrib,
    Finset.sum_add_distrib, LeavesRest]
  constructor <;> intro h <;> linarith

end Places

def stepFunctions : SegmentFunctions ℚ := ⟨fun f _ => f, fun f _ _ => f, fun f => f, fun _ _ => rfl,
  fun _ => rfl⟩

def noRestEnvelope : Envelope ℚ where
  data := fun i =>
    [0, 0, 1, segStepFunc, 1, 0, segStepFunc, 0, 1, segStepFunc].getD i 0
  duration := 1
  points := 4
  dataSize := 10
  loopNode := -1
  releaseNode := -1

def twoStepsEnvelope : Envelope ℚ where
  data := fun i => [0, 1, 1, segStepFunc, 2, 0, segStepFunc].getD i 0
  duration := 3
  points := 3
  dataSize := 7
  loopNode := -1
  releaseNode := -1

theorem wellFormed_twoStepsEnvelope : twoStepsEnvelope.WellFormed :=
  ⟨rfl, by simp [twoStepsEnvelope, Finset.sum_range_succ]; norm_num⟩

/-- The segments are longer than a table of three samples, and the remaining size is negative. -/
theorem not_partitions : ¬ ∀ (env : Envelope ℚ) (functions : SegmentFunctions ℚ)
    (periodicP : Bool) (size : ℕ), env.WellFormed → 0 < env.duration →
    (∀ k, 0 ≤ env.data (k * 3 + 1)) → env.points - 1 ≤ size →
    Partitions env functions (segmentsSize periodicP size) := by
  intro h
  have hw : noRestEnvelope.WellFormed := ⟨rfl, by
    simp [noRestEnvelope, Finset.sum_range_succ]⟩
  have htimes (k : ℕ) : 0 ≤ noRestEnvelope.data (k * 3 + 1) := by
    match k with
    | 0 | 1 | 2 => decide
    | k + 3 =>
      have hindex : (k + 3) * 3 + 1 = k * 3 + 10 := by ring
      rw [hindex]
      exact le_rfl
  have hnegative := (h noRestEnvelope stepFunctions true 3 hw (by decide) htimes
    (by decide)).notNegative 2 (by decide)
  revert hnegative
  decide +kernel

theorem partitions_twoSteps : Partitions twoStepsEnvelope stepFunctions (segmentsSize true 6) :=
  (partitions_iff wellFormed_twoStepsEnvelope (by decide) stepFunctions true 6).mpr
    (by decide +kernel)

end GenEnvelope

end Incudine

import Incudine.Envelope
import Mathlib.Algebra.BigOperators.Intervals

/-!
# The levels of the exponential curves

An exponential segment does not start or end at zero. A new level is fixed for the curves of both
its segments, a new list of levels only for the curve before a level, a new curve without the curves
of the adjacent segments.
-/

namespace Incudine

open Signals

section Curves

theorem levelIndex_injective : Function.Injective levelIndex := by
  intro i j h
  rw [levelIndex, levelIndex] at h
  split at h <;> split at h <;> omega

theorem levelIndex_ne {i k : ℕ} (hk : 0 < k) : levelIndex i ≠ k * 3 := by
  rw [levelIndex]
  split <;> omega

theorem levelIndex_add_one (i : ℕ) : levelIndex (i + 1) = i * 3 + 2 := by
  rw [levelIndex, if_pos (Nat.succ_pos i)]
  omega

variable {K : Type} [Field K]

variable [LinearOrder K] [IsStrictOrderedRing K]

theorem expSampleZero_ne_zero : (expSampleZero : K) ≠ 0 := by
  rw [expSampleZero]
  positivity

theorem segLinFunc_ne : (segLinFunc : K) ≠ segExpFunc := by
  rw [segLinFunc, segExpFunc]
  norm_num

theorem fixZero_ne_zero {level : K} {c : CurveSpec K} (h : level = 0 → exponentialCurveP c) :
    envelopeFixZero level c ≠ 0 := by
  rw [envelopeFixZero]
  split
  · exact expSampleZero_ne_zero
  · rename_i hnot
    intro hzero
    exact hnot ⟨h hzero, hzero⟩

end Curves

namespace Envelope

variable {K : Type} [Field K] [LinearOrder K]

def levelAt (env : Envelope K) (node : ℕ) : K := env.data (levelIndex node)

def curveAt (env : Envelope K) (node : ℕ) : K := env.data (node * 3)

/-- Both end levels of the exponential segments are not zero. -/
def NoZero (env : Envelope K) : Prop :=
  ∀ k, 0 < k → k < env.points → env.curveAt k = segExpFunc →
    env.levelAt (k - 1) ≠ 0 ∧ env.levelAt k ≠ 0

section SetLevel

variable {env : Envelope K} {node : ℕ} {x : K}

@[simp] theorem points_setLevel : (env.setLevel node x).points = env.points := by
  rw [setLevel]
  split <;> rfl

def fixedLevel (env : Envelope K) (node : ℕ) (x : K) : K :=
  if x = 0 ∧ env.fixZeroP node (node * 3) then expSampleZero else x

theorem setLevel_data (h : node < env.points) : (env.setLevel node x).data =
    Function.update env.data (levelIndex node) (env.fixedLevel node x) := by
  rw [setLevel, if_pos h]
  rfl

theorem levelAt_setLevel (h : node < env.points) (k : ℕ) : (env.setLevel node x).levelAt k =
    if k = node then env.fixedLevel node x else env.levelAt k := by
  rw [levelAt, setLevel_data h]
  by_cases hk : k = node
  · rw [hk, if_pos rfl, Function.update_self]
  · rw [if_neg hk, Function.update_of_ne (fun heq => hk (levelIndex_injective heq))]
    rfl

theorem curveAt_setLevel {k : ℕ} (hk : 0 < k) :
    (env.setLevel node x).curveAt k = env.curveAt k := by
  by_cases h : node < env.points
  · rw [curveAt, setLevel_data h, Function.update_of_ne (levelIndex_ne hk).symm]
    rfl
  · rw [setLevel, if_neg h]

variable [IsStrictOrderedRing K]

theorem NoZero.setLevel (h : env.NoZero) (node : ℕ) (x : K) : (env.setLevel node x).NoZero := by
  by_cases hnode : node < env.points
  · intro k hk hkp hcurve
    rw [points_setLevel] at hkp
    rw [curveAt_setLevel hk] at hcurve
    have hold := h k hk hkp hcurve
    have hfixed (hadjacent : env.fixZeroP node (node * 3)) : env.fixedLevel node x ≠ 0 := by
      rw [fixedLevel]
      split
      · exact expSampleZero_ne_zero
      · rename_i hnot
        exact fun hzero => hnot ⟨hzero, hadjacent⟩
    rw [levelAt_setLevel hnode, levelAt_setLevel hnode]
    constructor
    · split
      · rename_i heq
        apply hfixed
        have hindex : node * 3 + 3 = k * 3 := by omega
        exact Or.inr ⟨by omega, hindex ▸ hcurve⟩
      · exact hold.1
    · split
      · rename_i heq
        subst heq
        exact hfixed (Or.inl ⟨hk, hcurve⟩)
      · exact hold.2
  · rw [Envelope.setLevel, if_neg hnode]
    exact h

theorem NoZero.scaleLoop {mult : K} (h : env.NoZero) (n i : ℕ) :
    (env.scaleLoop mult n i).NoZero := by
  induction n generalizing env i with
  | zero => exact h
  | succ n ih => exact ih (h.setLevel i _) (i + 1)

theorem NoZero.scale (h : env.NoZero) (mult : K) : (env.scale mult).NoZero :=
  (h.setLevel 0 _).scaleLoop _ 1

theorem NoZero.setLevels {lo newDelta oldDelta oldMin : K} (h : env.NoZero) (n index offset : ℕ) :
    (Envelope.setLevels lo newDelta oldDelta oldMin n index offset env).NoZero := by
  induction n generalizing env index offset with
  | zero => exact h
  | succ n ih => exact ih (h.setLevel index _) (index + 1) (offset + 3)

theorem NoZero.rescale {env' : Envelope K} (h : env.NoZero) {lo hi : K}
    (hrescale : env.rescale lo hi = some env') : env'.NoZero := by
  rw [Envelope.rescale] at hrescale
  simp only at hrescale
  split at hrescale
  · exact nomatch hrescale
  · injection hrescale with hrescale
    rw [← hrescale]
    exact (h.setLevel 0 _).setLevels _ 1 2

end SetLevel

/-- A curve that is not exponential does not change a level of an adjacent exponential segment. -/
def SetCurveMeets (env : Envelope K) (node : ℕ) (c : CurveSpec K) : Prop :=
  0 < node → node < env.points → exponentialCurveP c = false →
    (segFunctionSpecToSample c = segExpFunc → ∀ k, k = node - 1 ∨ k = node →
      env.levelAt k ≠ 0 ∧ env.levelAt k ≠ expSampleZero) ∧
    (env.levelAt (node - 1) = expSampleZero → 1 < node → env.curveAt (node - 1) ≠ segExpFunc) ∧
    (env.levelAt node = expSampleZero → node + 1 < env.points →
      env.curveAt (node + 1) ≠ segExpFunc)

section SetCurve

variable {env : Envelope K} {node : ℕ} {c : CurveSpec K}

@[simp] theorem points_setCurve : (env.setCurve node c).points = env.points := by
  rw [setCurve]
  split <;> rfl

def swapZero (c : CurveSpec K) (x : K) : K :=
  if exponentialCurveP c then (if x = 0 then expSampleZero else x)
  else (if x = expSampleZero then 0 else x)

omit [Field K] in
theorem segmentFixZeros_apply {data : ℕ → K} {i j : ℕ} (hij : i ≠ j) (newZero oldZero : K)
    (x : ℕ) : segmentFixZeros data i j newZero oldZero x =
      if x = i ∨ x = j then (if data x = oldZero then newZero else data x) else data x := by
  have hone (data : ℕ → K) (i x : ℕ) : segmentFixZero data i newZero oldZero x =
      if x = i then (if data x = oldZero then newZero else data x) else data x := by
    rw [segmentFixZero]
    by_cases hx : x = i
    · subst hx
      rw [if_pos rfl]
      split
      · rw [Function.update_self]
      · rfl
    · rw [if_neg hx]
      split
      · rw [Function.update_of_ne hx]
      · rfl
  rw [segmentFixZeros, hone, hone]
  by_cases hj : x = j
  · have hi : ¬ x = i := fun heq => hij (heq.symm.trans hj)
    rw [if_pos hj, if_neg hi, if_pos (Or.inr hj)]
  · rw [if_neg hj]
    by_cases hi : x = i
    · rw [if_pos hi, if_pos (Or.inl hi)]
    · rw [if_neg hi, if_neg (fun h => h.elim hi hj)]

theorem setCurve_data (h : 0 < node ∧ node < env.points) (x : ℕ) :
    (env.setCurve node c).data x =
      if x = node * 3 then segFunctionSpecToSample c
      else if x = levelIndex (node - 1) ∨ x = levelIndex node then swapZero c (env.data x)
      else env.data x := by
  have hend : node * 3 - 1 = levelIndex node := by rw [levelIndex, if_pos h.1]
  have hbeg : (if node = 1 then 0 else node * 3 - 1 - 3) = levelIndex (node - 1) := by
    rw [levelIndex]
    split <;> split <;> omega
  have hne : levelIndex (node - 1) ≠ levelIndex node := fun heq => by
    have hsame := levelIndex_injective heq
    omega
  rw [setCurve, if_pos h]
  simp only [hend]
  have hbeg' : (if node = 1 then 0 else levelIndex node - 3) = levelIndex (node - 1) := by
    rw [← hend]
    exact hbeg
  rw [hbeg']
  by_cases hx : x = node * 3
  · rw [if_pos hx, hx, Function.update_self]
  · rw [if_neg hx, Function.update_of_ne hx]
    by_cases hc : exponentialCurveP c
    · rw [if_pos hc, segmentFixZeros_apply hne, swapZero, if_pos hc]
    · rw [if_neg hc, segmentFixZeros_apply hne, swapZero, if_neg hc]

theorem levelAt_setCurve (h : 0 < node ∧ node < env.points) (k : ℕ) :
    (env.setCurve node c).levelAt k =
      if k = node - 1 ∨ k = node then swapZero c (env.levelAt k) else env.levelAt k := by
  have hiff (i : ℕ) : levelIndex k = levelIndex i ↔ k = i := levelIndex_injective.eq_iff
  rw [levelAt, setCurve_data h, if_neg (levelIndex_ne h.1)]
  simp only [hiff]
  rfl

theorem curveAt_setCurve (h : 0 < node ∧ node < env.points) {k : ℕ} (hk : 0 < k) :
    (env.setCurve node c).curveAt k =
      if k = node then segFunctionSpecToSample c else env.curveAt k := by
  have hlevel (i : ℕ) : k * 3 ≠ levelIndex i := (levelIndex_ne hk).symm
  rw [curveAt, setCurve_data h]
  by_cases hkn : k = node
  · rw [if_pos hkn, if_pos (congrArg (· * 3) hkn)]
  · have hne : ¬ k * 3 = node * 3 := by omega
    rw [if_neg hkn, if_neg hne, if_neg (fun hor => hor.elim (hlevel _) (hlevel _))]
    rfl

variable [IsStrictOrderedRing K]

theorem swapZero_ne_zero {x : K} (hc : exponentialCurveP c) : swapZero c x ≠ 0 := by
  rw [swapZero, if_pos hc]
  split
  · exact expSampleZero_ne_zero
  · assumption

theorem NoZero.setCurve (h : env.NoZero) (hmeets : env.SetCurveMeets node c) :
    (env.setCurve node c).NoZero := by
  by_cases hnode : 0 < node ∧ node < env.points
  swap
  · rw [Envelope.setCurve, if_neg hnode]
    exact h
  intro k hk hkp hcurve
  rw [points_setCurve] at hkp
  rw [curveAt_setCurve hnode hk] at hcurve
  rw [levelAt_setCurve hnode, levelAt_setCurve hnode]
  by_cases hc : exponentialCurveP c
  · by_cases hkn : k = node
    · rw [if_pos (Or.inl (by omega)), if_pos (Or.inr hkn)]
      exact ⟨swapZero_ne_zero hc, swapZero_ne_zero hc⟩
    · rw [if_neg hkn] at hcurve
      have hold := h k hk hkp hcurve
      constructor
      · split
        · exact swapZero_ne_zero hc
        · exact hold.1
      · split
        · exact swapZero_ne_zero hc
        · exact hold.2
  · have hfalse : exponentialCurveP c = false := Bool.eq_false_of_not_eq_true hc
    obtain ⟨hnumber, hprevious, hnext⟩ := hmeets hnode.1 hnode.2 hfalse
    have hswap {x : K} (hx : x ≠ 0) (hx' : x ≠ expSampleZero) : swapZero c x ≠ 0 := by
      rw [swapZero, if_neg hc, if_neg hx']
      exact hx
    by_cases hkn : k = node
    · rw [if_pos hkn] at hcurve
      rw [if_pos (Or.inl (by omega)), if_pos (Or.inr hkn)]
      obtain ⟨hbeg, hbeg'⟩ := hnumber hcurve (k - 1) (Or.inl (by omega))
      obtain ⟨hend, hend'⟩ := hnumber hcurve k (Or.inr hkn)
      exact ⟨hswap hbeg hbeg', hswap hend hend'⟩
    · rw [if_neg hkn] at hcurve
      have hold := h k hk hkp hcurve
      constructor
      · split
        · rename_i hor
          have hkeq : k = node + 1 := by omega
          subst hkeq
          exact hswap hold.1 fun heq => hnext heq hkp hcurve
        · exact hold.1
      · split
        · rename_i hor
          have hkeq : k = node - 1 := by omega
          subst hkeq
          exact hswap hold.2 fun heq => hprevious heq (by omega) hcurve
        · exact hold.2

end SetCurve

def SetBaseMeets (log : K → K) (env : Envelope K) (base : K) : Prop :=
  (base = 0 → env.SetCurveMeets 1 .step) ∧ (base = 1 → env.SetCurveMeets 1 .linear) ∧
    ∀ curves, baseToCurves log base env.levels = some curves → .number segExpFunc ∉ curves

section SetBase

variable {log : K → K} {env : Envelope K} {base : K}

@[simp] theorem points_setCurves (curves : List (CurveSpec K)) (i : ℕ) :
    (env.setCurves curves i).points = env.points := by
  induction curves generalizing env i with
  | nil => rfl
  | cons c curves ih => rw [setCurves, ih, points_setCurve]

theorem curveAt_setCurves (curves : List (CurveSpec K)) {i : ℕ} (hi : 0 < i) {k : ℕ} (hk : 0 < k)
    (hkp : k < env.points) : (env.setCurves curves i).curveAt k =
      if i ≤ k then ((curves[k - i]?).map segFunctionSpecToSample).getD (env.curveAt k)
      else env.curveAt k := by
  induction curves generalizing env i with
  | nil =>
    rw [setCurves]
    split <;> rfl
  | cons c curves ih =>
    have hkp' : k < (env.setCurve i c).points := by
      rw [points_setCurve]
      exact hkp
    rw [setCurves, @ih (env.setCurve i c) (i + 1) (Nat.succ_pos i) hkp']
    have hcurve : (env.setCurve i c).curveAt k =
        if k = i then segFunctionSpecToSample c else env.curveAt k := by
      by_cases hip : 0 < i ∧ i < env.points
      · exact curveAt_setCurve hip hk
      · rw [setCurve, if_neg hip, if_neg (by omega)]
    rw [hcurve]
    by_cases hlt : i + 1 ≤ k
    · have hsub : k - i = (k - (i + 1)) + 1 := by omega
      have hne : ¬ k = i := by omega
      have hle : i ≤ k := by omega
      rw [if_pos hlt, if_neg hne, if_pos hle, hsub, List.getElem?_cons_succ]
    · rw [if_neg hlt]
      by_cases hik : k = i
      · rw [if_pos hik, if_pos hik.ge, hik, Nat.sub_self]
        rfl
      · rw [if_neg hik, if_neg (by omega)]

theorem length_baseCurvesLoop {min max : K} {levels : List K} {curves : List (CurveSpec K)}
    (h : baseCurvesLoop log base min max levels = some curves) :
    curves.length = levels.length - 1 ∧ ∀ c ∈ curves, ∃ x, c = .number x := by
  induction levels generalizing curves with
  | nil =>
    injection h with h
    rw [← h]
    exact ⟨rfl, fun c hc => nomatch hc⟩
  | cons y0 levels ih =>
    cases levels with
    | nil =>
      injection h with h
      rw [← h]
      exact ⟨rfl, fun c hc => nomatch hc⟩
    | cons y1 levels =>
      rw [baseCurvesLoop, Option.bind_eq_some_iff] at h
      obtain ⟨x, -, hx⟩ := h
      rw [Option.map_eq_some_iff] at hx
      obtain ⟨rest, hrest, rfl⟩ := hx
      obtain ⟨hlength, hnumbers⟩ := ih hrest
      refine ⟨?_, fun c hc => ?_⟩
      · rw [List.length_cons, hlength, List.length_cons, List.length_cons, List.length_cons]
        omega
      · rcases List.mem_cons.mp hc with rfl | hc
        · exact ⟨_, rfl⟩
        · exact hnumbers c hc

variable [IsStrictOrderedRing K]

theorem NoZero.setBase {env' : Envelope K} (h : env.NoZero)
    (hmeets : SetBaseMeets log env base) (hset : env.setBase log base = some env') :
    env'.NoZero := by
  obtain ⟨hzero, hone, hnumber⟩ := hmeets
  rw [Envelope.setBase, Option.map_eq_some_iff] at hset
  obtain ⟨curves, hcurves, rfl⟩ := hset
  have hlevels : env.levels.length = env.points := by
    rw [levels, List.length_map, List.length_range]
  cases hlist : env.levels with
  | nil =>
    rw [hlist] at hcurves
    exact nomatch hcurves
  | cons y ys =>
    have hnumber' := hnumber curves hcurves
    rw [hlist, baseToCurves] at hcurves
    by_cases hneg : base < 0
    · rw [if_pos hneg] at hcurves
      exact nomatch hcurves
    rw [if_neg hneg] at hcurves
    by_cases hb0 : base = 0
    · rw [if_pos hb0] at hcurves
      injection hcurves with hcurves
      rw [← hcurves]
      exact h.setCurve (hzero hb0)
    rw [if_neg hb0] at hcurves
    by_cases hb1 : base = 1
    · rw [if_pos hb1] at hcurves
      injection hcurves with hcurves
      rw [← hcurves]
      exact h.setCurve (hone hb1)
    rw [if_neg hb1] at hcurves
    obtain ⟨hlength, hnumbers⟩ := length_baseCurvesLoop hcurves
    intro k hk hkp hcurve
    rw [points_setCurves] at hkp
    rw [curveAt_setCurves curves Nat.one_pos hk hkp, if_pos (by omega)] at hcurve
    rw [← hlist, hlevels] at hlength
    have hindex : k - 1 < curves.length := by omega
    rw [List.getElem?_eq_getElem hindex] at hcurve
    obtain ⟨x, hx⟩ := hnumbers _ (List.getElem_mem hindex)
    have hmem := List.getElem_mem hindex
    rw [hx] at hcurve hmem
    have hxexp : x = segExpFunc := hcurve
    rw [hxexp] at hmem
    exact absurd hmem hnumber'

end SetBase

def nodeLevel (levels : List K) (node : ℕ) : Option K :=
  if node = 0 then levels.head? else levels.tail[(node - 1) % levels.tail.length]?

def nodeCurve (curves : List (CurveSpec K)) (node : ℕ) : CurveSpec K :=
  (curves[(node - 1) % curves.length]?).getD .other

/-- A level zero at an end of an exponential segment has an exponential curve before it, or it is
the first one and the keyword is the one of its segment. -/
def EditMeets (log : K → K) (levels times : List K) (curve : List (CurveSpec K))
    (base : Option K) : Prop :=
  ∀ curves, editCurves log levels curve base = some curves →
    ∀ k, 0 < k → k < computePoints levels times →
      segFunctionSpecToSample (nodeCurve curves k) = segExpFunc →
      (nodeLevel levels (k - 1) = some 0 → exponentialCurveP (nodeCurve curves (max (k - 1) 1))) ∧
      (nodeLevel levels k = some 0 → exponentialCurveP (nodeCurve curves k))

/-- `make-envelope` writes the data if there are levels. -/
def MakeMeets (log : K → K) (levels times : List K) (curve : List (CurveSpec K))
    (base : Option K) : Prop :=
  levels ≠ [] ∧ EditMeets log levels times curve base

/-- There are curves, and the levels and the times of the nodes after the first one. -/
def EditReturns (log : K → K) (levels times : List K) (curve : List (CurveSpec K))
    (base : Option K) : Prop :=
  (editCurves log levels curve base).isSome ∧ (levels.tail = [] ↔ times = [])

/-- The points do not increase, and the first level is not a zero before an exponential segment. -/
def FailedEditMeets (log : K → K) (env : Envelope K) (levels times : List K)
    (curve : List (CurveSpec K)) (base : Option K) : Prop :=
  computePoints levels times ≤ env.points ∧ ∀ curves,
    editCurves log levels curve base = some curves → env.curveAt 1 = segExpFunc →
      levels.headD 0 = 0 → exponentialCurveP (curves.head?.getD .other)

def EditEnvelopeMeets (log : K → K) (env : Envelope K) (levels times : List K)
    (curve : List (CurveSpec K)) (base : Option K) : Prop :=
  levels ≠ [] →
    (EditReturns log levels times curve base → EditMeets log levels times curve base) ∧
    (¬ EditReturns log levels times curve base → FailedEditMeets log env levels times curve base)

section Edit

variable {log : K → K} {levels times : List K} {curve : List (CurveSpec K)}

omit [Field K] [LinearOrder K] in
theorem cycle_iterate {α : Type} (start : List α) (j : ℕ) :
    (cycle start)^[j] start = start.drop (j % start.length) := by
  induction j with
  | zero => rw [Function.iterate_zero_apply, Nat.zero_mod, List.drop_zero]
  | succ j ih =>
    rw [Function.iterate_succ_apply', ih, cycle, List.tail_drop]
    by_cases hstart : start = []
    · rw [hstart]
      simp
    have hpos := List.length_pos_iff.mpr hstart
    have hlt := Nat.mod_lt j hpos
    by_cases hlast : j % start.length + 1 = start.length
    · have hnext : (j + 1) % start.length = 0 := by
        rw [← Nat.mod_add_mod, hlast, Nat.mod_self]
      rw [hlast, hnext, List.drop_length, List.drop_zero]
      rfl
    · have hnext : (j + 1) % start.length = j % start.length + 1 := by
        rw [← Nat.mod_add_mod, Nat.mod_eq_of_lt (by omega)]
      rw [hnext, if_neg]
      rw [List.isEmpty_iff, List.drop_eq_nil_iff]
      omega

omit [LinearOrder K] in
theorem head_cycle {α : Type} (start : List α) (j : ℕ) :
    ((cycle start)^[j] start).head? = start[j % start.length]? := by
  rw [cycle_iterate, List.head?_drop]

omit [LinearOrder K] in
@[simp] theorem addTime_data (i : ℕ) (time : K) (env : Envelope K) :
    (addTime i time env).data = Function.update env.data i time := rfl

@[simp] theorem addNode_data (i : ℕ) (level : K) (c : CurveSpec K) (env : Envelope K) :
    (addNode i level c env).data =
      Function.update (Function.update env.data i (envelopeFixZero level c)) (i + 1)
        (segFunctionSpecToSample c) := rfl

@[simp] theorem editStart_data (first : K) (curves : List (CurveSpec K))
    (loopNode releaseNode : Option ℤ) (env : Envelope K) :
    (editStart first curves loopNode releaseNode env).data =
      Function.update env.data 0 (envelopeFixZero first (curves.head?.getD .other)) := rfl

theorem editLoop_ok {lev tim : List K} {cur : List (CurveSpec K)} {env env' : Envelope K} (n i : ℕ)
    (h : editLoop levels times curve n i lev tim cur env = .ok () env') :
    env'.points = env.points ∧ env'.dataSize = env.dataSize ∧
      env'.duration = env.duration + ∑ k ∈ Finset.range n, env'.data (i + k * 3) ∧
      (∀ x, x < i ∨ i + n * 3 ≤ x → env'.data x = env.data x) ∧ ∀ j < n, ∃ l,
        ((cycle levels.tail)^[j] lev).head? = some l ∧
        env'.data (i + j * 3 + 1) =
          envelopeFixZero l ((((cycle curve)^[j] cur).head?).getD .other) ∧
        env'.data (i + j * 3 + 2) =
          segFunctionSpecToSample ((((cycle curve)^[j] cur).head?).getD .other) := by
  induction n generalizing i lev tim cur env with
  | zero =>
    obtain ⟨-, rfl⟩ := EStateM.Result.ok.inj h
    exact ⟨rfl, rfl, by rw [Finset.sum_range_zero, add_zero], fun _ _ => rfl,
      fun j hj => absurd hj (Nat.not_lt_zero j)⟩
  | succ n ih =>
    match tim, lev with
    | [], _ => cases h
    | _ :: _, [] => cases h
    | time :: tim, level :: lev =>
      obtain ⟨hpoints, hsize, hsum, houtside, hnodes⟩ := ih (i + 3) h
      have hkeep (x : ℕ) (hx : x < i ∨ i + (n + 1) * 3 ≤ x) : env'.data x = env.data x := by
        rw [houtside x (by omega), addNode_data, addTime_data, Function.update_of_ne (by omega),
          Function.update_of_ne (by omega), Function.update_of_ne (by omega)]
      have htime : env'.data (i + 0 * 3) = time := by
        rw [houtside _ (by omega), addNode_data, addTime_data, Function.update_of_ne (by omega),
          Function.update_of_ne (by omega), Nat.zero_mul, Nat.add_zero, Function.update_self]
      refine ⟨hpoints, hsize, ?_, hkeep, fun j hj => ?_⟩
      · have hnext : ∑ k ∈ Finset.range n, env'.data (i + (k + 1) * 3) =
            ∑ k ∈ Finset.range n, env'.data (i + 3 + k * 3) :=
          Finset.sum_congr rfl fun k _ => congrArg env'.data (by ring)
        rw [hsum, Finset.sum_range_succ', hnext, htime]
        change env.duration + time + _ = _
        ring
      · cases j with
        | zero =>
          refine ⟨level, rfl, ?_, ?_⟩
          · rw [houtside _ (by omega), addNode_data, Function.update_of_ne (by omega)]
            exact Function.update_self ..
          · rw [houtside _ (by omega)]
            exact Function.update_self ..
        | succ j =>
          have hindex : i + (j + 1) * 3 = i + 3 + j * 3 := by ring
          simp only [Function.iterate_succ_apply, hindex]
          exact hnodes j (by omega)

omit [LinearOrder K] in
theorem cycle_ne_nil {α : Type} {start : List α} (hstart : start ≠ []) (l : List α) :
    cycle start l ≠ [] := by
  rw [cycle]
  split
  · exact hstart
  · rename_i hl
    exact fun h => hl (List.isEmpty_iff.mpr h)

theorem editLoop_returns (hlevels : levels.tail ≠ []) (htimes : times ≠ []) {lev tim : List K}
    {cur : List (CurveSpec K)} (hlev : lev ≠ []) (htim : tim ≠ []) (n i : ℕ) (env : Envelope K) :
    ∃ env', editLoop levels times curve n i lev tim cur env = .ok () env' := by
  induction n generalizing i lev tim cur env with
  | zero => exact ⟨env, rfl⟩
  | succ n ih =>
    obtain ⟨level, lev, rfl⟩ := List.exists_cons_of_ne_nil hlev
    obtain ⟨time, tim, rfl⟩ := List.exists_cons_of_ne_nil htim
    exact ih (cycle_ne_nil hlevels _) (cycle_ne_nil htimes _) _ _

/-- An edit with curves and a first level that goes on to the loop. -/
theorem edit_eq {curves : List (CurveSpec K)} {base : Option K} {first : K} {lev : List K}
    (hcurves : editCurves log (first :: lev) curve base = some curves)
    (loopNode releaseNode : Option ℤ) (env : Envelope K) :
    edit log (first :: lev) times curve base loopNode releaseNode env =
      editLoop (first :: lev) times curves (computePoints (first :: lev) times - 1) 1 lev times
        curves (editStart first curves loopNode releaseNode (checkPoints (first :: lev) times env)) := by
  simp [edit, hcurves]

theorem edit_eq_error {base : Option K} (h : editCurves log levels curve base = none ∨ levels = [])
    (loopNode releaseNode : Option ℤ) (env : Envelope K) :
    edit log levels times curve base loopNode releaseNode env =
      .error () (checkPoints levels times env) := by
  rcases h with h | rfl
  · simp [edit, h]
  · cases h : editCurves log [] curve base <;> simp [edit, h]

omit [Field K] [LinearOrder K] in
theorem points_checkPoints (levels times : List K) (env : Envelope K) :
    (checkPoints levels times env).points = computePoints levels times ∧
      (checkPoints levels times env).data = env.data ∧
      (env.dataSize = computeEnvelopeDataSize env.points →
        (checkPoints levels times env).dataSize =
          computeEnvelopeDataSize (computePoints levels times)) := by
  rw [checkPoints]
  split
  · exact ⟨rfl, rfl, fun _ => rfl⟩
  · rename_i hsame
    rw [not_not.mp hsame]
    exact ⟨rfl, rfl, id⟩

theorem edit_spec {env env' : Envelope K} {base : Option K} {loopNode releaseNode : Option ℤ}
    (h : edit log levels times curve base loopNode releaseNode env = .ok () env') :
    env'.points = computePoints levels times ∧
      (env.dataSize = computeEnvelopeDataSize env.points →
        env'.dataSize = computeEnvelopeDataSize env'.points) ∧
      env'.duration = ∑ k ∈ Finset.range (env'.points - 1), env'.data (k * 3 + 1) ∧
      (∀ x, computeEnvelopeDataSize env'.points ≤ x → env'.data x = env.data x) ∧
      ∃ curves, editCurves log levels curve base = some curves ∧
        (∀ k < env'.points, ∃ l, nodeLevel levels k = some l ∧
          env'.levelAt k = envelopeFixZero l (nodeCurve curves (max k 1))) ∧
        ∀ k, 0 < k → k < env'.points →
          env'.curveAt k = segFunctionSpecToSample (nodeCurve curves k) := by
  obtain ⟨hpoints, hdata, hsize⟩ := points_checkPoints levels times env
  cases hcurves : editCurves log levels curve base with
  | none => rw [edit_eq_error (.inl hcurves)] at h; cases h
  | some curves =>
  match levels with
  | [] => rw [edit_eq_error (.inr rfl)] at h; cases h
  | first :: lev =>
  rw [edit_eq hcurves] at h
  obtain ⟨hpoints', hsize', hsum, houtside, hnodes⟩ := editLoop_ok _ 1 h
  have hpos : 1 ≤ computePoints (first :: lev) times :=
    (Nat.le_add_left 1 _).trans (le_max_right ..)
  replace hpoints' : env'.points = computePoints (first :: lev) times := hpoints'.trans hpoints
  have hnode (k : ℕ) (hk : 0 < k) (hkp : k < env'.points) :
      ∃ l, nodeLevel (first :: lev) k = some l ∧ env'.data (levelIndex k) =
        envelopeFixZero l (nodeCurve curves k) ∧
        env'.data (k * 3) = segFunctionSpecToSample (nodeCurve curves k) := by
    obtain ⟨l, hl, hlevel, hcurve⟩ := hnodes (k - 1) (by omega)
    have hlevelIndex : 1 + (k - 1) * 3 + 1 = levelIndex k := by
      rw [levelIndex, if_pos hk]
      omega
    have hcurveIndex : 1 + (k - 1) * 3 + 2 = k * 3 := by omega
    rw [head_cycle] at hlevel hcurve
    rw [List.tail_cons, head_cycle] at hl
    rw [hlevelIndex] at hlevel
    rw [hcurveIndex] at hcurve
    exact ⟨l, by rw [nodeLevel, if_neg (by omega)]; exact hl, hlevel, hcurve⟩
  refine ⟨hpoints', fun hold => ?_, ?_, fun x hx => ?_, curves, rfl, fun k hk => ?_,
    fun k hk hkp => ?_⟩
  · rw [hpoints', hsize']
    exact hsize hold
  · rw [hpoints', hsum]
    simp only [Nat.add_comm 1]
    exact zero_add _
  · rw [hpoints', computeEnvelopeDataSize] at hx
    rw [houtside x (by omega), editStart_data, Function.update_of_ne (by omega), hdata]
  · rcases Nat.eq_zero_or_pos k with rfl | hkpos
    · refine ⟨first, rfl, ?_⟩
      have hcurve : nodeCurve curves (max 0 1) = curves.head?.getD .other := by
        rw [nodeCurve, List.head?_eq_getElem?]
        show (curves[0 % curves.length]?).getD _ = _
        rw [Nat.zero_mod]
      rw [hcurve]
      exact (houtside 0 (.inl Nat.one_pos)).trans (by rw [editStart_data, Function.update_self])
    · obtain ⟨l, hl, hlevel, -⟩ := hnode k hkpos hk
      rw [max_eq_left hkpos]
      exact ⟨l, hl, hlevel⟩
  · obtain ⟨l, -, -, hcurve⟩ := hnode k hk hkp
    exact hcurve

variable {env env' : Envelope K} {base : Option K} {loopNode releaseNode : Option ℤ}

/-- A call of `%edit-envelope` with levels returns, or it signals an error before the second node
is complete. -/
theorem edit_cases (hlevels : levels ≠ []) (env : Envelope K) :
    (EditReturns log levels times curve base ∧
        ∃ env', edit log levels times curve base loopNode releaseNode env = .ok () env') ∨
      (¬ EditReturns log levels times curve base ∧
        ∃ env', edit log levels times curve base loopNode releaseNode env = .error () env' ∧
          env'.points = computePoints levels times ∧
          (∀ x, 1 < x → env'.data x = env.data x) ∧
          env'.data 0 = match editCurves log levels curve base with
            | some curves => envelopeFixZero (levels.headD 0) (curves.head?.getD .other)
            | none => env.data 0) := by
  obtain ⟨first, lev, rfl⟩ := List.exists_cons_of_ne_nil hlevels
  obtain ⟨hpoints, hdata, -⟩ := points_checkPoints (first :: lev) times env
  cases hcurves : editCurves log (first :: lev) curve base with
  | none =>
    refine .inr ⟨fun h => by simpa [hcurves] using h.1, _, edit_eq_error (.inl hcurves) .., hpoints,
      fun x _ => by rw [hdata], by rw [hdata]⟩
  | some curves =>
    rw [EditReturns, edit_eq hcurves, hcurves]
    cases lev with
    | nil =>
      cases times with
      | nil => exact .inl ⟨⟨rfl, by simp⟩, _, rfl⟩
      | cons time tim =>
        refine .inr ⟨by simp, _, rfl, hpoints, fun x hx => ?_, ?_⟩
        · rw [addTime_data, editStart_data, Function.update_of_ne (by omega),
            Function.update_of_ne (by omega), hdata]
        · rw [addTime_data, editStart_data, Function.update_of_ne (by omega),
            Function.update_self]
          rfl
    | cons second lev =>
      cases times with
      | nil =>
        refine .inr ⟨by simp, _, rfl, hpoints, fun x hx => ?_, ?_⟩
        · rw [editStart_data, Function.update_of_ne (by omega), hdata]
        · rw [editStart_data, Function.update_self]
          rfl
      | cons time tim =>
        exact .inl ⟨⟨rfl, by simp⟩, editLoop_returns (by simp) (by simp) (by simp) (by simp) _ _ _⟩

variable [IsStrictOrderedRing K]

theorem noZero_edit (hmeets : EditMeets log levels times curve base)
    (h : edit log levels times curve base loopNode releaseNode env = .ok () env') :
    env'.NoZero := by
  obtain ⟨hpoints, -, -, -, curves, hcurves, hlevels, hcurveAt⟩ := edit_spec h
  intro k hk hkp hcurve
  rw [hcurveAt k hk hkp] at hcurve
  rw [hpoints] at hkp hlevels
  obtain ⟨hprevious, hnode⟩ := hmeets curves hcurves k hk hkp hcurve
  obtain ⟨l, hl, hlevel⟩ := hlevels k hkp
  obtain ⟨l', hl', hlevel'⟩ := hlevels (k - 1) (by omega)
  rw [hlevel, hlevel']
  constructor
  · apply fixZero_ne_zero
    intro hzero
    exact hprevious (hzero ▸ hl')
  · apply fixZero_ne_zero
    intro hzero
    rw [max_eq_left hk]
    exact hnode (hzero ▸ hl)

theorem NoZero.editEnvelope (h : env.NoZero)
    (hmeets : EditEnvelopeMeets log env levels times curve base) :
    (after (editEnvelope log levels times curve base loopNode releaseNode) env).NoZero := by
  by_cases hlevels : levels = []
  · rw [Envelope.editEnvelope, if_pos (List.isEmpty_iff.mpr hlevels)]
    exact h
  · rw [Envelope.editEnvelope, if_neg (mt List.isEmpty_iff.mp hlevels)]
    obtain ⟨hnew, hfailed⟩ := hmeets hlevels
    obtain ⟨hreturns, env', hedit⟩ | ⟨hreturns, env', hedit, hpoints, hdata, hfirst⟩ :=
      edit_cases hlevels env
    · rw [after_ok hedit]
      exact noZero_edit (hnew hreturns) hedit
    · rw [after_error hedit]
      obtain ⟨hsize, hzero⟩ := hfailed hreturns
      intro k hk hkp hcurve
      have hlevel (j : ℕ) (hj : 0 < j) : env'.levelAt j = env.levelAt j := by
        refine hdata _ ?_
        rw [levelIndex, if_pos hj]
        omega
      have hcurve' : env.curveAt k = segExpFunc := by
        rw [← hcurve]
        exact (hdata _ (by omega)).symm
      obtain ⟨hprevious, hnode⟩ := h k hk (by omega) hcurve'
      rw [hlevel k hk]
      refine ⟨?_, hnode⟩
      rcases Nat.eq_zero_or_pos (k - 1) with hone | hpos
      · have hk1 : k = 1 := by omega
        subst hk1
        change env'.data 0 ≠ 0
        rw [hfirst]
        cases hcurves : editCurves log levels curve base with
        | none => exact hprevious
        | some curves => exact fixZero_ne_zero fun hlev => hzero curves hcurves hcurve' hlev
      · rw [hlevel _ hpos]
        exact hprevious

end Edit

inductive Operation (K : Type)
  | edit (levels times : List K) (curve : List (CurveSpec K)) (base : Option K)
      (loopNode releaseNode : Option ℤ)
  | setLevel (node : ℕ) (level : K)
  | setCurve (node : ℕ) (curve : CurveSpec K)
  | setBase (base : K)
  | scale (mult : K)
  | rescale (lo hi : K)

/-- The envelope after a call, also if the call signals an error. -/
def Operation.apply (log : K → K) (env : Envelope K) : Operation K → Envelope K
  | .edit levels times curve base loopNode releaseNode =>
    after (editEnvelope log levels times curve base loopNode releaseNode) env
  | .setLevel node level => env.setLevel node level
  | .setCurve node curve => env.setCurve node curve
  | .setBase base => (env.setBase log base).getD env
  | .scale mult => env.scale mult
  | .rescale lo hi => (env.rescale lo hi).getD env

def Operation.Meets (log : K → K) (env : Envelope K) : Operation K → Prop
  | .edit levels times curve base _ _ => EditEnvelopeMeets log env levels times curve base
  | .setCurve node curve => env.SetCurveMeets node curve
  | .setBase base => SetBaseMeets log env base
  | _ => True

/-- The envelopes that `make-envelope` returns and the operations change. -/
inductive Run (log : K → K) (newMeets : List K → List K → List (CurveSpec K) → Option K → Prop)
    (meets : Envelope K → Operation K → Prop) : Envelope K → Prop
  | make {memory : ℕ → K} {levels times : List K} {curve : List (CurveSpec K)} {base : Option K}
      {loopNode releaseNode : ℤ} {env : Envelope K} (hmeets : newMeets levels times curve base)
      (hmake : make log memory levels times curve base loopNode releaseNode = some env) :
      Run log newMeets meets env
  | step {env : Envelope K} {op : Operation K} (h : Run log newMeets meets env)
      (hmeets : meets env op) : Run log newMeets meets (op.apply log env)

section Runs

variable {log : K → K} {env : Envelope K} {op : Operation K}

theorem make_eq_some {memory : ℕ → K} {levels times : List K} {curve : List (CurveSpec K)}
    {base : Option K} {loopNode releaseNode : ℤ} (hlevels : levels ≠ [])
    (h : make log memory levels times curve base loopNode releaseNode = some env) :
    ∃ env₀ : Envelope K, env₀.dataSize = computeEnvelopeDataSize env₀.points ∧
      edit log levels times curve base (some loopNode) (some releaseNode) env₀ = .ok () env := by
  simp only [make, editEnvelope, if_neg (mt List.isEmpty_iff.mp hlevels)] at h
  split at h
  · rename_i hedit
    obtain rfl := Option.some.inj h
    exact ⟨_, rfl, hedit⟩
  · cases h

variable [IsStrictOrderedRing K]

theorem NoZero.apply (h : env.NoZero) (hmeets : op.Meets log env) :
    (op.apply log env).NoZero := by
  cases op with
  | edit levels times curve base loopNode releaseNode => exact h.editEnvelope hmeets
  | setLevel node level => exact h.setLevel node level
  | setCurve node curve => exact h.setCurve hmeets
  | setBase base =>
    rw [Operation.apply]
    cases hset : env.setBase log base with
    | none => exact h
    | some env' => exact h.setBase hmeets hset
  | scale mult => exact h.scale mult
  | rescale lo hi =>
    rw [Operation.apply]
    cases hrescale : env.rescale lo hi with
    | none => exact h
    | some env' => exact h.rescale hrescale

/-- The end levels of the exponential segments after operations that meet their conditions. -/
theorem noZero_of_run (h : Run log (MakeMeets log) (fun env op => op.Meets log env) env) :
    env.NoZero := by
  induction h with
  | make hmeets hmake =>
    obtain ⟨env₀, -, hedit⟩ := make_eq_some hmeets.1 hmake
    exact noZero_edit hmeets.2 hedit
  | step h hmeets ih => exact ih.apply hmeets

end Runs

/-- The level 0 between a linear segment and an exponential one is not fixed. -/
theorem not_noZero : ¬ ∀ env : Envelope ℚ, Run id (fun _ _ _ _ => True) (fun _ _ => True) env →
    env.NoZero := by
  intro h
  have hmake : (make id (fun _ => 0) [1, 0, 1] [1, 1] [.linear, .exponential] none (-1) (-1) :
      Option (Envelope ℚ)).isSome := rfl
  obtain ⟨env, henv⟩ := Option.isSome_iff_exists.mp hmake
  obtain ⟨env₀, -, hedit⟩ := make_eq_some (by simp) henv
  obtain ⟨hpoints, -, -, -, curves, hcurves, hlevels, hcurveAt⟩ := edit_spec hedit
  have hnozero := h env (Run.make trivial henv)
  injection hcurves with hcurves
  obtain ⟨l, hl, hlevel⟩ := hlevels 1 (by rw [hpoints]; decide)
  have hcurve := hcurveAt 2 (by decide) (by rw [hpoints]; decide)
  rw [← hcurves] at hlevel hcurve
  have hzero : l = 0 := (Option.some_inj.mp hl).symm
  have hfixed : env.levelAt 1 = 0 := by
    rw [hlevel, hzero]
    rfl
  exact (hnozero 2 (by decide) (by rw [hpoints]; decide) hcurve).1 hfixed

/-- An exponential envelope after the change of a level to zero and an edit without the level of
the second node. -/
theorem noZero_exponential : ∃ env : Envelope ℚ,
    Run id (MakeMeets id) (fun env op => op.Meets id env) env ∧ env.points = 2 ∧
      env.curveAt 1 = segExpFunc ∧ env.NoZero := by
  have hmake : (make id (fun _ => 0) [0, 1, 0] [1, 1] [.exponential] none (-1) (-1) :
      Option (Envelope ℚ)).isSome := rfl
  obtain ⟨env, henv⟩ := Option.isSome_iff_exists.mp hmake
  obtain ⟨env₀, -, hedit⟩ := make_eq_some (by simp) henv
  obtain ⟨hpoints, -, -, -, curves, hcurves, -, hcurveAt⟩ := edit_spec hedit
  have hcurve (k : ℕ) : nodeCurve [(.exponential : CurveSpec ℚ)] k = .exponential := by
    rw [nodeCurve, List.length_singleton, Nat.mod_one]
    rfl
  have hmeets : EditMeets id [0, 1, 0] [1, 1] [.exponential] (none : Option ℚ) := by
    intro curves hcurves k _ _ _
    obtain rfl := Option.some.inj hcurves
    rw [hcurve, hcurve]
    exact ⟨fun _ => rfl, fun _ => rfl⟩
  have hrun : Run id (MakeMeets id) (fun env op => op.Meets id env) env :=
    Run.make ⟨by simp, hmeets⟩ henv
  have hlevel : Run id (MakeMeets id) (fun env op => op.Meets id env) (env.setLevel 1 0) :=
    @Run.step _ _ _ _ _ _ env (.setLevel 1 0) hrun trivial
  obtain ⟨hreturns, -⟩ | ⟨hreturns, env', hfailed, hpoints', hdata, -⟩ :=
    @edit_cases ℚ _ _ id [0] [1] [.exponential] none none none (by simp) (env.setLevel 1 0)
  · exact absurd hreturns.2 (by simp)
  have hlast : Operation.Meets id (env.setLevel 1 0) (.edit [0] [1] [.exponential] none none none) := by
    refine fun _ => ⟨fun h => absurd h hreturns, fun _ => ⟨?_, fun curves hcurves _ _ => ?_⟩⟩
    · rw [points_setLevel, hpoints]
      decide
    · obtain rfl := Option.some.inj hcurves
      rfl
  have hend := Run.step hlevel hlast
  have happly : Operation.apply id (env.setLevel 1 0) (.edit [0] [1] [.exponential] none none none) =
      env' := after_error hfailed
  refine ⟨env', happly ▸ hend, hpoints', ?_, noZero_of_run (happly ▸ hend)⟩
  obtain rfl := Option.some.inj hcurves
  have hexp := hcurveAt 1 (by decide) (by rw [hpoints]; decide)
  rw [hcurve, ← @curveAt_setLevel ℚ _ _ env 1 0 1 Nat.one_pos] at hexp
  exact (hdata 3 (by decide)).trans hexp

end Envelope

end Incudine

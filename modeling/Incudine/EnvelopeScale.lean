import Incudine.EnvelopeLevels
import Mathlib.Algebra.Order.AbsoluteValue.Basic
import Mathlib.Tactic.FieldSimp
import Mathlib.Tactic.Linarith

/-!
# The scale of an envelope

`rescale-envelope` looks for the least and the greatest level with the index of the data, up to
the number of the points: it finds the levels of the first third of the nodes.
-/

namespace Incudine.Envelope

variable {K : Type} [Field K] [LinearOrder K]

def NoExponential (env : Envelope K) : Prop :=
  ∀ k, 0 < k → k < env.points → env.curveAt k ≠ segExpFunc

/-- The levels are mapped by an increasing affine map, the least one to `lo` and the greatest one
to `hi`. -/
def RescaleReaches (env : Envelope K) (lo hi : K) : Prop :=
  ∃ env', env.rescale lo hi = some env' ∧
    (∃ a b, 0 < a ∧ ∀ k < env.points, env'.levelAt k = a * env.levelAt k + b) ∧
    (∃ i < env.points, (∀ k < env.points, env.levelAt i ≤ env.levelAt k) ∧
      env'.levelAt i = lo) ∧
    ∃ j < env.points, (∀ k < env.points, env.levelAt k ≤ env.levelAt j) ∧ env'.levelAt j = hi

/-- The greatest absolute level is `value`. -/
def NormalizeReaches (env : Envelope K) (value : K) : Prop :=
  ∃ env', env.normalize value = some env' ∧ (∀ k < env.points, |env'.levelAt k| ≤ value) ∧
    ∃ k < env.points, |env'.levelAt k| = value

/-- The first third of the nodes has a least level and a greatest level of the envelope. -/
def ScansExtremes (env : Envelope K) : Prop :=
  (∃ i, i * 3 ≤ env.points ∧ ∀ k < env.points, env.levelAt i ≤ env.levelAt k) ∧
    ∃ j, j * 3 ≤ env.points ∧ ∀ k < env.points, env.levelAt k ≤ env.levelAt j

section Levels

variable {env : Envelope K}

theorem NoExponential.setLevel (h : env.NoExponential) (node : ℕ) (x : K) :
    (env.setLevel node x).NoExponential := by
  intro k hk hkp
  rw [points_setLevel] at hkp
  rw [curveAt_setLevel hk]
  exact h k hk hkp

theorem NoExponential.levelAt_setLevel (h : env.NoExponential) {node : ℕ}
    (hnode : node < env.points) (x : K) (k : ℕ) :
    (env.setLevel node x).levelAt k = if k = node then x else env.levelAt k := by
  have hfixed : env.fixedLevel node x = x := by
    rw [fixedLevel, if_neg]
    rintro ⟨-, hzero | hzero⟩
    · exact h node hzero.1 hnode hzero.2
    · have hnext : env.curveAt (node + 1) = segExpFunc := by
        rw [curveAt, Nat.add_mul]
        exact hzero.2
      exact h (node + 1) (Nat.succ_pos node) (by have hne := hzero.1; omega) hnext
  rw [Envelope.levelAt_setLevel hnode, hfixed]

omit [Field K] [LinearOrder K] in
theorem data_level {i : ℕ} (hi : 0 < i) : env.data (i * 3 - 1) = env.levelAt i := by
  rw [levelAt, levelIndex, if_pos hi]

omit [Field K] [LinearOrder K] in
theorem level_eq {k : ℕ} (hk : k < env.points) : env.level k = env.levelAt k := by
  rw [level, levelAt, levelIndex, min_eq_left (by omega)]

theorem levelAt_loop {f : K → K} {loop : ℕ → ℕ → Envelope K → Envelope K}
    (hzero : ∀ i env, loop 0 i env = env)
    (hsucc : ∀ n i env, 0 < i → loop (n + 1) i env =
      loop n (i + 1) (env.setLevel i (f (env.levelAt i))))
    (n i : ℕ) (h : env.NoExponential) (hi : 0 < i) (hin : i + n ≤ env.points) :
    (loop n i env).points = env.points ∧ ∀ k, (loop n i env).levelAt k =
      if i ≤ k ∧ k < i + n then f (env.levelAt k) else env.levelAt k := by
  induction n generalizing i env with
  | zero =>
    rw [hzero]
    exact ⟨rfl, fun k => (if_neg (by omega)).symm⟩
  | succ n ih =>
    obtain ⟨hpoints, hlevels⟩ := @ih (env.setLevel i (f (env.levelAt i))) (i + 1)
      (h.setLevel i _) (Nat.succ_pos i) (by rw [points_setLevel]; omega)
    rw [hsucc n i env hi]
    refine ⟨hpoints.trans points_setLevel, fun k => ?_⟩
    rw [hlevels, h.levelAt_setLevel (by omega : i < env.points)]
    by_cases hki : k = i
    · subst hki
      rw [if_neg (by omega), if_pos rfl, if_pos (by omega)]
    · rw [if_neg hki]
      by_cases hrange : i + 1 ≤ k ∧ k < i + 1 + n
      · rw [if_pos hrange, if_pos (by omega)]
      · rw [if_neg hrange, if_neg (by omega)]

theorem levelAt_scale (h : env.NoExponential) (hpoints : 0 < env.points) (mult : K) {k : ℕ}
    (hk : k < env.points) : (env.scale mult).levelAt k = env.levelAt k * mult := by
  have hfirst := fun k => h.levelAt_setLevel hpoints (env.data 0 * mult) k
  have hloop := (@levelAt_loop K _ _ _ (· * mult) (scaleLoop mult) (fun _ _ => rfl)
    (fun n i env hi => by rw [scaleLoop, data_level hi]) (env.points - 1) 1
    (h.setLevel 0 (env.data 0 * mult)) Nat.one_pos (by rw [points_setLevel]; omega)).2 k
  refine hloop.trans ?_
  rw [hfirst]
  by_cases hk0 : k = 0
  · rw [if_neg (by omega), if_pos hk0, hk0]
    rfl
  · rw [if_pos (by omega), if_neg hk0]

theorem levelAt_setLevels (h : env.NoExponential) (hpoints : 0 < env.points)
    (lo newDelta oldDelta oldMin : K) {k : ℕ} (hk : k < env.points) :
    (setLevels lo newDelta oldDelta oldMin (env.points - 1) 1 2
      (env.setLevel 0 (lo + newDelta * oldDelta * (env.data 0 - oldMin)))).levelAt k =
      lo + newDelta * oldDelta * (env.levelAt k - oldMin) := by
  let f : K → K := fun x => lo + newDelta * oldDelta * (x - oldMin)
  have hfirst := fun k => h.levelAt_setLevel hpoints (f (env.data 0)) k
  have hloop := (@levelAt_loop K _ _ _ f
    (fun n i env => setLevels lo newDelta oldDelta oldMin n i (i * 3 - 1) env)
    (fun _ _ => rfl) (fun n i env hi => by
      have hoffset : i * 3 - 1 + 3 = (i + 1) * 3 - 1 := by omega
      rw [setLevels, data_level hi, hoffset]) (env.points - 1) 1
    (h.setLevel 0 (f (env.data 0))) Nat.one_pos (by rw [points_setLevel]; omega)).2 k
  refine hloop.trans ?_
  rw [hfirst]
  by_cases hk0 : k = 0
  · rw [if_neg (by omega), if_pos hk0, hk0]
    rfl
  · rw [if_pos (by omega), if_neg hk0]

end Levels

section Normalize

variable {env : Envelope K}

theorem normLoop_spec (n index : ℕ) (maxval : K) :
    maxval ≤ normLoop env n index maxval ∧
      (∀ k, index ≤ k → k < index + n → |env.level k| ≤ normLoop env n index maxval) ∧
      (normLoop env n index maxval = maxval ∨
        ∃ k, index ≤ k ∧ k < index + n ∧ normLoop env n index maxval = |env.level k|) := by
  induction n generalizing index maxval with
  | zero => exact ⟨le_rfl, fun k hk hk' => absurd hk' (by omega), Or.inl rfl⟩
  | succ n ih =>
    obtain ⟨hle, hall, hattained⟩ := ih (index + 1) (max |env.level index| maxval)
    rw [normLoop]
    refine ⟨(le_max_right _ _).trans hle, fun k hk hk' => ?_, ?_⟩
    · by_cases heq : k = index
      · subst heq
        exact (le_max_left _ _).trans hle
      · exact hall k (by omega) (by omega)
    · rcases hattained with hmax | ⟨k, hk, hk', hlevel⟩
      · rcases max_choice |env.level index| maxval with hleft | hright
        · exact Or.inr ⟨index, le_rfl, by omega, hmax.trans hleft⟩
        · exact Or.inl (hmax.trans hright)
      · exact Or.inr ⟨k, by omega, by omega, hlevel⟩

variable [IsStrictOrderedRing K]

theorem normalizeReaches_iff (h : env.NoExponential) (hpoints : 0 < env.points)
    (hne : ∃ i < env.points, ∃ j < env.points, env.levelAt i ≠ env.levelAt j) (value : K) :
    env.NormalizeReaches value ↔ 0 ≤ value := by
  obtain ⟨hfirst, hall, hattained⟩ := @normLoop_spec K _ _ env (env.points - 1) 1 |env.level 0|
  generalize hmax : normLoop env (env.points - 1) 1 |env.level 0| = maxval at hfirst hall hattained
  have hle (k : ℕ) (hk : k < env.points) : |env.levelAt k| ≤ maxval := by
    rw [← level_eq hk]
    rcases Nat.eq_zero_or_pos k with rfl | hpos
    · exact hfirst
    · exact hall k hpos (by omega)
  obtain ⟨m, hm, hmlevel⟩ : ∃ m < env.points, maxval = |env.levelAt m| := by
    rcases hattained with h0 | ⟨k, hk, hk', hlevel⟩
    · exact ⟨0, hpoints, by rw [← level_eq hpoints]; exact h0⟩
    · have hkp : k < env.points := by omega
      exact ⟨k, hkp, by rw [← level_eq hkp]; exact hlevel⟩
  have hpos : 0 < maxval := by
    rcases (abs_nonneg (env.levelAt m)).lt_or_eq with hlt | heq
    · exact hmlevel ▸ hlt
    · obtain ⟨i, hi, j, hj, hij⟩ := hne
      have hzero (k : ℕ) (hk : k < env.points) : env.levelAt k = 0 := by
        have habs := hle k hk
        rw [hmlevel, ← heq] at habs
        exact abs_nonpos_iff.mp habs
      exact absurd ((hzero i hi).trans (hzero j hj).symm) hij
  have hnormalize : env.normalize value = some (env.scale (value / maxval)) := by
    rw [normalize, hmax]
    exact if_neg hpos.ne'
  have hscaled (k : ℕ) (hk : k < env.points) :
      |(env.scale (value / maxval)).levelAt k| = |env.levelAt k| / maxval * |value| := by
    rw [levelAt_scale h hpoints _ hk, abs_mul, abs_div, abs_of_pos hpos]
    ring
  constructor
  · rintro ⟨env', henv', -, k, -, hk⟩
    exact hk ▸ abs_nonneg _
  · intro hvalue
    refine ⟨_, hnormalize, fun k hk => ?_, m, hm, ?_⟩
    · rw [hscaled k hk, abs_of_nonneg hvalue]
      exact mul_le_of_le_one_left hvalue ((div_le_one hpos).mpr (hle k hk))
    · rw [hscaled m hm, ← hmlevel, div_self hpos.ne', one_mul, abs_of_nonneg hvalue]

end Normalize

section Rescale

variable {env : Envelope K}

omit [Field K] in
theorem rescLoop_spec (j : ℕ) (oldMin oldMax : K) {r : K × K}
    (hr : rescLoop env (j * 3 + 2) oldMin oldMax = r) :
    (r.1 ≤ oldMin ∧ (∀ k, j < k → k * 3 ≤ env.points → r.1 ≤ env.levelAt k) ∧
      (r.1 = oldMin ∨ ∃ k, j < k ∧ k * 3 ≤ env.points ∧ r.1 = env.levelAt k)) ∧
    (oldMax ≤ r.2 ∧ (∀ k, j < k → k * 3 ≤ env.points → env.levelAt k ≤ r.2) ∧
      (r.2 = oldMax ∨ ∃ k, j < k ∧ k * 3 ≤ env.points ∧ r.2 = env.levelAt k)) := by
  induction hn : env.points - j generalizing j oldMin oldMax with
  | zero =>
    rw [rescLoop, if_pos (by omega)] at hr
    rw [← hr]
    exact ⟨⟨le_rfl, fun k hk hk' => absurd hk' (by omega), Or.inl rfl⟩,
      le_rfl, fun k hk hk' => absurd hk' (by omega), Or.inl rfl⟩
  | succ n ih =>
    rw [rescLoop] at hr
    by_cases hend : env.points ≤ j * 3 + 2
    · rw [if_pos hend] at hr
      rw [← hr]
      exact ⟨⟨le_rfl, fun k hk hk' => absurd hk' (by omega), Or.inl rfl⟩,
        le_rfl, fun k hk hk' => absurd hk' (by omega), Or.inl rfl⟩
    · rw [if_neg hend] at hr
      have hdata : env.data (j * 3 + 2) = env.levelAt (j + 1) := by
        rw [levelAt, levelIndex_add_one]
      have hindex : j * 3 + 2 + 3 = (j + 1) * 3 + 2 := by ring
      rw [hdata, hindex] at hr
      obtain ⟨⟨hmin, hminAll, hminAttained⟩, hmax, hmaxAll, hmaxAttained⟩ :=
        ih (j + 1) _ _ hr (by omega)
      refine ⟨⟨hmin.trans (min_le_right _ _), fun k hk hk' => ?_, ?_⟩,
        (le_max_right _ _).trans hmax, fun k hk hk' => ?_, ?_⟩
      · by_cases heq : k = j + 1
        · rw [heq]
          exact hmin.trans (min_le_left _ _)
        · exact hminAll k (by omega) hk'
      · rcases hminAttained with hold | ⟨k, hk, hk', hlevel⟩
        · rcases min_choice (env.levelAt (j + 1)) oldMin with hleft | hright
          · exact Or.inr ⟨j + 1, by omega, by omega, hold.trans hleft⟩
          · exact Or.inl (hold.trans hright)
        · exact Or.inr ⟨k, by omega, hk', hlevel⟩
      · by_cases heq : k = j + 1
        · rw [heq]
          exact (le_max_left _ _).trans hmax
        · exact hmaxAll k (by omega) hk'
      · rcases hmaxAttained with hold | ⟨k, hk, hk', hlevel⟩
        · rcases max_choice (env.levelAt (j + 1)) oldMax with hleft | hright
          · exact Or.inr ⟨j + 1, by omega, by omega, hold.trans hleft⟩
          · exact Or.inl (hold.trans hright)
        · exact Or.inr ⟨k, by omega, hk', hlevel⟩

omit [Field K] in
theorem rescLoop_extremes (hpoints : 0 < env.points) {r : K × K}
    (hr : rescLoop env 2 (env.level 0) (env.level 0) = r) :
    (∃ i, i * 3 ≤ env.points ∧ r.1 = env.levelAt i ∧
      ∀ k, k * 3 ≤ env.points → r.1 ≤ env.levelAt k) ∧
    ∃ j, j * 3 ≤ env.points ∧ r.2 = env.levelAt j ∧
      ∀ k, k * 3 ≤ env.points → env.levelAt k ≤ r.2 := by
  rw [level_eq hpoints] at hr
  obtain ⟨⟨hmin, hminAll, hminAttained⟩, hmax, hmaxAll, hmaxAttained⟩ :=
    rescLoop_spec 0 _ _ hr
  constructor
  · have hall (k : ℕ) (hk : k * 3 ≤ env.points) : r.1 ≤ env.levelAt k := by
      rcases Nat.eq_zero_or_pos k with rfl | hpos
      · exact hmin
      · exact hminAll k hpos hk
    rcases hminAttained with h0 | ⟨k, -, hk, hlevel⟩
    · exact ⟨0, by omega, h0, hall⟩
    · exact ⟨k, hk, hlevel, hall⟩
  · have hall (k : ℕ) (hk : k * 3 ≤ env.points) : env.levelAt k ≤ r.2 := by
      rcases Nat.eq_zero_or_pos k with rfl | hpos
      · exact hmax
      · exact hmaxAll k hpos hk
    rcases hmaxAttained with h0 | ⟨k, -, hk, hlevel⟩
    · exact ⟨0, by omega, h0, hall⟩
    · exact ⟨k, hk, hlevel, hall⟩

theorem rescale_eq (h : env.NoExponential) (hpoints : 0 < env.points) (lo hi : K) {r : K × K}
    (hr : rescLoop env 2 (env.level 0) (env.level 0) = r) :
    if r.2 - r.1 = 0 then env.rescale lo hi = none
    else ∃ env', env.rescale lo hi = some env' ∧ ∀ k < env.points,
      env'.levelAt k = lo + (hi - lo) * (1 / (r.2 - r.1)) * (env.levelAt k - r.1) := by
  rw [rescale]
  simp only [hr]
  split
  · rfl
  · exact ⟨_, rfl, fun k hk => levelAt_setLevels h hpoints _ _ _ _ hk⟩

variable [IsStrictOrderedRing K]

theorem rescaleReaches_iff (h : env.NoExponential) (hpoints : 0 < env.points)
    (hne : ∃ i < env.points, ∃ j < env.points, env.levelAt i ≠ env.levelAt j) {lo hi : K}
    (hlt : lo < hi) : env.RescaleReaches lo hi ↔ env.ScansExtremes := by
  obtain ⟨r, hr⟩ : ∃ r, rescLoop env 2 (env.level 0) (env.level 0) = r := ⟨_, rfl⟩
  obtain ⟨⟨i, hi3, hri, hmin⟩, j, hj3, hrj, hmax⟩ := rescLoop_extremes hpoints hr
  have hrescale := rescale_eq h hpoints lo hi hr
  have hip : i < env.points := by omega
  have hjp : j < env.points := by omega
  have hle : r.1 ≤ r.2 := hri ▸ hmax i hi3
  constructor
  · rintro ⟨env', henv', -, ⟨a, ha, hleast, hlo⟩, b, hb, hgreatest, hhi⟩
    by_cases hzero : r.2 - r.1 = 0
    · rw [if_pos hzero, henv'] at hrescale
      exact nomatch hrescale
    rw [if_neg hzero] at hrescale
    obtain ⟨env'', henv'', hlevels⟩ := hrescale
    have hsame : env'' = env' := Option.some_inj.mp (henv''.symm.trans henv')
    subst hsame
    have hdelta : (hi - lo) * (1 / (r.2 - r.1)) ≠ 0 :=
      mul_ne_zero (sub_pos.mpr hlt).ne' (one_div_ne_zero hzero)
    rw [hlevels a ha] at hlo
    rw [hlevels b hb] at hhi
    have ha' : env.levelAt a = r.1 := by
      have hprod : (hi - lo) * (1 / (r.2 - r.1)) * (env.levelAt a - r.1) = 0 := by linarith
      exact sub_eq_zero.mp ((mul_eq_zero.mp hprod).resolve_left hdelta)
    have hb' : env.levelAt b = r.2 := by
      have hprod : (hi - lo) * (1 / (r.2 - r.1)) * (env.levelAt b - r.1) = hi - lo := by linarith
      have hsub : (hi - lo) ≠ 0 := (sub_pos.mpr hlt).ne'
      field_simp at hprod
      linarith
    exact ⟨⟨i, hi3, fun k hk => by rw [← hri, ← ha']; exact hleast k hk⟩,
      j, hj3, fun k hk => by rw [← hrj, ← hb']; exact hgreatest k hk⟩
  · rintro ⟨⟨a, ha, hleast⟩, b, hb, hgreatest⟩
    have hr1 (k : ℕ) (hk : k < env.points) : r.1 ≤ env.levelAt k :=
      (hmin a ha).trans (hleast k hk)
    have hr2 (k : ℕ) (hk : k < env.points) : env.levelAt k ≤ r.2 :=
      (hgreatest k hk).trans (hmax b hb)
    have hzero : r.2 - r.1 ≠ 0 := by
      intro heq
      obtain ⟨c, hc, d, hd, hcd⟩ := hne
      have hsame : r.2 = r.1 := sub_eq_zero.mp heq
      have heach (k : ℕ) (hk : k < env.points) : env.levelAt k = r.1 :=
        le_antisymm (hsame ▸ hr2 k hk) (hr1 k hk)
      exact hcd ((heach c hc).trans (heach d hd).symm)
    have hpos : 0 < r.2 - r.1 := lt_of_le_of_ne (sub_nonneg.mpr hle) (Ne.symm hzero)
    rw [if_neg hzero] at hrescale
    obtain ⟨env', henv', hlevels⟩ := hrescale
    refine ⟨env', henv', ⟨(hi - lo) / (r.2 - r.1), lo - (hi - lo) / (r.2 - r.1) * r.1,
      div_pos (sub_pos.mpr hlt) hpos, fun k hk => ?_⟩, ⟨i, hip, fun k hk => hri ▸ hr1 k hk, ?_⟩,
      j, hjp, fun k hk => hrj ▸ hr2 k hk, ?_⟩
    · rw [hlevels k hk]
      ring
    · rw [hlevels i hip, ← hri, sub_self, mul_zero, add_zero]
    · rw [hlevels j hjp, ← hrj]
      field_simp
      ring

/-- Both functions reach their bounds exactly if the visited levels have the extremes and the
value is not negative. -/
theorem scaleReaches_iff (h : env.NoExponential) (hpoints : 0 < env.points)
    (hne : ∃ i < env.points, ∃ j < env.points, env.levelAt i ≠ env.levelAt j) {lo hi : K}
    (hlt : lo < hi) (value : K) :
    env.RescaleReaches lo hi ∧ env.NormalizeReaches value ↔ env.ScansExtremes ∧ 0 ≤ value :=
  and_congr (rescaleReaches_iff h hpoints hne hlt) (normalizeReaches_iff h hpoints hne value)

def linearEnvelope (levels : List ℚ) : Envelope ℚ where
  data i := if i % 3 = 0 ∧ 0 < i then segLinFunc
    else if i % 3 = 1 then 1 else levels.getD ((i + 1) / 3) 0
  duration := levels.length - 1
  points := levels.length
  dataSize := computeEnvelopeDataSize levels.length
  loopNode := -1
  releaseNode := -1

theorem noExponential_linearEnvelope (levels : List ℚ) :
    (linearEnvelope levels).NoExponential := by
  intro k hk _ hcurve
  have hdata : (linearEnvelope levels).curveAt k = segLinFunc := if_pos ⟨by omega, by omega⟩
  exact segLinFunc_ne (hdata.symm.trans hcurve)

/-- The greatest level of one segment is not visited. -/
theorem not_scaleReaches : ¬ ∀ (env : Envelope ℚ) (lo hi value : ℚ), env.NoExponential →
    0 < env.points → (∃ i < env.points, ∃ j < env.points, env.levelAt i ≠ env.levelAt j) →
    lo < hi → env.RescaleReaches lo hi ∧ env.NormalizeReaches value := by
  intro h
  have hne : ∃ i < (linearEnvelope [0, 1]).points, ∃ j < (linearEnvelope [0, 1]).points,
      (linearEnvelope [0, 1]).levelAt i ≠ (linearEnvelope [0, 1]).levelAt j :=
    ⟨0, by decide, 1, by decide, by decide⟩
  have hexp := noExponential_linearEnvelope [0, 1]
  have hreaches := (h (linearEnvelope [0, 1]) 0 1 1 hexp (by decide) hne (by decide)).1
  obtain ⟨-, j, hj, hgreatest⟩ :=
    (rescaleReaches_iff hexp (by decide) hne (by decide : (0 : ℚ) < 1)).mp hreaches
  have hpoints : (linearEnvelope [0, 1]).points = 2 := rfl
  have hj0 : j = 0 := by omega
  have hle := hgreatest 1 (by decide)
  rw [hj0] at hle
  revert hle
  decide

theorem scaleReaches_linearEnvelope :
    (linearEnvelope [0, 1, 0]).RescaleReaches (-2) 2 ∧
      (linearEnvelope [0, 1, 0]).NormalizeReaches 3 := by
  have hpoints (k : ℕ) (hk : k < (linearEnvelope [0, 1, 0]).points) : k = 0 ∨ k = 1 ∨ k = 2 := by
    have h3 : (linearEnvelope [0, 1, 0]).points = 3 := rfl
    omega
  refine (scaleReaches_iff (noExponential_linearEnvelope [0, 1, 0]) (by decide)
    ⟨0, by decide, 1, by decide, by decide⟩ (by norm_num) 3).mpr ⟨⟨⟨0, by decide, ?_⟩,
      1, by decide, ?_⟩, by norm_num⟩
  · intro k hk
    rcases hpoints k hk with rfl | rfl | rfl <;> decide
  · intro k hk
    rcases hpoints k hk with rfl | rfl | rfl <;> decide

end Rescale

end Incudine.Envelope

import Incudine.EnvelopeTable
import Incudine.Literals
import Mathlib.Analysis.SpecialFunctions.Pow.Real

/-!
# The segments of an envelope

A segment of real levels is computed from its start, from a place in the middle, and directly at a
place. The curve of Welch starts again in the middle as if it was ascending.
-/

noncomputable section

variable {time : ℝ}

namespace Incudine

open Real
open scoped Literals

/-- The cases of `curve-case`. -/
inductive SegFunction
  | step
  | linear
  | exponential
  | sine
  | welch
  | square
  | cubic
  | custom (curve : ℝ)

def curveCase (curve : ℝ) : SegFunction :=
  if curve = segStepFunc then .step
  else if curve = segLinFunc then .linear
  else if curve = segExpFunc then .exponential
  else if curve = segSineFunc then .sine
  else if curve = segWelchFunc then .welch
  else if curve = segSquareFunc then .square
  else if curve = segCubicFunc then .cubic
  else .custom curve

/-- The stack of a segment. `beg` is the current level. -/
structure Segment where
  beg : ℝ
  stop : ℝ
  curve : SegFunction
  grow : ℝ
  a2 : ℝ
  b1 : ℝ
  y1 : ℝ
  y2 : ℝ

namespace Segment

def init (s : Segment) (dur : ℝ) : Segment :=
  match s.curve with
  | .step => s
  | .linear => { s with grow := (s.stop - s.beg) / dur }
  | .exponential => { s with grow := (s.stop / s.beg) ^ (1 / dur) }
  | .sine =>
    let w := π / dur
    let y1 := (s.stop - s.beg) * 0.5
    { s with
      a2 := (s.stop + s.beg) * 0.5
      b1 := 2 * cos w
      y1 := y1
      y2 := y1 * sin (π / 2 - w) }
  | .welch =>
    let w := π / 2 / dur
    let diff := s.beg - s.stop
    if s.beg ≤ s.stop then
      { s with b1 := 2 * cos w, a2 := s.beg, y1 := 0, y2 := diff * sin w }
    else { s with b1 := 2 * cos w, a2 := s.stop, y1 := diff, y2 := diff * cos w }
  | .square =>
    let y1 := √s.beg
    let y2 := √s.stop
    { s with y1 := y1, y2 := y2, grow := (y2 - y1) / dur }
  | .cubic =>
    let y1 := s.beg ^ (1 / 3 : ℝ)
    let y2 := s.stop ^ (1 / 3 : ℝ)
    { s with y1 := y1, y2 := y2, grow := (y2 - y1) / dur }
  | .custom curve =>
    if |curve| < 0.001 then { s with grow := (s.stop - s.beg) / dur, curve := .linear }
    else
      let b1 := (s.stop - s.beg) / (1 - exp curve)
      { s with b1 := b1, a2 := s.beg + b1, grow := exp (curve / dur) }

def repositionAt (s : Segment) (dur delta : ℝ) : Segment :=
  match s.curve with
  | .step => s
  | .linear =>
    let grow := (s.stop - s.beg) / dur
    { s with grow := grow, beg := s.beg + grow * delta }
  | .exponential =>
    let x := s.stop / s.beg
    let y := 1 / dur
    { s with grow := x ^ y, beg := s.beg * x ^ (y * delta) }
  | .sine =>
    let w := π / dur
    let a3 := (s.stop - s.beg) * 0.5
    let a2 := (s.stop + s.beg) * 0.5
    let y2 := a2 - (s.beg + a3 * (1 - cos (w * (delta - 1))))
    let beg := s.beg + a3 * (1 - cos (w * delta))
    { s with a2 := a2, b1 := 2 * cos w, y2 := y2, beg := beg, y1 := a2 - beg }
  | .welch =>
    let w := π / 2 / dur
    let a3 := s.stop - s.beg
    let a2 := s.beg
    let y2 := a3 * sin (w * (delta - 1))
    let beg := s.beg + a3 * sin (w * delta)
    { s with a2 := a2, b1 := 2 * cos w, y2 := y2, beg := beg, y1 := beg - a2 }
  | .square =>
    let y1 := √s.beg
    let y2 := √s.stop
    let grow := (y2 - y1) / dur
    let y1 := y1 + grow * delta
    { s with y1 := y1, y2 := y2, grow := grow, beg := y1 * y1 }
  | .cubic =>
    let y1 := s.beg ^ (1 / 3 : ℝ)
    let y2 := s.stop ^ (1 / 3 : ℝ)
    let grow := (y2 - y1) / dur
    let y1 := y1 + grow * delta
    { s with y1 := y1, y2 := y2, grow := grow, beg := y1 * y1 * y1 }
  | .custom curve =>
    if |curve| < 0.001 then
      let grow := (s.stop - s.beg) / dur
      { s with grow := grow, curve := .linear, beg := s.beg + grow * delta }
    else
      let b1 := (s.stop - s.beg) / (1 - exp curve)
      let a2 := s.beg + b1
      let grow := exp (curve / dur)
      let b1 := b1 * grow ^ delta
      { s with b1 := b1, a2 := a2, grow := grow, beg := a2 - b1 }

def reposition (s : Segment) (dur delta : ℕ) : Segment :=
  if delta = 0 then s.init dur else s.repositionAt dur delta

def update (s : Segment) : Segment :=
  match s.curve with
  | .step => s
  | .linear => { s with beg := s.beg + s.grow }
  | .exponential => { s with beg := s.beg * s.grow }
  | .sine =>
    let y0 := s.b1 * s.y1 - s.y2
    { s with beg := s.a2 - y0, y2 := s.y1, y1 := y0 }
  | .welch =>
    let y0 := s.b1 * s.y1 - s.y2
    { s with beg := s.a2 + y0, y2 := s.y1, y1 := y0 }
  | .square =>
    let y1 := s.y1 + s.grow
    { s with y1 := y1, beg := y1 * y1 }
  | .cubic =>
    let y1 := s.y1 + s.grow
    { s with y1 := y1, beg := y1 * y1 * y1 }
  | .custom _ =>
    let b1 := s.b1 * s.grow
    { s with b1 := b1, beg := s.a2 - b1 }

def InDomain (s : Segment) : Prop :=
  match s.curve with
  | .exponential => s.beg ≠ 0 ∧ 0 ≤ s.stop / s.beg
  | .square => 0 ≤ s.beg ∧ 0 ≤ s.stop
  | .cubic => 0 ≤ s.beg ∧ 0 ≤ s.stop
  | _ => True

end Segment

/-- `%envelope-at`. -/
def segmentAt (beg stop pos : ℝ) : SegFunction → ℝ
  | .step => beg
  | .linear => pos * (stop - beg) + beg
  | .exponential => beg * (stop / beg) ^ pos
  | .sine => beg + (stop - beg) * (-cos (π * pos) * 0.5 + 0.5)
  | .welch =>
    if beg < stop then beg + (stop - beg) * sin (π / 2 * pos)
    else stop - (stop - beg) * sin (π / 2 - π / 2 * pos)
  | .square =>
    let tmp0 := √beg
    let tmp1 := √stop
    let tmp2 := pos * (tmp1 - tmp0) + tmp0
    tmp2 * tmp2
  | .cubic =>
    let tmp0 := beg ^ (1 / 3 : ℝ)
    let tmp1 := stop ^ (1 / 3 : ℝ)
    let tmp2 := pos * (tmp1 - tmp0) + tmp0
    tmp2 * tmp2 * tmp2
  | .custom curve =>
    if |curve| < 0.001 then pos * (stop - beg) + beg
    else beg + (stop - beg) * ((1 - exp (pos * curve)) / (1 - exp curve))

namespace Envelope

/-- The function `look` of `envelope-at` with `n` more segments after the segment `p`. -/
def look (env : Envelope ℝ) (time : ℝ) : ℕ → ℕ → ℕ → ℝ → ℝ
  | n, p, index, t1 =>
    let deltaTime := env.data (index - 2)
    let t0 := t1
    let t1 := t1 + deltaTime
    if time < t1 then
      segmentAt (env.data (if p = 1 then 0 else index - 4)) (env.data (index - 1))
        ((time - t0) / deltaTime) (curveCase (env.data index))
    else
      match n with
      | n + 1 => look env time n (p + 1) (index + 3) t1
      | 0 => env.data (index - 1)

def envelopeAt (env : Envelope ℝ) (time : ℝ) : ℝ :=
  if time = 0 then env.level 0 else look env time (env.points - 2) 1 3 0

end Envelope

namespace Segment

section Updates

variable {s : Segment} {n : ℕ}

theorem update_step (h : s.curve = .step) (n : ℕ) : (update^[n] s).beg = s.beg := by
  have hfix : update s = s := by rw [update, h]
  rw [Function.iterate_fixed hfix]

theorem update_linear (h : s.curve = .linear) (n : ℕ) :
    (update^[n] s).beg = s.beg + n * s.grow := by
  induction n generalizing s with
  | zero => simp
  | succ n ih =>
    have hnext : update s = { s with beg := s.beg + s.grow } := by rw [update, h]
    have hstep := ih (s := update s) (by rw [hnext]; exact h)
    rw [Function.iterate_succ_apply, hstep, hnext]
    push_cast
    ring

theorem update_exponential (h : s.curve = .exponential) (n : ℕ) :
    (update^[n] s).beg = s.beg * s.grow ^ n := by
  induction n generalizing s with
  | zero => simp
  | succ n ih =>
    have hnext : update s = { s with beg := s.beg * s.grow } := by rw [update, h]
    have hstep := ih (s := update s) (by rw [hnext]; exact h)
    rw [Function.iterate_succ_apply, hstep, hnext]
    ring

section Recurrence

variable {f : ℝ → ℝ} {w x : ℝ} (hf : ∀ x, f (x + w) = 2 * cos w * f x - f (x - w))
  (hb1 : s.b1 = 2 * cos w) (hy1 : s.y1 = f x) (hy2 : s.y2 = f (x - w))

include hf hb1 hy1 hy2

theorem update_recurrence {c : SegFunction} {e : ℝ}
    (hupdate : ∀ s : Segment, s.curve = c → update s = { s with
      beg := s.a2 + e * (s.b1 * s.y1 - s.y2)
      y2 := s.y1
      y1 := s.b1 * s.y1 - s.y2 })
    (h : s.curve = c) (hbeg : s.beg = s.a2 + e * f x) (n : ℕ) :
    (update^[n] s).beg = s.a2 + e * f (x + n * w) := by
  induction n generalizing s x with
  | zero => simpa using hbeg
  | succ n ih =>
    have hy0 : s.b1 * s.y1 - s.y2 = f (x + w) := by rw [hf, hb1, hy1, hy2]
    have hnext : update s =
        { s with beg := s.a2 + e * f (x + w), y2 := s.y1, y1 := f (x + w) } := by
      rw [hupdate s h, hy0]
    have hprevious : s.y1 = f (x + w - w) := by rw [add_sub_cancel_right, hy1]
    have hstep := @ih (update s) (x + w) (by rw [hnext]; exact hb1) (by rw [hnext])
      (by rw [hnext]; exact hprevious) (by rw [hnext]; exact h) (by rw [hnext])
    have hplace : x + w + n * w = x + (n + 1 : ℕ) * w := by
      push_cast
      ring
    rw [Function.iterate_succ_apply, hstep, hplace, hnext]

theorem update_sine (h : s.curve = .sine) (hbeg : s.beg = s.a2 - f x) (n : ℕ) :
    (update^[n] s).beg = s.a2 - f (x + n * w) := by
  have hupdate (s : Segment) (hs : s.curve = .sine) : update s = { s with
      beg := s.a2 + -1 * (s.b1 * s.y1 - s.y2)
      y2 := s.y1
      y1 := s.b1 * s.y1 - s.y2 } := by
    rw [update, hs, neg_one_mul, ← sub_eq_add_neg]
  rw [update_recurrence hf hb1 hy1 hy2 hupdate h (by rw [hbeg]; ring) n]
  ring

theorem update_welch (h : s.curve = .welch) (hbeg : s.beg = s.a2 + f x) (n : ℕ) :
    (update^[n] s).beg = s.a2 + f (x + n * w) := by
  have hupdate (s : Segment) (hs : s.curve = .welch) : update s = { s with
      beg := s.a2 + 1 * (s.b1 * s.y1 - s.y2)
      y2 := s.y1
      y1 := s.b1 * s.y1 - s.y2 } := by
    rw [update, hs, one_mul]
  rw [update_recurrence hf hb1 hy1 hy2 hupdate h (by rw [hbeg, one_mul]) n, one_mul]

end Recurrence

theorem update_root {c : SegFunction} {p : ℝ → ℝ}
    (hupdate : ∀ s : Segment, s.curve = c → update s = { s with
      y1 := s.y1 + s.grow
      beg := p (s.y1 + s.grow) })
    (h : s.curve = c) (hbeg : s.beg = p s.y1) (n : ℕ) :
    (update^[n] s).beg = p (s.y1 + n * s.grow) := by
  induction n generalizing s with
  | zero => simpa using hbeg
  | succ n ih =>
    have hnext := hupdate s h
    have hstep := ih (s := update s) (by rw [hnext]; exact h) (by rw [hnext])
    have hplace : s.y1 + s.grow + n * s.grow = s.y1 + (n + 1 : ℕ) * s.grow := by
      push_cast
      ring
    rw [Function.iterate_succ_apply, hstep, hnext, hplace]

theorem update_square (h : s.curve = .square) (hbeg : s.beg = s.y1 * s.y1) (n : ℕ) :
    (update^[n] s).beg = (s.y1 + n * s.grow) * (s.y1 + n * s.grow) :=
  update_root (p := fun y => y * y) (fun s hs => by rw [update, hs]) h hbeg n

theorem update_cubic (h : s.curve = .cubic) (hbeg : s.beg = s.y1 * s.y1 * s.y1) (n : ℕ) :
    (update^[n] s).beg = (s.y1 + n * s.grow) * (s.y1 + n * s.grow) * (s.y1 + n * s.grow) :=
  update_root (p := fun y => y * y * y) (fun s hs => by rw [update, hs]) h hbeg n

theorem update_custom {curve : ℝ} (h : s.curve = .custom curve) (hbeg : s.beg = s.a2 - s.b1)
    (n : ℕ) : (update^[n] s).beg = s.a2 - s.b1 * s.grow ^ n := by
  induction n generalizing s with
  | zero => simpa using hbeg
  | succ n ih =>
    have hnext : update s = { s with b1 := s.b1 * s.grow, beg := s.a2 - s.b1 * s.grow } := by
      rw [update, h]
    have hstep := ih (s := update s) (by rw [hnext]; exact h) (by rw [hnext])
    rw [Function.iterate_succ_apply, hstep, hnext]
    ring

theorem cos_add_step (a w x : ℝ) :
    a * cos (x + w) = 2 * cos w * (a * cos x) - a * cos (x - w) := by
  rw [cos_add, cos_sub]
  ring

theorem sin_add_step (a w x : ℝ) :
    a * sin (x + w) = 2 * cos w * (a * sin x) - a * sin (x - w) := by
  rw [sin_add, sin_sub]
  ring

end Updates

section ClosedForms

variable {s : Segment} {N : ℕ}

theorem segmentAt_welch_of_le {beg stop : ℝ} (h : beg ≤ stop) (pos : ℝ) :
    segmentAt beg stop pos .welch = beg + (stop - beg) * sin (π / 2 * pos) := by
  rw [segmentAt]
  rcases h.lt_or_eq with hlt | heq
  · rw [if_pos hlt]
  · rw [if_neg heq.not_lt, heq]
    ring

/-- Only a descending curve of Welch starts in another way. -/
theorem repositionAt_zero (hdomain : s.InDomain) (hwelch : s.curve = .welch → s.beg ≤ s.stop)
    (dur : ℝ) : s.repositionAt dur 0 = s.init dur := by
  rw [InDomain] at hdomain
  rw [repositionAt, init]
  cases hcurve : s.curve with
  | step => rfl
  | linear => simp only [mul_zero, add_zero]
  | exponential => simp only [mul_zero, rpow_zero, mul_one]
  | sine =>
    simp only [mul_zero, cos_zero, zero_sub, mul_neg, mul_one, cos_neg, sin_pi_div_two_sub, sub_self,
      add_zero, Segment.mk.injEq, true_and]
    exact ⟨by ring, by ring⟩
  | welch =>
    simp only [if_pos (hwelch hcurve), mul_zero, sin_zero, zero_sub, mul_neg, mul_one, sin_neg,
      add_zero, sub_self, Segment.mk.injEq, true_and]
    ring
  | square =>
    rw [hcurve] at hdomain
    simp only [mul_zero, add_zero, mul_self_sqrt hdomain.1]
  | cubic =>
    rw [hcurve] at hdomain
    have hcube : s.beg ^ (1 / 3 : ℝ) * s.beg ^ (1 / 3 : ℝ) * s.beg ^ (1 / 3 : ℝ) = s.beg := by
      rw [← pow_two, ← pow_succ, ← rpow_natCast, ← rpow_mul hdomain.1]
      norm_num
    simp only [mul_zero, add_zero, hcube]
  | custom curve => simp only [mul_zero, add_zero, rpow_zero, mul_one, add_sub_cancel_right]

theorem update_init_welch (hcurve : s.curve = .welch) (hlt : s.stop < s.beg) (n : ℕ) :
    (update^[n] (s.init N)).beg = segmentAt s.beg s.stop (n / N) .welch := by
  let w := π / 2 / N
  have hplace : n * w = π / 2 * (n / N) := by
    simp only [w]
    ring
  have hinit : s.init N = { s with
      b1 := 2 * cos w
      a2 := s.stop
      y1 := s.beg - s.stop
      y2 := (s.beg - s.stop) * cos w } := by
    rw [init, hcurve]
    simp only [if_neg hlt.not_ge]
    rfl
  have hupdate := update_welch (s := s.init N) (f := fun x => (s.beg - s.stop) * cos x)
    (w := w) (x := 0) (cos_add_step _ w) (by rw [hinit]) (by rw [hinit, cos_zero, mul_one])
    (by rw [hinit, zero_sub, cos_neg]) (by rw [hinit]; exact hcurve)
    (by rw [hinit, cos_zero]; ring) n
  rw [hupdate, hinit, zero_add, hplace, segmentAt, if_neg hlt.not_gt, sin_pi_div_two_sub]
  ring

theorem update_repositionAt_step (hcurve : s.curve = .step) (d n : ℕ) :
    (update^[n] (s.repositionAt N d)).beg =
      segmentAt s.beg s.stop ((d + n : ℕ) / N) .step := by
  have hstart : s.repositionAt N d = s := by rw [repositionAt, hcurve]
  rw [hstart, update_step hcurve]
  rfl

theorem update_repositionAt_linear (hN : 0 < N) (hcurve : s.curve = .linear) (d n : ℕ) :
    (update^[n] (s.repositionAt N d)).beg =
      segmentAt s.beg s.stop ((d + n : ℕ) / N) .linear := by
  have hN' : (N : ℝ) ≠ 0 := by exact_mod_cast hN.ne'
  have hstart : s.repositionAt N d = { s with
      grow := (s.stop - s.beg) / N
      beg := s.beg + (s.stop - s.beg) / N * d } := by rw [repositionAt, hcurve]
  have hupdate := update_linear (s := s.repositionAt N d) (by rw [hstart]; exact hcurve) n
  rw [hupdate, hstart, segmentAt]
  push_cast
  field_simp
  ring

theorem update_repositionAt_exponential (hdomain : s.beg ≠ 0 ∧ 0 ≤ s.stop / s.beg)
    (hcurve : s.curve = .exponential) (d n : ℕ) :
    (update^[n] (s.repositionAt N d)).beg =
      segmentAt s.beg s.stop ((d + n : ℕ) / N) .exponential := by
  have hstart : s.repositionAt N d = { s with
      grow := (s.stop / s.beg) ^ (1 / (N : ℝ))
      beg := s.beg * (s.stop / s.beg) ^ (1 / (N : ℝ) * d) } := by rw [repositionAt, hcurve]
  have hupdate := update_exponential (s := s.repositionAt N d) (by rw [hstart]; exact hcurve) n
  have hd : (s.stop / s.beg) ^ (1 / (N : ℝ) * d) = ((s.stop / s.beg) ^ (1 / (N : ℝ))) ^ d := by
    rw [rpow_mul hdomain.2, rpow_natCast]
  have hplace : ((d + n : ℕ) / N : ℝ) = 1 / N * (d + n : ℕ) := by ring
  rw [hupdate, hstart, segmentAt, hd, mul_assoc, ← pow_add, hplace, rpow_mul hdomain.2,
    rpow_natCast]

theorem update_repositionAt_sine (hcurve : s.curve = .sine) (d n : ℕ) :
    (update^[n] (s.repositionAt N d)).beg =
      segmentAt s.beg s.stop ((d + n : ℕ) / N) .sine := by
  let w := π / N
  let a := (s.stop - s.beg) * 0.5
  have hbeg : (s.stop + s.beg) * 0.5 - s.beg = a := by
    simp only [a]
    ring
  have hstart : s.repositionAt N d = { s with
      a2 := (s.stop + s.beg) * 0.5
      b1 := 2 * cos w
      y2 := (s.stop + s.beg) * 0.5 - (s.beg + a * (1 - cos (w * (d - 1))))
      beg := s.beg + a * (1 - cos (w * d))
      y1 := (s.stop + s.beg) * 0.5 - (s.beg + a * (1 - cos (w * d))) } := by
    rw [repositionAt, hcurve]
  have hplace' : w * d - w = w * (d - 1) := by ring
  have hupdate := update_sine (s := s.repositionAt N d) (f := fun x => a * cos x) (w := w)
    (x := w * d) (cos_add_step a w) (by rw [hstart]) (by rw [hstart]; linear_combination hbeg)
    (by rw [hstart, hplace']; linear_combination hbeg) (by rw [hstart]; exact hcurve)
    (by rw [hstart]; linear_combination -hbeg) n
  have hplace : w * d + n * w = π * ((d + n : ℕ) / N) := by
    simp only [w]
    push_cast
    ring
  rw [hupdate, hstart, hplace, segmentAt]
  simp only [a]
  ring

theorem update_repositionAt_square (hcurve : s.curve = .square) (d n : ℕ) :
    (update^[n] (s.repositionAt N d)).beg =
      segmentAt s.beg s.stop ((d + n : ℕ) / N) .square := by
  let grow := (√s.stop - √s.beg) / N
  have hstart : s.repositionAt N d = { s with
      y1 := √s.beg + grow * d
      y2 := √s.stop
      grow := grow
      beg := (√s.beg + grow * d) * (√s.beg + grow * d) } := by rw [repositionAt, hcurve]
  have hupdate := update_square (s := s.repositionAt N d) (by rw [hstart]; exact hcurve)
    (by rw [hstart]) n
  have hplace : √s.beg + grow * d + n * grow =
      (d + n : ℕ) / N * (√s.stop - √s.beg) + √s.beg := by
    simp only [grow]
    push_cast
    ring
  rw [hupdate, hstart, segmentAt, hplace]

theorem update_repositionAt_cubic (hcurve : s.curve = .cubic) (d n : ℕ) :
    (update^[n] (s.repositionAt N d)).beg =
      segmentAt s.beg s.stop ((d + n : ℕ) / N) .cubic := by
  let grow := (s.stop ^ (1 / 3 : ℝ) - s.beg ^ (1 / 3 : ℝ)) / N
  let y1 := s.beg ^ (1 / 3 : ℝ) + grow * d
  have hstart : s.repositionAt N d = { s with
      y1 := y1
      y2 := s.stop ^ (1 / 3 : ℝ)
      grow := grow
      beg := y1 * y1 * y1 } := by rw [repositionAt, hcurve]
  have hupdate := update_cubic (s := s.repositionAt N d) (by rw [hstart]; exact hcurve)
    (by rw [hstart]) n
  have hplace : y1 + n * grow =
      (d + n : ℕ) / N * (s.stop ^ (1 / 3 : ℝ) - s.beg ^ (1 / 3 : ℝ)) + s.beg ^ (1 / 3 : ℝ) := by
    simp only [y1, grow]
    push_cast
    ring
  rw [hupdate, hstart, segmentAt, hplace]

theorem update_repositionAt_custom {curve : ℝ} (hN : 0 < N) (hcurve : s.curve = .custom curve)
    (d n : ℕ) :
    (update^[n] (s.repositionAt N d)).beg =
      segmentAt s.beg s.stop ((d + n : ℕ) / N) (.custom curve) := by
  have hN' : (N : ℝ) ≠ 0 := by exact_mod_cast hN.ne'
  by_cases hsmall : |curve| < 0.001
  · have hstart : s.repositionAt N d = { s with
        grow := (s.stop - s.beg) / N
        curve := .linear
        beg := s.beg + (s.stop - s.beg) / N * d } := by
      rw [repositionAt, hcurve]
      simp only [if_pos hsmall]
    have hupdate := update_linear (s := s.repositionAt N d) (by rw [hstart]) n
    rw [hupdate, hstart, segmentAt, if_pos hsmall]
    push_cast
    field_simp
    ring
  · let b1 := (s.stop - s.beg) / (1 - exp curve)
    have hstart : s.repositionAt N d = { s with
        b1 := b1 * exp (curve / N) ^ (d : ℝ)
        a2 := s.beg + b1
        grow := exp (curve / N)
        beg := s.beg + b1 - b1 * exp (curve / N) ^ (d : ℝ) } := by
      rw [repositionAt, hcurve]
      simp only [if_neg hsmall]
      rfl
    have hcustom : (s.repositionAt N d).curve = .custom curve := by rw [hstart]; exact hcurve
    have hupdate := update_custom hcustom (by rw [hstart]) n
    have hpow : exp (curve / N) ^ (d : ℝ) * exp (curve / N) ^ n =
        exp ((d + n : ℕ) / N * curve) := by
      rw [rpow_natCast, ← pow_add, ← exp_nat_mul]
      congr 1
      ring
    rw [hupdate, hstart, segmentAt, if_neg hsmall, mul_assoc, hpow]
    simp only [b1]
    ring

theorem update_repositionAt (hN : 0 < N) (hdomain : s.InDomain) (hwelch : s.curve ≠ .welch)
    (d n : ℕ) : (update^[n] (s.repositionAt N d)).beg =
      segmentAt s.beg s.stop ((d + n : ℕ) / N) s.curve := by
  rw [InDomain] at hdomain
  cases hcurve : s.curve with
  | step => exact update_repositionAt_step hcurve d n
  | linear => exact update_repositionAt_linear hN hcurve d n
  | exponential =>
    rw [hcurve] at hdomain
    exact update_repositionAt_exponential hdomain hcurve d n
  | sine => exact update_repositionAt_sine hcurve d n
  | welch => exact absurd hcurve hwelch
  | square => exact update_repositionAt_square hcurve d n
  | cubic => exact update_repositionAt_cubic hcurve d n
  | custom curve => exact update_repositionAt_custom hN hcurve d n

theorem update_repositionAt_welch (hcurve : s.curve = .welch) (d n : ℕ) :
    (update^[n] (s.repositionAt N d)).beg =
      s.beg + (s.stop - s.beg) * sin (π / 2 * ((d + n : ℕ) / N)) := by
  let w := π / 2 / N
  have hstart : s.repositionAt N d = { s with
      a2 := s.beg
      b1 := 2 * cos w
      y2 := (s.stop - s.beg) * sin (w * (d - 1))
      beg := s.beg + (s.stop - s.beg) * sin (w * d)
      y1 := s.beg + (s.stop - s.beg) * sin (w * d) - s.beg } := by rw [repositionAt, hcurve]
  have hplace' : w * d - w = w * (d - 1) := by ring
  have hupdate := update_welch (s := s.repositionAt N d) (f := fun x => (s.stop - s.beg) * sin x)
    (w := w) (x := w * d) (sin_add_step _ w) (by rw [hstart]) (by rw [hstart]; ring)
    (by rw [hstart, hplace']) (by rw [hstart]; exact hcurve) (by rw [hstart]) n
  have hplace : w * d + n * w = π / 2 * ((d + n : ℕ) / N) := by
    simp only [w]
    push_cast
    ring
  rw [hupdate, hstart, hplace]

theorem update_init (hN : 0 < N) (hdomain : s.InDomain) (n : ℕ) :
    (update^[n] (s.init N)).beg = segmentAt s.beg s.stop (n / N) s.curve := by
  by_cases hwelch : s.curve = .welch
  · rcases le_or_gt s.beg s.stop with hle | hlt
    · have h := update_repositionAt_welch (N := N) hwelch 0 n
      rw [Nat.cast_zero, repositionAt_zero hdomain fun _ => hle, Nat.zero_add] at h
      rw [h, hwelch, segmentAt_welch_of_le hle]
    · rw [hwelch, update_init_welch hwelch hlt]
  · have h := update_repositionAt hN hdomain hwelch 0 n
    rwa [Nat.cast_zero, repositionAt_zero hdomain fun hcurve => absurd hcurve hwelch,
      Nat.zero_add] at h

end ClosedForms

section Agreement

variable {s : Segment} {N d n : ℕ}

theorem beg_init (s : Segment) (dur : ℝ) : (s.init dur).beg = s.beg := by
  rw [init]
  repeat' split
  all_goals rfl

theorem segmentAt_zero (hdomain : s.InDomain) : segmentAt s.beg s.stop 0 s.curve = s.beg := by
  have h := update_init one_pos hdomain 0
  rw [Nat.cast_zero, zero_div] at h
  rw [← h, Function.iterate_zero_apply, beg_init]

end Agreement

end Segment

def SegFunction.toSample : SegFunction → ℝ
  | .step => segStepFunc
  | .linear => segLinFunc
  | .exponential => segExpFunc
  | .sine => segSineFunc
  | .welch => segWelchFunc
  | .square => segSquareFunc
  | .cubic => segCubicFunc
  | .custom curve => curve

namespace Segment

def ofFrame (f : SegmentFrame ℝ) : Segment :=
  ⟨f.level, f.stop, curveCase f.curve, f.grow, f.a2, f.b1, f.y1, f.y2⟩

def toFrame (s : Segment) : SegmentFrame ℝ :=
  ⟨s.beg, s.stop, s.curve.toSample, s.grow, s.a2, s.b1, s.y1, s.y2⟩

theorem stop_init (s : Segment) (dur : ℝ) : (s.init dur).stop = s.stop := by
  rw [init]
  repeat' split
  all_goals rfl

theorem stop_update (s : Segment) : s.update.stop = s.stop := by
  rw [update]
  split <;> rfl

def functions : SegmentFunctions ℝ where
  init f dur := ((ofFrame f).init dur).toFrame
  reposition f dur delta :=
    (if delta = 0 then (ofFrame f).init dur else (ofFrame f).repositionAt dur delta).toFrame
  update f := (ofFrame f).update.toFrame
  stop_init f dur := stop_init (ofFrame f) dur
  stop_update f := stop_update (ofFrame f)

end Segment

namespace Envelope

open Segment

def segment (env : Envelope ℝ) (k : ℕ) : Segment :=
  ⟨env.levelAt k, env.levelAt (k + 1), curveCase (env.curveAt (k + 1)), 0, 0, 0, 0, 0⟩

def nodeTime (env : Envelope ℝ) : ℕ → ℝ
  | 0 => 0
  | k + 1 => nodeTime env k + env.data (k * 3 + 1)

section LevelAtTime

variable {env : Envelope ℝ}

theorem nodeTime_le (h : ∀ k, k + 1 < env.points → 0 ≤ env.data (k * 3 + 1)) {j k : ℕ}
    (hjk : j ≤ k) (hk : k < env.points) : env.nodeTime j ≤ env.nodeTime k := by
  induction k, hjk using Nat.le_induction with
  | base => exact le_rfl
  | succ k _ ih => exact (ih (by omega)).trans (le_add_of_nonneg_right (h k hk))

theorem look_node (time : ℝ) (n p : ℕ) :
    env.look time n (p + 1) ((p + 1) * 3) (env.nodeTime p) =
      if time < env.nodeTime (p + 1) then
        segmentAt (env.levelAt p) (env.levelAt (p + 1))
          ((time - env.nodeTime p) / env.data (p * 3 + 1)) (curveCase (env.curveAt (p + 1)))
      else
        match n with
        | n + 1 => env.look time n (p + 2) ((p + 2) * 3) (env.nodeTime (p + 1))
        | 0 => env.levelAt (p + 1) := by
  have hindex : (p + 1) * 3 - 2 = p * 3 + 1 := by omega
  have hnext : env.nodeTime p + env.data (p * 3 + 1) = env.nodeTime (p + 1) := rfl
  have hbeg : (if p + 1 = 1 then 0 else (p + 1) * 3 - 4) = levelIndex p := by
    rw [levelIndex]
    split <;> split <;> omega
  have hend : (p + 1) * 3 - 1 = levelIndex (p + 1) := by rw [levelIndex, if_pos (Nat.succ_pos p)]
  have hthree : (p + 1) * 3 + 3 = (p + 2) * 3 := by ring
  rw [look.eq_def]
  simp only [hindex, hnext, hbeg, hend, hthree]
  rfl

section

variable (h : ∀ k, k + 1 < env.points → 0 ≤ env.data (k * 3 + 1))
include h

theorem look_eq {k : ℕ} (hpoints : k + 1 < env.points) (hle : env.nodeTime k ≤ time)
    (hlt : time < env.nodeTime (k + 1)) (n p : ℕ) (hp : p ≤ k) (hk : k ≤ p + n) :
    env.look time n (p + 1) ((p + 1) * 3) (env.nodeTime p) =
      segmentAt (env.levelAt k) (env.levelAt (k + 1))
        ((time - env.nodeTime k) / env.data (k * 3 + 1)) (curveCase (env.curveAt (k + 1))) := by
  induction n generalizing p with
  | zero =>
    have hpk : p = k := by omega
    subst hpk
    rw [look_node, if_pos hlt]
  | succ n ih =>
    rcases hp.lt_or_eq with hpk | rfl
    · have hnot : ¬ time < env.nodeTime (p + 1) :=
        not_lt.mpr ((nodeTime_le h hpk (by omega)).trans hle)
      rw [look_node, if_neg hnot]
      exact ih (p + 1) hpk (by omega)
    · rw [look_node, if_pos hlt]

/-- The time is in the segment after the node `k`. -/
theorem envelopeAt_of_mem {k : ℕ} (hk : k + 1 < env.points) (htime : time ≠ 0)
    (hle : env.nodeTime k ≤ time) (hlt : time < env.nodeTime (k + 1)) : env.envelopeAt time =
      segmentAt (env.levelAt k) (env.levelAt (k + 1))
        ((time - env.nodeTime k) / env.data (k * 3 + 1)) (curveCase (env.curveAt (k + 1))) := by
  rw [envelopeAt, if_neg htime]
  exact look_eq h hk hle hlt (env.points - 2) 0 (Nat.zero_le k) (by omega)

theorem envelopeAt_fraction {k : ℕ} (hk : k + 1 < env.points) (hduration : 0 < env.data (k * 3 + 1))
    {pos : ℝ} (hpos : 0 < pos) (hpos' : pos < 1) :
    env.envelopeAt (env.nodeTime k + pos * env.data (k * 3 + 1)) =
      segmentAt (env.levelAt k) (env.levelAt (k + 1)) pos (curveCase (env.curveAt (k + 1))) := by
  have hstart : 0 ≤ env.nodeTime k := nodeTime_le h (Nat.zero_le k) (by omega)
  have hoffset : 0 < pos * env.data (k * 3 + 1) := mul_pos hpos hduration
  have htime : env.nodeTime k + pos * env.data (k * 3 + 1) < env.nodeTime (k + 1) := by
    rw [nodeTime]
    nlinarith
  have hne : env.nodeTime k + pos * env.data (k * 3 + 1) ≠ 0 := by linarith
  rw [envelopeAt_of_mem h hk hne (by linarith) htime, add_sub_cancel_left,
    mul_div_cancel_right₀ pos hduration.ne']

theorem look_end (n p : ℕ) (hp : p + n + 2 = env.points) (htime : env.nodeTime (p + n + 1) ≤ time) :
    env.look time n (p + 1) ((p + 1) * 3) (env.nodeTime p) = env.levelAt (p + n + 1) := by
  induction n generalizing p with
  | zero => rw [look_node, if_neg htime.not_gt]
  | succ n ih =>
    have hle : env.nodeTime (p + 1) ≤ env.nodeTime (p + (n + 1) + 1) :=
      nodeTime_le h (by omega) (by omega)
    have hindex : p + (n + 1) + 1 = p + 1 + n + 1 := by omega
    rw [look_node, if_neg (hle.trans htime).not_gt, hindex]
    exact ih (p + 1) (by omega) (hindex ▸ htime)

theorem envelopeAt_end (hpoints : 2 ≤ env.points) (hpos : time ≠ 0)
    (htime : env.nodeTime (env.points - 1) ≤ time) :
    env.envelopeAt time = env.levelAt (env.points - 1) := by
  have hlast : env.points - 1 = 0 + (env.points - 2) + 1 := by omega
  rw [hlast] at htime ⊢
  rw [envelopeAt, if_neg hpos]
  exact look_end h _ 0 (by omega) htime

end

/-- The first level, the curve of each segment, and the last level from the end on. -/
theorem envelopeAt_eq (h : ∀ k, k + 1 < env.points → 0 ≤ env.data (k * 3 + 1))
    (hpoints : 2 ≤ env.points) :
    env.envelopeAt 0 = env.levelAt 0 ∧
      (∀ k pos, k + 1 < env.points → 0 < env.data (k * 3 + 1) → 0 < pos → pos < 1 →
        env.envelopeAt (env.nodeTime k + pos * env.data (k * 3 + 1)) =
          segmentAt (env.levelAt k) (env.levelAt (k + 1)) pos (curveCase (env.curveAt (k + 1)))) ∧
      ∀ time, 0 < time → env.nodeTime (env.points - 1) ≤ time →
        env.envelopeAt time = env.levelAt (env.points - 1) := by
  refine ⟨?_, fun k pos hk hduration hpos hpos' => envelopeAt_fraction h hk hduration hpos hpos',
    fun time hpos htime => envelopeAt_end h hpoints hpos.ne' htime⟩
  rw [envelopeAt, if_pos rfl]
  rfl

end LevelAtTime

/-- The segment `s` follows the node `k` of an envelope. No segment is empty, and each one has its
levels in the domain of its curve. -/
structure HasSegment (env : Envelope ℝ) (k : ℕ) (s : Segment) : Prop where
  points : k + 1 < env.points
  beg : s.beg = env.levelAt k
  stop : s.stop = env.levelAt (k + 1)
  curve : s.curve = curveCase (env.curveAt (k + 1))
  times : ∀ j, j + 1 < env.points → 0 < env.data (j * 3 + 1)
  domain : ∀ j, j + 1 < env.points → (env.segment j).InDomain

section Agreement

variable {env : Envelope ℝ} {k : ℕ} {s : Segment} {N d n : ℕ}

theorem HasSegment.inDomain (h : env.HasSegment k s) : s.InDomain := by
  have hdomain := h.domain k h.points
  rw [InDomain, segment] at hdomain
  rw [InDomain, h.curve, h.beg, h.stop]
  exact hdomain

theorem HasSegment.nodeTime_pos (h : env.HasSegment k s) {j : ℕ} (hj : 0 < j)
    (hpoints : j < env.points) : 0 < env.nodeTime j := by
  have hone : env.nodeTime 1 ≤ env.nodeTime j :=
    nodeTime_le (fun j hj => (h.times j hj).le) hj hpoints
  have hfirst := h.times 0 (by have := h.points; omega)
  rw [nodeTime, nodeTime, zero_add] at hone
  exact hfirst.trans_le hone

theorem HasSegment.envelopeAt_start (h : env.HasSegment k s) :
    env.envelopeAt (env.nodeTime k) = s.beg := by
  rcases Nat.eq_zero_or_pos k with rfl | hk
  · rw [nodeTime, envelopeAt, if_pos rfl, h.beg]
    rfl
  · have hlt : env.nodeTime k < env.nodeTime (k + 1) :=
      lt_add_of_pos_right _ (h.times k h.points)
    rw [envelopeAt_of_mem (fun j hj => (h.times j hj).le) h.points
      (h.nodeTime_pos hk (by have := h.points; omega)).ne' le_rfl hlt, sub_self, zero_div, ← h.curve,
      ← h.beg, ← h.stop]
    exact segmentAt_zero h.inDomain

theorem HasSegment.envelopeAt (h : env.HasSegment k s) (hN : 0 < N) {m : ℕ} (hm : m < N) :
    env.envelopeAt (env.nodeTime k + (m : ℕ) / N * env.data (k * 3 + 1)) =
      segmentAt s.beg s.stop ((m : ℕ) / N) s.curve := by
  have hN' : (0 : ℝ) < N := by exact_mod_cast hN
  rcases Nat.eq_zero_or_pos m with rfl | hpos
  · rw [Nat.cast_zero, zero_div, zero_mul, add_zero, segmentAt_zero h.inDomain]
    exact h.envelopeAt_start
  · rw [envelopeAt_fraction (fun j hj => (h.times j hj).le) h.points (h.times k h.points)
      (div_pos (by exact_mod_cast hpos) hN') ((div_lt_one hN').mpr (by exact_mod_cast hm)),
      ← h.curve, ← h.beg, ← h.stop]

/-- The levels 0, 1, 3 and 0: a line, a sine and a line. -/
def threeSegments : Envelope ℝ where
  data i := [0, 1, 1, segLinFunc, 1, 3, segSineFunc, 2, 0, segLinFunc].getD i (-1)
  duration := 4
  points := 4
  dataSize := 10
  loopNode := -1
  releaseNode := -1

theorem curveCase_segSineFunc : curveCase segSineFunc = .sine := by
  rw [curveCase, if_neg (by norm_num [segSineFunc, segStepFunc]),
    if_neg (by norm_num [segSineFunc, segLinFunc]), if_neg (by norm_num [segSineFunc, segExpFunc]),
    if_pos rfl]

theorem times_threeSegments (j : ℕ) (hj : j + 1 < threeSegments.points) :
    0 < threeSegments.data (j * 3 + 1) := by
  match j, hj with
  | 0, _ => exact one_pos
  | 1, _ => exact one_pos
  | 2, _ => exact two_pos

theorem envelopeAt_threeSegments : threeSegments.envelopeAt 0 = 0 ∧
    threeSegments.envelopeAt (3 / 2) = 2 ∧ threeSegments.envelopeAt 4 = 0 := by
  obtain ⟨hstart, hsegment, hend⟩ :=
    @envelopeAt_eq threeSegments (fun j hj => (times_threeSegments j hj).le) (by decide)
  have hnode : threeSegments.nodeTime 1 = 1 := zero_add 1
  have hlast : threeSegments.nodeTime 3 = 4 := by
    change 0 + 1 + 1 + 2 = (4 : ℝ)
    norm_num
  have hsine := hsegment 1 (1 / 2) (by decide) one_pos one_half_pos one_half_lt_one
  change threeSegments.envelopeAt (threeSegments.nodeTime 1 + 1 / 2 * 1) =
    segmentAt 1 3 (1 / 2) (curveCase segSineFunc) at hsine
  rw [curveCase_segSineFunc, segmentAt, mul_one_div, cos_pi_div_two, hnode] at hsine
  refine ⟨hstart, ?_, hend 4 four_pos hlast.le⟩
  norm_num at hsine ⊢
  exact hsine

end Agreement

end Envelope

end Incudine

end

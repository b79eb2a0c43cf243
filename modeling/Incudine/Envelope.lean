import Incudine.Literals
import Incudine.Signals
import Mathlib.Algebra.Order.Field.Basic
import Mathlib.Data.List.Basic
import Mathlib.Tactic.NormNum
import Mathlib.Tactic.Ring

/-!
# Envelopes

The data of an envelope with `p` points are `3 p - 2` samples: the first level, and the time, the
level and the curve of each other node. A curve is a number that is an identifier for the curves
with a name.
-/

namespace Incudine

open scoped Literals

/-- The curve of a segment: a keyword, a number, or another object. -/
inductive CurveSpec (K : Type)
  | step
  | linear
  | exponential
  | sine
  | welch
  | square
  | cubic
  | number (x : K)
  | other
  deriving DecidableEq

section Curves

variable {K : Type} [Field K]

def segStepFunc : K := 5 * 10 ^ 15

def segLinFunc : K := 10 ^ 16

def segExpFunc : K := 2 * 10 ^ 16

def segSineFunc : K := 4 * 10 ^ 16

def segWelchFunc : K := 8 * 10 ^ 16

def segSquareFunc : K := 16 * 10 ^ 16

def segCubicFunc : K := 32 * 10 ^ 16

def segFunctionSpecToSample : CurveSpec K → K
  | .number x => x
  | .step => segStepFunc
  | .linear => segLinFunc
  | .exponential => segExpFunc
  | .sine => segSineFunc
  | .welch => segWelchFunc
  | .square => segSquareFunc
  | .cubic => segCubicFunc
  | .other => segLinFunc

def exponentialCurveP : CurveSpec K → Bool
  | .exponential => true
  | _ => false

def expSampleZero : K := 1 / 10 ^ 5

def envelopeFixZero [DecidableEq K] (level : K) (curve : CurveSpec K) : K :=
  if exponentialCurveP curve ∧ level = 0 then expSampleZero else level

end Curves

structure Envelope (K : Type) where
  /-- `smp-ref` of the foreign data. -/
  data : ℕ → K
  duration : K
  points : ℕ
  dataSize : ℕ
  loopNode : ℤ
  releaseNode : ℤ

def computeEnvelopeDataSize (size : ℕ) : ℕ := size * 3 - 2

def levelIndex (node : ℕ) : ℕ := if 0 < node then node * 3 - 1 else 0

namespace Envelope

variable {K : Type} [Field K] [LinearOrder K]

def computePoints (levels times : List K) : ℕ := max levels.length (times.length + 1)

def checkPoints (levels times : List K) (env : Envelope K) : Envelope K :=
  let size := computePoints levels times
  if size ≠ env.points then
    { env with points := size, dataSize := computeEnvelopeDataSize size }
  else env

def baseToCurve (base lev0 lev1 min max : K) : Option K :=
  let b1 := base - 1
  let b2 := max - base * min
  if lev0 * b1 + b2 = 0 then none else some ((lev1 * b1 + b2) / (lev0 * b1 + b2))

def baseCurvesLoop (log : K → K) (base min max : K) : List K → Option (List (CurveSpec K))
  | y0 :: y1 :: levels =>
    (baseToCurve base y0 y1 min max).bind fun x =>
      (baseCurvesLoop log base min max (y1 :: levels)).map (.number (log x) :: ·)
  | _ => some []

def baseToCurves (log : K → K) (base : K) : List K → Option (List (CurveSpec K))
  | [] => none
  | y :: levels =>
    if base < 0 then none
    else if base = 0 then some [.step]
    else if base = 1 then some [.linear]
    else baseCurvesLoop log base (levels.foldl min y) (levels.foldl max y) (y :: levels)

def editCurves (log : K → K) (levels : List K) (curve : List (CurveSpec K)) (base : Option K) :
    Option (List (CurveSpec K)) :=
  match base with
  | some base => baseToCurves log base levels
  | none => if curve.isEmpty then some [.linear] else some curve

/-- `(or (cdr l) start)`. -/
def cycle {α : Type} (start l : List α) : List α := if l.tail.isEmpty then start else l.tail

def addTime (i : ℕ) (time : K) (env : Envelope K) : Envelope K :=
  { env with data := Function.update env.data i time, duration := env.duration + time }

/-- The level at `i` and the curve after it. -/
def addNode (i : ℕ) (level : K) (c : CurveSpec K) (env : Envelope K) : Envelope K :=
  { env with
    data := Function.update (Function.update env.data i (envelopeFixZero level c)) (i + 1)
      (segFunctionSpecToSample c) }

/-- The loop of `%edit-envelope` with `n` nodes left. The index is `data-size` at the end. -/
def editLoop (levels times : List K) (curve : List (CurveSpec K)) : ℕ → ℕ → List K → List K →
    List (CurveSpec K) → EStateM Unit (Envelope K) Unit
  | 0, _, _, _, _ => pure ()
  | _ + 1, _, _, [], _ => throw ()
  | _ + 1, i, [], time :: _, _ => do
    modify (addTime i time)
    throw ()
  | n + 1, i, level :: lev, time :: tim, cur => do
    modify (addTime i time)
    modify (addNode (i + 1) level (cur.head?.getD .other))
    editLoop levels times curve n (i + 3) (cycle levels.tail (level :: lev))
      (cycle times (time :: tim)) (cycle curve cur)

def editStart (firstLevel : K) (curve : List (CurveSpec K)) (loopNode releaseNode : Option ℤ)
    (env : Envelope K) : Envelope K :=
  { env with
    data := Function.update env.data 0 (envelopeFixZero firstLevel (curve.head?.getD .other))
    duration := 0
    loopNode := loopNode.getD env.loopNode
    releaseNode := releaseNode.getD env.releaseNode }

/-- `%edit-envelope`. An error leaves the changes made before it. -/
def edit (log : K → K) (levels times : List K) (curve : List (CurveSpec K)) (base : Option K)
    (loopNode releaseNode : Option ℤ) : EStateM Unit (Envelope K) Unit := do
  modify (checkPoints levels times)
  match editCurves log levels curve base, levels with
  | some curve, firstLevel :: lev =>
    modify (editStart firstLevel curve loopNode releaseNode)
    editLoop levels times curve (computePoints levels times - 1) 1 lev times curve
  | _, _ => throw ()

/-- `edit-envelope`, if only LEVELS, TIMES, CURVE, BASE and the nodes are given. -/
def editEnvelope (log : K → K) (levels times : List K) (curve : List (CurveSpec K))
    (base : Option K) (loopNode releaseNode : Option ℤ) : EStateM Unit (Envelope K) Unit :=
  if levels.isEmpty then pure () else edit log levels times curve base loopNode releaseNode

/-- `make-envelope`; `memory` is the content of the new data. -/
def make (log : K → K) (memory : ℕ → K) (levels times : List K) (curve : List (CurveSpec K))
    (base : Option K) (loopNode releaseNode : ℤ) : Option (Envelope K) :=
  let size := max levels.length (times.length + 1)
  let env : Envelope K :=
    { data := memory
      duration := 0
      points := size
      dataSize := computeEnvelopeDataSize size
      loopNode := -1
      releaseNode := -1 }
  match editEnvelope log levels times curve base (some loopNode) (some releaseNode) env with
  | .ok _ env => some env
  | .error _ _ => none

def level (env : Envelope K) (node : ℕ) : K :=
  env.data (if 0 < node then min node (env.points - 1) * 3 - 1 else 0)

def fixZeroP (env : Envelope K) (node curveIndex : ℕ) : Prop :=
  (0 < node ∧ env.data curveIndex = segExpFunc) ∨
    (node ≠ env.points - 1 ∧ env.data (curveIndex + 3) = segExpFunc)

instance (env : Envelope K) (node curveIndex : ℕ) : Decidable (env.fixZeroP node curveIndex) :=
  inferInstanceAs (Decidable (_ ∨ _))

def setLevel (env : Envelope K) (node : ℕ) (level : K) : Envelope K :=
  if node < env.points then
    let curveIndex := node * 3
    { env with
      data := Function.update env.data (if 0 < node then curveIndex - 1 else 0)
        (if level = 0 ∧ env.fixZeroP node curveIndex then expSampleZero else level) }
  else env

def segmentFixZero (data : ℕ → K) (i : ℕ) (newZero oldZero : K) : ℕ → K :=
  if data i = oldZero then Function.update data i newZero else data

def segmentFixZeros (data : ℕ → K) (i j : ℕ) (newZero oldZero : K) : ℕ → K :=
  segmentFixZero (segmentFixZero data i newZero oldZero) j newZero oldZero

def setCurve (env : Envelope K) (node : ℕ) (curve : CurveSpec K) : Envelope K :=
  if 0 < node ∧ node < env.points then
    let curveIndex := node * 3
    let endIndex := curveIndex - 1
    let begIndex := if node = 1 then 0 else endIndex - 3
    let data :=
      if exponentialCurveP curve then segmentFixZeros env.data begIndex endIndex expSampleZero 0
      else segmentFixZeros env.data begIndex endIndex 0 expSampleZero
    { env with data := Function.update data curveIndex (segFunctionSpecToSample curve) }
  else env

def levels (env : Envelope K) : List K := (List.range env.points).map env.level

def setCurves (env : Envelope K) : List (CurveSpec K) → ℕ → Envelope K
  | [], _ => env
  | c :: curves, i => setCurves (env.setCurve i c) curves (i + 1)

def setBase (log : K → K) (env : Envelope K) (base : K) : Option (Envelope K) :=
  (baseToCurves log base env.levels).map fun curves => env.setCurves curves 1

def scaleLoop (mult : K) : ℕ → ℕ → Envelope K → Envelope K
  | 0, _, env => env
  | n + 1, i, env => scaleLoop mult n (i + 1) (env.setLevel i (env.data (i * 3 - 1) * mult))

def scale (env : Envelope K) (mult : K) : Envelope K :=
  let env' := env.setLevel 0 (env.data 0 * mult)
  scaleLoop mult (env.points - 1) 1 env'

def normLoop (env : Envelope K) : ℕ → ℕ → K → K
  | 0, _, maxval => maxval
  | n + 1, index, maxval => normLoop env n (index + 1) (max |env.level index| maxval)

def normalize (env : Envelope K) (value : K) : Option (Envelope K) :=
  let maxval := normLoop env (env.points - 1) 1 |env.level 0|
  if maxval = 0 then none else some (env.scale (value / maxval))

def rescLoop (env : Envelope K) (index : ℕ) (oldMin oldMax : K) : K × K :=
  if env.points ≤ index then (oldMin, oldMax)
  else rescLoop env (index + 3) (min (env.data index) oldMin) (max (env.data index) oldMax)
termination_by env.points - index

def setLevels (lo newDelta oldDelta oldMin : K) : ℕ → ℕ → ℕ → Envelope K → Envelope K
  | 0, _, _, env => env
  | n + 1, index, offset, env =>
    setLevels lo newDelta oldDelta oldMin n (index + 1) (offset + 3)
      (env.setLevel index (lo + newDelta * oldDelta * (env.data offset - oldMin)))

/-- `rescale-envelope`, if it does not divide by zero. -/
def rescale (env : Envelope K) (lo hi : K) : Option (Envelope K) :=
  let init := env.level 0
  let (oldMin, oldMax) := rescLoop env 2 init init
  if oldMax - oldMin = 0 then none
  else
    let oldDelta := 1 / (oldMax - oldMin)
    let newDelta := hi - lo
    let env' := env.setLevel 0 (lo + newDelta * oldDelta * (env.data 0 - oldMin))
    some (setLevels lo newDelta oldDelta oldMin (env.points - 1) 1 2 env')

end Envelope

end Incudine

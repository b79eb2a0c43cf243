import Incudine.EnvelopeTable
import Incudine.Literals

/-!
# The envelope generator

The variables of the VUG `envelope` at each sample. The place in the envelope is a node and the
index of the data of its segment. A control changes the level, or it jumps to another place.
-/

namespace Incudine

open scoped Literals

/-- The inputs that do not change. -/
structure EnvelopeGenerator (K : Type) where
  env : Envelope K
  restartLevel : Option K
  sampleRate : K
  functions : SegmentFunctions K

namespace EnvelopeGenerator

/-- The indexes of the values of a segment when it is started; a custom release does not read
the duration. -/
structure SegmentStart where
  node : ℤ
  dur : Option ℤ
  level : ℤ
  curve : ℤ

/-- The variables of `envelope`, and the traces of what it does. -/
structure State (K : Type) where
  gate : K
  timeScale : K
  /-- The first slot is `last-level`. -/
  frame : SegmentFrame K
  oldGate : K
  index : ℤ
  currNode : ℤ
  offset : ℤ
  currIndex : ℤ
  prevIndex : ℤ
  sustain : Bool
  doneP : Bool
  dur : ℕ
  remain : ℤ
  pos : ℤ
  gateTrig : Bool
  carry : K
  level : K
  values : K × ℤ
  doneCalls : ℕ
  reads : List ℤ
  starts : List SegmentStart

variable {K : Type} [Field K] [LinearOrder K] [FloorRing K]

section Variables

variable (g : EnvelopeGenerator K)

def dataSize : ℤ := g.env.dataSize

omit [LinearOrder K] [FloorRing K] in
theorem dataSize_eq (hw : g.env.WellFormed) (hpoints : 2 ≤ g.env.points) :
    g.dataSize = 3 * g.env.points - 2 := by
  rw [dataSize, hw.dataSize, computeEnvelopeDataSize]
  omega

def lastPoint : ℤ := (g.env.points : ℤ) - 1

def lastDurIndex : ℤ := g.dataSize - 3

/-- The data at an index inside the envelope. -/
def smpRef (i : ℤ) : K := g.env.data i.toNat

def nextDur (index : ℤ) (timeScale carry : K) (offset : ℤ) : ℕ × K :=
  let dur := g.smpRef index * timeScale * g.sampleRate + carry + offset
  ((max 1 ⌊dur⌋).toNat, dur - ⌊dur⌋)

def updateDur (index offset : ℤ) (s : State K) : State K :=
  let r := g.nextDur index s.timeScale s.carry offset
  { s with dur := r.1, carry := r.2, reads := index :: s.reads }

def nextIndex (s : State K) : State K × ℤ :=
  if s.index = 0 then (s, 0)
  else if g.dataSize ≤ s.index then
    let index := g.dataSize - 4
    ({ s with index := index, currNode := index / 3 - 1 }, index)
  else (s, s.index - 3)

omit [Field K] [LinearOrder K] [FloorRing K] in
def jumpNode (dest : ℤ) (s : State K) : State K :=
  { s with index := s.index + (dest - s.currNode) * 3, currNode := dest }

def jumpToLoopNodeP (gate : K) (currNode loopNode releaseNode : ℤ) : Prop :=
  0 ≤ loopNode ∧ currNode = releaseNode ∧ 0 < gate ∧ currNode ≠ loopNode

def toSustainP (gate : K) (currNode releaseNode : ℤ) : Prop :=
  currNode = releaseNode ∧ 0 < gate

def releaseBeforeSustainP (gate : K) (sustain : Bool) (currNode releaseNode : ℤ) : Prop :=
  gate = 0 ∧ sustain = false ∧ 0 < releaseNode ∧ currNode < releaseNode

instance (gate : K) (currNode loopNode releaseNode : ℤ) :
    Decidable (jumpToLoopNodeP gate currNode loopNode releaseNode) :=
  inferInstanceAs (Decidable (_ ∧ _))

instance (gate : K) (currNode releaseNode : ℤ) : Decidable (toSustainP gate currNode releaseNode) :=
  inferInstanceAs (Decidable (_ ∧ _))

instance (gate : K) (sustain : Bool) (currNode releaseNode : ℤ) :
    Decidable (releaseBeforeSustainP gate sustain currNode releaseNode) :=
  inferInstanceAs (Decidable (_ ∧ _))

def releaseBeforeSustain (s : State K) : State K :=
  let s := jumpNode (g.env.releaseNode - 1) { s with carry := 0 }
  { s with remain := 0, frame := { s.frame with stop := s.frame.level }, level := s.frame.level }

def immediateCutoff (s : State K) : State K :=
  { jumpNode g.lastPoint { s with sustain := false, remain := 0 } with level := 0 }

def customDuration (gate : K) : ℕ := ⌊(-1 - gate) * g.sampleRate⌋.toNat

def toLastSegment (s : State K) : State K :=
  let s := jumpNode (g.lastPoint - 1) s
  let level := s.index + 2
  let curve := level + 1
  { s with
    frame := { s.frame with stop := g.smpRef level, curve := g.smpRef curve }
    index := curve
    prevIndex := s.currIndex
    reads := curve :: level :: s.reads
    starts := ⟨s.currNode, none, level, curve⟩ :: s.starts }

def customRelease (s : State K) : State K :=
  let dur := g.customDuration s.gate
  let s := { s with dur := dur, remain := dur - 1, currNode := s.currNode + 1 }
  let s := if s.currNode = g.lastPoint then s else g.toLastSegment s
  { s with
    sustain := false
    frame := g.functions.init s.frame dur
    level := s.frame.level }

def begin (s : State K) : State K :=
  if s.gateTrig then
    { s with
      sustain := decide (0 ≤ s.currNode ∧ toSustainP s.gate s.currNode g.env.releaseNode)
      gateTrig := false
      level := g.smpRef 0
      reads := 0 :: s.reads }
  else { s with index := g.dataSize, frame := { s.frame with level := 0, stop := 0 }, level := 0 }

def restart (s : State K) : State K :=
  let (s, currIndex) :=
    g.nextIndex { s with gateTrig := false, remain := 0, index := 0, currNode := -1 }
  let level := g.restartLevel.getD s.frame.level
  { s with
    currIndex := currIndex
    prevIndex := currIndex
    doneP := false
    sustain := false
    frame := { s.frame with stop := level }
    level := level }

def changeSegment (s : State K) : State K :=
  let index := s.index
  let s := g.updateDur index (s.remain - s.dur) { s with sustain := false }
  { s with
    remain := s.dur
    index := index + 2
    frame := g.functions.init
      { s.frame with stop := g.smpRef (index + 1), curve := g.smpRef (index + 2) } s.dur
    level := s.frame.level
    reads := (index + 2) :: (index + 1) :: s.reads
    starts := ⟨s.currNode, some index, index + 1, index + 2⟩ :: s.starts }

def updateLevel (s : State K) : State K :=
  let noRestart := s.gateTrig ∧ s.gate ≤ s.oldGate
  let s := { s with oldGate := s.gate }
  if noRestart then { s with level := s.frame.level }
  else if releaseBeforeSustainP s.gate s.sustain s.currNode g.env.releaseNode then
    g.releaseBeforeSustain s
  else if s.gate = -1 then g.immediateCutoff s
  else if s.gate < -1 then g.customRelease s
  else if s.index = 0 ∧ s.dur = 0 then g.begin s
  else if s.gateTrig then g.restart s
  else if s.dur = 0 then { s with sustain := false, level := s.frame.stop }
  else if s.doneP ∨ s.currIndex = s.prevIndex then
    { s with sustain := false, level := s.frame.level }
  else g.changeSegment s

def locateSegment (location i : ℕ) (posTime endTime : K) (s : State K) : State K :=
  let j : ℤ := i * 3 + 1
  let offset := j / g.lastDurIndex
  let s := g.updateDur j (-offset) { s with carry := 0, offset := offset }
  let remain := 1 + ⌊(endTime - posTime) * g.sampleRate⌋
  let beg := if j = 1 then 0 else j - 2
  let frame := g.functions.reposition
    { s.frame with
      level := g.smpRef beg
      stop := g.smpRef (j + 1)
      curve := g.smpRef (j + 2) } s.dur (s.dur - remain)
  { s with
    pos := location
    currNode := i
    index := j + 2
    currIndex := j
    prevIndex := j
    remain := remain
    frame := frame
    level := frame.level
    doneP := false
    sustain := false
    reads := (j + 2) :: (j + 1) :: beg :: s.reads
    starts := ⟨i, some j, j + 1, j + 2⟩ :: s.starts }

def locateEnd (endTime : K) (s : State K) : State K :=
  let s := jumpNode ((g.env.points : ℤ) - 1) { s with pos := ⌊endTime * g.sampleRate⌋ - 1 }
  let level := g.smpRef (s.index + 1)
  { s with
    dur := (g.nextDur s.index s.timeScale 0 0).1
    remain := 0
    carry := 0
    frame := { s.frame with level := level }
    index := s.index + 2
    level := level
    reads := (s.index + 1) :: s.index :: s.reads
    doneCalls := if s.doneP then s.doneCalls else s.doneCalls + 1
    doneP := true }

/-- The loop over `n` points from `i` on. -/
def locate (location : ℕ) (posTime : K) : ℕ → ℕ → K → State K → State K
  | 0, _, endTime, s => g.locateEnd endTime s
  | n + 1, i, endTime, s =>
    let j : ℤ := i * 3 + 1
    let endTime := endTime + s.timeScale * g.smpRef j
    let s := { s with reads := j :: s.reads }
    if posTime < endTime - 1 / g.sampleRate then g.locateSegment location i posTime endTime s
    else locate location posTime n (i + 1) endTime s

def startSegment (s : State K) : State K :=
  let offset := s.index / g.lastDurIndex
  -- The carry is incremented before the last segment to prevent rounding errors.
  let s := g.updateDur s.index (-offset)
    { s with offset := offset, carry := s.carry + offset * (1 / 2) }
  let frame := g.functions.init
    { s.frame with
      level := s.frame.stop
      stop := g.smpRef (s.index + 1)
      curve := g.smpRef (s.index + 2) } s.dur
  { s with
    remain := s.dur + offset
    frame := frame
    index := s.index + 2
    prevIndex := s.currIndex
    level := frame.level
    reads := (s.index + 2) :: (s.index + 1) :: s.reads
    starts := ⟨s.currNode, some s.index, s.index + 1, s.index + 2⟩ :: s.starts
    values := (frame.level, s.pos)
    pos := s.pos + 1 }

def endSegment (s : State K) : State K :=
  let s := { s with index := s.index + 1 }
  if g.dataSize ≤ s.index then
    { s with
      doneCalls := s.doneCalls + 1
      doneP := true
      carry := 0
      frame := { s.frame with level := s.frame.stop }
      values := (s.frame.stop, s.pos) }
  else
    let s := { s with currNode := s.currNode + 1 }
    g.startSegment
      (if jumpToLoopNodeP s.gate s.currNode g.env.loopNode g.env.releaseNode then
        jumpNode g.env.loopNode s
      else if toSustainP s.gate s.currNode g.env.releaseNode then { s with sustain := true }
      else s)

def nextPoint (s : State K) : State K :=
  let frame := g.functions.update { s.frame with level := s.level }
  { s with
    remain := if s.remain = 3 ∧ g.dataSize ≤ s.index + 1 then 1 else s.remain - 1
    frame := frame
    level := frame.level
    values := (frame.level, s.pos)
    pos := s.pos + 1 }

def sample (s : State K) : State K :=
  if s.doneP ∨ s.sustain then { s with values := (s.frame.level, s.pos) }
  else if s.remain ≤ 1 then g.endSegment s
  else g.nextPoint s

def bindings (gate timeScale : K) : State K where
  gate := gate
  timeScale := timeScale
  frame := ⟨0, 0, segLinFunc, 0, 0, 0, 0, 0⟩
  oldGate := 0
  index := 0
  currNode := -1
  offset := 0
  currIndex := 0
  prevIndex := 0
  sustain := false
  doneP := false
  dur := 0
  remain := 0
  pos := 0
  gateTrig := decide (0 < gate)
  carry := 0
  level := 0
  values := (0, 0)
  doneCalls := 0
  reads := []
  starts := []

def initial (gate timeScale : K) : State K :=
  let (s, currIndex) := g.nextIndex (bindings gate timeScale)
  let s := g.updateLevel { s with currIndex := currIndex }
  { s with frame := { s.frame with stop := s.level } }

inductive Control (K : Type)
  | gate (x : K)
  | timeScale (x : K)
  | location (l : ℕ)

def apply (s : State K) : Control K → State K
  | .gate x => g.updateLevel { s with gate := x, gateTrig := decide (0 < x) }
  | .timeScale x => g.updateLevel { s with timeScale := x }
  | .location l => g.locate l (l * (1 / g.sampleRate)) g.env.points 0 0 s

def applyAll (s : State K) (controls : List (Control K)) : State K :=
  controls.foldl g.apply s

/-- The variables after `n` samples, with the controls that change before each sample. -/
def run (gate timeScale : K) (controls : ℕ → List (Control K)) : ℕ → State K
  | 0 => g.initial gate timeScale
  | n + 1 => g.sample (g.applyAll (run gate timeScale controls n) (controls n))

end Variables

end EnvelopeGenerator

end Incudine

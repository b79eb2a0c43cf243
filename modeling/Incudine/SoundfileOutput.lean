import Mathlib.Algebra.Order.Group.Nat

/-!
# Soundfile output streams

The values written to an output stream go to a buffer with a block of frames. The first frames of
the block are written to the file when the stream leaves it, and in mix mode the block is read from
the file before.
-/

namespace Incudine.Soundfile

structure Frames (α : Type*) [Zero α] (channels : ℕ) where
  frames : ℕ
  data : ℕ → α
  blank : ∀ i, frames * channels ≤ i → data i = 0

/-- A file opened by the library, with a read and a write position and the number of the reads. -/
structure SndFile (α : Type*) [Zero α] (channels : ℕ) extends Frames α channels where
  readPos : ℕ
  writePos : ℕ
  reads : ℕ

section Library

variable {α : Type*} [Zero α] {channels : ℕ}

def Frames.empty : Frames α channels where
  frames := 0
  data := fun _ => 0
  blank := fun _ _ => rfl

def Frames.ofOption : Option (Frames α channels) → Frames α channels
  | none => .empty
  | some content => content

namespace SndFile

variable (sf : SndFile α channels)

def sfOpen (content : Frames α channels) : SndFile α channels :=
  { content with
    readPos := 0
    writePos := 0
    reads := 0 }

def sfSeek (pos : ℕ) : SndFile α channels × ℤ :=
  ({ sf with
      readPos := pos
      writePos := pos }, pos)

/-- `sf_readf_double`. If `padP` is true of a read, the library fills with zeros the memory of the
frames that it can't read. -/
def sfReadf (padP : ℕ → Bool) (buffer : ℕ → α) (frames : ℕ) :
    SndFile α channels × (ℕ → α) × ℕ :=
  let count := min frames (sf.frames - sf.readPos)
  ({ sf with
      readPos := sf.readPos + count
      reads := sf.reads + 1 },
    fun i =>
      if i < count * channels then sf.data (sf.readPos * channels + i)
      else if padP sf.reads ∧ i < frames * channels then 0
      else buffer i,
    count)

def sfWritef (buffer : ℕ → α) (frames : ℕ) : SndFile α channels where
  frames := max sf.frames (sf.writePos + frames)
  data := fun i =>
    if sf.writePos * channels ≤ i ∧ i < (sf.writePos + frames) * channels then
      buffer (i - sf.writePos * channels)
    else sf.data i
  blank := by
    intro i hi
    have hlast : sf.frames * channels ≤ i :=
      (Nat.mul_le_mul_right channels (le_max_left _ _)).trans hi
    have hend : (sf.writePos + frames) * channels ≤ i :=
      (Nat.mul_le_mul_right channels (le_max_right _ _)).trans hi
    rw [if_neg (by omega), sf.blank i hlast]
  readPos := sf.readPos
  writePos := sf.writePos + frames
  reads := sf.reads

end SndFile

end Library

inductive IfExists
  | append
  | error
  | mix
  | overwrite
  | supersede
  deriving DecidableEq

/-- The content of a file when it is opened. The old content is truncated by `sf-open`, or there is
no file. -/
def IfExists.content {α : Type*} [Zero α] {channels : ℕ} (ifExists : IfExists)
    (old : Option (Frames α channels)) : Frames α channels :=
  if ifExists = .supersede then .empty else .ofOption old

structure OutputStream (α : Type*) [Zero α] (channels : ℕ) where
  sf : SndFile α channels
  openP : Bool
  sfPosition : ℕ
  currFrame : ℕ
  buffer : ℕ → α
  bufferMaxFrames : ℕ
  bufferIndex : ℕ
  bufferOffset : ℕ
  dirtyP : Bool
  bufferWrittenFrames : ℕ
  mixP : Bool
  overwriteP : Bool
  frameThreshold : ℕ
  sfPositionOffset : ℕ

namespace OutputStream

variable {α : Type*} {channels : ℕ}

section Routines

variable [Zero α] (padP : ℕ → Bool) (s : OutputStream α channels)

def bufferSize : ℕ := s.bufferMaxFrames * channels

def zeroSample (start count : ℕ) : OutputStream α channels :=
  { s with
    buffer := fun i => if start ≤ i ∧ i < start + count then 0 else s.buffer i }

/-- The buffer filled with the next frames of the file. The padding is counted in frames, but the
values cleared are samples. -/
def readBeforeMix : OutputStream α channels :=
  match s.sf.sfReadf padP s.buffer s.bufferMaxFrames with
  | (sf, buffer, frames) =>
    let s := { s with
      sf := sf
      buffer := buffer }
    if frames < s.bufferMaxFrames then
      s.zeroSample (frames * channels) (s.bufferMaxFrames - frames)
    else s

def clearBuffer (frames : ℕ) : OutputStream α channels := s.zeroSample 0 (frames * channels)

def writeBufferedData : OutputStream α channels :=
  if s.dirtyP then
    let frames := s.bufferWrittenFrames + 1
    { s.clearBuffer frames with
      sf := s.sf.sfWritef s.buffer frames
      sfPosition := s.sfPosition + frames
      bufferIndex := 0
      dirtyP := false
      bufferWrittenFrames := 0 }
  else s

def setPosition (pos : ℕ) : OutputStream α channels :=
  let s := s.writeBufferedData
  let s := if pos < s.frameThreshold then { s with mixP := true } else s
  let offset := s.sfPositionOffset
  match s.sf.sfSeek (pos + offset) with
  | (sf, result) =>
    let s := { s with sf := sf }
    let pos := result - offset
    if pos < 0 then s
    else
      let s := if s.mixP then s.readBeforeMix padP else s
      { s with
        bufferIndex := 0
        bufferOffset := pos.toNat
        currFrame := pos.toNat
        sfPosition := pos.toNat }

def bufferIndexFwd (frame limit : ℕ) : Option (OutputStream α channels) :=
  let fdiff := frame - s.bufferOffset
  let diff := fdiff * channels
  if diff < limit then
    some { s with
      bufferWrittenFrames := max s.bufferWrittenFrames fdiff
      bufferIndex := diff
      currFrame := frame }
  else none

def bufferIndexRew (frame : ℕ) : Option (OutputStream α channels) :=
  let diff := (frame - s.bufferOffset) * channels
  if diff < s.bufferIndex then
    some { s with
      bufferIndex := diff
      currFrame := frame }
  else none

def moveToFrame (frame bufferEnd : ℕ) : OutputStream α channels :=
  let s :=
    if frame = s.currFrame then s
    else if s.currFrame < frame then
      (s.bufferIndexFwd frame bufferEnd).getD (s.setPosition padP frame)
    else if ¬ frame < s.bufferOffset then
      (s.bufferIndexRew frame).getD (s.setPosition padP frame)
    else s.setPosition padP frame
  { s with dirtyP := true }

def updateFrameThreshold (frame : ℕ) : OutputStream α channels :=
  if s.overwriteP ∨ s.mixP then s
  else if s.frameThreshold < frame then { s with frameThreshold := frame }
  else if frame < s.frameThreshold then { s with mixP := true }
  else s

def close : OutputStream α channels :=
  if s.openP then { s.writeBufferedData with openP := false } else s

end Routines

def writeDouble [Zero α] [Add α] (padP : ℕ → Bool) (s : OutputStream α channels) (frame : ℕ)
    (value : α) (channel : ℕ) : OutputStream α channels :=
  if s.openP ∧ channel < channels then
    let s := (s.moveToFrame padP frame s.bufferSize).updateFrameThreshold frame
    if s.bufferIndex < s.bufferSize then
      let index := s.bufferIndex + channel
      { s with
        buffer := Function.update s.buffer index
          (if s.mixP then s.buffer index + value else value) }
    else s
  else s

section Open

variable [Zero α]

/-- The stream of `open` before the first position is set. Its slot `overwriteP` has the default
value in each mode. -/
def make (ifExists : IfExists) (bufferSize : ℕ) (content : Frames α channels) :
    OutputStream α channels where
  sf := .sfOpen content
  openP := true
  sfPosition := 0
  currFrame := 0
  buffer := fun _ => 0
  bufferMaxFrames := max 8192 bufferSize / channels
  bufferIndex := 0
  bufferOffset := 0
  dirtyP := false
  bufferWrittenFrames := 0
  mixP := ifExists = .mix
  overwriteP := false
  frameThreshold := 0
  sfPositionOffset := if ifExists = .append then content.frames else 0

def openPosition (padP : ℕ → Bool) (s : OutputStream α channels) : IfExists → OutputStream α channels
  | .append => s.setPosition padP 0
  | .mix => { s with sf := (s.sf.sfSeek 0).1 }.readBeforeMix padP
  | .overwrite => { s with sf := (s.sf.sfSeek 0).1 }
  | .error | .supersede => s

/-- `open` with `:direction :output` for a file that doesn't exist or has an old content. The slot
for the size of the buffer is a positive fixnum. -/
def openFile (padP : ℕ → Bool) (ifExists : IfExists) (bufferSize : ℕ)
    (old : Option (Frames α channels)) : Option (OutputStream α channels) :=
  if ifExists = .error ∧ old.isSome then none
  else
    let s := make ifExists bufferSize (ifExists.content old)
    if s.bufferSize = 0 then none else some (s.openPosition padP ifExists)

end Open

/-- The operations on an open stream. -/
inductive Call (α : Type*)
  | write (frame : ℕ) (value : α) (channel : ℕ)
  | setPosition (pos : ℕ)

section Run

variable [Zero α] [Add α] (padP : ℕ → Bool)

def call (s : OutputStream α channels) : Call α → OutputStream α channels
  | .write frame value channel => s.writeDouble padP frame value channel
  | .setPosition pos => s.setPosition padP pos

def run (s : OutputStream α channels) (calls : List (Call α)) : OutputStream α channels :=
  calls.foldl (call padP) s

end Run

end OutputStream

end Incudine.Soundfile

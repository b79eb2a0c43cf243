import Incudine.Cells

/-!
# Soundfile input streams

An input stream reads the frames of a sound file through a buffer. The current frame moves in the
buffer, and the buffer is filled again when the current frame leaves it.
-/

namespace Incudine.Soundfile

/-- The contents of a file. The library has a read position: a seek sets it if it is not after the
end, and a read gets the next frames. -/
structure File (α : Type*) where
  frames : ℕ
  channels : ℕ
  data : ℕ → ℕ → α

structure Stream (α : Type*) where
  openP : Bool
  sf : ℕ
  sfPosition : ℕ
  currFrame : ℕ
  buffer : Cells α
  bufferIndex : ℤ
  bufferEnd : ℕ
  bufferFrames : ℕ
  bufferOffset : ℕ

variable {α : Type*}

def sfSeek (file : File α) (s : Stream α) (pos : ℕ) : Stream α × ℤ :=
  if pos ≤ file.frames then ({ s with sf := pos }, pos) else (s, -1)

/-- The buffer after `sf_readf_double`. -/
def File.fill (file : File α) (start frames : ℕ) (buffer : Cells α) : Cells α := fun i =>
  if 0 ≤ i ∧ i < frames * file.channels then
    file.data (start + i.toNat / file.channels) (i.toNat % file.channels)
  else buffer i

section Routines

variable [Zero α] (file : File α) (maxFrames : ℕ) (s : Stream α)

def readIntoBuffer : Stream α × ℕ :=
  let frames := min maxFrames (file.frames - s.sf)
  let s := { s with
    sf := s.sf + frames
    buffer := file.fill s.sf frames s.buffer }
  let s :=
    if 0 < frames then { s with sfPosition := s.sfPosition + frames, bufferIndex := 0 } else s
  ({ s with bufferEnd := frames * file.channels, bufferFrames := frames }, frames)

def setPosition (pos : ℕ) : Stream α :=
  match sfSeek file s pos with
  | (s, pos) =>
    if pos < 0 then s
    else
      { s with
        bufferIndex := 0
        bufferFrames := 0
        bufferEnd := 0
        bufferOffset := pos.toNat
        currFrame := pos.toNat
        sfPosition := pos.toNat }

def eofP : Bool := file.frames ≤ s.currFrame

/-- The buffer is filled before a test if it is empty. -/
def maybeRead : Stream α :=
  if s.bufferFrames = 0 then (readIntoBuffer file maxFrames s).1 else s

def readForward (channel : ℕ) (peekP : Bool) : α × Stream α :=
  if !s.openP ∨ file.channels ≤ channel ∨ eofP file s then (0, s)
  else
    let s := maybeRead file maxFrames s
    if s.bufferFrames = 0 then (0, s)
    else
      let (s, frames) :=
        if s.bufferEnd ≤ s.bufferIndex then readIntoBuffer file maxFrames s
        else (s, s.bufferFrames)
      if frames = 0 then (0, s)
      else
        let res := s.buffer (s.bufferIndex + channel)
        (res,
          if peekP then s
          else
            { s with
              currFrame := s.currFrame + 1
              bufferIndex := s.bufferIndex + file.channels })

def readBackward (channel : ℕ) (peekP : Bool) : α × Stream α :=
  if !s.openP ∨ file.channels ≤ channel then (0, s)
  else
    let s := maybeRead file maxFrames s
    if s.sfPosition < file.channels then (0, s)
    else
      let res := s.buffer (s.bufferIndex + channel)
      let currFrame := s.currFrame
      let delta : ℕ := if peekP then 0 else 1
      if currFrame = 0 then (res, setPosition file s 0)
      else if s.bufferIndex < file.channels then
        let (pos, bufferFrame) : ℕ × ℤ :=
          if maxFrames < currFrame then (1 + (currFrame - maxFrames), s.bufferFrames - 1 - delta)
          else (0, currFrame - delta)
        let s := (readIntoBuffer file maxFrames (setPosition file s pos)).1
        (res,
          { s with
            currFrame := currFrame - delta
            bufferIndex := bufferFrame * file.channels })
      else if !peekP then
        (res,
          { s with
            currFrame := s.currFrame - 1
            bufferIndex := s.bufferIndex - file.channels })
      else (res, s)

def readNext (channel : ℕ) (peekP forwardP : Bool) : α × Stream α :=
  if forwardP then readForward file maxFrames s channel peekP
  else readBackward file maxFrames s channel peekP

def bufferIndexBelow (frame : ℕ) (limit : ℤ) : Option (Stream α) :=
  let diff := ((frame : ℤ) - s.bufferOffset) * file.channels
  if diff < limit then some { s with bufferIndex := diff, currFrame := frame } else none

def bufferIndexFwd (frame limit : ℕ) : Option (Stream α) := bufferIndexBelow file s frame limit

def bufferIndexRew (frame : ℕ) : Option (Stream α) := bufferIndexBelow file s frame s.bufferIndex

def moveToFrame (frame bufferEnd : ℕ) : Stream α :=
  if frame = s.currFrame then s
  else if s.currFrame < frame then
    (bufferIndexFwd file s frame bufferEnd).getD (setPosition file s frame)
  else if ¬ frame < s.bufferOffset then
    (bufferIndexRew file s frame).getD (setPosition file s frame)
  else setPosition file s frame

def read (frame : Option ℕ) (channel : ℕ) (peekP forwardP : Bool) : α × Stream α :=
  if !s.openP ∨ file.channels ≤ channel then (0, s)
  else
    let frame := frame.getD s.currFrame
    if file.frames ≤ frame then
      (0, if frame = s.currFrame then s else { s with currFrame := file.frames })
    else
      readNext file maxFrames (moveToFrame file s frame s.bufferEnd) channel peekP forwardP

end Routines

/-- The operations on a stream. -/
inductive Call
  | read (frame : Option ℕ) (channel : ℕ) (peekP forwardP : Bool)
  | readNext (channel : ℕ) (peekP forwardP : Bool)
  | setPosition (pos : ℕ)

section Calls

variable [Zero α] (file : File α) (maxFrames : ℕ)

def call (s : Stream α) : Call → Option α × Stream α
  | .read frame channel peekP forwardP =>
    let (value, s) := read file maxFrames s frame channel peekP forwardP
    (some value, s)
  | .readNext channel peekP forwardP =>
    let (value, s) := readNext file maxFrames s channel peekP forwardP
    (some value, s)
  | .setPosition pos => (none, setPosition file s pos)

def calls (s : Stream α) : List Call → List (Option α) × Stream α
  | [] => ([], s)
  | c :: cs =>
    let (value, s) := call file maxFrames s c
    let (values, s) := calls s cs
    (value :: values, s)

def newStream (buffer : Cells α) : Stream α where
  openP := true
  sf := 0
  sfPosition := 0
  currFrame := 0
  buffer := buffer
  bufferIndex := 0
  bufferEnd := 0
  bufferFrames := 0
  bufferOffset := 0

end Calls

section Array

variable [Zero α] (file : File α)

/-- The value of a frame, zero after the end and for a channel that does not exist. -/
def File.value (frame channel : ℕ) : α :=
  if frame < file.frames ∧ channel < file.channels then file.data frame channel else 0

/-- The current frame after a read at a frame. It stays between the start and the end. -/
def File.move (frame : ℕ) (peekP forwardP : Bool) : ℕ :=
  if peekP then min frame file.frames
  else if forwardP then min (frame + 1) file.frames
  else min frame file.frames - 1

/-- An operation on the array with the current frame. -/
def File.call (currFrame : ℕ) : Call → Option α × ℕ
  | .read frame channel peekP forwardP =>
    let frame := frame.getD currFrame
    (some (file.value frame channel),
      if channel < file.channels then file.move frame peekP forwardP else currFrame)
  | .readNext channel peekP forwardP =>
    (some (file.value currFrame channel),
      if channel < file.channels then file.move currFrame peekP forwardP else currFrame)
  | .setPosition pos => (none, if pos ≤ file.frames then pos else currFrame)

def File.calls (currFrame : ℕ) : List Call → List (Option α) × ℕ
  | [] => ([], currFrame)
  | c :: cs =>
    let (value, currFrame) := File.call file currFrame c
    let (values, currFrame) := File.calls currFrame cs
    (value :: values, currFrame)

end Array

end Incudine.Soundfile

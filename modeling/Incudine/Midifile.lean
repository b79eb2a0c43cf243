import Incudine.Octets
import Incudine.Signals
import Mathlib.Data.Rat.Floor

/-!
# MIDI files

An output stream collects the events of the current track in a buffer and writes it as a chunk at
the next track; an input stream reads one event after the other into its message buffer. The beats
and the seconds are rational.
-/

namespace Incudine.Midifile

open Octets Signals

abbrev Octet := UInt8

structure ParseError where
  string : String
  position : ℕ
  track : ℕ
  deriving Repr, DecidableEq

inductive Error
  | assertion
  | typeError
  | indexError
  | endOfFile
  | warning
  | invalidRunningStatus (statusByte : Octet) (position track : ℕ)
  | invalidTrackChunkLength (e : ParseError)
  | invalidVariableLengthQuantity (e : ParseError)
  deriving Repr, DecidableEq

def fixnumBound : ℕ := 2 ^ 62

/-- Lisp's `round`: to the nearest integer, a half to the even one. -/
def round (q : ℚ) : ℤ :=
  if Int.fract q < 1 / 2 then ⌊q⌋
  else if 1 / 2 < Int.fract q then ⌊q⌋ + 1
  else if Even ⌊q⌋ then ⌊q⌋ else ⌊q⌋ + 1

def variableLengthQuantityBytes (value : ℕ) : ℕ :=
  octetCount value

def makeBuffer (pooled : Option (List Octet)) (size : ℕ) : List Octet :=
  match pooled with
  | none => List.replicate size 0
  | some buf => buf ++ List.replicate (size - buf.length) 0

section Output

structure OutputStream where
  fdStream : List Octet
  openP : Bool
  format : ℕ
  numberOfTracks : ℕ
  currentTrack : ℕ
  trackTime : ℕ
  ppqn : ℕ
  smpteFormat : ℕ
  ticksPerFrame : ℕ
  buffer : List Octet
  bufferIndex : ℕ
  lastStatus : Octet
  deriving Repr, DecidableEq

abbrev Output := EStateM Error OutputStream

def OutputStream.endOfTrackP (mf : OutputStream) : Bool :=
  mf.lastStatus = 0xff ∧ 2 < mf.bufferIndex ∧ mf.buffer[mf.bufferIndex - 2]? = some 0x2f

def twoBytes (integer : ℕ) : List Octet :=
  [UInt8.ofNat (integer >>> 8 &&& 0xff), UInt8.ofNat (integer &&& 0xff)]

def fourBytes (integer : ℕ) : List Octet :=
  twoBytes (integer >>> 16) ++ twoBytes integer

/-- The header chunk.  With a positive `ticksPerFrame` the first octet of the division is
`(- (logorc1 #xff ppqn-or-smpte-format))`. -/
def headerChunk (format numberOfTracks ppqnOrSmpteFormat ticksPerFrame : ℕ) : List Octet :=
  [0x4d, 0x54, 0x68, 0x64, 0, 0, 0, 6, 0, UInt8.ofNat (format &&& 0xff),
    UInt8.ofNat (numberOfTracks >>> 8), UInt8.ofNat (numberOfTracks &&& 0xff)] ++
  (if 0 < ticksPerFrame then
    [UInt8.ofNat (0x100 - ppqnOrSmpteFormat % 0x100), UInt8.ofNat ticksPerFrame]
  else [UInt8.ofNat (ppqnOrSmpteFormat >>> 8), UInt8.ofNat (ppqnOrSmpteFormat &&& 0xff)])

def writeHeader : Output PUnit := do
  let mf ← get
  let ppqnOrSmpteFormat := if 0 < mf.ppqn then mf.ppqn else mf.smpteFormat
  check (mf.format < 0x10000 ∧ mf.numberOfTracks < 0x10000 ∧ ppqnOrSmpteFormat < 0x10000 ∧
    mf.ticksPerFrame < 0x100 ∧ (0 < mf.ticksPerFrame → ppqnOrSmpteFormat % 0x100 ≠ 0)) .typeError
  let header := headerChunk mf.format mf.numberOfTracks ppqnOrSmpteFormat mf.ticksPerFrame
  modify fun mf => { mf with fdStream := header ++ mf.fdStream.drop header.length }

def openOutput (format : Option (Fin 3)) (ppqn bufferSize : ℕ) (pooled : Option (List Octet)) :
    EStateM.Result Error OutputStream PUnit :=
  writeHeader {
    fdStream := []
    openP := true
    format := (format.getD 0).val
    numberOfTracks := 1
    currentTrack := 0
    trackTime := 0
    ppqn := ppqn
    smpteFormat := 0
    ticksPerFrame := 0
    buffer := makeBuffer pooled (max 16 bufferSize)
    bufferIndex := 0
    lastStatus := 0 }

def setOctet (i : ℕ) (octet : Octet) : Output PUnit := do
  let mf ← get
  check (i < mf.buffer.length) .indexError
  modify fun mf => { mf with buffer := mf.buffer.set i octet }

/-- The loop of `write-delta-time`, with the octets that are left. -/
def writeGroups (pulses : ℕ) : ℕ → ℕ → Output PUnit
  | 0, _ => pure ⟨⟩
  | 1, i => setOctet i (UInt8.ofNat (0x7f &&& pulses))
  | n + 2, i => do
    setOctet i (UInt8.ofNat (0x80 ||| (pulses >>> ((n + 1) * 7) &&& 0x7f)))
    writeGroups pulses (n + 1) (i + 1)

def writeDeltaTime (pulses start : ℕ) : Output ℕ := do
  let eventTimeBytes := variableLengthQuantityBytes pulses
  writeGroups pulses eventTimeBytes start
  return start + eventTimeBytes

def writeEventTime (beats : ℚ≥0) : Output ℕ := do
  let mf ← get
  let deltaTime := (round (beats * mf.ppqn) - mf.trackTime).toNat
  check (deltaTime < fixnumBound) .typeError
  check (mf.trackTime + deltaTime < fixnumBound) .typeError
  modify fun mf => { mf with trackTime := mf.trackTime + deltaTime }
  writeDeltaTime deltaTime mf.bufferIndex

def ensureBufferSpace (expandSize eventSize : ℕ) : Output PUnit :=
  modify fun mf =>
    if mf.bufferIndex + eventSize + 1 > mf.buffer.length then
      { mf with buffer := mf.buffer ++ List.replicate expandSize 0 }
    else mf

def shortMessageToOctets (value : ℕ) : ℕ → ℕ → Output ℕ
  | 0, j => pure j
  | n + 1, j => do
    setOctet j (UInt8.ofNat (value &&& 0xff))
    shortMessageToOctets (value >>> 8) n (j + 1)

def writeShortEvent (expandSize : ℕ) (beats : ℚ≥0) (msg : UInt32) (size : ℕ) : Output ℕ := do
  check (1 ≤ size ∧ size ≤ 4) .typeError
  check ((← get).openP) .assertion
  ensureBufferSpace expandSize 8
  let status := UInt8.ofNat (msg.toNat &&& 0xff)
  if status = (← get).lastStatus ∧ status < 0xf0 then
    check (1 ≤ size - 1) .typeError
    let start ← writeEventTime beats
    let j ← shortMessageToOctets (msg.toNat >>> 8) (size - 1) start
    modify fun mf => { mf with bufferIndex := j }
    return j
  else
    modify fun mf => { mf with lastStatus := status }
    let start ← writeEventTime beats
    let j ← shortMessageToOctets msg.toNat size start
    modify fun mf => { mf with bufferIndex := j }
    return j

def octetAt (data : List Octet) (i : ℕ) : Output Octet :=
  match data[i]? with
  | some octet => pure octet
  | none => throw .indexError

/-- The loop of `write-event`, with the octets that are left. -/
def copyOctets (data : List Octet) : ℕ → ℕ → ℕ → Output ℕ
  | 0, _, j => pure j
  | n + 1, i, j => do
    setOctet j (← octetAt data i)
    copyOctets data n (i + 1) (j + 1)

def eventLength (data : List Octet) (start : ℕ) (finish : Option ℕ) : ℕ :=
  match finish with
  | some k => k - start
  | none => data.length

def writeEvent (expandSize : ℕ) (beats : ℚ≥0) (data : List Octet) (start : ℕ)
    (finish : Option ℕ) : Output ℕ := do
  check ((← get).openP) .assertion
  check (∀ k ∈ finish, start ≤ k) .typeError
  let len := eventLength data start finish
  let status ← octetAt data start
  modify fun mf => { mf with lastStatus := status }
  if 0 < len then
    ensureBufferSpace expandSize (4 + len)
    let j ← copyOctets data len start (← writeEventTime beats)
    modify fun mf => { mf with bufferIndex := j }
    return j
  else return (← get).bufferIndex

def endOfTrackMessage : UInt32 := 0x2fff

def endOfTrack (expandSize : ℕ) (beats : ℚ≥0) : Output ℕ := do
  let mf ← get
  if mf.endOfTrackP then return mf.bufferIndex
  else writeShortEvent expandSize beats endOfTrackMessage 3

def trackType : ℕ := 0x4d54726b

def writeTrack (expandSize : ℕ) : Output PUnit := do
  let len ← endOfTrack expandSize 0
  check (len < 0x100000000) .typeError
  check (0 < len) .assertion
  modify fun mf => { mf with
    fdStream := mf.fdStream ++ fourBytes trackType ++ fourBytes len ++
      mf.buffer.take mf.bufferIndex
    trackTime := 0
    bufferIndex := 0 }

def nextOutputTrack (expandSize : ℕ) : Output ℕ := do
  if (← get).openP then
    writeTrack expandSize
    modify fun mf => { mf with
      numberOfTracks := mf.numberOfTracks + 1
      currentTrack := mf.currentTrack + 1 }
    return (← get).currentTrack
  else return 0

def closeOutput (expandSize : ℕ) : Output PUnit := do
  if (← get).openP then
    writeTrack expandSize
    if 1 < (← get).numberOfTracks then
      modify fun mf => { mf with format := if mf.format = 0 then 1 else mf.format }
      writeHeader
    modify fun mf => { mf with openP := false }

end Output

section Input

structure Tempo where
  time : ℕ := 0
  seconds : ℚ := 0
  microsecondsPerQuarterNote : ℕ := 500000
  deriving Repr, DecidableEq

structure InputStream where
  fdStream : List Octet
  format : ℕ
  numberOfTracks : ℕ
  currentTrack : ℕ := 0
  trackTime : ℕ := 0
  ppqn : ℕ
  smpteFormat : ℕ
  ticksPerFrame : ℕ
  buffer : List Octet
  position : ℕ := 0
  trackBytesRemain : ℕ := 0
  lastMessageLength : ℕ := 0
  lastDeltaTime : ℕ := 0
  tempoMap : List Tempo := [{}]
  tempoIndex : ℕ := 0
  nextTempoTime : ℕ := 0
  deriving Repr, DecidableEq

abbrev Input := EStateM Error InputStream

/-- The functions of the stream of octets under the MIDI file. -/
abbrev Source := EStateM Error (List Octet)

def readByte : Source Octet := do
  match ← get with
  | [] => throw .endOfFile
  | octet :: octets =>
    set octets
    return octet

def readTwoBytes : Source ℕ := do
  let high ← readByte
  let low ← readByte
  return high.toNat <<< 8 ||| low.toNat

def readFourBytes : Source ℕ := do
  let high ← readTwoBytes
  let low ← readTwoBytes
  return high <<< 16 ||| low

def skipBytes : ℕ → Source PUnit
  | 0 => pure ⟨⟩
  | n + 1 => do
    let _ ← readByte
    skipBytes n

def chunkTypeAndLength : Source (ℕ × ℕ) := do
  let type ← readFourBytes
  let length ← readFourBytes
  return (type, length)

def onSource {α : Type} (x : Source α) : Input α := fun mf =>
  match x mf.fdStream with
  | .ok a octets => .ok a { mf with fdStream := octets }
  | .error e octets => .error e { mf with fdStream := octets }

def getTimecode (x : ℕ) : Source (ℕ × ℕ) := do
  let msb := x >>> 8 &&& 0xff
  check (msb ∈ [0xe2, 0xe3, 0xe7, 0xe8]) .assertion
  return (0x100 - msb, x &&& 0xff)

def headerType : ℕ := 0x4d546864

structure Header where
  format : ℕ
  ntracks : ℕ
  ppqnOrSmpteFormat : ℕ
  ticksPerFrame : Option ℕ
  size : ℕ
  deriving Repr, DecidableEq

/-- `read-header`.  The warning about a longer header is a condition too, which `open` turns
into an error. -/
def readHeader : Source Header := do
  let (type, size) ← chunkTypeAndLength
  check (type = headerType ∧ 6 ≤ size) .assertion
  let format ← readTwoBytes
  check (format ≤ 2) .assertion
  let ntracks ← readTwoBytes
  let division ← readTwoBytes
  check (format = 0 → ntracks = 1) .assertion
  let (ppqnOrSmpteFormat, ticksPerFrame) ←
    if division.testBit 15 then do
      let (smpteFormat, ticks) ← getTimecode division
      pure (smpteFormat, some ticks)
    else pure (division, none)
  if 6 < size then
    skipBytes (size - 6)
    throw .warning
  return { format, ntracks, ppqnOrSmpteFormat, ticksPerFrame, size := 8 + size }

/-- `%next-track`: skip `offset` octets, then the chunks that are not tracks.  Each chunk takes
eight octets of the file, which bounds the recursion. -/
def nextTrackChunk : ℕ → ℕ → Input ℕ
  | 0, _ => throw .endOfFile
  | fuel + 1, offset => do
    if 0 < offset then
      onSource (skipBytes offset)
      modify fun mf => { mf with position := mf.position + offset }
    let (type, size) ← onSource chunkTypeAndLength
    modify fun mf => { mf with position := mf.position + 8 }
    if type = trackType then return size else nextTrackChunk fuel size

def openInput (file : List Octet) (pooled : Option (List Octet)) :
    EStateM.Result Error InputStream PUnit :=
  let mf : InputStream := {
    fdStream := file
    format := 0
    numberOfTracks := 0
    ppqn := 0
    smpteFormat := 0
    ticksPerFrame := 0
    buffer := makeBuffer pooled 8 }
  (do
    let header ← onSource readHeader
    modify fun mf => { mf with
      format := header.format
      numberOfTracks := header.ntracks
      ppqn := if header.ticksPerFrame.isSome then 0 else header.ppqnOrSmpteFormat
      smpteFormat := if header.ticksPerFrame.isSome then header.ppqnOrSmpteFormat else 0
      ticksPerFrame := header.ticksPerFrame.getD 0
      position := header.size }
    let remain ← nextTrackChunk ((← get).fdStream.length + 1) 0
    modify fun mf => { mf with trackBytesRemain := remain } : Input PUnit) mf

def InputStream.metaEventP (mf : InputStream) : Bool :=
  mf.buffer[0]? = some 0xff

def InputStream.tempoEventP (mf : InputStream) : Bool :=
  mf.metaEventP ∧ mf.buffer[1]? = some 0x51

def InputStream.endOfTrackP (mf : InputStream) : Bool :=
  mf.metaEventP ∧ mf.buffer[1]? = some 0x2f

def InputStream.updateNextTempoTime (mf : InputStream) (nextIndex : ℕ) : InputStream :=
  { mf with nextTempoTime := (mf.tempoMap[nextIndex]?.map Tempo.time).getD 0 }

def nextInputTrack : Input (Option ℕ) := do
  let mf ← get
  if 0 < mf.format ∧ mf.currentTrack < mf.numberOfTracks - 1 then
    let size ← nextTrackChunk (mf.fdStream.length + 1) mf.trackBytesRemain
    if 0 < size then
      modify fun mf =>
        { { mf with
            trackBytesRemain := size
            buffer := mf.buffer.set 0 0xff
            trackTime := 0
            tempoIndex := 0 }.updateNextTempoTime 1 with
          currentTrack := mf.currentTrack + 1 }
      return some (← get).currentTrack
    else return none
  else return none

def updateByteCounters (bytes : ℕ) : Input PUnit := do
  let mf ← get
  modify fun mf => { mf with position := mf.position + bytes }
  check (bytes ≤ mf.trackBytesRemain) .typeError
  modify fun mf => { mf with trackBytesRemain := mf.trackBytesRemain - bytes }

/-- The error about a quantity of more than four bytes; it is possible to go on with the next
track. -/
def quantityError {α : Type} (bytes : ℕ) : Input α := do
  let mf ← get
  if bytes ≤ mf.trackBytesRemain then
    updateByteCounters bytes
  throw (.invalidVariableLengthQuantity {
    string := "Variable length quantity in more than four bytes"
    position := mf.position + 1
    track := mf.currentTrack })

/-- The loop of `read-variable-length-quantity`: `left` is `(- 5 bytes)`, and the error is signaled
after the test of the fifth octet. -/
def quantityLoop : ℕ → ℕ → ℕ → Input (ℕ × ℕ)
  | left, bytes, v => do
    let b ← onSource readByte
    let v := v <<< 7 + (b.toNat &&& 0x7f)
    if b < 0x80 then return (v, bytes)
    match left with
    | 0 => quantityError bytes
    | left + 1 => quantityLoop left (bytes + 1) v

def readVariableLengthQuantity : Input (ℕ × ℕ) :=
  quantityLoop 4 1 0

def chunkLengthError {α : Type} : Input α := do
  let mf ← get
  throw (.invalidTrackChunkLength {
    string := "Wrong track-chunk-length"
    position := mf.position + 1
    track := mf.currentTrack })

def advanceTrackTime (deltaTime : ℕ) : Input PUnit := do
  let mf ← get
  check (mf.trackTime + deltaTime < fixnumBound) .typeError
  modify fun mf => { mf with trackTime := mf.trackTime + deltaTime }
  let mf ← get
  if 0 < mf.nextTempoTime ∧ mf.nextTempoTime < mf.trackTime then
    modify fun mf =>
      { mf with tempoIndex := mf.tempoIndex + 1 }.updateNextTempoTime (mf.tempoIndex + 2)

def readDeltaTime : Input (Option ℕ) := do
  if 0 < (← get).trackBytesRemain then
    let (deltaTime, bytes) ← readVariableLengthQuantity
    if bytes < (← get).trackBytesRemain then
      updateByteCounters bytes
    else chunkLengthError
    if 0 < deltaTime then
      advanceTrackTime deltaTime
    modify fun mf => { mf with lastDeltaTime := deltaTime }
    return some deltaTime
  else return none

def storeOctet (i : ℕ) (octet : Octet) : Input PUnit := do
  let mf ← get
  check (i < mf.buffer.length) .indexError
  modify fun mf => { mf with buffer := mf.buffer.set i octet }

def bufferOctet (i : ℕ) : Input Octet := do
  match (← get).buffer[i]? with
  | some octet => return octet
  | none => throw .indexError

def readStatusByte : Input Octet := do
  let s ← onSource readByte
  storeOctet ((s.toNat >>> 7) ^^^ 1) s
  return s

def readIntoMessageBuffer (start finish : ℕ) : Input ℕ := do
  let mf ← get
  check (start ≤ finish ∧ finish ≤ mf.buffer.length) .indexError
  let octets := mf.fdStream.take (finish - start)
  modify fun mf => { mf with
    fdStream := mf.fdStream.drop octets.length
    buffer := splice mf.buffer start octets }
  return start + octets.length

def continueRunningStatus : Input ℕ := do
  let statusByte ← bufferOctet 0
  if statusByte < 0xf0 then
    if statusByte < 0xc0 ∨ 0xdf < statusByte then
      storeOctet 2 (← onSource readByte)
    return (← get).lastMessageLength
  else
    let mf ← get
    if mf.trackBytesRemain ≠ 0 then
      updateByteCounters 1
    throw (.invalidRunningStatus statusByte (mf.position + 1) mf.currentTrack)

def continueMidiEventTwoBytes : Input ℕ := do
  storeOctet 1 (← onSource readByte)
  return 2

def continueMidiEventThreeBytes : Input ℕ :=
  readIntoMessageBuffer 1 3

def metaOrSysexLoop (bufferStart : ℕ) : ℕ → ℕ → ℕ → Input (ℕ × ℕ)
  | left, i, len => do
    let b ← onSource readByte
    let len := len <<< 7 + (b.toNat &&& 0x7f)
    match left with
    | 0 => quantityError (i - bufferStart)
    | left + 1 =>
      storeOctet i b
      if b < 0x80 then return (i + 1, i + 1 + len)
      metaOrSysexLoop bufferStart left (i + 1) len

def metaOrSysexEnd (bufferStart : ℕ) : Input (ℕ × ℕ) :=
  metaOrSysexLoop bufferStart 4 bufferStart 0

/-- The data of a meta event or of a system exclusive message. -/
def readMetaOrSysex (bufferStart : ℕ) : Input ℕ := do
  let (start, finish) ← metaOrSysexEnd bufferStart
  modify fun mf => { mf with
    buffer := mf.buffer ++ List.replicate (finish - mf.buffer.length) 0 }
  readIntoMessageBuffer start finish

def continueMetaOrSysex : Input ℕ := do
  if (← get).metaEventP then
    storeOctet 1 (← onSource readByte)
    if (← get).endOfTrackP then
      storeOctet 2 (← onSource readByte)
      updateByteCounters 3
      return 3
    else readMetaOrSysex 2
  else readMetaOrSysex 1

/-- The function that `read-event` calls for the index of the status byte. -/
def continueEvent : ℕ → Input ℕ
  | 0 => continueRunningStatus
  | 5 | 6 => continueMidiEventTwoBytes
  | 8 => continueMetaOrSysex
  | _ => continueMidiEventThreeBytes

def currentTempo : Input Tempo := do
  let mf ← get
  match mf.tempoMap[mf.tempoIndex]? with
  | some tempo => return tempo
  | none => throw .indexError

def eventSeconds : Input ℚ := do
  let mf ← get
  check (0 < mf.ppqn) .assertion
  let te ← currentTempo
  return te.seconds + te.microsecondsPerQuarterNote * (1 / 1000000) *
    (((mf.trackTime : ℚ) - te.time) / mf.ppqn)

def updateTempoMap : Input PUnit := do
  let high ← bufferOctet 3
  let middle ← bufferOctet 4
  let low ← bufferOctet 5
  let usecs := high.toNat <<< 16 + middle.toNat <<< 8 + low.toNat
  let curr ← currentTempo
  let mf ← get
  if 0 < mf.nextTempoTime ∨ curr.microsecondsPerQuarterNote = usecs then
    return ⟨⟩
  else if mf.trackTime = curr.time then
    modify fun mf => { mf with
      tempoMap := mf.tempoMap.set mf.tempoIndex { curr with microsecondsPerQuarterNote := usecs } }
  else
    let seconds ← eventSeconds
    modify fun mf => { mf with
      tempoIndex := mf.tempoMap.length
      tempoMap := mf.tempoMap ++
        [{ time := mf.trackTime, seconds, microsecondsPerQuarterNote := usecs }] }

def statusIndex (status : Octet) : ℕ :=
  (status.toNat >>> 4) - 7

/-- What `read-event` does after the delta time. -/
def readMessage : Input Octet := do
  let status ← readStatusByte
  let index := statusIndex status
  let length ← continueEvent index
  modify fun mf => { mf with lastMessageLength := length }
  let size := if index = 0 then length - 1 else length
  let mf ← get
  if mf.endOfTrackP then
    let _ ← nextInputTrack
  else if index = 0 ∧ length = 0 then
    modify fun mf => { mf with
      position := mf.position - 1
      trackBytesRemain := mf.trackBytesRemain + 1 }
  else if size < mf.trackBytesRemain then
    updateByteCounters size
  else chunkLengthError
  let mf ← get
  if mf.tempoEventP ∧ 0 < mf.ppqn then
    updateTempoMap
  bufferOctet 0

def readEvent : Input (Option Octet) := do
  match ← readDeltaTime with
  | none => return none
  | some _ => return some (← readMessage)

/-- What the caller of `read-event` finds in the stream. -/
inductive Reading
  | message (track time : ℕ) (octets : List Octet)
  | endOfTrack (track : ℕ)
  deriving Repr, DecidableEq

/-- The current track before the call, the event after it. -/
def Reading.of (before mf : InputStream) : Reading :=
  if mf.endOfTrackP then .endOfTrack before.currentTrack
  else .message before.currentTrack mf.trackTime (mf.buffer.take mf.lastMessageLength)

/-- `(loop while (read-event mf))`, with at most `calls` calls: what the calls find, if the last
one returns `NIL`. -/
def readEvents : ℕ → InputStream → Option (List Reading)
  | 0, _ => none
  | calls + 1, mf =>
    match readEvent mf with
    | .error _ _ => none
    | .ok none _ => some []
    | .ok (some _) mf' => (readEvents calls mf').map (Reading.of mf mf' :: ·)

end Input

end Incudine.Midifile

import Mathlib.Data.Int.Notation
import Mathlib.Data.List.Basic
import Mathlib.Order.Basic

/-!
# Offline rendering

The renderers of a sound file and of a buffer run the scheduler, the FIFO's and a tick for each
frame. The first one reads and writes through two small buffers, the second one has an index in the
input and in the output.
-/

namespace Incudine.Bounce

/-- A loop that tests the condition before each step, `none` if it does not end within `fuel`
steps. -/
def loopWhile {μ : Type*} (c : μ → Bool) (f : μ → Option μ) : ℕ → μ → Option μ
  | 0, m => if c m then none else some m
  | fuel + 1, m => if c m then (f m).bind (loopWhile c f fuel) else some m

/-- The memory that the rendered code changes: the output frame and a state with the EDF heap, the
FIFO's, the graph of the nodes and the sample counter. -/
structure Memory (σ α : Type) where
  state : σ
  output : ℕ → α

/-- The rendered code. Each call also gets the frame at the input pointer, whose length is
`*number-of-input-bus-channels*`. -/
structure Engine (σ α : Type) where
  heapEmptyP : σ → Bool
  /-- The condition of `sched-loop`: the first event is scheduled at the current time. -/
  dueP : σ → Bool
  dueP_of_heapEmptyP : ∀ s, heapEmptyP s = true → dueP s = false
  callEvent : List α → Memory σ α → Memory σ α
  fifoEmptyP : σ → Bool
  fromWorldFifoEmptyP : σ → Bool
  /-- The first function of `*nrt-fifo*` or of `*nrt-from-world-fifo*`. -/
  callFunction : List α → Memory σ α → Memory σ α
  callFromWorldFunction : List α → Memory σ α → Memory σ α
  computeTick : List α → Memory σ α → Memory σ α
  incfSampleCounter : σ → σ
  /-- `*dirty-nodes*` is not empty. -/
  dirtyNodesP : σ → Bool
  freeDirtyNodes : List α → Memory σ α → Memory σ α
  freeDirtyNodes_of_empty : ∀ input m, dirtyNodesP m.state = false → freeDirtyNodes input m = m
  /-- The buses, the sample counter and the peak meters at the beginning. -/
  reset : Memory σ α → Memory σ α
  /-- `(node-free *root-node*)` and `nrt-cleanup` at the end. -/
  freeRoot : List α → Memory σ α → Memory σ α
  cleanup : List α → Memory σ α → Memory σ α

section Renderers

variable {σ α : Type} [Zero α] (e : Engine σ α) (fuel : ℕ) (channels : ℕ)

def schedLoop (input : List α) : Memory σ α → Option (Memory σ α) :=
  loopWhile (fun m => e.dueP m.state) (fun m => some (e.callEvent input m)) fuel

def fifoPerformFunctions (input : List α) : Memory σ α → Option (Memory σ α) :=
  loopWhile (fun m => !e.fifoEmptyP m.state) (fun m => some (e.callFunction input m)) fuel

def fastNrtPerformFunctions (input : List α) : Memory σ α → Option (Memory σ α) :=
  loopWhile (fun m => !e.fromWorldFifoEmptyP m.state)
    (fun m => some (e.callFromWorldFunction input m)) fuel

def performFifos (input : List α) : Memory σ α → Option (Memory σ α) :=
  loopWhile (fun m => !(e.fifoEmptyP m.state && e.fromWorldFifoEmptyP m.state))
    (fun m => do
      let m ← fifoPerformFunctions e fuel input m
      let m ← if e.fromWorldFifoEmptyP m.state then some m
        else fastNrtPerformFunctions e fuel input m
      schedLoop e fuel input m) fuel

/-- `clear-outputs` and `incf-sample-counter`. -/
def endOfFrame (m : Memory σ α) : Memory σ α where
  state := e.incfSampleCounter m.state
  output := fun ch => if ch < channels then 0 else m.output ch

def finish (input : List α) (m : Memory σ α) : Option σ := do
  let m ← schedLoop e fuel input (e.freeRoot input m)
  let m ← performFifos e fuel input m
  return (e.cleanup input m).state

/-- The interleaved frames of an input file or buffer. -/
structure Source (α : Type) where
  channels : ℕ
  channels_pos : 0 < channels
  frames : ℕ
  data : ℕ → α

def frameAt (channels : ℕ) (data : ℕ → α) (index : ℕ) : List α :=
  (List.range channels).map fun ch => data (index + ch)

def storeFrame (data : ℕ → α) (index : ℕ) (output : ℕ → α) : ℕ → α := fun i =>
  if index ≤ i ∧ i < index + channels then output (i - index) else data i

/-- The input buffer of `with-sf-input` and the position of the file. -/
structure Reader (α : Type) where
  dataIn : ℕ → α
  remain : ℕ
  index : ℕ
  position : ℕ
  eofP : Bool

structure Disk (σ α : Type) where
  memory : Memory σ α
  input : List α
  reader : Reader α
  data : ℕ → α
  count : ℕ
  /-- The samples written to the output file. -/
  file : List α

def readSample (src : Source α) (r : Reader α) (items : ℕ) : Reader α :=
  let n := min items (src.frames * src.channels - r.position)
  { r with
    dataIn := fun i => if i < n then src.data (r.position + i) else r.dataIn i
    remain := n
    position := r.position + n }

def readSndBuffer (src : Source α) (s : Disk σ α) : Disk σ α :=
  { s with
    input := frameAt src.channels s.reader.dataIn s.reader.index
    reader := { s.reader with
      remain := s.reader.remain - src.channels
      index := s.reader.index + src.channels } }

def readInput (src : Source α) (inBufsize : ℕ) (s : Disk σ α) : Disk σ α :=
  if s.reader.eofP then s
  else if 0 < s.reader.remain then readSndBuffer src s
  else
    let r := { readSample src s.reader inBufsize with index := 0 }
    if r.remain = 0 then
      { s with
        input := List.replicate src.channels 0
        reader := { r with eofP := true } }
    else readSndBuffer src { s with reader := r }

/-- `nrt-loop`; the first result is true if the loop of the frames returns. An assertion fails if a
frame goes beyond the end of the buffer. -/
def nrtLoop (bufsize : ℕ) (stopIfEmptyP : Bool) (s : Disk σ α) : Option (Bool × Disk σ α) := do
  let m ← schedLoop e fuel s.input s.memory
  let m ← performFifos e fuel s.input m
  if stopIfEmptyP && e.heapEmptyP m.state then return (true, { s with memory := m })
  let m := e.computeTick s.input m
  let data := storeFrame channels s.data s.count m.output
  let count := s.count + channels
  if bufsize ≤ count then
    if count = bufsize then
      let m := e.freeDirtyNodes s.input m
      return (false, { s with
        memory := endOfFrame e channels m
        data := data
        count := 0
        file := s.file ++ (List.range bufsize).map data })
    else none
  else
    return (false, { s with
      memory := endOfFrame e channels m
      data := data
      count := count })

def writeToDiskLoop (body : Disk σ α → Option (Bool × Disk σ α)) :
    ℕ → Disk σ α → Option (ℕ × Disk σ α)
  | 0, s => some (0, s)
  | n + 1, s => do
    let (returnP, s) ← body s
    if returnP then return (n + 1, s)
    writeToDiskLoop body n s

def writeToDisk (body body' : Disk σ α → Option (Bool × Disk σ α)) (maxFrames remain : ℕ)
    (paddingP : Bool) (s : Disk σ α) : Option (List α × σ) := do
  let (rest, s) ← writeToDiskLoop body maxFrames s
  let frame := if paddingP then 0 else maxFrames - rest
  let (_, s) ← writeToDiskLoop body' (remain - frame) s
  let file := if 0 < s.count then s.file ++ (List.range s.count).map s.data else s.file
  let state ← finish e fuel s.input s.memory
  return (file, state)

structure Config where
  sndfileBufferSize : ℕ
  sndfileBufferSize_pos : 0 < sndfileBufferSize
  sampleSize : ℕ
  sampleSize_pos : 0 < sampleSize
  guardSize : ℕ
  guardSize_pos : 0 < guardSize
  sampleRate : ℕ
  sampleRate_pos : 0 < sampleRate

def Config.roundSndfileBufferSize (cfg : Config) (channels : ℕ) : ℕ :=
  let x := cfg.sndfileBufferSize % channels
  if x = 0 then cfg.sndfileBufferSize else cfg.sndfileBufferSize + channels - x

/-- The size in samples of a buffer for a file with the given channels. -/
def Config.bufsize (cfg : Config) (channels : ℕ) : ℕ :=
  cfg.roundSndfileBufferSize channels * cfg.sampleSize

/-- `%bounce-to-disk` and `%bounce-to-disk-with-infile`, with the duration in frames. The memory
`inputBus` of the input pointer is not cleared. -/
def bounceToDisk (cfg : Config) (src : Option (Source α)) (inputBus : ℕ → α) (duration : ℤ)
    (function : List α → Memory σ α → Memory σ α) (m : Memory σ α) : Option (List α × σ) :=
  let padAtTheEndP : Bool := duration ≤ 0
  let remain := duration.natAbs
  let bufsize := cfg.bufsize channels
  let s : Disk σ α :=
    { memory := function [] (e.reset m)
      input := []
      reader :=
        { dataIn := fun _ => 0
          remain := 0
          index := 0
          position := 0
          eofP := false }
      data := fun _ => 0
      count := 0
      file := [] }
  match src with
  | none =>
    let maxFrames :=
      if padAtTheEndP then cfg.sampleRate * max cfg.guardSize remain - remain else remain
    writeToDisk e fuel (nrtLoop e fuel channels bufsize true) (nrtLoop e fuel channels bufsize false)
      maxFrames remain padAtTheEndP s
  | some src =>
    let maxFrames := if padAtTheEndP then src.frames else remain
    let body := fun s => nrtLoop e fuel channels bufsize false
      (readInput src (cfg.bufsize src.channels) s)
    writeToDisk e fuel body body maxFrames remain padAtTheEndP
      { s with input := frameAt src.channels inputBus 0 }

structure Writer (σ α : Type) where
  memory : Memory σ α
  input : List α
  inCount : ℕ
  outCount : ℕ
  outData : ℕ → α

def zeroedInput (src : Option (Source α)) : List α :=
  match src with
  | none => []
  | some src => List.replicate src.channels 0

def readInputBuffer (src : Option (Source α)) (s : Writer σ α) : Writer σ α :=
  match src with
  | none => s
  | some src =>
    if s.inCount < src.frames * src.channels then
      { s with
        input := frameAt src.channels src.data s.inCount
        inCount := s.inCount + src.channels }
    else s

def nrtWriteBufferLoop (src : Option (Source α)) (s : Writer σ α) : Option (Writer σ α) := do
  let s := readInputBuffer src s
  let m ← schedLoop e fuel s.input s.memory
  let m ← performFifos e fuel s.input m
  let m := e.computeTick s.input m
  return { s with
    memory := endOfFrame e channels m
    outCount := s.outCount + channels
    outData := storeFrame channels s.outData s.outCount m.output }

def writeBufferLoop (src : Option (Source α)) : ℕ → Writer σ α → Option (Writer σ α)
  | 0, s => some s
  | n + 1, s => (nrtWriteBufferLoop e fuel channels src s).bind (writeBufferLoop src n)

def bounceToBuffer (src : Option (Source α)) (outData : ℕ → α) (start frames : ℕ)
    (function : List α → Memory σ α → Memory σ α) (m : Memory σ α) : Option ((ℕ → α) × σ) := do
  let s ← writeBufferLoop e fuel channels src frames
    { memory := function (zeroedInput src) (e.reset m)
      input := zeroedInput src
      inCount := 0
      outCount := start * channels
      outData := outData }
  let state ← finish e fuel s.input s.memory
  return (s.outData, state)

end Renderers

end Incudine.Bounce

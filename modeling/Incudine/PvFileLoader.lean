import Incudine.PvFile
import Incudine.Signals

/-!
# Loading a PV file

The run of `pvbuffer-load` keeps the rest of the file, the release of the resources and the number
of octets stored in each allocated memory.
-/

namespace Incudine.PvFileLoader

open Octets PvFile Signals

/-- The limits of `read`: a greater count signals an error, and a call transfers a bounded number
of octets. -/
structure Limits where
  count : ℕ
  transfer : ℕ
  headerSize_le_count : headerSize ≤ count
  headerSize_le_transfer : headerSize ≤ transfer

structure Run where
  rest : List UInt8
  closes : ℕ
  created : ℕ
  freed : ℕ
  windowMemory : ℕ
  channelMemory : ℕ
  window : ℕ
  channels : List ℕ

def Run.close (s : Run) : Run := { s with closes := s.closes + 1 }

def Run.free (s : Run) : Run := { s with freed := s.freed + 1 }

def Run.start (file : List UInt8) : Run := ⟨file, 0, 0, 0, 0, 0, 0, []⟩

abbrev Load := EStateM Unit Run

/-- The condition is signaled again after the handler. -/
def handlerCase {α : Type} (form : Load α) (handler : Run → Run) : Load α := fun s =>
  match form s with
  | .ok a s => .ok a s
  | .error c s => .error c (handler s)

def unwindProtect {α : Type} (form : Load α) (cleanup : Run → Run) : Load α := fun s =>
  match form s with
  | .ok a s => .ok a (cleanup s)
  | .error c s => .error c (cleanup s)

def ofOption {α : Type} : Option α → Load α
  | some a => pure a
  | none => throw ()

section Loader

variable (posix : Limits)

def read (len : ℕ) : Load (List UInt8) := fun s =>
  if len ≤ posix.count then
    let octets := s.rest.take (min len posix.transfer)
    .ok octets { s with rest := s.rest.drop octets.length }
  else .error () s

variable (ops : FloatOps) (memory : Memory)

def headerPvbuf (fileLength : ℕ) (buffer : List UInt8) : Option PvBuffer := do
  guard (buffer.length = headerSize ∧ uintAt 8 0 buffer = pvfileString "CUDOPVOC")
  guard (2 * 8 + uintAt 8 8 buffer ≤ fileLength ∧ uintAt 8 16 buffer = pvfileString "header")
  guard (uintAt 8 24 buffer + 4 * 8 = headerSize)
  let dataType ← pvfileDataType (uintAt 8 64 buffer)
  makePvbuffer ops memory (uintAt 4 40 buffer) (uintAt 4 72 buffer) (uintAt 4 44 buffer)
    (UInt64.ofNat (uintAt 8 48 buffer)) dataType (uintAt 4 80 buffer) (uintAt 1 84 buffer != 0)

/-- The slots are a fixnum and a positive fixnum. -/
def SlotsAccepted (buffer : List UInt8) : Prop :=
  uintAt 8 32 buffer < 2 ^ 62 ∧ 0 < uintAt 4 76 buffer

instance (buffer : List UInt8) : Decidable (SlotsAccepted buffer) :=
  inferInstanceAs (Decidable (_ ∧ _))

def setSlots (buffer : List UInt8) (pvbuf : PvBuffer) : PvBuffer :=
  { pvbuf with
    size := uintAt 8 32 buffer
    blockSize := uintAt 4 76 buffer
    zeroPhaseWindowP := uintAt 1 85 buffer != 0
    scaleFactor := UInt64.ofNat (uintAt 8 56 buffer) }

def Run.create (pvbuf : PvBuffer) (s : Run) : Run :=
  { s with
    created := s.created + 1
    windowMemory := 8 * pvbuf.fftSize
    channelMemory := 8 * pvbuf.size }

def pvfileReadHeader (fileLength : ℕ) : Load PvBuffer := do
  let buffer ← read posix headerSize
  let pvbuf ← ofOption (headerPvbuf ops memory fileLength buffer)
  modify (Run.create pvbuf)
  handlerCase (do
    check (SlotsAccepted buffer) ()
    return setSlots buffer pvbuf) Run.free

def WindowAccepted (buffer : List UInt8) : Prop :=
  (buffer.length = windowHeaderSize ∧ uintAt 8 0 buffer = pvfileString "window") ∧
    uintAt 4 8 buffer % 8 = 0

instance (buffer : List UInt8) : Decidable (WindowAccepted buffer) :=
  inferInstanceAs (Decidable (_ ∧ _))

def pvfileReadWindow (pvbuf : PvBuffer) : Load PvBuffer := do
  let buffer ← read posix windowHeaderSize
  check (WindowAccepted buffer) ()
  let windowBytes := uintAt 4 8 buffer
  let windowSize := windowBytes / 8
  let pvbuf ← ofOption (pvbuf.setWindowSize windowSize)
  let octets ← read posix windowBytes
  modify fun s => { s with window := octets.length }
  check (octets.length = windowBytes) ()
  return { pvbuf with
    windowBuffer := words windowSize octets ++ pvbuf.windowBuffer.drop windowSize }

def pvfileReadSampleData (size : ℕ) : List (List UInt64) → Load (List (List UInt64))
  | [] => pure []
  | values :: data => do
    let octets ← read posix (size * 8)
    modify fun s => { s with channels := s.channels ++ [octets.length] }
    check (octets.length = size * 8) ()
    let data ← pvfileReadSampleData size data
    return (words size octets ++ values.drop size) :: data

def pvfileReadData (pvbuf : PvBuffer) : Load PvBuffer := do
  let data ← pvfileReadSampleData posix pvbuf.size pvbuf.data
  return { pvbuf with data := data }

def pvbufferLoad (file : List UInt8) : EStateM.Result Unit Run PvBuffer :=
  unwindProtect (do
    let pvbuf ← pvfileReadHeader posix ops memory file.length
    handlerCase (do
      let pvbuf ← pvfileReadWindow posix pvbuf
      pvfileReadData posix pvbuf) Run.free) Run.close (.start file)

end Loader

section Stored

variable {posix : Limits}

/-- A read of `len` octets stores at most `size` octets. -/
def Fits (posix : Limits) (len available size : ℕ) : Prop :=
  len ≤ posix.count → min (min len posix.transfer) available ≤ size

/-- Each of `n` reads of `len` octets is complete. -/
def Complete (posix : Limits) (n len available : ℕ) : Prop :=
  len ≤ posix.count ∧ len ≤ posix.transfer ∧ n * len ≤ available

end Stored

variable {p : PvBuffer}

section Safe

def Stored (s : Run) : Prop := s.window ≤ s.windowMemory ∧ ∀ c ∈ s.channels, c ≤ s.channelMemory

def Safe : EStateM.Result Unit Run PvBuffer → Prop
  | .ok p s => Stored s ∧ s.closes = 1 ∧ s.freed = 0 ∧ p.size = p.frames * p.blockSize ∧
      p.blockSize = 2 * (1 + p.fftSize / 2) ∧ p.windowSize ≤ p.fftSize
  | .error _ s => Stored s ∧ s.closes = 1 ∧ s.freed = s.created ∧ s.created ≤ 1

variable {posix : Limits} {ops : FloatOps} {memory : Memory}

end Safe

end Incudine.PvFileLoader

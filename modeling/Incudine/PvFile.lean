import Incudine.Octets
import Incudine.ShortTimeFourier
import Mathlib.Data.List.GetD

/-!
# PV files

The analysis file of a PVbuffer is a chunk with a header, the window and the spectral data. A
sample is the word of a double float and the host is little endian. A foreign value out of the range
of its field signals a type error.
-/

namespace Incudine.PvFile

open Octets

inductive DataType where
  | complex
  | magnitudePhase
  | magnitudeFrequency
deriving DecidableEq

/-- The operations on double floats for the slots that `make-pvbuffer` computes. -/
structure FloatOps where
  deltaPhaseMult (srate : UInt64) (hopSize : ℕ) : UInt64
  centralFrequencyMult (srate : UInt64) (fftSize : ℕ) : UInt64
  phaseOffsetMult (hopSize fftSize : ℕ) : UInt64
  scaleFactor (normalizedP : Bool) (fftSize : ℕ) : UInt64

structure PvBuffer where
  data : List (List UInt64)
  size : ℕ
  frames : ℕ
  channels : ℕ
  fftSize : ℕ
  scaleFactor : UInt64
  blockSize : ℕ
  nbins : ℕ
  srate : UInt64
  blockDataType : DataType
  windowBuffer : List UInt64
  windowSize : ℕ
  windowFunction : Option (List UInt64 → ℕ → List UInt64)
  hopSize : ℕ
  deltaPhaseMult : UInt64
  centralFrequencyMult : UInt64
  phaseOffsetMult : UInt64
  normalizedP : Bool
  zeroPhaseWindowP : Bool

def PositiveReal (x : UInt64) : Prop := 0 < x.toNat ∧ x.toNat ≤ 0x7ff0000000000000

instance (x : UInt64) : Decidable (PositiveReal x) := inferInstanceAs (Decidable (_ ∧ _))

def channelNumberMax : ℕ := 1024

/-- What a new PVbuffer inherits: the contents of the allocated memory and a slot of the structure
taken from the pool. -/
structure Memory where
  channel (ch i : ℕ) : UInt64
  window (i : ℕ) : UInt64
  zeroPhaseWindowP : Bool

/-- The declared types of `make-pvbuffer` and `alloc-multi-channel-data` refuse the other arguments
and the size zero. -/
def makePvbuffer (ops : FloatOps) (memory : Memory) (frames fftSize channels : ℕ)
    (sampleRate : UInt64) (dataType : DataType) (hopSize : ℕ) (normalizedP : Bool) :
    Option PvBuffer := do
  let blockSize := 2 * (1 + fftSize / 2)
  let size := blockSize * frames
  guard (0 < channels ∧ channels ≤ channelNumberMax ∧ 0 < fftSize ∧ 0 < hopSize ∧
    PositiveReal sampleRate ∧ 0 < size)
  return {
    data := (List.range channels).map fun ch => (List.range size).map (memory.channel ch)
    size := size
    frames := frames
    channels := channels
    fftSize := fftSize
    scaleFactor := ops.scaleFactor normalizedP fftSize
    blockSize := blockSize
    nbins := blockSize / 2
    srate := sampleRate
    blockDataType := dataType
    windowBuffer := (List.range fftSize).map memory.window
    windowSize := fftSize
    windowFunction := none
    hopSize := hopSize
    deltaPhaseMult := ops.deltaPhaseMult sampleRate hopSize
    centralFrequencyMult := ops.centralFrequencyMult sampleRate fftSize
    phaseOffsetMult := ops.phaseOffsetMult hopSize fftSize
    normalizedP := normalizedP
    zeroPhaseWindowP := memory.zeroPhaseWindowP }

/-- The arguments that are accepted and the sizes are those of the short-time Fourier transform with
a window of the size of the FFT. -/
theorem makePvbuffer_stft {K : Type*} [Field K] (ops : FloatOps) (memory : Memory)
    (frames channels : ℕ) {sampleRate : UInt64} (hrate : PositiveReal sampleRate)
    (dataType : DataType) (a : Stft.Arguments) (hwindow : a.windowSize = a.fftSize)
    (windowFunction : FftStream.WindowFunction K) :
    (makePvbuffer ops memory frames a.fftSize channels sampleRate dataType a.hopSize
        a.normalizedP).map (fun p =>
          (p.size, p.frames, p.channels, p.fftSize, p.blockSize, p.windowSize, p.hopSize)) =
      (Stft.makePvbuffer frames channels a windowFunction).map fun p =>
        (p.size, p.frames, p.channels, p.fftSize, p.blockSize, p.windowSize, p.hopSize) := by
  have hfft := a.fftSize_pos
  have hhop := a.hopSize_pos
  have hblock : 2 * (1 + a.fftSize / 2) = 2 * (a.fftSize / 2 + 1) := by omega
  simp only [makePvbuffer, Stft.makePvbuffer, Stft.pvbufferSlots, hwindow, lt_irrefl, if_false,
    hblock]
  by_cases h : 0 < channels ∧ channels ≤ channelNumberMax ∧ 0 < 2 * (a.fftSize / 2 + 1) * frames
  · have hnot : ¬ (channels = 0 ∨ Stft.maximumChannelNumber + 1 < channels ∨
        2 * (a.fftSize / 2 + 1) * frames = 0) := by
      rw [channelNumberMax] at h
      rw [Stft.maximumChannelNumber]
      omega
    rw [if_neg hnot]
    simp only [guard, h.1, h.2.1, h.2.2, hfft, hhop, hrate, and_self, if_true]
    rfl
  · have hrefused : channels = 0 ∨ Stft.maximumChannelNumber + 1 < channels ∨
        2 * (a.fftSize / 2 + 1) * frames = 0 := by
      rw [channelNumberMax] at h
      rw [Stft.maximumChannelNumber]
      omega
    have hnot : ¬ (0 < channels ∧ channels ≤ channelNumberMax ∧ 0 < a.fftSize ∧ 0 < a.hopSize ∧
        PositiveReal sampleRate ∧ 0 < 2 * (a.fftSize / 2 + 1) * frames) :=
      fun h' => h ⟨h'.1, h'.2.1, h'.2.2.2.2.2⟩
    rw [if_pos hrefused]
    simp only [guard, if_neg hnot]
    rfl

def PvBuffer.setWindowSize (obj : PvBuffer) (size : ℕ) : Option PvBuffer := do
  guard (0 < size)
  let size := if obj.fftSize < size then obj.fftSize else size
  if size = obj.windowSize then return obj
  return { obj with
    windowSize := size
    windowBuffer :=
      match obj.windowFunction with
      | none => obj.windowBuffer
      | some function => function obj.windowBuffer size }

def pvfileString (string : String) : ℕ :=
  (string.toList.zipIdx.map fun c => c.1.toNat <<< (8 * c.2)).sum

/-- A foreign unsigned integer of `k` octets. -/
def pvfileUint (k integer : ℕ) : Option (List UInt8) :=
  if integer < 0x100 ^ k then some (littleEndian k integer) else none

/-- The foreign unsigned integer of `k` octets at an offset. -/
def uintAt (k offset : ℕ) (buffer : List UInt8) : ℕ := ofLittleEndian ((buffer.drop offset).take k)

def headerSize : ℕ := 88

def windowHeaderSize : ℕ := 8 + 4

def dataHeaderSize : ℕ := 8 + 8

def pvfileChunkSize (pvbuf : PvBuffer) : ℕ :=
  headerSize + windowHeaderSize + dataHeaderSize + 8 * pvbuf.windowSize +
    8 * pvbuf.size * pvbuf.channels - 2 * 8

def DataType.pvfileDataType (dataType : DataType) : ℕ :=
  pvfileString
    (match dataType with
      | complex => "COMPLEX"
      | magnitudePhase => "MAGPHASE"
      | magnitudeFrequency => "MAGFREQ")

def pvfileDataType (obj : ℕ) : Option DataType :=
  if pvfileString "COMPLEX" = obj then some .complex
  else if pvfileString "MAGPHASE" = obj then some .magnitudePhase
  else if pvfileString "MAGFREQ" = obj then some .magnitudeFrequency
  else none

def pvfileWriteSampleData (values : List UInt64) : List UInt8 :=
  values.flatMap fun x => littleEndian 8 x.toNat

def pvfileWriteWindow (pvbuf : PvBuffer) : Option (List UInt8) := do
  let windowChunk ← pvfileUint 8 (pvfileString "window")
  let windowChunkSize ← pvfileUint 4 (8 * pvbuf.windowSize)
  return windowChunk ++ windowChunkSize ++
    pvfileWriteSampleData (pvbuf.windowBuffer.take pvbuf.windowSize)

def pvfileWriteHeader (pvbuf : PvBuffer) : Option (List UInt8) := do
  let magic ← pvfileUint 8 (pvfileString "CUDOPVOC")
  let chunkSize ← pvfileUint 8 (pvfileChunkSize pvbuf)
  let headerSubchunk ← pvfileUint 8 (pvfileString "header")
  let headerSubchunkSize ← pvfileUint 8 (headerSize - 8 * 4)
  let size ← pvfileUint 8 pvbuf.size
  let frames ← pvfileUint 4 pvbuf.frames
  let channels ← pvfileUint 4 pvbuf.channels
  let sampleRate := littleEndian 8 pvbuf.srate.toNat
  let scaleFactor := littleEndian 8 pvbuf.scaleFactor.toNat
  let dataType ← pvfileUint 8 pvbuf.blockDataType.pvfileDataType
  let fftSize ← pvfileUint 4 pvbuf.fftSize
  let blockSize ← pvfileUint 4 pvbuf.blockSize
  let hopSize ← pvfileUint 4 pvbuf.hopSize
  let normalizedP ← pvfileUint 1 pvbuf.normalizedP.toNat
  let zeroPhaseWindowP ← pvfileUint 1 pvbuf.zeroPhaseWindowP.toNat
  let pad ← pvfileUint 2 0
  return magic ++ chunkSize ++ headerSubchunk ++ headerSubchunkSize ++ size ++ frames ++ channels ++
    sampleRate ++ scaleFactor ++ dataType ++ fftSize ++ blockSize ++ hopSize ++ normalizedP ++
    zeroPhaseWindowP ++ pad

def pvfileWriteData (pvbuf : PvBuffer) : Option (List UInt8) := do
  let dataSubchunk ← pvfileUint 8 (pvfileString "data")
  let dataSubchunkSize ← pvfileUint 8 (8 * (pvbuf.size * pvbuf.channels))
  return dataSubchunk ++ dataSubchunkSize ++
    (List.range pvbuf.channels).flatMap fun ch =>
      pvfileWriteSampleData ((pvbuf.data.getD ch []).take pvbuf.size)

/-- The file, or `none` if an error is signaled. -/
def pvbufferSave (pvbuf : PvBuffer) : Option (List UInt8) := do
  let header ← pvfileWriteHeader pvbuf
  let window ← pvfileWriteWindow pvbuf
  let data ← pvfileWriteData pvbuf
  return header ++ window ++ data

def words : ℕ → List UInt8 → List UInt64
  | 0, _ => []
  | n + 1, bs => UInt64.ofNat (ofLittleEndian (bs.take 8)) :: words n (bs.drop 8)

/-- The result is the PVbuffer and what remains of the file. -/
def pvfileReadHeader (ops : FloatOps) (memory : Memory) (file : List UInt8) :
    Option (PvBuffer × List UInt8) := do
  let buffer := file.take headerSize
  guard (buffer.length = headerSize ∧ uintAt 8 0 buffer = pvfileString "CUDOPVOC")
  guard (2 * 8 + uintAt 8 8 buffer ≤ file.length ∧ uintAt 8 16 buffer = pvfileString "header")
  guard (uintAt 8 24 buffer + 4 * 8 = headerSize)
  let dataType ← pvfileDataType (uintAt 8 64 buffer)
  let pvbuf ← makePvbuffer ops memory (uintAt 4 40 buffer) (uintAt 4 72 buffer) (uintAt 4 44 buffer)
    (UInt64.ofNat (uintAt 8 48 buffer)) dataType (uintAt 4 80 buffer) (uintAt 1 84 buffer != 0)
  guard (uintAt 8 32 buffer < 2 ^ 62 ∧ 0 < uintAt 4 76 buffer)
  return ({ pvbuf with
    size := uintAt 8 32 buffer
    blockSize := uintAt 4 76 buffer
    zeroPhaseWindowP := uintAt 1 85 buffer != 0
    scaleFactor := UInt64.ofNat (uintAt 8 56 buffer) }, file.drop headerSize)

def pvfileReadWindow (pvbuf : PvBuffer) (bs : List UInt8) : Option (PvBuffer × List UInt8) := do
  let buffer := bs.take windowHeaderSize
  guard (buffer.length = windowHeaderSize ∧ uintAt 8 0 buffer = pvfileString "window")
  let windowBytes := uintAt 4 8 buffer
  let windowSize := windowBytes / 8
  guard (windowBytes % 8 = 0)
  let pvbuf ← pvbuf.setWindowSize windowSize
  let bs := bs.drop windowHeaderSize
  guard ((bs.take windowBytes).length = windowBytes)
  return ({ pvbuf with
    windowBuffer := words windowSize bs ++ pvbuf.windowBuffer.drop windowSize },
    bs.drop windowBytes)

def pvfileReadSampleData (size : ℕ) : List (List UInt64) → List UInt8 → Option (List (List UInt64))
  | [], _ => some []
  | values :: data, bs => do
    guard ((bs.take (size * 8)).length = size * 8)
    let data ← pvfileReadSampleData size data (bs.drop (size * 8))
    return (words size bs ++ values.drop size) :: data

def pvfileReadData (pvbuf : PvBuffer) (bs : List UInt8) : Option PvBuffer := do
  let data ← pvfileReadSampleData pvbuf.size pvbuf.data bs
  return { pvbuf with data := data }

def pvbufferLoad (ops : FloatOps) (memory : Memory) (file : List UInt8) :
    Option PvBuffer := do
  let (pvbuf, bs) ← pvfileReadHeader ops memory file
  let (pvbuf, bs) ← pvfileReadWindow pvbuf bs
  pvfileReadData pvbuf bs

end Incudine.PvFile

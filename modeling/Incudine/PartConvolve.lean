import Incudine.BlockConvolution
import Incudine.StftInput

/-!
# Partitioned convolution

The partitioned response is the short-time Fourier transform of a buffer, with the partition as
window and hop. The convolver adds the products of the parts with the spectra of a frequency delay
line, whose head moves backward, and overlaps the results on an interlaced output buffer.
-/

namespace Incudine.PartConvolve

open BlockConvolution ForeignMemory

variable {K : Type*} [Field K]

def complexMul (a b : K × K) : K × K := (a.1 * b.1 - a.2 * b.2, a.1 * b.2 + a.2 * b.1)

/-- The transforms of a plan. The inverse transform is not normalized, and the product of two
spectra is the spectrum of the circular convolution. -/
structure FftPlan (K : Type*) [Field K] (size : ℕ) where
  forward : (Fin size → K) → Fin (size / 2 + 1) → K × K
  inverse : (Fin (size / 2 + 1) → K × K) → Fin size → K
  inverse_add : ∀ a b, inverse (a + b) = inverse a + inverse b
  inverse_mul : ∀ (a b : ℕ → K) (i : Fin size),
    inverse (fun k => complexMul (forward (fun j => a j) k) (forward (fun j => b j) k)) i =
      size * circular size a b i

section Plan

variable {size : ℕ} (plan : FftPlan K size)

def bins (size : ℕ) (spectrum : ℕ → K) (k : Fin (size / 2 + 1)) : K × K :=
  (spectrum (2 * k), spectrum (2 * k + 1))

def fftExecute (inbuf outbuf : ℕ → K) (i : ℕ) : K :=
  if h : i / 2 < size / 2 + 1 then
    let bin := plan.forward (fun j => inbuf j) ⟨i / 2, h⟩
    if i % 2 = 0 then bin.1 else bin.2
  else outbuf i

def ifftExecute (inbuf outbuf : ℕ → K) (i : ℕ) : K :=
  if h : i < size then plan.inverse (bins size inbuf) ⟨i, h⟩ else outbuf i

end Plan

structure Buffer (K : Type*) where
  frames : ℕ
  frames_pos : 0 < frames
  channels : ℕ
  channels_pos : 0 < channels
  data : ℕ → K

def Buffer.size (buf : Buffer K) : ℕ := buf.frames * buf.channels

/-- `buffer-value` does not check the index: the memory after the end of the data is not known. -/
def Buffer.value (buf : Buffer K) (after : ℕ → K) (index : ℕ) : K :=
  if index < buf.size then buf.data index else after index

def Buffer.memory (buf : Buffer K) (after : ℕ → K) : Stft.Buffer K where
  frames := buf.frames
  channels := buf.channels
  data := buf.value after

def FftPlan.toPlan {size : ℕ} (plan : FftPlan K size) : FftStream.Plan K where
  output inbuf := fftExecute plan (fun i => inbuf.getD i 0) fun _ => 0
  input inbuf i := inbuf.getD i 0

def partConvolveArguments {partsize : ℕ} (hpartsize : 0 < partsize) (start : ℕ)
    (frames : Option ℕ) : Stft.Arguments where
  fftSize := 2 * partsize
  windowSize := partsize
  hopSize := partsize
  start := start
  frames := frames
  normalizedP := false
  zeroPhaseWindowP := false
  fftSize_pos := Nat.mul_pos Nat.two_pos hpartsize
  windowSize_pos := hpartsize
  hopSize_pos := hpartsize

/-- The FFT is taken from a pool, with memory that is not cleared and maybe with a pending shift. -/
def makePartConvolveBuffer {partsize : ℕ} (plan : FftPlan K (2 * partsize))
    (hpartsize : 0 < partsize) (memory : ℕ → K) (shift : ℤ) (buf : Buffer K) (after : ℕ → K)
    (start : ℕ) (frames : Option ℕ) : Option (Stft.Pvbuffer K) :=
  (Stft.stftFromBuffer plan.toPlan .rectangular (partConvolveArguments hpartsize start frames) memory
    shift (buf.memory after)).map Prod.fst

/-- The product of a partition: the pointers and the output after the inner loop. -/
def multiplyPartition (fdlBeg irBeg : ℕ → K) : ℕ → ℕ → ℕ × ℕ × (ℕ → K) → ℕ × ℕ × (ℕ → K)
  | 0, _, s => s
  | n + 1, out, (fdl, ir, mem) =>
    let a := (fdlBeg fdl, fdlBeg (fdl + 1))
    let b := (irBeg ir, irBeg (ir + 1))
    let mem := Function.update mem out (mem out + (a.1 * b.1 - a.2 * b.2))
    let mem := Function.update mem (out + 1) (mem (out + 1) + (a.1 * b.2 + a.2 * b.1))
    multiplyPartition fdlBeg irBeg n (out + 2) (fdl + 2, ir + 2, mem)

def multiplyPartitionsLoop (fdlBeg irBeg : ℕ → K) (fdlSize blockSize : ℕ) :
    ℕ → ℕ × ℕ × (ℕ → K) → ℕ × ℕ × (ℕ → K)
  | 0, s => s
  | partitions + 1, s =>
    let (fdl, ir, mem) := multiplyPartition fdlBeg irBeg (blockSize / 2) 0 s
    multiplyPartitionsLoop fdlBeg irBeg fdlSize blockSize partitions
      (if fdlSize ≤ fdl then 0 else fdl, ir, mem)

def pconvMultiplyPartitions (outBeg fdlBeg ir : ℕ → K)
    (fdlSize fdlReadHead blockSize partitions : ℕ) : ℕ → K :=
  let outBeg := applyZeroPadding outBeg 0 blockSize
  (multiplyPartitionsLoop fdlBeg ir fdlSize blockSize partitions (fdlReadHead, 0, outBeg)).2.2

def updateOutput (channels : ℕ) (ifftOutbuf : ℕ → K) : ℕ → ℕ → ℕ → ℕ → ℕ → (ℕ → K) → ℕ → K
  | 0, _, _, _, _, outbuf => outbuf
  | n + 1, i, j, k, l, outbuf =>
    let outbuf := Function.update outbuf k (ifftOutbuf i + outbuf l)
    let outbuf := Function.update outbuf l (ifftOutbuf j)
    updateOutput channels ifftOutbuf n (i + 1) (j + 1) (k + channels) (l + channels) outbuf

def pconvUpdateOutput (partsize channel channels : ℕ) (outbuf : ℕ → K) (outbufHalf : ℕ)
    (ifftOutbuf : ℕ → K) : ℕ → K :=
  updateOutput channels ifftOutbuf partsize 0 partsize channel (channel + outbufHalf) outbuf

structure Convolver (K : Type*) where
  fdl : ℕ → K
  fdlHead : ℕ
  fftInbuf : ℕ → K
  fftOutbuf : ℕ → K
  ifftInbuf : ℕ → K
  ifftOutbuf : ℕ → K
  outbuf : ℕ → K
  inputIndex : ℕ
  padIndex : ℕ
  outputIndex : ℕ
  frame : ℕ → K

section Convolver

variable {size : ℕ} (plan : FftPlan K size) (pvbuf : Stft.Pvbuffer K)

def Convolver.init : Convolver K where
  fdl := fun _ => 0
  fdlHead := 0
  fftInbuf := fun _ => 0
  fftOutbuf := fun _ => 0
  ifftInbuf := fun _ => 0
  ifftOutbuf := fun _ => 0
  outbuf := fun _ => 0
  inputIndex := 0
  padIndex := pvbuf.fftSize / 2
  outputIndex := 0
  frame := fun _ => 0

def pconvUpdateInput (value : K) (s : Convolver K) : Convolver K :=
  let inbuf := Function.update s.fftInbuf s.inputIndex value
  { s with
    fftInbuf := Function.update inbuf s.padIndex 0
    padIndex := s.padIndex + 1
    inputIndex := s.inputIndex + 1 }

def pconvUpdateFrame (channels : ℕ) (mult : K) (s : Convolver K) : Convolver K :=
  { s with
    frame := dotimes (fun ch frame =>
      Function.update frame ch (mult * s.outbuf (s.outputIndex + ch))) channels s.frame
    outputIndex := s.outputIndex + channels }

def updateFdl (fdl fftOutbuf : ℕ → K) (start blockSize : ℕ) : ℕ → K :=
  dotimes (fun i fdl => Function.update fdl (start + i) (fftOutbuf i)) blockSize fdl

def updateFdlHead (head blockSize last : ℕ) : ℕ := if 0 < head then head - blockSize else last

def convolveChannel (halfSize outbufHalf ch : ℕ) (s : Convolver K) : Convolver K :=
  let ifftInbuf := pconvMultiplyPartitions s.ifftInbuf s.fdl (pvbuf.data ch) pvbuf.size s.fdlHead
    pvbuf.blockSize pvbuf.frames
  let ifftOutbuf := ifftExecute plan ifftInbuf s.ifftOutbuf
  { s with
    ifftInbuf := ifftInbuf
    ifftOutbuf := ifftOutbuf
    outbuf := pconvUpdateOutput halfSize ch pvbuf.channels s.outbuf outbufHalf ifftOutbuf }

def Convolver.tick (input : K) (s : Convolver K) : Convolver K :=
  let halfSize := pvbuf.fftSize / 2
  let outbufHalf := pvbuf.channels * pvbuf.fftSize / 2
  let s := pconvUpdateInput input s
  let s := pconvUpdateFrame pvbuf.channels pvbuf.scaleFactor s
  if halfSize ≤ s.inputIndex then
    let fftOutbuf := fftExecute plan s.fftInbuf s.fftOutbuf
    let s := { s with
      fftOutbuf := fftOutbuf
      fdl := updateFdl s.fdl fftOutbuf s.fdlHead pvbuf.blockSize }
    let s := dotimes (convolveChannel plan pvbuf halfSize outbufHalf) pvbuf.channels s
    { s with
      fdlHead := updateFdlHead s.fdlHead pvbuf.blockSize (pvbuf.size - pvbuf.blockSize)
      inputIndex := 0
      padIndex := halfSize
      outputIndex := 0 }
  else s

def Convolver.run (input : ℕ → K) : ℕ → Convolver K
  | 0 => Convolver.init pvbuf
  | n + 1 => (Convolver.run input n).tick plan pvbuf (input n)

def partConvolve (input : ℕ → K) (currentChannel n : ℕ) : K :=
  if currentChannel < pvbuf.channels then
    (Convolver.run plan pvbuf input (n + 1)).frame currentChannel
  else 0

end Convolver

structure Delay (K : Type*) where
  data : ℕ → K
  pos : ℕ

section Direct

variable (kernel : ℕ → K) (size : ℕ)

def directConv (data : ℕ → K) (last index kernelPos : ℕ) (sum : K) : ℕ × K :=
  if index < last then
    directConv data last (index + 1) (kernelPos + 1) (sum + data index * kernel kernelPos)
  else (kernelPos, sum)
termination_by last - index

def Delay.tick (input : K) (s : Delay K) : K × Delay K :=
  let data := Function.update s.data s.pos input
  let sum := input * kernel 0
  let (kernelPos, sum) := directConv kernel data size (s.pos + 1) 1 sum
  let (_, sum) := directConv kernel data s.pos 0 kernelPos sum
  (sum,
    { data := data
      pos := (if s.pos = 0 then size else s.pos) - 1 })

def Delay.run (input : ℕ → K) : ℕ → Delay K
  | 0 => ⟨fun _ => 0, 0⟩
  | n + 1 => ((Delay.run input n).tick kernel size (input n)).2

end Direct

def directConvolve (buf : Buffer K) (input : ℕ → K) (n : ℕ) : K :=
  ((Delay.run buf.data buf.size input n).tick buf.data buf.size (input n)).1

end Incudine.PartConvolve

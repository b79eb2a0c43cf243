import Incudine.PvFile

/-!
# Round trip of a PV file

The header and the window are restored, but the header of the data is read as spectral data: the
data are restored if they repeat the two words of that header.
-/

namespace Incudine.PvFile

open Octets

/-- The slots of a PVbuffer with frames. -/
structure PvBuffer.Valid (ops : FloatOps) (p : PvBuffer) : Prop where
  frames_pos : 0 < p.frames
  channels_pos : 0 < p.channels
  channels_le : p.channels ≤ channelNumberMax
  fftSize_pos : 0 < p.fftSize
  hopSize_pos : 0 < p.hopSize
  windowSize_pos : 0 < p.windowSize
  windowSize_le : p.windowSize ≤ p.fftSize
  blockSize_eq : p.blockSize = 2 * (1 + p.fftSize / 2)
  nbins_eq : p.nbins = p.blockSize / 2
  size_eq : p.size = p.blockSize * p.frames
  length_windowBuffer : p.windowBuffer.length = p.fftSize
  length_data : p.data.length = p.channels
  length_channel : ∀ values ∈ p.data, values.length = p.size
  deltaPhaseMult_eq : p.deltaPhaseMult = ops.deltaPhaseMult p.srate p.hopSize
  centralFrequencyMult_eq : p.centralFrequencyMult = ops.centralFrequencyMult p.srate p.fftSize
  phaseOffsetMult_eq : p.phaseOffsetMult = ops.phaseOffsetMult p.hopSize p.fftSize

/-- The values that are foreign integers are in the range of their fields. -/
structure PvBuffer.Fits (p : PvBuffer) : Prop where
  frames_lt : p.frames < 0x100 ^ 4
  fftSize_lt : p.fftSize < 0x100 ^ 4
  blockSize_lt : p.blockSize < 0x100 ^ 4
  hopSize_lt : p.hopSize < 0x100 ^ 4
  windowBytes_lt : 8 * p.windowSize < 0x100 ^ 4
  chunkSize_lt : pvfileChunkSize p < 0x100 ^ 8

/-- The fields, the window and the data are the same. The window function is not in the file. -/
def PvBuffer.Restores (p q : PvBuffer) : Prop :=
  q = { p with
    windowFunction := none
    windowBuffer := q.windowBuffer } ∧
  q.windowBuffer.take p.windowSize = p.windowBuffer.take p.windowSize

def ChunkSizesAddUp (file : List UInt8) : Prop :=
  2 * 8 + uintAt 8 8 file = file.length ∧
  2 * 8 + (2 * 8 + uintAt 8 24 file) + (windowHeaderSize + uintAt 4 96 file) +
    (dataHeaderSize + uintAt 8 (108 + uintAt 4 96 file) file) = file.length

def PvBuffer.RoundTrips (ops : FloatOps) (p : PvBuffer) : Prop :=
  ∃ file, pvbufferSave p = some file ∧ ChunkSizesAddUp file ∧
    ∀ memory, ∃ q, pvbufferLoad ops memory file = some q ∧ p.Restores q

def PvBuffer.RepeatsDataHeader (p : PvBuffer) : Prop :=
  ∀ i (hi : i < p.data.flatten.length), p.data.flatten[i] =
    if i % 2 = 0 then UInt64.ofNat (pvfileString "data")
    else UInt64.ofNat (8 * (p.size * p.channels))

section Integers

variable {k n offset : ℕ} {bs : List UInt8}

theorem uintAt_zero (h : n < 0x100 ^ k) : uintAt k 0 (littleEndian k n ++ bs) = n := by
  have htake : (littleEndian k n ++ bs).take k = littleEndian k n := by
    simp
  rw [uintAt, List.drop_zero, htake, ofLittleEndian_littleEndian h]

theorem uintAt_skip {k' n' : ℕ} (h : k' ≤ offset) :
    uintAt k offset (littleEndian k' n' ++ bs) = uintAt k (offset - k') bs := by
  have hlength : (littleEndian k' n').length ≤ offset := by rwa [length_littleEndian]
  rw [uintAt, List.drop_append, List.drop_of_length_le hlength, List.nil_append,
    length_littleEndian, uintAt]

theorem uintAt_take {m : ℕ} (h : offset + k ≤ m) : uintAt k offset (bs.take m) = uintAt k offset bs := by
  rw [uintAt, uintAt, List.drop_take, List.take_take, Nat.min_eq_left (by omega)]

theorem length_pvfileWriteSampleData (values : List UInt64) :
    (pvfileWriteSampleData values).length = 8 * values.length := by
  induction values with
  | nil => rfl
  | cons x values ih =>
    rw [pvfileWriteSampleData, List.flatMap_cons, List.length_append, length_littleEndian]
    rw [pvfileWriteSampleData] at ih
    rw [ih, List.length_cons]
    omega

theorem words_pvfileWriteSampleData (values : List UInt64) (bs : List UInt8) :
    words values.length (pvfileWriteSampleData values ++ bs) = values := by
  induction values with
  | nil => rfl
  | cons x values ih =>
    have hx : x.toNat < 0x100 ^ 8 := x.toNat_lt
    have hcons : pvfileWriteSampleData (x :: values) ++ bs =
        littleEndian 8 x.toNat ++ (pvfileWriteSampleData values ++ bs) := by
      rw [pvfileWriteSampleData, List.flatMap_cons, List.append_assoc]
      rfl
    have htake := @uintAt_zero 8 _ (pvfileWriteSampleData values ++ bs) hx
    have hdrop : (littleEndian 8 x.toNat ++ (pvfileWriteSampleData values ++ bs)).drop 8 =
        pvfileWriteSampleData values ++ bs := by
      simp
    rw [uintAt, List.drop_zero] at htake
    rw [hcons, List.length_cons, words, htake, hdrop, ih, UInt64.ofNat_toNat]

end Integers

section Save

variable {ops : FloatOps} {p : PvBuffer}

def PvBuffer.headerOctets (p : PvBuffer) : List UInt8 :=
  littleEndian 8 (pvfileString "CUDOPVOC") ++ (littleEndian 8 (pvfileChunkSize p) ++
  (littleEndian 8 (pvfileString "header") ++ (littleEndian 8 (headerSize - 8 * 4) ++
  (littleEndian 8 p.size ++ (littleEndian 4 p.frames ++ (littleEndian 4 p.channels ++
  (littleEndian 8 p.srate.toNat ++ (littleEndian 8 p.scaleFactor.toNat ++
  (littleEndian 8 p.blockDataType.pvfileDataType ++ (littleEndian 4 p.fftSize ++
  (littleEndian 4 p.blockSize ++ (littleEndian 4 p.hopSize ++ (littleEndian 1 p.normalizedP.toNat ++
  (littleEndian 1 p.zeroPhaseWindowP.toNat ++ littleEndian 2 0))))))))))))))

def PvBuffer.windowHeaderOctets (p : PvBuffer) : List UInt8 :=
  littleEndian 8 (pvfileString "window") ++ littleEndian 4 (8 * p.windowSize)

def PvBuffer.dataWords (p : PvBuffer) : List UInt64 :=
  UInt64.ofNat (pvfileString "data") :: UInt64.ofNat (8 * (p.size * p.channels)) :: p.data.flatten

def PvBuffer.octets (p : PvBuffer) : List UInt8 :=
  p.headerOctets ++ (p.windowHeaderOctets ++
    (pvfileWriteSampleData (p.windowBuffer.take p.windowSize) ++
      pvfileWriteSampleData p.dataWords))

theorem length_headerOctets : p.headerOctets.length = headerSize := by
  simp [PvBuffer.headerOctets, headerSize]

theorem length_windowHeaderOctets : p.windowHeaderOctets.length = windowHeaderSize := by
  simp [PvBuffer.windowHeaderOctets, windowHeaderSize]

theorem pvfileUint_eq {k n : ℕ} (h : n < 0x100 ^ k) : pvfileUint k n = some (littleEndian k n) :=
  if_pos h

theorem lt_of_pvfileUint {k n : ℕ} {f : List UInt8 → Option (List UInt8)} {file : List UInt8}
    (h : (pvfileUint k n >>= f) = some file) : n < 0x100 ^ k ∧ ∃ bs, f bs = some file := by
  by_cases hn : n < 0x100 ^ k
  · rw [pvfileUint, if_pos hn] at h
    exact ⟨hn, _, h⟩
  · rw [pvfileUint, if_neg hn] at h
    cases h

theorem chunkSize_eq : pvfileChunkSize p =
    100 + 8 * p.windowSize + 8 * (p.size * p.channels) := by
  rw [pvfileChunkSize, Nat.mul_assoc]
  simp only [headerSize, windowHeaderSize, dataHeaderSize]
  omega

theorem dataType_lt (d : DataType) : d.pvfileDataType < 0x100 ^ 8 := by
  cases d <;> decide

theorem pvfileDataType_pvfileDataType (d : DataType) : pvfileDataType d.pvfileDataType = some d := by
  cases d <;> decide

theorem flag_lt (b : Bool) : b.toNat < 0x100 ^ 1 := by
  cases b <;> decide

namespace PvBuffer.Valid

variable (hv : p.Valid ops)
include hv

theorem length_flatten : p.data.flatten.length = p.channels * p.size := by
  have hsum : ∀ data : List (List UInt64), (∀ values ∈ data, values.length = p.size) →
      data.flatten.length = data.length * p.size := by
    intro data hdata
    induction data with
    | nil => simp
    | cons values data ih =>
      rw [List.flatten_cons, List.length_append, hdata values List.mem_cons_self,
        ih fun v h => hdata v (List.mem_cons_of_mem _ h), List.length_cons, Nat.succ_mul,
        Nat.add_comm]
  rw [hsum p.data hv.length_channel, hv.length_data]

theorem channels_octets :
    ((List.range p.channels).flatMap fun ch =>
      pvfileWriteSampleData ((p.data.getD ch []).take p.size)) =
      pvfileWriteSampleData p.data.flatten := by
  have hchannels : (List.range p.channels).map (fun ch => (p.data.getD ch []).take p.size) =
      p.data := by
    apply List.ext_getElem
    · simp [hv.length_data]
    · intro ch h h'
      have hlength := hv.length_channel _ (List.getElem_mem h')
      simp only [List.getElem_map, List.getElem_range, List.getD_eq_getElem _ _ h']
      rw [List.take_of_length_le hlength.le]
  rw [← List.flatMap_map, hchannels]
  simp only [pvfileWriteSampleData, List.flatten_eq_flatMap, List.flatMap_assoc, id]
  rfl

theorem length_octets : p.octets.length = 2 * 8 + pvfileChunkSize p := by
  have hwindow : (p.windowBuffer.take p.windowSize).length = p.windowSize := by
    rw [List.length_take, hv.length_windowBuffer, Nat.min_eq_left hv.windowSize_le]
  have hdata : p.dataWords.length = 2 + p.size * p.channels := by
    rw [PvBuffer.dataWords, List.length_cons, List.length_cons, hv.length_flatten, Nat.mul_comm]
    omega
  rw [PvBuffer.octets, List.length_append, List.length_append, List.length_append,
    length_headerOctets, length_windowHeaderOctets, length_pvfileWriteSampleData,
    length_pvfileWriteSampleData, hwindow, hdata, chunkSize_eq]
  simp only [headerSize, windowHeaderSize]
  omega

theorem pvbufferSave_eq (hf : p.Fits) : pvbufferSave p = some p.octets := by
  have hchunk := hf.chunkSize_lt
  have hlimit : p.size * p.channels < 2 ^ 61 := by
    rw [chunkSize_eq] at hchunk
    omega
  have hsize : p.size < 0x100 ^ 8 := by
    have := Nat.le_mul_of_pos_right p.size hv.channels_pos
    omega
  have hchannels : p.channels < 0x100 ^ 4 :=
    Nat.lt_of_le_of_lt hv.channels_le (by decide)
  have hdata : 8 * (p.size * p.channels) < 0x100 ^ 8 := by omega
  have hheader : pvfileWriteHeader p = some p.headerOctets := by
    simp only [pvfileWriteHeader, pvfileUint_eq (show pvfileString "CUDOPVOC" < 0x100 ^ 8 by decide),
      pvfileUint_eq hchunk, pvfileUint_eq (show pvfileString "header" < 0x100 ^ 8 by decide),
      pvfileUint_eq (show headerSize - 8 * 4 < 0x100 ^ 8 by decide), pvfileUint_eq hsize,
      pvfileUint_eq hf.frames_lt, pvfileUint_eq hchannels, pvfileUint_eq (dataType_lt _),
      pvfileUint_eq hf.fftSize_lt, pvfileUint_eq hf.blockSize_lt, pvfileUint_eq hf.hopSize_lt,
      pvfileUint_eq (flag_lt _), pvfileUint_eq (show 0 < 0x100 ^ 2 by decide), Option.bind_eq_bind,
      Option.bind_some, List.append_assoc, PvBuffer.headerOctets]
    rfl
  have hwindow : pvfileWriteWindow p = some (p.windowHeaderOctets ++
      pvfileWriteSampleData (p.windowBuffer.take p.windowSize)) := by
    rw [pvfileWriteWindow, pvfileUint_eq (show pvfileString "window" < 0x100 ^ 8 by decide),
      pvfileUint_eq hf.windowBytes_lt]
    rfl
  have hwords : pvfileWriteData p = some (pvfileWriteSampleData p.dataWords) := by
    have hx : (UInt64.ofNat (8 * (p.size * p.channels))).toNat = 8 * (p.size * p.channels) :=
      UInt64.toNat_ofNat_of_lt' hdata
    rw [pvfileWriteData, pvfileUint_eq (show pvfileString "data" < 0x100 ^ 8 by decide),
      pvfileUint_eq hdata, hv.channels_octets, PvBuffer.dataWords]
    simp only [pvfileWriteSampleData, List.flatMap_cons, hx, Option.bind_eq_bind, Option.bind_some,
      List.append_assoc]
    rfl
  rw [pvbufferSave, hheader, hwindow, hwords]
  simp only [Option.bind_eq_bind, Option.bind_some, List.append_assoc, PvBuffer.octets]
  rfl

omit hv in
theorem fits_of_save {file : List UInt8} (h : pvbufferSave p = some file) : p.Fits := by
  rw [pvbufferSave] at h
  obtain ⟨header, hheader, h⟩ := Option.bind_eq_some_iff.mp h
  obtain ⟨window, hwindow, -⟩ := Option.bind_eq_some_iff.mp h
  obtain ⟨-, _, hheader⟩ := lt_of_pvfileUint hheader
  obtain ⟨hchunk, _, hheader⟩ := lt_of_pvfileUint hheader
  obtain ⟨-, _, hheader⟩ := lt_of_pvfileUint hheader
  obtain ⟨-, _, hheader⟩ := lt_of_pvfileUint hheader
  obtain ⟨-, _, hheader⟩ := lt_of_pvfileUint hheader
  obtain ⟨hframes, _, hheader⟩ := lt_of_pvfileUint hheader
  obtain ⟨-, _, hheader⟩ := lt_of_pvfileUint hheader
  obtain ⟨-, _, hheader⟩ := lt_of_pvfileUint hheader
  obtain ⟨hfft, _, hheader⟩ := lt_of_pvfileUint hheader
  obtain ⟨hblock, _, hheader⟩ := lt_of_pvfileUint hheader
  obtain ⟨hhop, _, hheader⟩ := lt_of_pvfileUint hheader
  obtain ⟨-, _, hwindow⟩ := lt_of_pvfileUint hwindow
  obtain ⟨hbytes, -⟩ := lt_of_pvfileUint hwindow
  exact ⟨hframes, hfft, hblock, hhop, hbytes, hchunk⟩

end PvBuffer.Valid

end Save

section Load

variable {ops : FloatOps} {p : PvBuffer} {memory : Memory} {bs : List UInt8}

structure HeaderFields (p : PvBuffer) (buffer : List UInt8) : Prop where
  magic : uintAt 8 0 buffer = pvfileString "CUDOPVOC"
  chunkSize : uintAt 8 8 buffer = pvfileChunkSize p
  headerSubchunk : uintAt 8 16 buffer = pvfileString "header"
  headerSubchunkSize : uintAt 8 24 buffer = headerSize - 8 * 4
  size : uintAt 8 32 buffer = p.size
  frames : uintAt 4 40 buffer = p.frames
  channels : uintAt 4 44 buffer = p.channels
  sampleRate : uintAt 8 48 buffer = p.srate.toNat
  scaleFactor : uintAt 8 56 buffer = p.scaleFactor.toNat
  dataType : uintAt 8 64 buffer = p.blockDataType.pvfileDataType
  fftSize : uintAt 4 72 buffer = p.fftSize
  blockSize : uintAt 4 76 buffer = p.blockSize
  hopSize : uintAt 4 80 buffer = p.hopSize
  normalizedP : uintAt 1 84 buffer = p.normalizedP.toNat
  zeroPhaseWindowP : uintAt 1 85 buffer = p.zeroPhaseWindowP.toNat

def PvBuffer.withHeader (p : PvBuffer) (memory : Memory) : PvBuffer :=
  { p with
    data := (List.range p.channels).map fun ch => (List.range p.size).map (memory.channel ch)
    windowBuffer := (List.range p.fftSize).map memory.window
    windowSize := p.fftSize
    windowFunction := none }

theorem toNat_bne_zero (b : Bool) : (b.toNat != 0) = b := by
  cases b <;> rfl

def PvBuffer.withWindow (p : PvBuffer) (memory : Memory) : PvBuffer :=
  { p.withHeader memory with
    windowSize := p.windowSize
    windowBuffer := p.windowBuffer.take p.windowSize ++
      ((List.range p.fftSize).map memory.window).drop p.windowSize }

def parts (size : ℕ) : ℕ → List UInt64 → List (List UInt64)
  | 0, _ => []
  | n + 1, l => l.take size :: parts size n (l.drop size)

theorem flatten_parts (size n : ℕ) (l : List UInt64) :
    (parts size n l).flatten = l.take (n * size) := by
  induction n generalizing l with
  | zero => simp [parts]
  | succ n ih =>
    rw [parts, List.flatten_cons, ih, Nat.succ_mul, Nat.add_comm, List.take_add]

theorem parts_take (size n : ℕ) (l : List UInt64) :
    parts size n (l.take (n * size)) = parts size n l := by
  induction n generalizing l with
  | zero => rfl
  | succ n ih =>
    have hle : size ≤ (n + 1) * size := Nat.le_mul_of_pos_left size (Nat.succ_pos n)
    have hsub : (n + 1) * size - size = n * size := by rw [Nat.succ_mul, Nat.add_sub_cancel]
    rw [parts, parts, List.take_take, Nat.min_eq_left hle, List.drop_take, hsub, ih]

theorem parts_flatten {size : ℕ} {data : List (List UInt64)}
    (h : ∀ values ∈ data, values.length = size) :
    parts size data.length data.flatten = data := by
  induction data with
  | nil => rfl
  | cons values data ih =>
    have hlength := h values List.mem_cons_self
    have htake : (values ++ data.flatten).take size = values := by
      rw [← hlength, List.take_left]
    have hdrop : (values ++ data.flatten).drop size = data.flatten := by
      rw [← hlength, List.drop_left]
    rw [List.flatten_cons, List.length_cons, parts, htake, hdrop,
      ih fun v hv => h v (List.mem_cons_of_mem _ hv)]

theorem pvfileWriteSampleData_append (l l' : List UInt64) :
    pvfileWriteSampleData (l ++ l') = pvfileWriteSampleData l ++ pvfileWriteSampleData l' :=
  List.flatMap_append

theorem pvfileReadSampleData_eq {size : ℕ} {data : List (List UInt64)} {l : List UInt64}
    (hdata : ∀ values ∈ data, values.length = size) (hl : data.length * size ≤ l.length) :
    pvfileReadSampleData size data (pvfileWriteSampleData l) =
      some (parts size data.length l) := by
  induction data generalizing l with
  | nil => rfl
  | cons values data ih =>
    rw [List.length_cons, Nat.succ_mul] at hl
    have hlength : (l.take size).length = size := by
      rw [List.length_take]
      omega
    have hoctets := length_pvfileWriteSampleData (l.take size)
    have hwords := words_pvfileWriteSampleData (l.take size) (pvfileWriteSampleData (l.drop size))
    have hsplit : pvfileWriteSampleData l =
        pvfileWriteSampleData (l.take size) ++ pvfileWriteSampleData (l.drop size) := by
      rw [← pvfileWriteSampleData_append, List.take_append_drop]
    rw [hlength, Nat.mul_comm] at hoctets
    rw [hlength, ← hsplit] at hwords
    have htake : ((pvfileWriteSampleData l).take (size * 8)).length = size * 8 := by
      rw [hsplit, ← hoctets, List.take_left]
    have hdrop : (pvfileWriteSampleData l).drop (size * 8) = pvfileWriteSampleData (l.drop size) := by
      rw [hsplit, ← hoctets, List.drop_left]
    have hold : values.drop size = [] :=
      List.drop_of_length_le (hdata values List.mem_cons_self).le
    have htail := @ih (l.drop size) (fun v hv => hdata v (List.mem_cons_of_mem _ hv)) (by
      rw [List.length_drop]
      omega)
    rw [pvfileReadSampleData, htake, hdrop, htail, hwords, hold, List.append_nil]
    simp only [guard, if_true, Option.pure_def, Option.bind_eq_bind, Option.bind_some]
    rfl

def PvBuffer.loaded (p : PvBuffer) (memory : Memory) : PvBuffer :=
  { p.withWindow memory with data := parts p.size p.channels p.dataWords }

theorem take_cons_cons_eq_iff {α : Type*} (a b : α) (l : List α) :
    (a :: b :: l).take l.length = l ↔
      ∀ i (hi : i < l.length), l[i] = if i % 2 = 0 then a else b := by
  constructor
  · intro h i
    induction i using Nat.twoStepInduction with
    | zero =>
      intro hi
      have hget := (List.getElem_of_eq h.symm hi).trans List.getElem_take
      exact hget
    | one =>
      intro hi
      have hget := (List.getElem_of_eq h.symm hi).trans List.getElem_take
      exact hget
    | more i ih _ =>
      intro hi
      have hget := (List.getElem_of_eq h.symm hi).trans List.getElem_take
      have hmod : (i + 2) % 2 = i % 2 := by omega
      rw [hmod, ← ih (by omega)]
      exact hget
  · intro h
    apply List.ext_getElem
    · rw [List.length_take, List.length_cons, List.length_cons]
      omega
    · intro i hi hi'
      rw [List.getElem_take]
      match i, hi' with
      | 0, hi' => exact (h 0 hi').symm
      | 1, hi' => exact (h 1 hi').symm
      | i + 2, hi' =>
        have hmod : (i + 2) % 2 = i % 2 := by omega
        rw [h (i + 2) hi', hmod]
        exact h i (by omega)

theorem uintAt_append_left {k offset : ℕ} {a b : List UInt8} (h : offset + k ≤ a.length) :
    uintAt k offset (a ++ b) = uintAt k offset a := by
  have htake := @uintAt_take k offset (a ++ b) a.length h
  rw [List.take_left] at htake
  exact htake.symm

theorem uintAt_append_right {k offset : ℕ} {a b : List UInt8} :
    uintAt k (a.length + offset) (a ++ b) = uintAt k offset b := by
  rw [uintAt, uintAt, ← List.drop_drop, List.drop_left]

section

variable (hv : p.Valid ops)
include hv

theorem size_lt (hf : p.Fits) : p.size < 2 ^ 61 := by
  have hchunk := hf.chunkSize_lt
  have := Nat.le_mul_of_pos_right p.size hv.channels_pos
  rw [chunkSize_eq] at hchunk
  omega

theorem headerFields (hf : p.Fits) : HeaderFields p p.headerOctets := by
  have hsize : p.size < 0x100 ^ 8 := (size_lt hv hf).trans (by decide)
  have hchannels : p.channels < 0x100 ^ 4 := Nat.lt_of_le_of_lt hv.channels_le (by decide)
  unfold PvBuffer.headerOctets
  constructor
  · exact uintAt_zero (by decide)
  · rw [uintAt_skip (by decide)]
    exact uintAt_zero hf.chunkSize_lt
  · iterate 2 rw [uintAt_skip (by decide)]
    exact uintAt_zero (by decide)
  · iterate 3 rw [uintAt_skip (by decide)]
    exact uintAt_zero (by decide)
  · iterate 4 rw [uintAt_skip (by decide)]
    exact uintAt_zero hsize
  · iterate 5 rw [uintAt_skip (by decide)]
    exact uintAt_zero hf.frames_lt
  · iterate 6 rw [uintAt_skip (by decide)]
    exact uintAt_zero hchannels
  · iterate 7 rw [uintAt_skip (by decide)]
    exact uintAt_zero p.srate.toNat_lt
  · iterate 8 rw [uintAt_skip (by decide)]
    exact uintAt_zero p.scaleFactor.toNat_lt
  · iterate 9 rw [uintAt_skip (by decide)]
    exact uintAt_zero (dataType_lt _)
  · iterate 10 rw [uintAt_skip (by decide)]
    exact uintAt_zero hf.fftSize_lt
  · iterate 11 rw [uintAt_skip (by decide)]
    exact uintAt_zero hf.blockSize_lt
  · iterate 12 rw [uintAt_skip (by decide)]
    exact uintAt_zero hf.hopSize_lt
  · iterate 13 rw [uintAt_skip (by decide)]
    exact uintAt_zero (flag_lt _)
  · iterate 14 rw [uintAt_skip (by decide)]
    exact uintAt_zero (flag_lt _)

theorem pvfileReadHeader_eq (hf : p.Fits)
    (hlength : 2 * 8 + pvfileChunkSize p ≤ (p.headerOctets ++ bs).length) :
    pvfileReadHeader ops memory (p.headerOctets ++ bs) =
      if PositiveReal p.srate then some (p.withHeader memory, bs) else none := by
  have hfields := headerFields hv hf
  have htake : (p.headerOctets ++ bs).take headerSize = p.headerOctets := by
    rw [← @length_headerOctets p, List.take_left]
  have hdrop : (p.headerOctets ++ bs).drop headerSize = bs := by
    rw [← @length_headerOctets p, List.drop_left]
  have hsize := size_lt hv hf
  have hblock : 0 < p.blockSize := by
    rw [hv.blockSize_eq]
    omega
  simp only [pvfileReadHeader, htake, hdrop, hfields.magic, hfields.chunkSize,
    hfields.headerSubchunk, hfields.headerSubchunkSize, hfields.size, hfields.frames,
    hfields.channels, hfields.sampleRate, hfields.scaleFactor, hfields.dataType, hfields.fftSize,
    hfields.blockSize, hfields.hopSize, hfields.normalizedP, hfields.zeroPhaseWindowP,
    length_headerOctets, UInt64.ofNat_toNat, toNat_bne_zero, pvfileDataType_pvfileDataType,
    makePvbuffer]
  have hsubchunk : headerSize - 8 * 4 + 4 * 8 = headerSize := by decide
  by_cases hrate : PositiveReal p.srate
  · have hsize : 0 < p.size := hv.size_eq ▸ Nat.mul_pos hblock hv.frames_pos
    have hpos : 0 < p.channels ∧ p.channels ≤ channelNumberMax ∧ 0 < p.fftSize ∧ 0 < p.hopSize ∧
        PositiveReal p.srate ∧ 0 < p.size :=
      ⟨hv.channels_pos, hv.channels_le, hv.fftSize_pos, hv.hopSize_pos, hrate, hsize⟩
    have hslots : p.size < 2 ^ 62 ∧ 0 < p.blockSize := by omega
    rw [← hv.blockSize_eq, ← hv.size_eq]
    simp only [guard, hlength, hsubchunk, hpos, hslots, and_self, if_true, Option.pure_def,
      Option.bind_eq_bind, Option.bind_some]
    rw [← hv.nbins_eq, ← hv.deltaPhaseMult_eq,
      ← hv.centralFrequencyMult_eq, ← hv.phaseOffsetMult_eq]
    rfl
  · simp only [guard, hlength, hsubchunk, hrate, false_and, and_false, if_false, and_self, if_true,
      Option.pure_def, Option.bind_eq_bind, Option.bind_some]
    rfl

theorem setWindowSize_withHeader :
    (p.withHeader memory).setWindowSize p.windowSize =
      some { p.withHeader memory with windowSize := p.windowSize } := by
  have hle : ¬ (p.withHeader memory).fftSize < p.windowSize := Nat.not_lt.mpr hv.windowSize_le
  simp only [PvBuffer.setWindowSize, guard, hv.windowSize_pos, if_true, if_neg hle,
    Option.pure_def, Option.bind_eq_bind, Option.bind_some]
  by_cases hfft : p.windowSize = (p.withHeader memory).windowSize
  · rw [if_pos hfft, hfft]
  · rw [if_neg hfft]
    rfl

theorem pvfileReadWindow_eq (hf : p.Fits) :
    pvfileReadWindow (p.withHeader memory) (p.windowHeaderOctets ++
        (pvfileWriteSampleData (p.windowBuffer.take p.windowSize) ++ bs)) =
      some (p.withWindow memory, bs) := by
  have hlength : (p.windowBuffer.take p.windowSize).length = p.windowSize := by
    rw [List.length_take, hv.length_windowBuffer, Nat.min_eq_left hv.windowSize_le]
  have hoctets := length_pvfileWriteSampleData (p.windowBuffer.take p.windowSize)
  have hwords := words_pvfileWriteSampleData (p.windowBuffer.take p.windowSize) bs
  rw [hlength] at hoctets hwords
  generalize hsamples : pvfileWriteSampleData (p.windowBuffer.take p.windowSize) = samples
    at hoctets hwords
  have htake : (p.windowHeaderOctets ++ (samples ++ bs)).take windowHeaderSize =
      p.windowHeaderOctets := by
    rw [← @length_windowHeaderOctets p, List.take_left]
  have hdrop : (p.windowHeaderOctets ++ (samples ++ bs)).drop windowHeaderSize = samples ++ bs := by
    rw [← @length_windowHeaderOctets p, List.drop_left]
  have hchunk : uintAt 8 0 p.windowHeaderOctets = pvfileString "window" :=
    uintAt_zero (by decide)
  have hbytes : uintAt 4 8 p.windowHeaderOctets = 8 * p.windowSize := by
    rw [PvBuffer.windowHeaderOctets, uintAt_skip (by decide), ← List.append_nil (littleEndian 4 _)]
    exact uintAt_zero hf.windowBytes_lt
  have hsamples : (samples ++ bs).take (8 * p.windowSize) = samples := by
    rw [← hoctets, List.take_left]
  have hrest : (samples ++ bs).drop (8 * p.windowSize) = bs := by
    rw [← hoctets, List.drop_left]
  have hdiv : 8 * p.windowSize / 8 = p.windowSize := by omega
  have hmod : 8 * p.windowSize % 8 = 0 := by omega
  simp only [pvfileReadWindow, htake, hdrop, hchunk, hbytes, length_windowHeaderOctets, hdiv, hmod,
    hsamples, hoctets, hrest, hwords, guard, and_self, if_true, setWindowSize_withHeader hv,
    Option.pure_def, Option.bind_eq_bind, Option.bind_some]
  rfl

theorem pvbufferLoad_octets (hf : p.Fits) :
    pvbufferLoad ops memory p.octets =
      if PositiveReal p.srate then some (p.loaded memory) else none := by
  have hlength := hv.length_octets
  have hwords : p.channels * p.size ≤ p.dataWords.length := by
    rw [PvBuffer.dataWords, List.length_cons, List.length_cons, hv.length_flatten]
    omega
  have hold : (p.withWindow memory).data.length = p.channels := by
    simp [PvBuffer.withWindow, PvBuffer.withHeader]
  have hdata : pvfileReadData (p.withWindow memory) (pvfileWriteSampleData p.dataWords) =
      some (p.loaded memory) := by
    have hread := @pvfileReadSampleData_eq p.size (p.withWindow memory).data p.dataWords (by
      simp [PvBuffer.withWindow, PvBuffer.withHeader]) (by rwa [hold])
    have hsize : (p.withWindow memory).size = p.size := rfl
    rw [hold] at hread
    rw [pvfileReadData, hsize, hread]
    rfl
  rw [PvBuffer.octets] at hlength ⊢
  rw [pvbufferLoad, pvfileReadHeader_eq hv hf hlength.ge]
  split_ifs
  · simp only [Option.bind_eq_bind, Option.bind_some, pvfileReadWindow_eq hv hf, hdata]
  · rfl

theorem restores_loaded :
    p.Restores (p.loaded memory) ↔ parts p.size p.channels p.dataWords = p.data := by
  constructor
  · intro h
    exact congrArg PvBuffer.data h.1
  · intro h
    refine ⟨?_, ?_⟩
    · rw [PvBuffer.loaded, h]
      rfl
    · have hlength : (p.windowBuffer.take p.windowSize).length = p.windowSize := by
        rw [List.length_take, hv.length_windowBuffer, Nat.min_eq_left hv.windowSize_le]
      exact List.take_left' hlength

theorem parts_dataWords : parts p.size p.channels p.dataWords = p.data ↔ p.RepeatsDataHeader := by
  have hlength := hv.length_flatten
  have hparts : parts p.size p.channels p.data.flatten = p.data := by
    rw [← hv.length_data]
    exact parts_flatten hv.length_channel
  rw [PvBuffer.RepeatsDataHeader, ← take_cons_cons_eq_iff, hlength]
  constructor
  · intro h
    have hflatten := congrArg List.flatten h
    rwa [flatten_parts] at hflatten
  · intro h
    rw [← parts_take, PvBuffer.dataWords, h, hparts]

theorem chunkSizesAddUp_octets (hf : p.Fits) : ChunkSizesAddUp p.octets := by
  have hfields := headerFields hv hf
  have hchunk : uintAt 8 8 p.octets = pvfileChunkSize p := by
    rw [PvBuffer.octets, uintAt_append_left (by rw [length_headerOctets]; decide),
      hfields.chunkSize]
  have hheader : uintAt 8 24 p.octets = headerSize - 8 * 4 := by
    rw [PvBuffer.octets, uintAt_append_left (by rw [length_headerOctets]; decide),
      hfields.headerSubchunkSize]
  have hwindow : uintAt 4 96 p.octets = 8 * p.windowSize := by
    have hoffset : 96 = p.headerOctets.length + 8 := by rw [length_headerOctets]; rfl
    rw [hoffset, PvBuffer.octets, uintAt_append_right, PvBuffer.windowHeaderOctets,
      List.append_assoc, uintAt_skip (by decide)]
    exact uintAt_zero hf.windowBytes_lt
  have hdata : uintAt 8 (108 + 8 * p.windowSize) p.octets = 8 * (p.size * p.channels) := by
    have hlength : (p.windowBuffer.take p.windowSize).length = p.windowSize := by
      rw [List.length_take, hv.length_windowBuffer, Nat.min_eq_left hv.windowSize_le]
    have hoffset : 108 + 8 * p.windowSize = p.headerOctets.length +
        (p.windowHeaderOctets.length +
          ((pvfileWriteSampleData (p.windowBuffer.take p.windowSize)).length + 8)) := by
      rw [length_headerOctets, length_windowHeaderOctets, length_pvfileWriteSampleData, hlength]
      simp only [headerSize, windowHeaderSize]
      omega
    have hbytes : 8 * (p.size * p.channels) < 0x100 ^ 8 := by
      have := hf.chunkSize_lt
      rw [chunkSize_eq] at this
      omega
    have hwords : pvfileWriteSampleData p.dataWords =
        littleEndian 8 (UInt64.ofNat (pvfileString "data")).toNat ++
          (littleEndian 8 (UInt64.ofNat (8 * (p.size * p.channels))).toNat ++
            pvfileWriteSampleData p.data.flatten) := rfl
    have hword : (UInt64.ofNat (8 * (p.size * p.channels))).toNat = 8 * (p.size * p.channels) :=
      UInt64.toNat_ofNat_of_lt' hbytes
    rw [hoffset, PvBuffer.octets, uintAt_append_right, uintAt_append_right, uintAt_append_right,
      hwords, uintAt_skip (by decide), hword]
    exact uintAt_zero hbytes
  have hlength := hv.length_octets
  refine ⟨by rw [hchunk, hlength], ?_⟩
  rw [hheader, hwindow, hdata, hlength, chunkSize_eq]
  simp only [headerSize, windowHeaderSize, dataHeaderSize]
  omega

theorem conditions_of_roundTrips (h : p.RoundTrips ops) :
    p.Fits ∧ PositiveReal p.srate ∧ p.RepeatsDataHeader := by
  obtain ⟨file, hsave, -, hload⟩ := h
  have hf := PvBuffer.Valid.fits_of_save hsave
  obtain rfl := Option.some.inj ((hv.pvbufferSave_eq hf).symm.trans hsave)
  obtain ⟨q, hq, hrestores⟩ := hload ⟨fun _ _ => 0, fun _ => 0, false⟩
  rw [pvbufferLoad_octets hv hf] at hq
  split_ifs at hq with hrate
  obtain rfl := Option.some.inj hq
  exact ⟨hf, hrate, (parts_dataWords hv).mp ((restores_loaded hv).mp hrestores)⟩

end

/-- A PVbuffer is restored from its file if and only if the integers fit, the sampling rate is
positive and the data repeat the header of the data. -/
theorem pvbuffer_restored_iff (hv : p.Valid ops) :
    p.RoundTrips ops ↔ p.Fits ∧ PositiveReal p.srate ∧ p.RepeatsDataHeader := by
  constructor
  · exact conditions_of_roundTrips hv
  · rintro ⟨hf, hrate, hrepeats⟩
    refine ⟨p.octets, hv.pvbufferSave_eq hf, chunkSizesAddUp_octets hv hf, fun memory => ?_⟩
    refine ⟨p.loaded memory, ?_, ?_⟩
    · rw [pvbufferLoad_octets hv hf, if_pos hrate]
    · exact (restores_loaded hv).mpr ((parts_dataWords hv).mpr hrepeats)

def silent : PvBuffer where
  data := [[0, 0]]
  size := 2
  frames := 1
  channels := 1
  fftSize := 1
  scaleFactor := 0x3ff0000000000000
  blockSize := 2
  nbins := 1
  srate := 0x40e7700000000000
  blockDataType := .complex
  windowBuffer := [0x3ff0000000000000]
  windowSize := 1
  windowFunction := none
  hopSize := 1
  deltaPhaseMult := 0x40bdd76ff0d294b8
  centralFrequencyMult := 0x40e7700000000000
  phaseOffsetMult := 0x401921fb54442d18
  normalizedP := true
  zeroPhaseWindowP := false

def silentOps : FloatOps where
  deltaPhaseMult _ _ := 0x40bdd76ff0d294b8
  centralFrequencyMult _ _ := 0x40e7700000000000
  phaseOffsetMult _ _ := 0x401921fb54442d18
  scaleFactor _ _ := 0x3ff0000000000000

theorem silent_valid : silent.Valid silentOps := by
  constructor <;> decide

/-- The data are the name and the size of their chunk. -/
def repeating : PvBuffer := { silent with data := [[0x61746164, 16]] }

theorem repeating_valid : repeating.Valid silentOps := by
  constructor <;> decide

theorem pvbuffer_restored_iff_repeating : repeating.RoundTrips silentOps := by
  refine (pvbuffer_restored_iff repeating_valid).mpr ⟨?_, by decide, ?_⟩
  · constructor <;> decide
  · intro i hi
    have hlength : repeating.data.flatten.length = 2 := rfl
    have hcases : i = 0 ∨ i = 1 := by omega
    rcases hcases with rfl | rfl
    · rfl
    · rfl

/-- The loaded data begin with the header of the data. -/
theorem not_roundTrips_silent : ¬ silent.RoundTrips silentOps := by
  intro h
  obtain ⟨-, -, hrepeats⟩ := conditions_of_roundTrips silent_valid h
  have hfirst := hrepeats 0 (by decide)
  exact absurd hfirst (by decide)

end Load

end Incudine.PvFile

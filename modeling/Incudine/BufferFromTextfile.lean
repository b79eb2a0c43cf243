import Incudine.NumericTextfile
import Incudine.SndfileToBuffer
import Mathlib.Algebra.Order.Group.Int
import Mathlib.Algebra.Ring.Int.Defs
import Mathlib.Data.List.TakeDrop

/-!
# Buffers filled from a file

A buffer is filled with the frames of a sound file or with the values of a numeric text file. The
sound file is imported at a frame, the text file at a sample.
-/

namespace Incudine.Buffers

open FrameMemory Function
open Textfile (checkNumericTextfile)

structure Buffer (α : Type*) where
  frames : ℕ
  channels : ℕ
  data : ℕ → α

structure TextFile (α : Type*) where
  bytes : List UInt8
  objects : List (Option α)

structure SoundFile (α : Type*) where
  channels : ℕ
  frames : ℕ
  frame : ℕ → ℕ → α
  reads : Reads

inductive File (α : Type*)
  | sound (sf : SoundFile α)
  | text (file : TextFile α)

variable {α : Type*}

section Source

variable [Zero α]

def readValue : List (Option α) → α × List (Option α)
  | [] => (0, [])
  | none :: f => (0, f)
  | some x :: f => (x, f)

def skipFrames (channels offset : ℕ) (f : List (Option α)) : List (Option α) :=
  (fun f => List.tail^[channels] f)^[offset] f

/-- The values of a frame, with the next sample of the buffer. -/
def importFrame : ℕ → List (Option α) → ℕ → (ℕ → α) → List (Option α) × ℕ × (ℕ → α)
  | 0, f, count, data => (f, count, data)
  | n + 1, f, count, data =>
    let (x, f) := readValue f
    importFrame n f (count + 1) (update data count x)

def importLoop (channels size : ℕ) : ℕ → List (Option α) → ℕ → (ℕ → α) → Option (ℕ → α)
  | 0, _, _, _ => none
  | fuel + 1, f, count, data =>
    if count < size then
      let (f, count, data) := importFrame channels f count data
      importLoop channels size fuel f count data
    else some data

def bufferImportTextfile (fuel : ℕ) (buffer : Buffer α) (file : TextFile α)
    (offset bufferStart channels size : ℕ) : Option (Buffer α) :=
  (importLoop channels size fuel (skipFrames channels offset file.objects) bufferStart
    buffer.data).map fun data => { buffer with data := data }

def ceiling (size channels : ℕ) : ℕ := (size + (channels - 1)) / channels

def setBufferFromTextfile (fuel : ℕ) (buffer : Buffer α) (file : TextFile α)
    (start bufferStart bufferEnd : ℕ) : Option (Buffer α) :=
  (checkNumericTextfile fuel file.bytes).bind fun (validP, size) =>
    if validP then
      let channels := buffer.channels
      if channels = 0 then none
      else
        let frames : ℤ := min (bufferEnd - bufferStart) (ceiling size channels - start)
        if frames < 0 then none
        else if 0 < frames then
          bufferImportTextfile fuel buffer file start bufferStart channels
            (bufferStart + frames.toNat * channels)
        else some buffer
    else some buffer

def bufferLoadTextfile (fuel : ℕ) (file : TextFile α) (offset : ℕ) (frames : Option ℤ)
    (channels : ℕ) : Option (Option (Buffer α)) :=
  (checkNumericTextfile fuel file.bytes).bind fun (validP, size) =>
    if validP then
      let channels := max channels 1
      let frames := frames.getD (ceiling size channels - offset)
      if 0 < frames then
        (bufferImportTextfile fuel ⟨frames.toNat, channels, fun _ => 0⟩ file offset 0 channels
          (frames.toNat * channels)).map some
      else some none
    else some none

def checkChannelMap (cmap : List (ℕ × ℕ)) (sfChannels bufChannels : ℕ) : Bool :=
  !(sfChannels < cmap.length || bufChannels < cmap.length ||
    cmap.any fun x => sfChannels ≤ x.1 || bufChannels ≤ x.2)

/-- `set-buffer-from-sndfile`. An empty channel map is `nil`; `memory` is the contents of the
array that is allocated to map the channels. -/
def setBufferFromSndfile (fuel sndfileBufferSize : ℕ) (memory : ℕ → α) (buffer : Buffer α)
    (file : File α) (start bufferStart bufferEnd : ℕ) (channelMap : List (ℕ × ℕ)) :
    Option (Buffer α) :=
  match file with
  | .text file => setBufferFromTextfile fuel buffer file start bufferStart bufferEnd
  | .sound sf =>
    let selectedFrames : ℤ := min (bufferEnd - bufferStart) (sf.frames - start)
    if 0 < selectedFrames then
      let sndfile : Sndfile α := ⟨sf.channels, fun k => sf.frame (start + k), sf.reads⟩
      let mapChannels := fun channelMap =>
        mapSndfileChToBuffer fuel buffer.data memory sndfile selectedFrames.toNat buffer.channels
          bufferStart sndfileBufferSize channelMap
      let data :=
        if channelMap ≠ [] then
          if checkChannelMap channelMap sf.channels buffer.channels then mapChannels channelMap
          else none
        else if buffer.channels = sf.channels then
          sndfileToBuffer fuel buffer.data sndfile selectedFrames.toNat bufferStart
            sndfileBufferSize
        else mapChannels (identityMap (min sf.channels buffer.channels))
      data.map fun r => { buffer with data := r.1 }
    else some buffer

end Source

section Specification

variable [Zero α]

def TextFile.value (file : TextFile α) (i : ℕ) : α := (file.objects[i]?.join).getD 0

def TextFile.frame (file : TextFile α) (channels k channel : ℕ) : α :=
  file.value (k * channels + channel)

def TextFile.frames (file : TextFile α) (channels : ℕ) : ℕ := ceiling file.objects.length channels

/-- The scanner accepts the file and counts the objects. -/
def TextFile.Valid (file : TextFile α) : Prop :=
  ∃ fuel, checkNumericTextfile fuel file.bytes = some (true, file.objects.length)

def selected (bufferStart bufferEnd fileFrames start : ℕ) : ℕ :=
  min (bufferEnd - bufferStart) (fileFrames - start)

def Buffer.imported (buffer : Buffer α) (frame : ℕ → ℕ → α) (fileFrames start bufferStart
    bufferEnd : ℕ) : Buffer α :=
  { buffer with
    data := store buffer.channels bufferStart (selected bufferStart bufferEnd fileFrames start)
      (fun k c => some (frame (start + k) c)) buffer.data }

/-- With any contents of the buffer, the frames of the text file are imported as the same frames of
a sound file. -/
def TextFile.Agrees (file : TextFile α) (frames channels start bufferStart bufferEnd : ℕ) : Prop :=
  ∀ data : ℕ → α,
    (∃ fuel, setBufferFromTextfile fuel ⟨frames, channels, data⟩ file start bufferStart bufferEnd =
      some (Buffer.imported ⟨frames, channels, data⟩ (file.frame channels) (file.frames channels)
        start bufferStart bufferEnd)) ∧
    ∀ (sndfileBufferSize : ℕ) (memory : ℕ → α) (reads : Reads), 0 < sndfileBufferSize →
      sndfileBufferSize * channels < 2 ^ 31 → (∀ i n, reads.count i n = n) →
      ∃ fuel, setBufferFromSndfile fuel sndfileBufferSize memory ⟨frames, channels, data⟩
          (.sound ⟨channels, file.frames channels, file.frame channels, reads⟩) start bufferStart
          bufferEnd [] =
        some (Buffer.imported ⟨frames, channels, data⟩ (file.frame channels) (file.frames channels)
          start bufferStart bufferEnd)

end Specification

section Textfile

variable [Zero α] {file : TextFile α} {buffer : Buffer α} {fuel channels start bufferStart bufferEnd n : ℕ}

def objectValue (f : List (Option α)) (k : ℕ) : α := (f[k]?.join).getD 0

theorem readValue_eq (f : List (Option α)) : readValue f = (objectValue f 0, f.drop 1) := by
  match f with
  | [] => rfl
  | none :: f => rfl
  | some x :: f => rfl

theorem objectValue_drop (f : List (Option α)) (m k : ℕ) :
    objectValue (f.drop m) k = objectValue f (m + k) := by
  rw [objectValue, objectValue, List.getElem?_drop]

omit [Zero α] in
theorem skipFrames_eq (channels offset : ℕ) (f : List (Option α)) :
    skipFrames channels offset f = f.drop (offset * channels) := by
  simp only [skipFrames, List.tail_iterate]
  induction offset generalizing f with
  | zero => rw [Nat.zero_mul]; rfl
  | succ offset ih =>
    rw [iterate_succ_apply, ih, List.drop_drop, Nat.succ_mul, Nat.add_comm]

theorem importFrame_eq (n : ℕ) (f : List (Option α)) (count : ℕ) (data : ℕ → α) :
    importFrame n f count data =
      (f.drop n, count + n, store 1 count n (fun k _ => some (objectValue f k)) data) := by
  induction n generalizing f count data with
  | zero => simp [importFrame]
  | succ n ih =>
    rw [importFrame, readValue_eq]
    simp only [ih, List.drop_drop, objectValue_drop]
    rw [@store_succ α _ _ count (fun k _ => some (objectValue f k)) _ rfl]
    simp only [Nat.add_comm 1, Nat.add_assoc]

theorem importLoop_eq (hpos : 0 < channels) (fuel n : ℕ) (f : List (Option α)) (count : ℕ)
    (data : ℕ → α) :
    importLoop channels (count + n * channels) fuel f count data =
      if n < fuel then
        some (store 1 count (n * channels) (fun k _ => some (objectValue f k)) data)
      else none := by
  induction fuel generalizing n f count data with
  | zero => rfl
  | succ fuel ih =>
    cases n with
    | zero => simp [importLoop]
    | succ n =>
      have hsize : count + (n + 1) * channels = count + channels + n * channels := by
        rw [Nat.succ_mul]
        omega
      have hfuel : n + 1 < fuel + 1 ↔ n < fuel := Nat.succ_lt_succ_iff
      rw [importLoop, if_pos (by omega), importFrame_eq]
      simp only [hsize, ih, hfuel, objectValue_drop]
      rw [store_append, Nat.succ_mul, Nat.add_comm channels]

theorem bufferImportTextfile_eq (hpos : 0 < channels) (fuel n offset : ℕ) :
    bufferImportTextfile fuel buffer file offset bufferStart channels
        (bufferStart + n * channels) =
      if n < fuel then
        some { buffer with
          data := store 1 bufferStart (n * channels)
            (fun k _ => some (file.value (offset * channels + k))) buffer.data }
      else none := by
  rw [bufferImportTextfile, importLoop_eq hpos, skipFrames_eq]
  simp only [objectValue_drop]
  split_ifs <;> rfl

omit [Zero α] in
theorem TextFile.Valid.check (hvalid : file.Valid) (hfuel : file.bytes.length < fuel) :
    checkNumericTextfile fuel file.bytes = some (true, file.objects.length) := by
  obtain ⟨fuel', hcheck⟩ := hvalid
  rw [checkNumericTextfile, Textfile.checkLoop_eq hfuel]
  exact Textfile.checkLoop_sound hcheck

def TextFile.storedAt (file : TextFile α) (buffer : Buffer α) (start bufferStart bufferEnd : ℕ) :
    Buffer α :=
  { buffer with
    data := store 1 bufferStart
      (selected bufferStart bufferEnd (file.frames buffer.channels) start * buffer.channels)
      (fun k _ => some (file.value (start * buffer.channels + k))) buffer.data }

theorem setBufferFromTextfile_cases (hvalid : file.Valid) (hle : bufferStart ≤ bufferEnd)
    {buffer' : Buffer α}
    (h : setBufferFromTextfile fuel buffer file start bufferStart bufferEnd = some buffer') :
    0 < buffer.channels ∧ start ≤ file.frames buffer.channels ∧
      buffer' = file.storedAt buffer start bufferStart bufferEnd := by
  rw [setBufferFromTextfile] at h
  obtain ⟨⟨valid, size⟩, hcheck, h⟩ := Option.bind_eq_some_iff.mp h
  obtain ⟨fuel', hcheck'⟩ := hvalid
  cases Textfile.checkNumericTextfile_unique hcheck hcheck'
  simp only [if_true] at h
  by_cases hchannels : buffer.channels = 0
  · rw [if_pos hchannels] at h
    cases h
  have hpos := Nat.pos_of_ne_zero hchannels
  rw [if_neg hchannels] at h
  change (if min ((bufferEnd : ℤ) - bufferStart) (file.frames buffer.channels - start) < 0 then _
    else _) = _ at h
  by_cases hneg : min ((bufferEnd : ℤ) - bufferStart) (file.frames buffer.channels - start) < 0
  · rw [if_pos hneg] at h
    cases h
  rw [if_neg hneg] at h
  refine ⟨hpos, by omega, ?_⟩
  have hselected : (min ((bufferEnd : ℤ) - bufferStart)
      (file.frames buffer.channels - start)).toNat =
      selected bufferStart bufferEnd (file.frames buffer.channels) start := by
    rw [selected]
    omega
  change (if 0 < min ((bufferEnd : ℤ) - bufferStart) (file.frames buffer.channels - start) then
    bufferImportTextfile fuel buffer file start bufferStart buffer.channels (bufferStart +
      (min ((bufferEnd : ℤ) - bufferStart) (file.frames buffer.channels - start)).toNat *
        buffer.channels) else some buffer) = _ at h
  rw [hselected, bufferImportTextfile_eq hpos] at h
  by_cases hplus : 0 < min ((bufferEnd : ℤ) - bufferStart) (file.frames buffer.channels - start)
  · rw [if_pos hplus] at h
    by_cases hfuel : selected bufferStart bufferEnd (file.frames buffer.channels) start < fuel
    · rw [if_pos hfuel] at h
      exact (Option.some_inj.mp h).symm
    · rw [if_neg hfuel] at h
      cases h
  · rw [if_neg hplus] at h
    have hzero : selected bufferStart bufferEnd (file.frames buffer.channels) start = 0 := by
      rw [← hselected]
      omega
    rw [← Option.some_inj.mp h, TextFile.storedAt, hzero, Nat.zero_mul, store_zero]

theorem setBufferFromTextfile_some (hvalid : file.Valid) (hle : bufferStart ≤ bufferEnd)
    (hpos : 0 < buffer.channels) (hstart : start ≤ file.frames buffer.channels) :
    ∃ fuel, setBufferFromTextfile fuel buffer file start bufferStart bufferEnd =
      some (file.storedAt buffer start bufferStart bufferEnd) := by
  have hsome : ∃ fuel, (setBufferFromTextfile fuel buffer file start bufferStart bufferEnd).isSome := by
    have hnneg : ¬ min ((bufferEnd : ℤ) - bufferStart) (file.frames buffer.channels - start) < 0 := by
      omega
    refine ⟨max file.bytes.length (bufferEnd - bufferStart) + 1, ?_⟩
    rw [setBufferFromTextfile, hvalid.check (by omega), Option.bind_some]
    simp only [if_true]
    rw [if_neg hpos.ne']
    change (if min ((bufferEnd : ℤ) - bufferStart) (file.frames buffer.channels - start) < 0 then _
      else _ : Option (Buffer α)).isSome
    rw [if_neg hnneg]
    split_ifs with hplus
    · rw [bufferImportTextfile_eq hpos, if_pos]
      · rfl
      · change (min ((bufferEnd : ℤ) - bufferStart) (file.frames buffer.channels - start)).toNat < _
        omega
    · rfl
  obtain ⟨fuel, hfuel⟩ := hsome
  obtain ⟨buffer', hbuffer⟩ := Option.isSome_iff_exists.mp hfuel
  refine ⟨fuel, ?_⟩
  rw [hbuffer, (setBufferFromTextfile_cases hvalid hle hbuffer).2.2]

theorem TextFile.storedAt_eq_imported (hpos : 0 < buffer.channels)
    (h : buffer.channels = 1 ∨ bufferStart = 0 ∨
      selected bufferStart bufferEnd (file.frames buffer.channels) start = 0) :
    file.storedAt buffer start bufferStart bufferEnd =
      buffer.imported (file.frame buffer.channels) (file.frames buffer.channels) start bufferStart
        bufferEnd := by
  have hvalue (k c : ℕ) : file.frame buffer.channels (start + k) c =
      file.value (start * buffer.channels + (k * buffer.channels + c)) := by
    rw [TextFile.frame, Nat.add_mul, Nat.add_assoc]
  rw [TextFile.storedAt, Buffer.imported]
  simp only [hvalue]
  rw [store_samples hpos fun k => file.value (start * buffer.channels + k)]
  rcases h with hmono | hzero | hnone
  · rw [hmono, Nat.mul_one bufferStart]
  · rw [hzero, Nat.zero_mul]
  · rw [hnone, Nat.zero_mul, store_zero, store_zero]

/-- A buffer that is made for the file begins at the sample zero, hence the frames are the ones of
the file. -/
theorem bufferLoadTextfile_eq (hvalid : file.Valid) (offset : ℕ) (frames : Option ℤ) (channels : ℕ)
    {n : ℤ} (hn : frames.getD (file.frames (max channels 1) - offset) = n) :
    ∃ fuel, bufferLoadTextfile fuel file offset frames channels =
      some (if 0 < n then
        some ⟨n.toNat, max channels 1, store (max channels 1) 0 n.toNat
          (fun k c => some (file.frame (max channels 1) (offset + k) c)) fun _ => 0⟩
      else none) := by
  have hpos : 0 < max channels 1 := by omega
  have hvalue (k c : ℕ) : file.frame (max channels 1) (offset + k) c =
      file.value (offset * max channels 1 + (k * max channels 1 + c)) := by
    rw [TextFile.frame, Nat.add_mul, Nat.add_assoc]
  rw [TextFile.frames] at hn
  refine ⟨max file.bytes.length n.toNat + 1, ?_⟩
  rw [bufferLoadTextfile, hvalid.check (by omega), Option.bind_some]
  simp only [if_true, hn, hvalue]
  rw [store_samples hpos fun k => file.value (offset * max channels 1 + k), Nat.zero_mul]
  split_ifs with hplus
  · have himport := @bufferImportTextfile_eq α _ file ⟨n.toNat, max channels 1, fun _ => 0⟩
      (max channels 1) 0 hpos (max file.bytes.length n.toNat + 1) n.toNat offset
    rw [if_pos (by omega), Nat.zero_add] at himport
    rw [himport, Option.map_some]
  · rfl

theorem TextFile.storedAt_ne_imported [Nontrivial α] (hchannels : 1 < channels)
    (hstart : 0 < bufferStart)
    (hselected : 0 < selected bufferStart bufferEnd (file.frames channels) start) (frames : ℕ) :
    ∃ data : ℕ → α, file.storedAt ⟨frames, channels, data⟩ start bufferStart bufferEnd ≠
      Buffer.imported ⟨frames, channels, data⟩ (file.frame channels) (file.frames channels) start
        bufferStart bufferEnd := by
  obtain ⟨x, hx⟩ := exists_ne (file.value (start * channels))
  refine ⟨fun _ => x, fun heq => hx ?_⟩
  have hindex := congrFun (congrArg Buffer.data heq) bufferStart
  have hbefore : bufferStart / channels < bufferStart := Nat.div_lt_self hstart hchannels
  have hmul : 0 < selected bufferStart bufferEnd (file.frames channels) start * channels :=
    Nat.mul_pos hselected (by omega)
  have hfirst := @store_value α 1 0 bufferStart _ 0
    (fun k _ => some (file.value (start * channels + k))) (fun _ => x) hmul Nat.zero_lt_one _ rfl
  rw [Nat.add_zero, Nat.mul_one, Nat.add_zero, Nat.add_zero] at hfirst
  simp only [TextFile.storedAt, Buffer.imported] at hindex
  rw [hfirst, store_outside (.inl hbefore)] at hindex
  exact hindex.symm

end Textfile

section Sound

variable [Zero α] {sndfileBufferSize : ℕ} {memory : ℕ → α} {buffer : Buffer α} {sf : SoundFile α}
  {start bufferStart bufferEnd : ℕ}

theorem setBufferFromSndfile_eq (hpos : 0 < buffer.channels) (hchannels : buffer.channels = sf.channels)
    (hle : bufferStart ≤ bufferEnd) (hsize : 0 < sndfileBufferSize)
    (hint : sndfileBufferSize * buffer.channels < 2 ^ 31) (hcount : ∀ i n, sf.reads.count i n = n) :
    ∃ fuel, setBufferFromSndfile fuel sndfileBufferSize memory buffer (.sound sf) start bufferStart
      bufferEnd [] = some (buffer.imported sf.frame sf.frames start bufferStart bufferEnd) := by
  have hselected : (min ((bufferEnd : ℤ) - bufferStart) (sf.frames - start)).toNat =
      selected bufferStart bufferEnd sf.frames start := by
    rw [selected]
    omega
  let p : Import := ⟨sf.channels, hchannels ▸ hpos, buffer.channels, bufferStart,
    selected bufferStart bufferEnd sf.frames start, sndfileBufferSize, [], nofun⟩
  have hfilling := @Import.filling_whole α _ p sf.reads (fun k => sf.frame (start + k)) buffer.data
    hsize hcount
  obtain ⟨fuel, hfilling⟩ := hfilling
  have hsndfile := @sndfileToBuffer_eq α _ p sf.reads (fun k => sf.frame (start + k)) buffer.data fuel
  have hrequested : p.requested 0 * p.channels ≤ sndfileBufferSize * buffer.channels := by
    rw [hchannels]
    exact Nat.mul_le_mul_right _ (Nat.min_le_left _ _)
  rw [if_pos (Nat.lt_of_le_of_lt hrequested hint), hfilling] at hsndfile
  refine ⟨fuel, ?_⟩
  rw [setBufferFromSndfile]
  simp only [hselected]
  by_cases hplus : 0 < min ((bufferEnd : ℤ) - bufferStart) (sf.frames - start)
  · rw [if_pos hplus, if_neg (by simp), if_pos hchannels]
    change Option.map _ (sndfileToBuffer fuel buffer.data (p.sndfile sf.reads _) p.frames p.bufOffset
      p.chunkFrames) = _
    rw [hsndfile, Option.map_some, Buffer.imported, hchannels]
  · have hzero : selected bufferStart bufferEnd sf.frames start = 0 := by
      rw [← hselected]
      omega
    rw [if_neg hplus, Buffer.imported, hzero, store_zero]

end Sound

/-- The frames of a text file are imported as the ones of a sound file if the buffer is mono or is
filled from the beginning, or if there is nothing to store. -/
theorem textfile_agrees_iff [Zero α] [Nontrivial α] (file : TextFile α) (hvalid : file.Valid)
    (frames channels start bufferStart bufferEnd : ℕ) (hle : bufferStart ≤ bufferEnd) :
    file.Agrees frames channels start bufferStart bufferEnd ↔
      0 < channels ∧ start ≤ file.frames channels ∧
        (channels = 1 ∨ bufferStart = 0 ∨ bufferEnd = bufferStart ∨ file.frames channels = start) := by
  constructor
  · intro h
    obtain ⟨⟨fuel, hresult⟩, -⟩ := h fun _ => 0
    obtain ⟨hpos, hstart, -⟩ := setBufferFromTextfile_cases hvalid hle hresult
    refine ⟨hpos, hstart, ?_⟩
    by_contra hnot
    have hselected : 0 < selected bufferStart bufferEnd (file.frames channels) start := by
      change start ≤ file.frames channels at hstart
      rw [selected]
      omega
    obtain ⟨data, hdata⟩ := @TextFile.storedAt_ne_imported α _ file channels start bufferStart bufferEnd
      _ (by change 0 < channels at hpos; omega) (by omega) hselected frames
    obtain ⟨⟨fuel, hresult⟩, -⟩ := h data
    exact hdata (setBufferFromTextfile_cases hvalid hle hresult).2.2.symm
  · rintro ⟨hpos, hstart, hcase⟩ data
    constructor
    · have himported := @TextFile.storedAt_eq_imported α _ file ⟨frames, channels, data⟩ start bufferStart
        bufferEnd hpos ?_
      · rw [← himported]
        exact setBufferFromTextfile_some hvalid hle hpos hstart
      · refine hcase.imp_right (Or.imp_right fun hnone => ?_)
        change min (bufferEnd - bufferStart) (file.frames channels - start) = 0
        omega
    · intro sndfileBufferSize memory reads hsize hint hcount
      exact @setBufferFromSndfile_eq α _ sndfileBufferSize memory ⟨frames, channels, data⟩
        ⟨channels, file.frames channels, file.frame channels, reads⟩ start bufferStart bufferEnd hpos rfl
        hle hsize hint hcount

def stereoText : TextFile ℤ := ⟨[49, 32, 50], [some 1, some 2]⟩

theorem stereoText_valid : stereoText.Valid := ⟨4, by decide⟩

theorem textfile_agrees_iff_stereoText : stereoText.Agrees 3 2 0 0 1 :=
  (textfile_agrees_iff stereoText stereoText_valid 3 2 0 0 1 (by decide)).mpr (by decide)

theorem bufferLoadTextfile_stereoText : ∃ fuel buffer,
    bufferLoadTextfile fuel stereoText 0 (some 2) 2 = some (some buffer) ∧ buffer.frames = 2 ∧
      (List.range 4).map buffer.data = [1, 2, 0, 0] := by
  obtain ⟨fuel, h⟩ := bufferLoadTextfile_eq stereoText_valid 0 (some 2) 2 (n := 2) rfl
  exact ⟨fuel, _, h, rfl, by decide⟩

/-- The frame number 1 of a stereo buffer is stored at the sample number 1. -/
theorem textfile_not_agrees : ¬ stereoText.Agrees 3 2 0 1 2 := by
  intro h
  obtain ⟨data, hdata⟩ := @TextFile.storedAt_ne_imported ℤ _ stereoText 2 0 1 2 _ (by decide) (by decide)
    (by decide) 3
  obtain ⟨⟨fuel, hresult⟩, -⟩ := h data
  exact hdata (setBufferFromTextfile_cases stereoText_valid (by decide) hresult).2.2.symm

example : (setBufferFromTextfile 4 ⟨3, 2, fun _ => 0⟩ stereoText 0 1 2).map
    (fun buffer => (List.range 6).map buffer.data) = some [0, 1, 2, 0, 0, 0] := by
  decide

end Incudine.Buffers

import Incudine.FrameMemory
import Mathlib.Data.Int.Basic
import Mathlib.Data.List.Basic
import Mathlib.Data.List.Induction

/-!
# Import of sound files

Two loops read a sound file in chunks, directly into a buffer or through a temporary array whose
channels are mapped to those of the buffer. The library possibly reads less frames than the
requested ones.
-/

namespace Incudine.Buffers

open FrameMemory Function

/-- The number of the frames returned by the reads of the requested frames. Whether the rest of
the requested frames is set to zero depends on the library. -/
structure Reads where
  count : ℕ → ℕ → ℕ
  count_le : ∀ i requested, count i requested ≤ requested
  padP : Bool

/-- An open sound file: `frame k` is the `k`-th frame that is read. -/
structure Sndfile (α : Type*) where
  channels : ℕ
  frame : ℕ → ℕ → α
  reads : Reads

section Source

variable {α : Type*} [Zero α]

def readf (sndfile : Sndfile α) (i pos : ℕ) (memory : ℕ → α) (ptr frames : ℕ) : (ℕ → α) × ℕ :=
  let n := sndfile.reads.count i frames
  let memory := fun j =>
    if ptr ≤ j ∧ j < ptr + n * sndfile.channels then
      sndfile.frame (pos + (j - ptr) / sndfile.channels) ((j - ptr) % sndfile.channels)
    else if sndfile.reads.padP ∧ ptr ≤ j ∧ j < ptr + frames * sndfile.channels then 0
    else memory j
  (memory, n)

/-- The product of two `int`, undefined if there is an overflow. -/
def intMul (a b : ℕ) : Option ℕ := if a * b < 2 ^ 31 then some (a * b) else none

/-- The loop of `sndfile_to_buffer`: the memory and the number of the frames that have been read,
or nothing without fuel. -/
def sndfileToBufferLoop (sndfile : Sndfile α) (incr : ℕ) :
    ℕ → ℕ → ℕ → (ℕ → α) → ℕ → ℕ → ℕ → Option ((ℕ → α) × ℕ)
  | 0, _, _, _, _, _, _ => none
  | fuel + 1, i, pos, buf, p, remain, chunkFrames =>
    if 0 < remain then
      let (buf, n) := readf sndfile i pos buf p chunkFrames
      if n = 0 then some (buf, pos)
      else
        let remain := remain - n
        let chunkFrames := if remain < chunkFrames then remain else chunkFrames
        sndfileToBufferLoop sndfile incr fuel (i + 1) (pos + n) buf (p + incr) remain chunkFrames
    else some (buf, pos)

def sndfileToBuffer (fuel : ℕ) (buf : ℕ → α) (sndfile : Sndfile α)
    (frames bufOffset chunkFrames : ℕ) : Option ((ℕ → α) × ℕ) :=
  let chunkFrames := if frames < chunkFrames then frames else chunkFrames
  (intMul chunkFrames sndfile.channels).bind fun incr =>
    sndfileToBufferLoop sndfile incr fuel 0 0 buf (bufOffset * sndfile.channels) frames chunkFrames

/-- A frame at `curr` is copied to the frame at `p`. The map is a list of pairs with the channels
of the source and of the destination. -/
def mapFrame (chanMap : List (ℕ × ℕ)) (q : ℕ → α) (curr p : ℕ) (buf : ℕ → α) : ℕ → α :=
  chanMap.foldl (fun buf k => update buf (p + k.2) (q (curr + k.1))) buf

/-- The copy of `n` frames, with the next position in the buffer. -/
def mapFrames (chanMap : List (ℕ × ℕ)) (channels bufChannels : ℕ) (q : ℕ → α) :
    ℕ → ℕ → ℕ → (ℕ → α) → (ℕ → α) × ℕ
  | 0, _, p, buf => (buf, p)
  | n + 1, curr, p, buf =>
    mapFrames chanMap channels bufChannels q n (curr + channels) (p + bufChannels)
      (mapFrame chanMap q curr p buf)

/-- The loop of `map_sndfile_ch_to_buffer`; `q` is the temporary array. The samples from zero to
`incr` are copied by frames. -/
def mapSndfileChToBufferLoop (sndfile : Sndfile α) (bufChannels : ℕ) (chanMap : List (ℕ × ℕ)) :
    ℕ → ℕ → ℕ → (ℕ → α) → (ℕ → α) → ℕ → ℕ → ℕ → ℕ → Option ((ℕ → α) × ℕ)
  | 0, _, _, _, _, _, _, _, _ => none
  | fuel + 1, i, pos, q, buf, p, remain, chunkFrames, incr =>
    if 0 < remain then
      let (q, n) := readf sndfile i pos q 0 chunkFrames
      if n = 0 then some (buf, pos)
      else
        let remain := remain - n
        let (buf, p) :=
          mapFrames chanMap sndfile.channels bufChannels q (incr / sndfile.channels) 0 p buf
        let (chunkFrames, incr) :=
          if remain < chunkFrames then (remain, remain * sndfile.channels) else (chunkFrames, incr)
        mapSndfileChToBufferLoop sndfile bufChannels chanMap fuel (i + 1) (pos + n) q buf p remain
          chunkFrames incr
    else some (buf, pos)

def mapSndfileChToBuffer (fuel : ℕ) (buf memory : ℕ → α) (sndfile : Sndfile α)
    (frames bufChannels bufOffset chunkFrames : ℕ) (chanMap : List (ℕ × ℕ)) :
    Option ((ℕ → α) × ℕ) :=
  let chunkFrames := if frames < chunkFrames then frames else chunkFrames
  (intMul chunkFrames sndfile.channels).bind fun incr =>
    mapSndfileChToBufferLoop sndfile bufChannels chanMap fuel 0 0 memory buf
      (bufOffset * bufChannels) frames chunkFrames incr

end Source

section Specification

/-- The channel of the file for a channel of the buffer: the last one that is mapped to it. -/
def source (chanMap : List (ℕ × ℕ)) (channel : ℕ) : Option ℕ :=
  ((chanMap.filter (·.2 = channel)).getLast?).map (·.1)

def identityMap (channels : ℕ) : List (ℕ × ℕ) := (List.range channels).map fun c => (c, c)

/-- The first `n` frames are stored from the frame `offset` on, in the channels with a value; the
other channels and the frames outside of `offset .. offset + frames` are unchanged. -/
structure Fills {α : Type*} (channels offset frames n : ℕ) (value : ℕ → ℕ → Option α)
    (buf buf' : ℕ → α) : Prop where
  stored : ∀ k < n, ∀ c < channels, ∀ x, value k c = some x →
    buf' ((offset + k) * channels + c) = x
  unmapped : ∀ frame, ∀ c < channels, (∀ k, value k c = none) →
    buf' (frame * channels + c) = buf (frame * channels + c)
  outside : ∀ i, i < offset * channels ∨ (offset + frames) * channels ≤ i → buf' i = buf i

structure Import where
  channels : ℕ
  channels_pos : 0 < channels
  bufChannels : ℕ
  bufOffset : ℕ
  frames : ℕ
  chunkFrames : ℕ
  chanMap : List (ℕ × ℕ)
  valid : ∀ k ∈ chanMap, k.1 < channels ∧ k.2 < bufChannels

def Import.sndfile {α : Type*} (p : Import) (reads : Reads) (frame : ℕ → ℕ → α) : Sndfile α :=
  ⟨p.channels, frame, reads⟩

section Sndfile

variable {α : Type*} {p : Import} {reads : Reads} {frame : ℕ → ℕ → α}

@[simp] theorem Import.sndfile_channels : (p.sndfile reads frame).channels = p.channels := rfl

@[simp] theorem Import.sndfile_frame : (p.sndfile reads frame).frame = frame := rfl

@[simp] theorem Import.sndfile_reads : (p.sndfile reads frame).reads = reads := rfl

end Sndfile

/-- With any contents of the file and of the memory, the two functions end, fill the selected region
and agree on the identity map. -/
def Import.Exact (p : Import) (reads : Reads) (α : Type*) [Zero α] : Prop :=
  ∀ (frame : ℕ → ℕ → α) (buf memory : ℕ → α), ∃ fuel filled n mapped m,
    sndfileToBuffer fuel buf (p.sndfile reads frame) p.frames p.bufOffset p.chunkFrames =
      some (filled, n) ∧
    Fills p.channels p.bufOffset p.frames n (fun k c => some (frame k c)) buf filled ∧
    mapSndfileChToBuffer fuel buf memory (p.sndfile reads frame) p.frames p.bufChannels
      p.bufOffset p.chunkFrames p.chanMap = some (mapped, m) ∧
    Fills p.bufChannels p.bufOffset p.frames m (fun k c => (source p.chanMap c).map (frame k))
      buf mapped ∧
    mapSndfileChToBuffer fuel buf memory (p.sndfile reads frame) p.frames p.channels
      p.bufOffset p.chunkFrames (identityMap p.channels) = some (filled, n)

/-- The frames requested by the read number `i` if the previous ones are whole. -/
def Import.requested (p : Import) (i : ℕ) : ℕ := min p.chunkFrames (p.frames - i * p.chunkFrames)

/-- Each read returns the requested frames or, if the library leaves the memory unchanged, none. -/
def Import.Whole (p : Import) (reads : Reads) : Prop :=
  ∀ i, i * p.chunkFrames < p.frames →
    (∀ j < i, reads.count j (p.requested j) = p.requested j) →
    reads.count i (p.requested i) = p.requested i ∨
      reads.padP = false ∧ reads.count i (p.requested i) = 0

end Specification

section Read

variable {α : Type*} [Zero α] {sndfile : Sndfile α} {i pos start n frames channels bufChannels : ℕ}
  {chanMap : List (ℕ × ℕ)} {buf q memory : ℕ → α}

theorem readf_eq (hpos : 0 < sndfile.channels)
    (h : sndfile.reads.padP = false ∨ sndfile.reads.count i frames = frames) :
    readf sndfile i pos memory (start * sndfile.channels) frames =
      (store sndfile.channels start (sndfile.reads.count i frames)
        (fun k c => some (sndfile.frame (pos + k) c)) memory, sndfile.reads.count i frames) := by
  refine Prod.ext (funext fun j => ?_) rfl
  have hstart : start * sndfile.channels ≤ j ↔ start ≤ j / sndfile.channels :=
    (Nat.le_div_iff_mul_le hpos).symm
  have hend (m : ℕ) : j < start * sndfile.channels + m * sndfile.channels ↔
      j / sndfile.channels < start + m := by
    rw [← Nat.add_mul, Nat.div_lt_iff_lt_mul hpos]
  simp only [readf, hstart, hend]
  by_cases hin : start ≤ j / sndfile.channels ∧
      j / sndfile.channels < start + sndfile.reads.count i frames
  · have hle := hstart.mpr hin.1
    have hdiv : (j - start * sndfile.channels) / sndfile.channels = j / sndfile.channels - start := by
      rw [Nat.mul_comm, Nat.sub_mul_div]
    have hmod : (j - start * sndfile.channels) % sndfile.channels = j % sndfile.channels := by
      rw [Nat.mul_comm] at hle ⊢
      exact Nat.sub_mul_mod hle
    rw [if_pos hin, store, if_pos hin, Option.getD_some, hdiv, hmod]
  · have hpad : ¬ (sndfile.reads.padP = true ∧ start ≤ j / sndfile.channels ∧
        j / sndfile.channels < start + frames) := by
      rintro ⟨hpad, hrest⟩
      rcases h with hfalse | hcount
      · rw [hfalse] at hpad
        cases hpad
      · exact hin (by rwa [hcount])
    rw [if_neg hin, if_neg hpad, store_outside (by omega)]

omit [Zero α] in
theorem source_concat (chanMap : List (ℕ × ℕ)) (k : ℕ × ℕ) (c : ℕ) :
    source (chanMap ++ [k]) c = if k.2 = c then some k.1 else source chanMap c := by
  by_cases hk : k.2 = c
  · simp [source, hk]
  · simp [source, hk]

omit [Zero α] in
theorem mapFrame_add (chanMap : List (ℕ × ℕ)) (q : ℕ → α) (curr p : ℕ) (buf : ℕ → α) (c : ℕ) :
    mapFrame chanMap q curr p buf (p + c) =
      ((source chanMap c).map fun s => q (curr + s)).getD (buf (p + c)) := by
  induction chanMap using List.reverseRecOn with
  | nil => rfl
  | append_singleton chanMap k ih =>
    rw [mapFrame] at ih
    rw [mapFrame, List.foldl_append, List.foldl_cons, List.foldl_nil, source_concat]
    by_cases hk : k.2 = c
    · rw [hk, update_self, if_pos rfl]
      rfl
    · rw [update_of_ne (by omega), if_neg hk, ih]

omit [Zero α] in
theorem mapFrame_outside {curr p j : ℕ} (h : ∀ k ∈ chanMap, j ≠ p + k.2) :
    mapFrame chanMap q curr p buf j = buf j := by
  induction chanMap using List.reverseRecOn with
  | nil => rfl
  | append_singleton chanMap k ih =>
    rw [mapFrame] at ih
    rw [mapFrame, List.foldl_append, List.foldl_cons, List.foldl_nil, update_of_ne]
    · exact ih fun k' hk' => h k' (List.mem_append_left _ hk')
    · exact h k (List.mem_append_right _ List.mem_cons_self)

omit [Zero α] in
theorem mapFrames_eq (hvalid : ∀ k ∈ chanMap, k.2 < bufChannels) (curr : ℕ) :
    mapFrames chanMap channels bufChannels q n curr (start * bufChannels) buf =
      (store bufChannels start n
        (fun k c => (source chanMap c).map fun s => q (curr + k * channels + s)) buf,
        (start + n) * bufChannels) := by
  induction n generalizing curr start buf with
  | zero => simp [mapFrames]
  | succ n ih =>
    have hone : mapFrame chanMap q curr (start * bufChannels) buf = store bufChannels start 1
        (fun k c => (source chanMap c).map fun s => q (curr + k * channels + s)) buf := by
      funext j
      by_cases hj : start ≤ j / bufChannels ∧ j / bufChannels < start + 1
      · obtain rfl : start = j / bufChannels := by omega
        have hindex : j / bufChannels * bufChannels + j % bufChannels = j := Nat.div_add_mod' _ _
        have hframe := mapFrame_add chanMap q curr (j / bufChannels * bufChannels) buf
          (j % bufChannels)
        rw [hindex] at hframe
        rw [hframe, store, if_pos hj]
        simp only [Nat.sub_self, Nat.zero_mul, Nat.add_zero]
      · rw [store_outside (by omega)]
        refine mapFrame_outside fun k hk heq => hj ?_
        rw [heq, div_index (hvalid k hk)]
        omega
    have hnext : start * bufChannels + bufChannels = (start + 1) * bufChannels := by
      rw [Nat.succ_mul]
    rw [mapFrames, hnext, ih, hone, Nat.add_comm n 1, ← store_store, Nat.add_assoc]
    congr 2
    funext k c
    have hcurr : curr + channels + k * channels = curr + (1 + k) * channels := by
      rw [Nat.add_mul, Nat.one_mul, Nat.add_assoc]
    rw [hcurr]

omit [Zero α] in
theorem mapFrames_store {value : ℕ → ℕ → α}
    (hvalid : ∀ k ∈ chanMap, k.1 < channels ∧ k.2 < bufChannels) :
    mapFrames chanMap channels bufChannels
        (store channels 0 n (fun k c => some (value k c)) q) n 0 (start * bufChannels) buf =
      (store bufChannels start n (fun k c => (source chanMap c).map (value k)) buf,
        (start + n) * bufChannels) := by
  rw [mapFrames_eq fun k hk => (hvalid k hk).2]
  congr 1
  refine store_congr fun k hk i => ?_
  cases hsource : source chanMap (i % bufChannels) with
  | none => rfl
  | some s =>
    obtain ⟨pair, hpair, rfl⟩ := Option.map_eq_some_iff.mp hsource
    have hmem : pair ∈ chanMap := List.mem_of_mem_filter (List.mem_of_getLast? hpair)
    have hstored := @store_value α channels pair.1 0 n k (fun k c => some (value k c)) q hk
      (hvalid pair hmem).1 _ rfl
    rw [Nat.zero_add] at hstored
    rw [Option.map_some, Option.map_some, Nat.zero_add, hstored]

end Read

section Loops

variable {α : Type*} [Zero α] (p : Import) (reads : Reads) (frame : ℕ → ℕ → α) (buf : ℕ → α)
  (bufChannels : ℕ) (chanMap : List (ℕ × ℕ))

theorem Import.requested_zero :
    (if p.frames < p.chunkFrames then p.frames else p.chunkFrames) = p.requested 0 := by
  rw [Import.requested, Nat.zero_mul, Nat.sub_zero]
  split_ifs <;> omega

/-- The loop of `sndfile_to_buffer` when `i` whole chunks have been read. -/
def Import.filling (fuel i : ℕ) : Option ((ℕ → α) × ℕ) :=
  sndfileToBufferLoop (p.sndfile reads frame) (p.requested 0 * p.channels) fuel i
    (i * p.chunkFrames)
    (store p.channels p.bufOffset (i * p.chunkFrames) (fun k c => some (frame k c)) buf)
    ((p.bufOffset + i * p.chunkFrames) * p.channels) (p.frames - i * p.chunkFrames)
    (p.requested i)

/-- The loop of `map_sndfile_ch_to_buffer` when `i` whole chunks have been read. -/
def Import.mapping (fuel i : ℕ) (q : ℕ → α) : Option ((ℕ → α) × ℕ) :=
  mapSndfileChToBufferLoop (p.sndfile reads frame) bufChannels chanMap fuel i
    (i * p.chunkFrames) q
    (store bufChannels p.bufOffset (i * p.chunkFrames)
      (fun k c => (source chanMap c).map (frame k)) buf)
    ((p.bufOffset + i * p.chunkFrames) * bufChannels) (p.frames - i * p.chunkFrames)
    (p.requested i) (p.requested i * p.channels)

variable {fuel : ℕ}

theorem sndfileToBuffer_eq (fuel : ℕ) :
    sndfileToBuffer fuel buf (p.sndfile reads frame) p.frames p.bufOffset p.chunkFrames =
      if p.requested 0 * p.channels < 2 ^ 31 then p.filling reads frame buf fuel 0 else none := by
  rw [sndfileToBuffer, p.requested_zero, intMul, Import.sndfile_channels]
  by_cases hlt : p.requested 0 * p.channels < 2 ^ 31
  · simp only [if_pos hlt, Option.bind_some, Import.filling, Nat.zero_mul, store_zero, Nat.add_zero,
      Nat.sub_zero]
  · simp only [if_neg hlt, Option.bind_none]

theorem mapSndfileChToBuffer_eq (fuel : ℕ) (memory : ℕ → α) :
    mapSndfileChToBuffer fuel buf memory (p.sndfile reads frame) p.frames bufChannels p.bufOffset
        p.chunkFrames chanMap =
      if p.requested 0 * p.channels < 2 ^ 31 then
        p.mapping reads frame buf bufChannels chanMap fuel 0 memory
      else none := by
  rw [mapSndfileChToBuffer, p.requested_zero, intMul, Import.sndfile_channels]
  by_cases hlt : p.requested 0 * p.channels < 2 ^ 31
  · simp only [if_pos hlt, Option.bind_some, Import.mapping, Nat.zero_mul, store_zero, Nat.add_zero,
      Nat.sub_zero]
  · simp only [if_neg hlt, Option.bind_none]

variable {p reads frame buf bufChannels chanMap} {i : ℕ} {q : ℕ → α}

theorem Import.requested_eq (h : (i + 1) * p.chunkFrames < p.frames) :
    p.requested i = p.chunkFrames := by
  rw [Nat.succ_mul] at h
  rw [Import.requested]
  omega

theorem Import.requested_last (h : p.frames ≤ (i + 1) * p.chunkFrames) :
    p.requested i = p.frames - i * p.chunkFrames := by
  rw [Nat.succ_mul] at h
  rw [Import.requested]
  omega

theorem Import.requested_succ (p : Import) (i : ℕ) :
    (if p.frames - i * p.chunkFrames - p.chunkFrames < p.chunkFrames then
      p.frames - i * p.chunkFrames - p.chunkFrames else p.chunkFrames) = p.requested (i + 1) := by
  rw [Import.requested, Nat.succ_mul]
  split_ifs <;> omega

theorem Import.readf_filling (hcount : reads.count i (p.requested i) = p.requested i) :
    readf (p.sndfile reads frame) i (i * p.chunkFrames)
        (store p.channels p.bufOffset (i * p.chunkFrames) (fun k c => some (frame k c)) buf)
        ((p.bufOffset + i * p.chunkFrames) * p.channels) (p.requested i) =
      (store p.channels p.bufOffset (i * p.chunkFrames + p.requested i)
        (fun k c => some (frame k c)) buf, p.requested i) := by
  have hread := @readf_eq α _ (p.sndfile reads frame) i (i * p.chunkFrames)
    (p.bufOffset + i * p.chunkFrames) (p.requested i)
    (store p.channels p.bufOffset (i * p.chunkFrames) (fun k c => some (frame k c)) buf)
    p.channels_pos (.inr hcount)
  simp only [Import.sndfile_channels, Import.sndfile_reads, Import.sndfile_frame, hcount] at hread
  rw [hread]
  congr 1
  exact @store_store _ _ _ _ _ (fun k c => some (frame k c)) buf

theorem Import.filling_next (h : (i + 1) * p.chunkFrames < p.frames)
    (hcount : reads.count i (p.requested i) = p.requested i) (hpos : 0 < p.chunkFrames) :
    p.filling reads frame buf (fuel + 1) i = p.filling reads frame buf fuel (i + 1) := by
  have hrequested := p.requested_eq h
  have hzero : p.requested 0 = p.chunkFrames := by
    refine p.requested_eq (Nat.lt_of_le_of_lt (Nat.mul_le_mul_right _ ?_) h)
    omega
  have hmul : (i + 1) * p.chunkFrames = i * p.chunkFrames + p.chunkFrames := Nat.succ_mul _ _
  have hsucc := p.requested_succ i
  have hpointer : (p.bufOffset + i * p.chunkFrames) * p.channels + p.chunkFrames * p.channels =
      (p.bufOffset + (i + 1) * p.chunkFrames) * p.channels := by
    rw [← Nat.add_mul, hmul, Nat.add_assoc]
  have hremain : p.frames - i * p.chunkFrames - p.chunkFrames =
      p.frames - (i + 1) * p.chunkFrames := by omega
  rw [Import.filling, sndfileToBufferLoop, if_pos (by omega), Import.readf_filling hcount]
  simp only [hrequested, hzero, hpos.ne', if_false, hpointer, ← hmul]
  rw [hsucc, hremain, Import.filling, hzero]

theorem Import.filling_last (hlt : i * p.chunkFrames < p.frames)
    (h : p.frames ≤ (i + 1) * p.chunkFrames)
    (hcount : reads.count i (p.requested i) = p.requested i) :
    p.filling reads frame buf (fuel + 2) i =
      some (store p.channels p.bufOffset p.frames (fun k c => some (frame k c)) buf, p.frames) := by
  have hrequested := p.requested_last h
  have hsum : i * p.chunkFrames + (p.frames - i * p.chunkFrames) = p.frames := by omega
  rw [Import.filling, sndfileToBufferLoop, if_pos (by omega), Import.readf_filling hcount]
  have hpos : p.frames - i * p.chunkFrames ≠ 0 := by omega
  simp only [hrequested, hpos, if_false, hsum, Nat.sub_self]
  rw [sndfileToBufferLoop, if_neg (Nat.lt_irrefl 0)]

theorem Import.filling_none (hlt : i * p.chunkFrames < p.frames)
    (hcount : reads.count i (p.requested i) = 0) (hpad : reads.padP = false ∨ p.requested i = 0) :
    p.filling reads frame buf (fuel + 1) i =
      some (store p.channels p.bufOffset (i * p.chunkFrames) (fun k c => some (frame k c)) buf,
        i * p.chunkFrames) := by
  have hread := @readf_eq α _ (p.sndfile reads frame) i (i * p.chunkFrames)
    (p.bufOffset + i * p.chunkFrames) (p.requested i)
    (store p.channels p.bufOffset (i * p.chunkFrames) (fun k c => some (frame k c)) buf)
    p.channels_pos (hpad.imp_right fun hzero => hcount.trans hzero.symm)
  simp only [Import.sndfile_channels, Import.sndfile_reads, hcount, store_zero] at hread
  rw [Import.filling, sndfileToBufferLoop, if_pos (by omega), hread]
  simp only [if_true]

omit [Zero α] in
theorem mapFrames_mapping (hvalid : ∀ k ∈ chanMap, k.1 < p.channels ∧ k.2 < bufChannels) :
    mapFrames chanMap p.channels bufChannels
        (store p.channels 0 (p.requested i) (fun k c => some (frame (i * p.chunkFrames + k) c)) q)
        (p.requested i) 0 ((p.bufOffset + i * p.chunkFrames) * bufChannels)
        (store bufChannels p.bufOffset (i * p.chunkFrames)
          (fun k c => (source chanMap c).map (frame k)) buf) =
      (store bufChannels p.bufOffset (i * p.chunkFrames + p.requested i)
        (fun k c => (source chanMap c).map (frame k)) buf,
        (p.bufOffset + i * p.chunkFrames + p.requested i) * bufChannels) := by
  rw [mapFrames_store hvalid]
  congr 1
  exact @store_store _ _ _ _ _ (fun k c => (source chanMap c).map (frame k)) buf

theorem Import.readf_mapping (hcount : reads.count i (p.requested i) = p.requested i) :
    readf (p.sndfile reads frame) i (i * p.chunkFrames) q 0 (p.requested i) =
      (store p.channels 0 (p.requested i) (fun k c => some (frame (i * p.chunkFrames + k) c)) q,
        p.requested i) := by
  have hread := @readf_eq α _ (p.sndfile reads frame) i (i * p.chunkFrames) 0 (p.requested i) q
    p.channels_pos (.inr hcount)
  simpa only [Import.sndfile_channels, Import.sndfile_reads, Import.sndfile_frame, hcount,
    Nat.zero_mul] using hread

theorem Import.mapping_next (hvalid : ∀ k ∈ chanMap, k.1 < p.channels ∧ k.2 < bufChannels)
    (h : (i + 1) * p.chunkFrames < p.frames)
    (hcount : reads.count i (p.requested i) = p.requested i) (hpos : 0 < p.chunkFrames) :
    p.mapping reads frame buf bufChannels chanMap (fuel + 1) i q =
      p.mapping reads frame buf bufChannels chanMap fuel (i + 1)
        (readf (p.sndfile reads frame) i (i * p.chunkFrames) q 0 (p.requested i)).1 := by
  have hrequested := p.requested_eq h
  have hmul : (i + 1) * p.chunkFrames = i * p.chunkFrames + p.chunkFrames := Nat.succ_mul _ _
  have hsucc := p.requested_succ i
  have hremain : p.frames - i * p.chunkFrames - p.chunkFrames =
      p.frames - (i + 1) * p.chunkFrames := by omega
  have hpair (a b : ℕ) : (if a < p.chunkFrames then (a, a * p.channels) else (b, b * p.channels)) =
      ((if a < p.chunkFrames then a else b), (if a < p.chunkFrames then a else b) * p.channels) := by
    split_ifs <;> rfl
  rw [Import.mapping, mapSndfileChToBufferLoop, if_pos (by omega), Import.readf_mapping hcount]
  have hdiv : p.requested i * p.channels / p.channels = p.requested i :=
    Nat.mul_div_cancel _ p.channels_pos
  simp only [Import.sndfile_channels, hdiv, mapFrames_mapping hvalid]
  simp only [hrequested, hpos.ne', if_false, ← hmul]
  rw [hpair, hsucc, hremain, Import.mapping, hmul, Nat.add_assoc]

theorem Import.mapping_last (hvalid : ∀ k ∈ chanMap, k.1 < p.channels ∧ k.2 < bufChannels)
    (hlt : i * p.chunkFrames < p.frames) (h : p.frames ≤ (i + 1) * p.chunkFrames)
    (hcount : reads.count i (p.requested i) = p.requested i) :
    p.mapping reads frame buf bufChannels chanMap (fuel + 2) i q =
      some (store bufChannels p.bufOffset p.frames (fun k c => (source chanMap c).map (frame k)) buf,
        p.frames) := by
  have hrequested := p.requested_last h
  have hsum : i * p.chunkFrames + (p.frames - i * p.chunkFrames) = p.frames := by omega
  have hpos : p.frames - i * p.chunkFrames ≠ 0 := by omega
  rw [Import.mapping, mapSndfileChToBufferLoop, if_pos (by omega), Import.readf_mapping hcount]
  have hdiv : p.requested i * p.channels / p.channels = p.requested i :=
    Nat.mul_div_cancel _ p.channels_pos
  simp only [Import.sndfile_channels, hdiv, mapFrames_mapping hvalid]
  simp only [hrequested, hpos, if_false, hsum, Nat.sub_self]
  rw [mapSndfileChToBufferLoop, if_neg (Nat.lt_irrefl 0)]

theorem Import.mapping_none (hlt : i * p.chunkFrames < p.frames)
    (hcount : reads.count i (p.requested i) = 0) :
    p.mapping reads frame buf bufChannels chanMap (fuel + 1) i q =
      some (store bufChannels p.bufOffset (i * p.chunkFrames)
        (fun k c => (source chanMap c).map (frame k)) buf, i * p.chunkFrames) := by
  rw [Import.mapping, mapSndfileChToBufferLoop, if_pos (by omega)]
  simp only [readf, Import.sndfile_reads, hcount, if_true]

theorem Import.Whole.loops (h : p.Whole reads) (hlt : i * p.chunkFrames < p.frames)
    (hprevious : ∀ j < i, reads.count j (p.requested j) = p.requested j)
    (hfuel : p.frames - i * p.chunkFrames < fuel) :
    ∃ n ≤ p.frames,
      p.filling reads frame buf fuel i =
        some (store p.channels p.bufOffset n (fun k c => some (frame k c)) buf, n) ∧
      ∀ (bufChannels : ℕ) (chanMap : List (ℕ × ℕ)) (q : ℕ → α),
        (∀ k ∈ chanMap, k.1 < p.channels ∧ k.2 < bufChannels) →
        p.mapping reads frame buf bufChannels chanMap fuel i q =
          some (store bufChannels p.bufOffset n (fun k c => (source chanMap c).map (frame k)) buf,
            n) := by
  induction fuel generalizing i with
  | zero => cases hfuel
  | succ fuel ih =>
    by_cases hzero : reads.count i (p.requested i) = 0
    · have hpad : reads.padP = false ∨ p.requested i = 0 := by
        rcases h i hlt hprevious with hwhole | ⟨hpad, -⟩
        · exact .inr (hwhole.symm.trans hzero)
        · exact .inl hpad
      exact ⟨i * p.chunkFrames, hlt.le, Import.filling_none hlt hzero hpad,
        fun bufChannels chanMap q _ => Import.mapping_none hlt hzero⟩
    have hcount : reads.count i (p.requested i) = p.requested i :=
      (h i hlt hprevious).resolve_right fun hnone => hzero hnone.2
    by_cases hnext : (i + 1) * p.chunkFrames < p.frames
    · have hpos : 0 < p.chunkFrames := by
        rw [← p.requested_eq hnext, ← hcount]
        exact Nat.pos_of_ne_zero hzero
      have hprevious' : ∀ j < i + 1, reads.count j (p.requested j) = p.requested j := by
        intro j hj
        rcases Nat.lt_succ_iff_lt_or_eq.mp hj with hj | rfl
        · exact hprevious j hj
        · exact hcount
      have hmul : (i + 1) * p.chunkFrames = i * p.chunkFrames + p.chunkFrames := Nat.succ_mul _ _
      obtain ⟨n, hn, hfilling, hmapping⟩ := ih hnext hprevious' (by omega)
      refine ⟨n, hn, (Import.filling_next hnext hcount hpos).trans hfilling, ?_⟩
      intro bufChannels chanMap q hvalid
      exact (Import.mapping_next hvalid hnext hcount hpos).trans (hmapping _ _ _ hvalid)
    · obtain ⟨fuel, rfl⟩ : ∃ fuel', fuel = fuel' + 1 := ⟨fuel - 1, by omega⟩
      exact ⟨p.frames, le_rfl, Import.filling_last hlt (Nat.le_of_not_lt hnext) hcount,
        fun bufChannels chanMap q hvalid =>
          Import.mapping_last hvalid hlt (Nat.le_of_not_lt hnext) hcount⟩

theorem Import.Whole.loops_start (h : p.Whole reads) :
    ∃ n ≤ p.frames,
      p.filling reads frame buf (p.frames + 1) 0 =
        some (store p.channels p.bufOffset n (fun k c => some (frame k c)) buf, n) ∧
      ∀ (bufChannels : ℕ) (chanMap : List (ℕ × ℕ)) (q : ℕ → α),
        (∀ k ∈ chanMap, k.1 < p.channels ∧ k.2 < bufChannels) →
        p.mapping reads frame buf bufChannels chanMap (p.frames + 1) 0 q =
          some (store bufChannels p.bufOffset n (fun k c => (source chanMap c).map (frame k)) buf,
            n) := by
  by_cases hframes : 0 * p.chunkFrames < p.frames
  · exact h.loops hframes nofun (by omega)
  · obtain hzero : p.frames = 0 := by omega
    refine ⟨0, Nat.zero_le _, ?_, fun bufChannels chanMap q _ => ?_⟩
    · simp [Import.filling, sndfileToBufferLoop, hzero]
    · simp [Import.mapping, mapSndfileChToBufferLoop, hzero]

theorem Import.filling_add (hpos : 0 < p.chunkFrames) (hlt : i * p.chunkFrames < p.frames)
    (hprevious : ∀ j < i, reads.count j (p.requested j) = p.requested j) :
    p.filling reads frame buf (fuel + i) 0 = p.filling reads frame buf fuel i := by
  induction i generalizing fuel with
  | zero => rfl
  | succ i ih =>
    have hle : i * p.chunkFrames < p.frames :=
      Nat.lt_of_le_of_lt (Nat.mul_le_mul_right _ (Nat.le_succ i)) hlt
    have hstep := @ih (fuel + 1) hle fun j hj => hprevious j (Nat.lt_succ_of_lt hj)
    rw [Nat.add_right_comm] at hstep
    rw [← Nat.add_assoc, hstep, Import.filling_next hlt (hprevious i (Nat.lt_succ_self i)) hpos]

theorem Import.filling_whole (hpos : 0 < p.chunkFrames) (hcount : ∀ i n, reads.count i n = n) :
    ∃ fuel, p.filling reads frame buf fuel 0 =
      some (store p.channels p.bufOffset p.frames (fun k c => some (frame k c)) buf, p.frames) := by
  rcases Nat.eq_zero_or_pos p.frames with hzero | hframes
  · refine ⟨1, ?_⟩
    simp [Import.filling, sndfileToBufferLoop, hzero]
  · set i := (p.frames - 1) / p.chunkFrames with hi
    have hle : i * p.chunkFrames ≤ p.frames - 1 := Nat.div_mul_le_self _ _
    have hlt : p.frames - 1 < (i + 1) * p.chunkFrames := Nat.lt_mul_of_div_lt (Nat.lt_succ_self _) hpos
    refine ⟨0 + 2 + i, ?_⟩
    rw [Import.filling_add hpos (by omega) fun j _ => hcount _ _]
    exact Import.filling_last (by omega) (by omega) (hcount _ _)

end Loops

section Store

variable {α : Type*} {channels offset frames n : ℕ} {value : ℕ → ℕ → Option α} {buf : ℕ → α}

theorem fills_store (hn : n ≤ frames) (hpos : 0 < channels ∨ ∀ k c, value k c = none) :
    Fills channels offset frames n value buf (store channels offset n value buf) where
  stored := fun _ hk _ hc _ hx => store_value hk hc hx
  unmapped := fun _ _ hc hnone => store_none hc hnone
  outside := by
    intro i hi
    rcases hpos with hpos | hnone
    · refine store_outside (hi.imp (fun hlt => (Nat.div_lt_iff_lt_mul hpos).mpr hlt) fun hle => ?_)
      have hdiv := (Nat.le_div_iff_mul_le hpos).mpr hle
      omega
    · rw [store, hnone, Option.getD_none, ite_self]

theorem source_nil (c : ℕ) : source [] c = none := rfl

theorem source_identityMap {c : ℕ} (hc : c < channels) :
    source (identityMap channels) c = some c := by
  induction channels with
  | zero => cases hc
  | succ channels ih =>
    rw [identityMap, List.range_succ, List.map_append, List.map_singleton, source_concat]
    split_ifs with heq
    · exact congrArg some heq
    · exact ih (by omega)

theorem valid_identityMap (channels : ℕ) :
    ∀ k ∈ identityMap channels, k.1 < channels ∧ k.2 < channels := by
  intro k hk
  obtain ⟨c, hc, rfl⟩ := List.mem_map.mp hk
  exact ⟨List.mem_range.mp hc, List.mem_range.mp hc⟩

theorem store_identityMap (hpos : 0 < channels) (frame : ℕ → ℕ → α) :
    store channels offset n (fun k c => (source (identityMap channels) c).map (frame k)) buf =
      store channels offset n (fun k c => some (frame k c)) buf :=
  store_congr fun k _ i => by rw [source_identityMap (Nat.mod_lt i hpos), Option.map_some]

end Store

section Exact

variable {α : Type*} [Zero α] {p : Import} {reads : Reads}

theorem Import.Whole.exact (h : p.Whole reads) (hint : p.requested 0 * p.channels < 2 ^ 31) :
    p.Exact reads α := by
  intro frame buf memory
  obtain ⟨n, hn, hfilling, hmapping⟩ := @h.loops_start α _ _ _ frame buf
  have hmapped := hmapping p.bufChannels p.chanMap memory p.valid
  have hidentity := hmapping p.channels _ memory (valid_identityMap p.channels)
  rw [store_identityMap p.channels_pos] at hidentity
  refine ⟨p.frames + 1, _, n, _, n, ?_, fills_store hn (.inl p.channels_pos), ?_,
    fills_store hn ?_, ?_⟩
  · rw [sndfileToBuffer_eq, if_pos hint, hfilling]
  · rw [mapSndfileChToBuffer_eq, if_pos hint, hmapped]
  · rcases Nat.eq_zero_or_pos p.bufChannels with hzero | hpos
    · refine .inr fun k c => ?_
      have hempty : p.chanMap = [] := List.eq_nil_iff_forall_not_mem.mpr fun pair hpair =>
        absurd (p.valid pair hpair).2 (by omega)
      rw [hempty, source_nil, Option.map_none]
    · exact .inl hpos
  · rw [mapSndfileChToBuffer_eq, if_pos hint, hidentity]

end Exact

end Incudine.Buffers

import Incudine.SoundfileOutput
import Mathlib.Tactic.Ring

/-!
# The frames of an output stream

A stream writes the values of an array of frames, as long as each sample of the block that goes to
the file was replaced, or was equal to the file when the block was positioned.
-/

namespace Incudine.Soundfile

variable {α : Type*} [Zero α] {channels : ℕ}

namespace Frames

theorem ext_data {x y : Frames α channels} (hframes : x.frames = y.frames)
    (hdata : ∀ j, x.data j = y.data j) : x = y := by
  cases x
  cases y
  obtain rfl := hframes
  obtain rfl := funext hdata
  rfl

/-- The frames with a value at a sample of a frame. -/
def put (content : Frames α channels) (frame : ℕ) (channel : Fin channels) (value : α) :
    Frames α channels where
  frames := max content.frames (frame + 1)
  data := Function.update content.data (frame * channels + channel) value
  blank := by
    intro i hi
    have hold : content.frames * channels ≤ i :=
      (Nat.mul_le_mul_right channels (le_max_left _ _)).trans hi
    have hnew : (frame + 1) * channels ≤ i :=
      (Nat.mul_le_mul_right channels (le_max_right _ _)).trans hi
    rw [Nat.add_one_mul] at hnew
    rw [Function.update_of_ne (by omega), content.blank i hold]

end Frames

/-- An array of frames, with the frame for the position 0, the last frame where a value was written
and whether there was a jump back to a frame before it. -/
structure FrameArray (α : Type*) [Zero α] (channels : ℕ) where
  content : Frames α channels
  first : ℕ
  highest : ℕ
  jumped : Bool

def IfExists.adds (mode : IfExists) (jumped : Bool) : Bool :=
  match mode with
  | .overwrite => false
  | .mix => true
  | .append | .error | .supersede => jumped

theorem IfExists.adds_or {mode : IfExists} (h : mode ≠ .overwrite) (x y : Bool) :
    mode.adds (x || y) = (mode.adds x || y) := by
  cases mode with
  | overwrite => exact absurd rfl h
  | mix => rfl
  | append => rfl
  | error => rfl
  | supersede => rfl

namespace FrameArray

def start (mode : IfExists) (old : Option (Frames α channels)) : FrameArray α channels where
  content := mode.content old
  first := if mode = .append then (mode.content old).frames else 0
  highest := 0
  jumped := false

def moveTo (a : FrameArray α channels) (frame : ℕ) : FrameArray α channels :=
  { a with jumped := a.jumped || decide (frame < a.highest) }

variable [Add α]

def write (mode : IfExists) (a : FrameArray α channels) (frame : ℕ) (value : α)
    (channel : Fin channels) : FrameArray α channels :=
  let a := a.moveTo frame
  let old := a.content.data ((a.first + frame) * channels + channel)
  { a with
    content := a.content.put (a.first + frame) channel
      (if mode.adds a.jumped then old + value else value)
    highest := max a.highest frame }

theorem write_data (mode : IfExists) (a : FrameArray α channels) (frame : ℕ) (value : α)
    (channel : Fin channels) : (a.write mode frame value channel).content.data =
      Function.update a.content.data ((a.first + frame) * channels + channel)
        (if mode.adds (a.moveTo frame).jumped then
          a.content.data ((a.first + frame) * channels + channel) + value
        else value) := rfl

omit [Add α] in
theorem moveTo_moveTo (a : FrameArray α channels) (frame : ℕ) :
    (a.moveTo frame).moveTo frame = a.moveTo frame := by
  have hjumped : (a.jumped || decide (frame < a.highest) || decide (frame < a.highest)) =
      (a.jumped || decide (frame < a.highest)) := by rw [Bool.or_assoc, Bool.or_self]
  exact congrArg (fun jumped => { a with jumped := jumped }) hjumped

theorem write_moveTo (mode : IfExists) (a : FrameArray α channels) (frame : ℕ) (value : α)
    (channel : Fin channels) :
    (a.moveTo frame).write mode frame value channel = a.write mode frame value channel := by
  rw [write, moveTo_moveTo]
  rfl

def call (mode : IfExists) (a : FrameArray α channels) : OutputStream.Call α → FrameArray α channels
  | .write frame value channel =>
    if h : channel < channels then a.write mode frame value ⟨channel, h⟩ else a
  | .setPosition pos => a.moveTo pos

def run (mode : IfExists) (a : FrameArray α channels) (calls : List (OutputStream.Call α)) :
    FrameArray α channels :=
  calls.foldl (call mode) a

end FrameArray

namespace OutputStream

section Block

variable (s : OutputStream α channels)

/-- The sample of the file for the first sample of the block. -/
def blockStart : ℕ := (s.sfPositionOffset + s.bufferOffset) * channels

/-- The samples of the block with the value that they have in the file. -/
def agreeing : Set ℕ := {i | s.buffer i = s.sf.data (s.blockStart + i)}

def InBlock (frame : ℕ) : Prop :=
  s.bufferOffset ≤ frame ∧ frame - s.bufferOffset < s.bufferMaxFrames

instance (frame : ℕ) : Decidable (s.InBlock frame) :=
  inferInstanceAs (Decidable (_ ∧ _))

def sampleIndex (frame channel : ℕ) : ℕ := (frame - s.bufferOffset) * channels + channel

variable {s} in
theorem sampleIndex_lt {frame channel : ℕ} (hblock : s.InBlock frame)
    (hchannel : channel < channels) : s.sampleIndex frame channel < s.bufferSize := by
  have hle := Nat.mul_le_mul_right channels hblock.2
  rw [Nat.succ_mul] at hle
  rw [sampleIndex, bufferSize]
  omega

/-- The stream moved to a frame of the block. -/
def place (frame : ℕ) : OutputStream α channels :=
  { s with
    currFrame := frame
    bufferIndex := (frame - s.bufferOffset) * channels
    bufferWrittenFrames := max s.bufferWrittenFrames (frame - s.bufferOffset)
    dirtyP := true }

/-- The stream with a value written at a frame of the block. -/
def store [Add α] (frame : ℕ) (value : α) (channel : ℕ) : OutputStream α channels :=
  let mixP := s.mixP || decide (frame < s.frameThreshold)
  let index := s.sampleIndex frame channel
  { s.place frame with
    mixP := mixP
    frameThreshold := if s.mixP then s.frameThreshold else max s.frameThreshold frame
    buffer := Function.update s.buffer index (if mixP then s.buffer index + value else value) }

end Block

/-- A stream and the samples of its block that stand for a sample of the array. -/
structure Session (α : Type*) [Zero α] (channels : ℕ) where
  stream : OutputStream α channels
  held : Set ℕ

namespace Session

section Steps

variable (padP : ℕ → Bool) (t : Session α channels)

def ofStream (s : OutputStream α channels) : Session α channels := ⟨s, s.agreeing⟩

def position (pos : ℕ) : Session α channels := ofStream (t.stream.setPosition padP pos)

/-- The session with a block that has a frame. -/
def ready (frame : ℕ) : Session α channels :=
  if t.stream.InBlock frame then t else t.position padP frame

/-- The samples of the block that are written to the file are those of the array. -/
def Flushes : Prop :=
  t.stream.dirtyP → ∀ i < (t.stream.bufferWrittenFrames + 1) * channels, i ∈ t.held

/-- A write at a frame of the block is in mix mode. -/
def Mixes (frame : ℕ) : Prop := t.stream.mixP ∨ frame < t.stream.frameThreshold

/-- The condition for a call: the block can go to the file if the stream leaves it, and a value
is added only to a sample of the array, never in overwrite mode. -/
def Keeps (mode : IfExists) : Call α → Prop
  | .write frame _ channel => channel < channels →
      (¬ t.stream.InBlock frame → t.Flushes) ∧
      ((t.ready padP frame).Mixes frame → mode ≠ .overwrite ∧
        (t.ready padP frame).stream.sampleIndex frame channel ∈ (t.ready padP frame).held)
  | .setPosition _ => t.Flushes

end Steps

variable [Add α] (padP : ℕ → Bool)

def call (t : Session α channels) (c : Call α) : Session α channels where
  stream := t.stream.call padP c
  held :=
    match c with
    | .write frame _ channel =>
      if channel < channels then
        let t := t.ready padP frame
        insert (t.stream.sampleIndex frame channel) t.held
      else t.held
    | .setPosition pos => (t.position padP pos).held

/-- The condition for the calls before the stream is closed. -/
def KeepsAll (mode : IfExists) (t : Session α channels) : List (Call α) → Prop
  | [] => t.Flushes
  | c :: cs => t.Keeps padP mode c ∧ (t.call padP c).KeepsAll mode cs

end Session

section Routines

variable (padP : ℕ → Bool) (s : OutputStream α channels)

theorem readBeforeMix_eq : ∃ readPos reads buffer, s.readBeforeMix padP =
    { s with
      sf := { s.sf with
        readPos := readPos
        reads := reads }
      buffer := buffer } := by
  by_cases hshort : min s.bufferMaxFrames (s.sf.frames - s.sf.readPos) < s.bufferMaxFrames
  · exact ⟨_, _, _, (if_pos hshort).trans rfl⟩
  · exact ⟨_, _, _, (if_neg hshort).trans rfl⟩

theorem writeBufferedData_of_clean (h : s.dirtyP = false) : s.writeBufferedData = s := by
  rw [writeBufferedData, h]
  rfl

theorem writeBufferedData_of_dirty (h : s.dirtyP = true) : s.writeBufferedData =
    { s.clearBuffer (s.bufferWrittenFrames + 1) with
      sf := s.sf.sfWritef s.buffer (s.bufferWrittenFrames + 1)
      sfPosition := s.sfPosition + (s.bufferWrittenFrames + 1)
      bufferIndex := 0
      dirtyP := false
      bufferWrittenFrames := 0 } := by
  rw [writeBufferedData, h]
  rfl

theorem writeBufferedData_eq : ∃ sf sfPosition bufferIndex buffer, s.writeBufferedData =
    { s with
      sf := sf
      sfPosition := sfPosition
      bufferIndex := bufferIndex
      buffer := buffer
      dirtyP := false
      bufferWrittenFrames := if s.dirtyP then 0 else s.bufferWrittenFrames } := by
  cases h : s.dirtyP with
  | false =>
    refine ⟨s.sf, s.sfPosition, s.bufferIndex, s.buffer, ?_⟩
    rw [s.writeBufferedData_of_clean h]
    cases s
    obtain rfl := h
    rfl
  | true =>
    rw [s.writeBufferedData_of_dirty h]
    exact ⟨_, _, _, _, rfl⟩

theorem setPosition_eq (pos : ℕ) : ∃ readPos reads buffer, s.setPosition padP pos =
    { s.writeBufferedData with
      sf := { s.writeBufferedData.sf with
        readPos := readPos
        writePos := pos + s.writeBufferedData.sfPositionOffset
        reads := reads }
      mixP := s.writeBufferedData.mixP || decide (pos < s.writeBufferedData.frameThreshold)
      buffer := buffer
      bufferIndex := 0
      bufferOffset := pos
      currFrame := pos
      sfPosition := pos } ∧
    ((s.writeBufferedData.mixP || decide (pos < s.writeBufferedData.frameThreshold)) = false →
      buffer = s.writeBufferedData.buffer) := by
  generalize hs : s.writeBufferedData = w
  have hpos : ((pos + w.sfPositionOffset : ℕ) : ℤ) - w.sfPositionOffset = pos := by omega
  have hnonneg : ¬ ((pos : ℤ) < 0) := by omega
  by_cases hjump : pos < w.frameThreshold
  · obtain ⟨readPos, reads, buffer, hread⟩ := readBeforeMix_eq padP
      { w with
        mixP := true
        sf := (w.sf.sfSeek (pos + w.sfPositionOffset)).1 }
    refine ⟨readPos, reads, buffer, ?_, by simp [hjump]⟩
    simp [setPosition, hs, hjump, SndFile.sfSeek, hnonneg] at hread ⊢
    simp [hread]
  · by_cases hmix : w.mixP = true
    · obtain ⟨readPos, reads, buffer, hread⟩ := readBeforeMix_eq padP
        { w with sf := (w.sf.sfSeek (pos + w.sfPositionOffset)).1 }
      refine ⟨readPos, reads, buffer, ?_, by simp [hmix]⟩
      simp [setPosition, hs, hjump, SndFile.sfSeek, hnonneg, hmix] at hread ⊢
      simp [hread]
    · refine ⟨pos + w.sfPositionOffset, w.sf.reads, w.buffer, ?_, fun _ => rfl⟩
      simp [setPosition, hs, hjump, SndFile.sfSeek, hnonneg, hmix]

theorem readBeforeMix_agrees (h : (∀ k, padP k = true) ∨ channels = 1) {i : ℕ} (hi : i < s.bufferSize) :
    (s.readBeforeMix padP).buffer i = s.sf.data (s.sf.readPos * channels + i) := by
  rw [bufferSize] at hi
  generalize hcount : min s.bufferMaxFrames (s.sf.frames - s.sf.readPos) = count
  have hread : s.sf.sfReadf padP s.buffer s.bufferMaxFrames =
      ({ s.sf with
          readPos := s.sf.readPos + count
          reads := s.sf.reads + 1 }, fun i =>
        if i < count * channels then s.sf.data (s.sf.readPos * channels + i)
        else if padP s.sf.reads ∧ i < s.bufferMaxFrames * channels then 0
        else s.buffer i, count) := by
    rw [← hcount]
    rfl
  have hend : count * channels ≤ i → s.sf.data (s.sf.readPos * channels + i) = 0 := by
    intro hle
    refine s.sf.blank _ ?_
    rcases le_total s.bufferMaxFrames (s.sf.frames - s.sf.readPos) with hmin | hmin
    · rw [← hcount, min_eq_left hmin] at hle
      omega
    · rw [← hcount, min_eq_right hmin] at hle
      have hmul : s.sf.frames * channels ≤
          (s.sf.readPos + (s.sf.frames - s.sf.readPos)) * channels :=
        Nat.mul_le_mul_right channels (by omega)
      rw [add_mul] at hmul
      omega
  rw [readBeforeMix, hread]
  by_cases hfile : i < count * channels
  · by_cases hshort : count < s.bufferMaxFrames
    · simp [zeroSample, hshort, hfile]
    · simp [hshort, hfile]
  · rw [hend (by omega)]
    by_cases hshort : count < s.bufferMaxFrames
    · cases h with
      | inl hpad => simp [zeroSample, hshort, hfile, hpad, hi]
      | inr hone =>
        subst hone
        have hpad : i < count + (s.bufferMaxFrames - count) := by omega
        simp [zeroSample, hshort, hpad, Nat.le_of_not_lt (by simpa using hfile)]
    · have hall := Nat.mul_le_mul_right channels (Nat.le_of_not_lt hshort)
      omega

theorem mem_agreeing_readBeforeMix (h : (∀ k, padP k = true) ∨ channels = 1)
    (hpos : s.sf.readPos * channels = s.blockStart) {i : ℕ}
    (hi : i < (s.readBeforeMix padP).bufferSize) : i ∈ (s.readBeforeMix padP).agreeing := by
  have hagrees := fun hlt => s.readBeforeMix_agrees padP h (i := i) hlt
  obtain ⟨readPos, reads, buffer, hread⟩ := s.readBeforeMix_eq padP
  rw [hread] at hi hagrees ⊢
  exact (hagrees hi).trans (by rw [hpos]; rfl)

theorem setPosition_agrees (h : (∀ k, padP k = true) ∨ channels = 1) (hmix : s.mixP = true) (pos : ℕ)
    {i : ℕ} (hi : i < s.bufferSize) : i ∈ (s.setPosition padP pos).agreeing := by
  obtain ⟨readPos, reads, buffer, hset, -⟩ := s.setPosition_eq padP pos
  obtain ⟨sf, sfPosition, bufferIndex, cleared, hwrite⟩ := s.writeBufferedData_eq
  have hread := readBeforeMix_agrees padP
    { s.writeBufferedData with
      mixP := true
      sf := (s.writeBufferedData.sf.sfSeek (pos + s.writeBufferedData.sfPositionOffset)).1 } h
    (by rwa [hwrite] : i < s.writeBufferedData.bufferSize)
  have hbuffer : (s.setPosition padP pos).buffer i =
      s.writeBufferedData.sf.data
        ((pos + s.writeBufferedData.sfPositionOffset) * channels + i) := by
    have hpos : ((pos + s.sfPositionOffset : ℕ) : ℤ) - s.sfPositionOffset = pos := by omega
    have hnonneg : ¬ ((pos : ℤ) < 0) := by omega
    simpa [setPosition, hwrite, hmix, SndFile.sfSeek, hpos, hnonneg] using hread
  rw [agreeing, Set.mem_ofPred_eq, hbuffer, hset, blockStart, Nat.add_comm pos]

theorem setPosition_place (pos : ℕ) :
    { s.setPosition padP pos with dirtyP := true } = (s.setPosition padP pos).place pos := by
  obtain ⟨readPos, reads, buffer, hset, -⟩ := s.setPosition_eq padP pos
  rw [hset, place]
  simp

theorem inBlock_setPosition (h : 0 < s.bufferMaxFrames) (pos : ℕ) :
    (s.setPosition padP pos).InBlock pos := by
  obtain ⟨readPos, reads, buffer, hset, -⟩ := s.setPosition_eq padP pos
  obtain ⟨sf, sfPosition, bufferIndex, cleared, hwrite⟩ := s.writeBufferedData_eq
  rw [hset, hwrite, InBlock]
  simpa using h

theorem updateFrameThreshold_eq (h : s.overwriteP = false) (frame : ℕ) :
    s.updateFrameThreshold frame =
      { s with
        mixP := s.mixP || decide (frame < s.frameThreshold)
        frameThreshold := if s.mixP then s.frameThreshold else max s.frameThreshold frame } := by
  cases hmix : s.mixP with
  | true =>
    rw [updateFrameThreshold, if_pos (Or.inr hmix)]
    cases s
    obtain rfl := hmix
    rfl
  | false =>
    rw [updateFrameThreshold, if_neg (by simp [h, hmix])]
    rcases lt_trichotomy s.frameThreshold frame with hlt | heq | hlt
    · simp [hlt, hlt.le, hlt.not_gt, hmix]
    · rw [heq, if_neg (lt_irrefl _), if_neg (lt_irrefl _)]
      cases s
      obtain rfl := hmix
      obtain rfl := heq
      simp
    · simp [hlt, hlt.le, hlt.not_gt]

end Routines

namespace Session

/-- The stream of a session holds an array of frames. Where the buffer doesn't stand for the
array, the file does. -/
structure Models (mode : IfExists) (t : Session α channels) (a : FrameArray α channels) :
    Prop where
  opened : t.stream.openP = true
  size : 0 < t.stream.bufferSize
  overwriteP : t.stream.overwriteP = false
  first : a.first = t.stream.sfPositionOffset
  mixP : mode ≠ .overwrite → t.stream.mixP = mode.adds a.jumped
  threshold : t.stream.mixP = false → t.stream.frameThreshold = a.highest
  offset_le : t.stream.bufferOffset ≤ t.stream.currFrame
  curr_le : t.stream.currFrame - t.stream.bufferOffset ≤ t.stream.bufferWrittenFrames
  written_lt : t.stream.bufferWrittenFrames < t.stream.bufferMaxFrames
  index : t.stream.bufferIndex = (t.stream.currFrame - t.stream.bufferOffset) * channels
  clean : t.stream.dirtyP = false → t.stream.bufferWrittenFrames = 0
  writePos : t.stream.sf.writePos = t.stream.sfPositionOffset + t.stream.bufferOffset
  blank : t.stream.mixP = false → ∀ i,
    (t.stream.dirtyP = true → (t.stream.bufferWrittenFrames + 1) * channels ≤ i) →
      t.stream.buffer i = 0
  same : ∀ i ∈ t.held, i < t.stream.bufferSize →
    (t.stream.dirtyP = true → (t.stream.bufferWrittenFrames + 1) * channels ≤ i) →
      t.stream.buffer i = t.stream.sf.data (t.stream.blockStart + i)
  outside : ∀ j, (∀ i ∈ t.held, i < t.stream.bufferSize → j ≠ t.stream.blockStart + i) →
    a.content.data j = t.stream.sf.data j
  inside : ∀ i ∈ t.held, i < t.stream.bufferSize →
    a.content.data (t.stream.blockStart + i) = t.stream.buffer i
  frames : a.content.frames = max t.stream.sf.frames
    (if t.stream.dirtyP then t.stream.sf.writePos + t.stream.bufferWrittenFrames + 1 else 0)

namespace Models

variable {mode : IfExists} {t : Session α channels} {a : FrameArray α channels}

section

variable (h : t.Models mode a)
include h

theorem channels_pos : 0 < channels := by
  have hsize := h.size
  rw [bufferSize] at hsize
  exact Nat.pos_of_mul_pos_left hsize

theorem mixP_or (frame : ℕ) :
    (t.stream.mixP || decide (frame < t.stream.frameThreshold)) =
      (t.stream.mixP || decide (frame < a.highest)) := by
  cases hmix : t.stream.mixP with
  | false => rw [h.threshold hmix]
  | true => rfl

theorem written_mul_le : (t.stream.bufferWrittenFrames + 1) * channels ≤ t.stream.bufferSize := by
  exact Nat.mul_le_mul_right channels h.written_lt

theorem blockStart_eq : t.stream.blockStart = t.stream.sf.writePos * channels := by
  rw [blockStart, h.writePos]

theorem flush (hflush : t.Flushes) : t.stream.writeBufferedData.sf.toFrames = a.content := by
  cases hdirty : t.stream.dirtyP with
  | false =>
    rw [t.stream.writeBufferedData_of_clean hdirty]
    refine Frames.ext_data ?_ fun j => ?_
    · rw [h.frames, hdirty]
      simp
    · by_cases hj : ∀ i ∈ t.held, i < t.stream.bufferSize → j ≠ t.stream.blockStart + i
      · exact (h.outside j hj).symm
      · push Not at hj
        obtain ⟨i, hi, hsize, rfl⟩ := hj
        rw [h.inside i hi hsize, h.same i hi hsize (by simp [hdirty])]
  | true =>
    rw [t.stream.writeBufferedData_of_dirty hdirty]
    have hle := h.written_mul_le
    refine Frames.ext_data ?_ fun j => ?_
    · rw [h.frames, hdirty]
      rfl
    · simp only [SndFile.sfWritef, add_mul _ _ channels]
      rw [← h.blockStart_eq]
      split
      · next hj =>
        obtain ⟨i, rfl⟩ := Nat.exists_eq_add_of_le hj.1
        have hi : i < (t.stream.bufferWrittenFrames + 1) * channels := by
          rw [add_mul]
          omega
        rw [h.inside i (hflush hdirty i hi) (by omega), Nat.add_sub_cancel_left]
      · next hj =>
        by_cases hout : ∀ i ∈ t.held, i < t.stream.bufferSize → j ≠ t.stream.blockStart + i
        · exact (h.outside j hout).symm
        · push Not at hout
          obtain ⟨i, hi, hsize, rfl⟩ := hout
          rw [h.inside i hi hsize, h.same i hi hsize fun _ => by
            rw [add_mul]
            omega]

theorem flush_blank (hmix : t.stream.mixP = false) (i : ℕ) :
    t.stream.writeBufferedData.buffer i = 0 := by
  cases hdirty : t.stream.dirtyP with
  | false =>
    rw [t.stream.writeBufferedData_of_clean hdirty]
    exact h.blank hmix i (by simp [hdirty])
  | true =>
    rw [t.stream.writeBufferedData_of_dirty hdirty]
    simp only [clearBuffer, zeroSample]
    split
    · rfl
    · next hi => exact h.blank hmix i fun _ => by omega

end

theorem ofStream {s : OutputStream α channels} (hopened : s.openP = true) (hsize : 0 < s.bufferSize)
    (hover : s.overwriteP = false) (hfirst : a.first = s.sfPositionOffset)
    (hmixP : mode ≠ .overwrite → s.mixP = mode.adds a.jumped)
    (hthreshold : s.mixP = false → s.frameThreshold = a.highest)
    (hcurr : s.currFrame = s.bufferOffset) (hindex : s.bufferIndex = 0)
    (hdirty : s.dirtyP = false) (hwritten : s.bufferWrittenFrames = 0)
    (hpos : s.sf.writePos = s.sfPositionOffset + s.bufferOffset)
    (hblank : s.mixP = false → ∀ i, s.buffer i = 0) (hfile : s.sf.toFrames = a.content) :
    (Session.ofStream s).Models mode a where
  opened := hopened
  size := hsize
  overwriteP := hover
  first := hfirst
  mixP := hmixP
  threshold := hthreshold
  offset_le := hcurr.ge
  curr_le := by simp [Session.ofStream, hcurr]
  written_lt := by
    have hmax := Nat.pos_of_mul_pos_right hsize
    simpa [Session.ofStream, hwritten] using hmax
  index := by simp [Session.ofStream, hcurr, hindex]
  clean := fun _ => hwritten
  writePos := hpos
  blank := fun hmix i _ => hblank hmix i
  same := fun i hi _ _ => hi
  outside := fun j _ => by rw [← hfile]; rfl
  inside := fun i hi _ => by rw [← hfile]; exact hi.symm
  frames := by simp [Session.ofStream, hdirty, ← hfile]

theorem position (padP : ℕ → Bool) (h : t.Models mode a) (hflush : t.Flushes) (pos : ℕ) :
    (t.position padP pos).Models mode (a.moveTo pos) := by
  have hfile := h.flush hflush
  have hblank := h.flush_blank
  obtain ⟨readPos, reads, buffer, hset, hbuffer⟩ := t.stream.setPosition_eq padP pos
  obtain ⟨sf, sfPosition, bufferIndex, cleared, hwrite⟩ := t.stream.writeBufferedData_eq
  have hwritten : (if t.stream.dirtyP then 0 else t.stream.bufferWrittenFrames) = 0 := by
    split
    · rfl
    · next hdirty => exact h.clean (by simpa using hdirty)
  rw [hwrite] at hset hbuffer hfile hblank
  rw [Session.position, hset]
  refine .ofStream h.opened h.size h.overwriteP h.first ?_ ?_ rfl rfl rfl hwritten
    (Nat.add_comm _ _) ?_ hfile
  · intro hmode
    simp only [FrameArray.moveTo, IfExists.adds_or hmode, ← h.mixP hmode]
    exact h.mixP_or pos
  · exact fun hmix => h.threshold (Bool.or_eq_false_iff.mp hmix).1
  · intro hmix i
    exact (congrFun (hbuffer hmix) i).trans (hblank (Bool.or_eq_false_iff.mp hmix).1 i)

theorem ready (padP : ℕ → Bool) (h : t.Models mode a) (frame : ℕ)
    (hflush : ¬ t.stream.InBlock frame → t.Flushes) :
    (t.ready padP frame).stream.InBlock frame ∧
      ((t.ready padP frame).Models mode a ∨ (t.ready padP frame).Models mode (a.moveTo frame)) := by
  by_cases hblock : t.stream.InBlock frame
  · rw [Session.ready, if_pos hblock]
    exact ⟨hblock, .inl h⟩
  · rw [Session.ready, if_neg hblock]
    have hmax : 0 < t.stream.bufferMaxFrames := (Nat.zero_le _).trans_lt h.written_lt
    exact ⟨t.stream.inBlock_setPosition padP hmax frame,
      .inr (h.position padP (hflush hblock) frame)⟩

theorem moveToFrame_eq (padP : ℕ → Bool) (h : t.Models mode a) (frame : ℕ) :
    t.stream.moveToFrame padP frame t.stream.bufferSize =
      (t.ready padP frame).stream.place frame := by
  have hchannels := h.channels_pos
  have hcurr := h.curr_le
  have hoffset := h.offset_le
  have hwritten := h.written_lt
  have hsize : ∀ n, n * channels < t.stream.bufferSize ↔ n < t.stream.bufferMaxFrames :=
    fun n => Nat.mul_lt_mul_right hchannels
  have hindex : ∀ n, n * channels < t.stream.bufferIndex ↔
      n < t.stream.currFrame - t.stream.bufferOffset := by
    intro n
    rw [h.index]
    exact Nat.mul_lt_mul_right hchannels
  by_cases hblock : t.stream.InBlock frame
  · rw [Session.ready, if_pos hblock]
    rcases lt_trichotomy frame t.stream.currFrame with hlt | rfl | hlt
    · have hrew : frame - t.stream.bufferOffset < t.stream.currFrame - t.stream.bufferOffset := by
        have := hblock.1
        omega
      have hmax : max t.stream.bufferWrittenFrames (frame - t.stream.bufferOffset) =
          t.stream.bufferWrittenFrames := by omega
      simp [moveToFrame, bufferIndexRew, place, hlt.ne, hlt.not_gt, hblock.1, hindex, hrew, hmax]
    · have hmax : max t.stream.bufferWrittenFrames
          (t.stream.currFrame - t.stream.bufferOffset) = t.stream.bufferWrittenFrames := by omega
      simp [moveToFrame, place, hmax, ← h.index]
    · simp [moveToFrame, bufferIndexFwd, place, hlt, hlt.ne', hsize, hblock.2]
  · rw [Session.ready, if_neg hblock]
    refine Eq.trans ?_ (t.stream.setPosition_place padP frame)
    rw [InBlock, not_and_or] at hblock
    rcases lt_trichotomy frame t.stream.currFrame with hlt | rfl | hlt
    · have hbefore : frame < t.stream.bufferOffset := by omega
      simp [moveToFrame, hlt.ne, hlt.not_gt, hbefore]
    · omega
    · have hafter : ¬ frame - t.stream.bufferOffset < t.stream.bufferMaxFrames := by omega
      simp [moveToFrame, bufferIndexFwd, hlt, hlt.ne', hsize, hafter]

theorem sample_eq (h : t.Models mode a) {frame : ℕ} (hblock : t.stream.InBlock frame)
    (channel : ℕ) : (a.first + frame) * channels + channel =
      t.stream.blockStart + t.stream.sampleIndex frame channel := by
  obtain ⟨n, rfl⟩ := Nat.exists_eq_add_of_le hblock.1
  rw [h.first, blockStart, sampleIndex, Nat.add_sub_cancel_left]
  ring

theorem adds_eq (h : t.Models mode a) (frame : ℕ) (hkeeps : t.Mixes frame → mode ≠ .overwrite) :
    mode.adds (a.moveTo frame).jumped =
      (t.stream.mixP || decide (frame < t.stream.frameThreshold)) := by
  by_cases hmode : mode = .overwrite
  · subst hmode
    have hnot : ¬ t.Mixes frame := fun hmix => hkeeps hmix rfl
    rw [Mixes, not_or] at hnot
    simp [IfExists.adds, hnot]
  · rw [h.mixP_or, FrameArray.moveTo, IfExists.adds_or hmode, h.mixP hmode]

variable [Add α]

theorem writeDouble_eq (padP : ℕ → Bool) (h : t.Models mode a) (frame : ℕ)
    (hflush : ¬ t.stream.InBlock frame → t.Flushes) (value : α) {channel : ℕ}
    (hchannel : channel < channels) :
    t.stream.writeDouble padP frame value channel =
      (t.ready padP frame).stream.store frame value channel := by
  obtain ⟨hblock, hready⟩ := h.ready padP frame hflush
  generalize hr : t.ready padP frame = r at *
  have hover : r.stream.overwriteP = false := hready.elim overwriteP overwriteP
  have hsize : (frame - r.stream.bufferOffset) * channels < r.stream.bufferSize :=
    Nat.mul_lt_mul_of_pos_right hblock.2 h.channels_pos
  rw [writeDouble, if_pos ⟨h.opened, hchannel⟩, h.moveToFrame_eq, hr,
    updateFrameThreshold_eq (r.stream.place frame) hover]
  exact if_pos hsize

theorem store (h : t.Models mode a) {frame : ℕ} (hblock : t.stream.InBlock frame) (value : α)
    {channel : ℕ} (hchannel : channel < channels)
    (hkeeps : t.Mixes frame → mode ≠ .overwrite ∧ t.stream.sampleIndex frame channel ∈ t.held) :
    Models mode ⟨t.stream.store frame value channel,
        insert (t.stream.sampleIndex frame channel) t.held⟩
      (a.write mode frame value ⟨channel, hchannel⟩) := by
  have hadds := h.adds_eq frame fun hmix => (hkeeps hmix).1
  have hsample := h.sample_eq hblock channel
  have hlt : t.stream.sampleIndex frame channel <
      (max t.stream.bufferWrittenFrames (frame - t.stream.bufferOffset) + 1) * channels := by
    have hle := Nat.mul_le_mul_right channels
      (le_max_right t.stream.bufferWrittenFrames (frame - t.stream.bufferOffset))
    rw [sampleIndex, add_mul]
    omega
  have hold : ∀ i,
      (max t.stream.bufferWrittenFrames (frame - t.stream.bufferOffset) + 1) * channels ≤ i →
        (t.stream.bufferWrittenFrames + 1) * channels ≤ i := fun i =>
    (Nat.mul_le_mul_right channels (Nat.add_le_add_right (le_max_left _ _) 1)).trans
  have hsize : (max t.stream.bufferWrittenFrames (frame - t.stream.bufferOffset) + 1) * channels ≤
      t.stream.bufferSize := Nat.mul_le_mul_right channels (max_lt h.written_lt hblock.2)
  generalize hindex : t.stream.sampleIndex frame channel = index at *
  have hbuffer : (t.stream.store frame value channel).buffer =
      Function.update t.stream.buffer index
        (if (t.stream.mixP || decide (frame < t.stream.frameThreshold)) then
          t.stream.buffer index + value else value) := by
    rw [← hindex]
    rfl
  have hdata : (a.write mode frame value ⟨channel, hchannel⟩).content.data =
      Function.update a.content.data (t.stream.blockStart + index)
        (if (t.stream.mixP || decide (frame < t.stream.frameThreshold)) then
          t.stream.buffer index + value else value) := by
    rw [FrameArray.write_data, hadds, hsample]
    congr 1
    split
    · next hmix =>
      rw [h.inside index (hkeeps (by simpa [Mixes] using hmix)).2 (hlt.trans_le hsize)]
    · rfl
  exact
    { opened := h.opened
      size := h.size
      overwriteP := h.overwriteP
      first := h.first
      mixP := fun _ => by
        simp only [OutputStream.store, FrameArray.write]
        exact hadds.symm
      threshold := by
        intro hmix
        have hreplace := (Bool.or_eq_false_iff.mp hmix).1
        simp [OutputStream.store, FrameArray.write, FrameArray.moveTo, hreplace,
          h.threshold hreplace]
      offset_le := hblock.1
      curr_le := le_max_right _ _
      written_lt := max_lt h.written_lt hblock.2
      index := rfl
      clean := fun hclean => absurd hclean (by simp [OutputStream.store, place])
      writePos := h.writePos
      blank := by
        intro hmix i hi
        have hle := hi rfl
        simp only [OutputStream.store, hindex]
        rw [Function.update_of_ne (by rintro rfl; exact absurd hle hlt.not_ge)]
        exact h.blank (Bool.or_eq_false_iff.mp hmix).1 i fun _ => hold i hle
      same := by
        intro i hi hsize hwritten
        have hle := hwritten rfl
        have hne : i ≠ index := by
          rintro rfl
          exact absurd hle hlt.not_ge
        simp only [OutputStream.store, hindex]
        rw [Function.update_of_ne hne]
        exact h.same i (hi.resolve_left hne) hsize fun _ => hold i hle
      outside := by
        intro j hj
        have hne : j ≠ t.stream.blockStart + index :=
          hj index (Set.mem_insert _ _) (hlt.trans_le hsize)
        rw [hdata, Function.update_of_ne hne]
        exact h.outside j fun i hi => hj i (Set.mem_insert_of_mem _ hi)
      inside := by
        intro i hi hsize
        change (a.write mode frame value ⟨channel, hchannel⟩).content.data
          (t.stream.blockStart + i) = (t.stream.store frame value channel).buffer i
        rw [hdata, hbuffer]
        by_cases hne : i = index
        · rw [hne, Function.update_self, Function.update_self]
        · rw [Function.update_of_ne (by omega), Function.update_of_ne hne]
          exact h.inside i (hi.resolve_left hne) hsize
      frames := by
        have hframes := h.frames
        have hend : a.first + frame + 1 =
            t.stream.sf.writePos + (frame - t.stream.bufferOffset) + 1 := by
          rw [h.first, h.writePos, Nat.add_assoc _ t.stream.bufferOffset, Nat.add_sub_of_le hblock.1]
        simp only [FrameArray.write, Frames.put, FrameArray.moveTo, OutputStream.store, place,
          if_true]
        cases hdirty : t.stream.dirtyP with
        | false =>
          have hclean := h.clean hdirty
          rw [hdirty] at hframes
          simp only [Bool.false_eq_true, if_false] at hframes
          rw [hframes, hend, hclean, Nat.max_zero, Nat.zero_max]
        | true =>
          rw [hdirty, if_pos rfl] at hframes
          rw [hframes, hend, max_assoc, Nat.add_max_add_right, Nat.add_max_add_left] }

theorem call (padP : ℕ → Bool) (h : t.Models mode a) (c : Call α) (hkeeps : t.Keeps padP mode c) :
    (t.call padP c).Models mode (a.call mode c) := by
  cases c with
  | setPosition pos => exact h.position padP hkeeps pos
  | write frame value channel =>
    by_cases hchannel : channel < channels
    · obtain ⟨hflush, hadds⟩ := hkeeps hchannel
      obtain ⟨hblock, hready⟩ := h.ready padP frame hflush
      have hwrite := h.writeDouble_eq padP frame hflush value hchannel
      rw [Session.call, FrameArray.call, dif_pos hchannel]
      simp only [OutputStream.call, hwrite, if_pos hchannel]
      cases hready with
      | inl hready => exact hready.store hblock value hchannel hadds
      | inr hready =>
        rw [← FrameArray.write_moveTo]
        exact hready.store hblock value hchannel hadds
    · rw [FrameArray.call, dif_neg hchannel]
      have hsame : t.call padP (.write frame value channel) = t := by
        simp [Session.call, OutputStream.call, writeDouble, hchannel]
      rwa [hsame]

theorem close (padP : ℕ → Bool) (calls : List (Call α)) (h : t.Models mode a)
    (hkeeps : t.KeepsAll padP mode calls) :
    (t.stream.run padP calls).close.sf.toFrames = (a.run mode calls).content := by
  induction calls generalizing t a with
  | nil =>
    change t.stream.close.sf.toFrames = a.content
    rw [OutputStream.close, if_pos h.opened]
    exact h.flush hkeeps
  | cons c cs ih => exact ih (h.call padP c hkeeps.1) hkeeps.2

end Models

end Session

section Open

variable (padP : ℕ → Bool) (mode : IfExists) (bufferSize : ℕ) (old : Option (Frames α channels))

theorem openPosition_eq (content : Frames α channels) :
    ∃ readPos reads buffer, (make mode bufferSize content).openPosition padP mode =
      { make mode bufferSize content with
        sf :=
          { SndFile.sfOpen content with
            readPos := readPos
            writePos := (make mode bufferSize content).sfPositionOffset
            reads := reads }
        buffer := buffer } ∧
      (mode ≠ .mix → buffer = fun _ => 0) := by
  cases mode with
  | error => exact ⟨0, 0, _, rfl, fun _ => rfl⟩
  | supersede => exact ⟨0, 0, _, rfl, fun _ => rfl⟩
  | overwrite => exact ⟨0, 0, _, rfl, fun _ => rfl⟩
  | mix =>
    obtain ⟨readPos, reads, buffer, hread⟩ := readBeforeMix_eq padP
      { make .mix bufferSize content with sf := (SndFile.sfSeek (.sfOpen content) 0).1 }
    exact ⟨readPos, reads, buffer, hread, fun hmode => absurd rfl hmode⟩
  | append =>
    obtain ⟨readPos, reads, buffer, hset, hbuffer⟩ :=
      (make .append bufferSize content).setPosition_eq padP 0
    rw [writeBufferedData_of_clean _ rfl] at hset hbuffer
    refine ⟨readPos, reads, buffer, hset.trans ?_, fun _ => hbuffer rfl⟩
    rw [Nat.zero_add]
    rfl

theorem models_openFile {s : OutputStream α channels}
    (h : openFile padP mode bufferSize old = some s) :
    (Session.ofStream s).Models mode (.start mode old) := by
  rw [openFile] at h
  split at h
  · simp at h
  · dsimp only at h
    split at h
    · simp at h
    · next hsize =>
      have hpos := Nat.pos_of_ne_zero hsize
      obtain ⟨readPos, reads, buffer, hopen, hbuffer⟩ :=
        openPosition_eq padP mode bufferSize (mode.content old)
      rw [hopen, Option.some_inj] at h
      obtain rfl := h
      refine .ofStream rfl hpos rfl rfl ?_ (fun _ => rfl) rfl rfl rfl rfl rfl ?_ rfl
      · intro hmode
        cases mode with
        | overwrite => exact absurd rfl hmode
        | mix => rfl
        | append => rfl
        | error => rfl
        | supersede => rfl
      · intro hmix i
        rw [hbuffer (by simpa [make] using hmix)]

variable [Add α]

/-- After CLOSE the file has the frames of the array, if no call and no written block changes a
sample that the buffer doesn't hold. -/
theorem close_eq_frames (calls : List (Call α)) (s : OutputStream α channels)
    (hopen : openFile padP mode bufferSize old = some s)
    (hkeeps : (Session.ofStream s).KeepsAll padP mode calls) :
    (s.run padP calls).close.sf.toFrames =
      ((FrameArray.start mode old).run mode calls).content :=
  (models_openFile padP mode bufferSize old hopen).close padP calls hkeeps

end Open

namespace Session

/-- The buffer stands for each sample of the block. -/
def Full (t : Session α channels) : Prop := ∀ i < t.stream.bufferSize, i ∈ t.held

variable {t : Session α channels} {a : FrameArray α channels} {padP : ℕ → Bool}

theorem Full.flushes (hfull : t.Full) (h : t.Models .mix a) : t.Flushes :=
  fun _ i hi => hfull i (hi.trans_le h.written_mul_le)

theorem Models.full_position (h : t.Models .mix a) (hpad : (∀ k, padP k = true) ∨ channels = 1)
    (pos : ℕ) : (t.position padP pos).Full := by
  intro i hi
  refine t.stream.setPosition_agrees padP hpad (h.mixP (by decide)) pos ?_
  obtain ⟨readPos, reads, buffer, hset, -⟩ := t.stream.setPosition_eq padP pos
  obtain ⟨sf, sfPosition, bufferIndex, cleared, hwrite⟩ := t.stream.writeBufferedData_eq
  rwa [Session.position, Session.ofStream, hset, hwrite] at hi

theorem Models.full_ready (h : t.Models .mix a) (hfull : t.Full)
    (hpad : (∀ k, padP k = true) ∨ channels = 1) (frame : ℕ) : (t.ready padP frame).Full := by
  rw [Session.ready]
  split
  · exact hfull
  · exact h.full_position hpad frame

variable [Add α]

theorem Models.full_call (h : t.Models .mix a) (hfull : t.Full)
    (hpad : (∀ k, padP k = true) ∨ channels = 1) (c : Call α) :
    t.Keeps padP .mix c ∧ (t.call padP c).Full := by
  have hflush := hfull.flushes h
  cases c with
  | setPosition pos => exact ⟨hflush, h.full_position hpad pos⟩
  | write frame value channel =>
    have hready := h.full_ready hfull hpad frame
    by_cases hchannel : channel < channels
    · have hwrite := h.writeDouble_eq padP frame (fun _ => hflush) value hchannel
      obtain ⟨hblock, -⟩ := h.ready padP frame fun _ => hflush
      have hindex := (t.ready padP frame).stream.sampleIndex_lt hblock hchannel
      refine ⟨fun _ => ⟨fun _ => hflush, fun _ => ⟨by decide, hready _ hindex⟩⟩, ?_⟩
      intro i hi
      simp only [Session.call, OutputStream.call, hwrite, if_pos hchannel] at hi ⊢
      exact Set.mem_insert_of_mem _ (hready i hi)
    · have hsame : t.call padP (.write frame value channel) = t := by
        simp [Session.call, OutputStream.call, writeDouble, hchannel]
      rw [hsame]
      exact ⟨fun hlt => absurd hlt hchannel, hfull⟩

omit [Add α] in
theorem full_openFile {bufferSize : ℕ} {old : Option (Frames α channels)}
    {s : OutputStream α channels} (h : openFile padP .mix bufferSize old = some s)
    (hpad : (∀ k, padP k = true) ∨ channels = 1) : (Session.ofStream s).Full := by
  rw [openFile, if_neg (by simp)] at h
  dsimp only at h
  split at h
  · simp at h
  · obtain rfl := Option.some.inj h
    intro i hi
    exact mem_agreeing_readBeforeMix padP _ hpad rfl hi

theorem Models.keepsAll_mix (h : t.Models .mix a) (hfull : t.Full)
    (hpad : (∀ k, padP k = true) ∨ channels = 1) (calls : List (Call α)) :
    t.KeepsAll padP .mix calls := by
  induction calls generalizing t a with
  | nil => exact hfull.flushes h
  | cons c cs ih =>
    obtain ⟨hkeeps, hcall⟩ := h.full_call hfull hpad c
    exact ⟨hkeeps, ih (h.call padP c hkeeps) hcall⟩

end Session

def threeFrames : Frames ℤ 1 where
  frames := 3
  data := fun i => if i < 3 then i + 1 else 0
  blank := fun i hi => if_neg (by omega)

/-- In mix mode with a jump back, the value of frame 0 is 1 + 5 + 7. -/
theorem close_eq_frames_mix :
    (run (fun _ => false) ((make .mix 0 threeFrames).openPosition (fun _ => false) .mix)
      [.write 0 5 0, .write 1 6 0, .write 0 7 0]).close.sf.toFrames =
      ((FrameArray.start .mix (some threeFrames)).run .mix
        [.write 0 5 0, .write 1 6 0, .write 0 7 0]).content ∧
    ((FrameArray.start .mix (some threeFrames)).run .mix
      [.write 0 5 0, .write 1 6 0, .write 0 7 0]).content.data 0 = 13 := by
  have hopen : openFile (fun _ => false) .mix 0 (some threeFrames) =
      some ((make .mix 0 threeFrames).openPosition (fun _ => false) .mix) := rfl
  refine ⟨close_eq_frames (fun _ => false) .mix 0 (some threeFrames) _ _ hopen ?_, by decide⟩
  exact (models_openFile (fun _ => false) .mix 0 (some threeFrames) hopen).keepsAll_mix
    (Session.full_openFile hopen (.inr rfl)) (.inr rfl) _

/-- In overwrite mode the value 7 is added to the value 5 after a jump back. -/
theorem not_close_eq_frames : ¬ ∀ (padP : ℕ → Bool) (mode : IfExists) (bufferSize : ℕ)
    (old : Option (Frames ℤ 1)) (calls : List (Call ℤ)) (s : OutputStream ℤ 1),
    openFile padP mode bufferSize old = some s →
      (s.run padP calls).close.sf.toFrames =
        ((FrameArray.start mode old).run mode calls).content := by
  intro h
  have hrun := h (fun _ => true) .overwrite 0 (some threeFrames)
    [.write 0 5 0, .write 1 6 0, .write 0 7 0] _ rfl
  have hsample := congrFun (congrArg Frames.data hrun) 0
  revert hsample
  decide

end OutputStream

end Incudine.Soundfile

import Incudine.SoundfileStream

/-!
# Sound files as arrays of frames

The values of the calls on an input stream are the values of the array of frames, if the calls that
go backward do not meet one of the cases that lose the place in the buffer.
-/

namespace Incudine.Soundfile

variable {α : Type*} {file : File α} {maxFrames : ℕ} {s : Stream α}

/-- The buffer contains the frames that precede the position; the offset is the first of them or
it is left behind by a whole buffer at least. If the current frame is not at the end of the file,
the index is its place in the buffer. -/
structure Invariant (file : File α) (maxFrames : ℕ) (s : Stream α) : Prop where
  openP : s.openP = true
  sf : s.sf = s.sfPosition
  sfPosition_le : s.sfPosition ≤ file.frames
  currFrame_le : s.currFrame ≤ file.frames
  frames_le : s.bufferFrames ≤ s.sfPosition
  frames_le_max : s.bufferFrames ≤ maxFrames
  bufferEnd : s.bufferEnd = s.bufferFrames * file.channels
  whole : s.bufferFrames = 0 ∨ s.bufferFrames = maxFrames ∨ s.sfPosition = file.frames
  cells : ∀ i < s.bufferFrames, ∀ channel < file.channels,
    s.buffer ((i * file.channels + channel : ℕ) : ℤ) =
      file.data (s.sfPosition - s.bufferFrames + i) channel
  offset : s.bufferOffset + s.bufferFrames = s.sfPosition ∨
    s.bufferOffset + maxFrames + s.bufferFrames ≤ s.sfPosition
  index_le : s.bufferIndex ≤ s.bufferEnd
  index : s.currFrame < file.frames → s.sfPosition ≤ s.currFrame + s.bufferFrames ∧
    s.currFrame ≤ s.sfPosition ∧
      s.bufferIndex = ((s.currFrame + s.bufferFrames - s.sfPosition : ℕ) : ℤ) * file.channels

theorem newStream_invariant (file : File α) (maxFrames : ℕ) (buffer : Cells α) :
    Invariant file maxFrames (newStream buffer) where
  openP := rfl
  sf := rfl
  sfPosition_le := Nat.zero_le _
  currFrame_le := Nat.zero_le _
  frames_le := le_rfl
  frames_le_max := Nat.zero_le _
  bufferEnd := (Nat.zero_mul _).symm
  whole := .inl rfl
  cells := fun _ h => absurd h (Nat.not_lt_zero _)
  offset := .inl rfl
  index_le := le_rfl
  index := fun _ => ⟨le_rfl, le_rfl, (zero_mul _).symm⟩

variable {channel : ℕ}

section Buffer

theorem Invariant.buffer_index (h : Invariant file maxFrames s) (hcurr : s.currFrame < file.frames)
    (hindex : s.bufferIndex < s.bufferEnd) (hchannel : channel < file.channels) :
    s.buffer (s.bufferIndex + channel) = file.data s.currFrame channel := by
  obtain ⟨hstart, hend, heq⟩ := h.index hcurr
  have hle := h.frames_le
  set i := s.currFrame + s.bufferFrames - s.sfPosition with hi
  have hlt : i < s.bufferFrames := by
    rw [heq, h.bufferEnd] at hindex
    exact Nat.lt_of_mul_lt_mul_right (by exact_mod_cast hindex)
  have hcell := h.cells i hlt channel hchannel
  have hframe : s.sfPosition - s.bufferFrames + i = s.currFrame := by omega
  rw [hframe] at hcell
  rw [heq, ← hcell]
  push_cast
  rfl

theorem fill_cell (start frames : ℕ) (buffer : Cells α) {i : ℕ} (hi : i < frames)
    (hchannel : channel < file.channels) :
    file.fill start frames buffer ((i * file.channels + channel : ℕ) : ℤ) =
      file.data (start + i) channel := by
  have hlt : i * file.channels + channel < frames * file.channels := by
    have hle := Nat.mul_le_mul_right file.channels (Nat.succ_le_of_lt hi)
    rw [Nat.succ_mul] at hle
    omega
  have hpos : 0 < file.channels := Nat.zero_lt_of_lt hchannel
  have hdiv : (i * file.channels + channel) / file.channels = i := by
    rw [Nat.mul_comm, Nat.mul_add_div hpos, Nat.div_eq_of_lt hchannel, Nat.add_zero]
  have hmod : (i * file.channels + channel) % file.channels = channel := by
    rw [Nat.mul_comm, Nat.mul_add_mod, Nat.mod_eq_of_lt hchannel]
  rw [File.fill, if_pos ⟨by positivity, by exact_mod_cast hlt⟩, Int.toNat_natCast, hdiv, hmod]

theorem readIntoBuffer_eq (hmax : 0 < maxFrames) (hsf : s.sf = s.sfPosition)
    (hlt : s.sfPosition < file.frames) :
    readIntoBuffer file maxFrames s = ({ s with
      sf := s.sfPosition + min maxFrames (file.frames - s.sfPosition)
      buffer := file.fill s.sfPosition (min maxFrames (file.frames - s.sfPosition)) s.buffer
      sfPosition := s.sfPosition + min maxFrames (file.frames - s.sfPosition)
      bufferIndex := 0
      bufferEnd := min maxFrames (file.frames - s.sfPosition) * file.channels
      bufferFrames := min maxFrames (file.frames - s.sfPosition) },
      min maxFrames (file.frames - s.sfPosition)) := by
  have hpos : 0 < min maxFrames (file.frames - s.sfPosition) := by omega
  simp only [readIntoBuffer, hsf, if_pos hpos]

section

variable (h : Invariant file maxFrames s)
include h

theorem Invariant.readIntoBuffer (hmax : 0 < maxFrames) (hcurr : s.currFrame < file.frames)
    (hposition : s.currFrame = s.sfPosition) :
    Invariant file maxFrames (readIntoBuffer file maxFrames s).1 := by
  rw [readIntoBuffer_eq hmax h.sf (hposition ▸ hcurr)]
  set frames := min maxFrames (file.frames - s.sfPosition) with hframes
  have hmin : frames = maxFrames ∨ s.sfPosition + frames = file.frames := by omega
  refine ⟨h.openP, rfl, ?_, h.currFrame_le, ?_, ?_, rfl, .inr hmin, ?_, ?_, ?_, ?_⟩
  · show s.sfPosition + frames ≤ file.frames
    omega
  · exact Nat.le_add_left _ _
  · exact min_le_left _ _
  · intro i hi channel hchannel
    show file.fill _ _ _ _ = file.data (s.sfPosition + frames - frames + i) channel
    rw [Nat.add_sub_cancel]
    exact fill_cell _ _ _ hi hchannel
  · show s.bufferOffset + frames = s.sfPosition + frames ∨
      s.bufferOffset + maxFrames + frames ≤ s.sfPosition + frames
    have hoffset := h.offset
    have hwhole := h.whole
    omega
  · exact Int.natCast_nonneg _
  · intro _
    show s.sfPosition + frames ≤ s.currFrame + frames ∧ s.currFrame ≤ s.sfPosition + frames ∧
      (0 : ℤ) = ((s.currFrame + frames - (s.sfPosition + frames) : ℕ) : ℤ) * file.channels
    rw [hposition, Nat.sub_self]
    exact ⟨le_rfl, Nat.le_add_right _ _, by simp⟩

theorem Invariant.currFrame_of_empty (hcurr : s.currFrame < file.frames)
    (hempty : s.bufferFrames = 0) : s.currFrame = s.sfPosition := by
  obtain ⟨hstart, hend, -⟩ := h.index hcurr
  omega

theorem Invariant.maybeRead (hmax : 0 < maxFrames) (hcurr : s.currFrame < file.frames) :
    Invariant file maxFrames (maybeRead file maxFrames s) ∧
      (maybeRead file maxFrames s).currFrame = s.currFrame ∧
        0 < (maybeRead file maxFrames s).bufferFrames := by
  rw [Soundfile.maybeRead]
  by_cases hempty : s.bufferFrames = 0
  · rw [if_pos hempty]
    have hposition := h.currFrame_of_empty hcurr hempty
    refine ⟨h.readIntoBuffer hmax hcurr hposition, ?_, ?_⟩
    · rw [readIntoBuffer_eq hmax h.sf (hposition ▸ hcurr)]
    · rw [readIntoBuffer_eq hmax h.sf (hposition ▸ hcurr)]
      show 0 < min maxFrames (file.frames - s.sfPosition)
      omega
  · rw [if_neg hempty]
    exact ⟨h, rfl, Nat.pos_of_ne_zero hempty⟩

theorem Invariant.bufferEnd_le (hchannels : 0 < file.channels) (hcurr : s.currFrame < file.frames) :
    s.bufferEnd ≤ s.bufferIndex ↔ s.currFrame = s.sfPosition := by
  obtain ⟨hstart, hend, heq⟩ := h.index hcurr
  have hle := h.frames_le
  rw [heq, h.bufferEnd]
  constructor
  · intro hindex
    have hframes := Nat.le_of_mul_le_mul_right (by exact_mod_cast hindex) hchannels
    omega
  · intro hposition
    rw [hposition, Nat.add_sub_cancel_left]
    push_cast
    rfl

theorem Invariant.advance (hcurr : s.currFrame < file.frames) (hchannels : 0 < file.channels)
    (hindex : s.bufferIndex < s.bufferEnd) :
    Invariant file maxFrames { s with
      currFrame := s.currFrame + 1
      bufferIndex := s.bufferIndex + file.channels } := by
  obtain ⟨hstart, hend, heq⟩ := h.index hcurr
  have hle := h.frames_le
  have hne : s.currFrame ≠ s.sfPosition := fun hposition =>
    absurd hindex (not_lt.mpr ((h.bufferEnd_le hchannels hcurr).mpr hposition))
  have hsucc : s.currFrame + 1 + s.bufferFrames - s.sfPosition =
      s.currFrame + s.bufferFrames - s.sfPosition + 1 := by omega
  refine ⟨h.openP, h.sf, h.sfPosition_le, hcurr, h.frames_le, h.frames_le_max, h.bufferEnd,
    h.whole, h.cells, h.offset, ?_, fun _ => ⟨?_, ?_, ?_⟩⟩
  · show s.bufferIndex + file.channels ≤ s.bufferEnd
    rw [heq, h.bufferEnd]
    have hframes : s.currFrame + s.bufferFrames - s.sfPosition + 1 ≤ s.bufferFrames := by omega
    have hmul := Nat.mul_le_mul_right file.channels hframes
    rw [Nat.succ_mul] at hmul
    exact_mod_cast hmul
  · show s.sfPosition ≤ s.currFrame + 1 + s.bufferFrames
    omega
  · show s.currFrame + 1 ≤ s.sfPosition
    omega
  · show s.bufferIndex + file.channels =
      ((s.currFrame + 1 + s.bufferFrames - s.sfPosition : ℕ) : ℤ) * file.channels
    rw [hsucc, heq]
    push_cast
    ring

end

end Buffer

variable {frame : ℕ}

section Moves

theorem setPosition_of_le {pos : ℕ} (hpos : pos ≤ file.frames) :
    setPosition file s pos = { s with
      sf := pos
      bufferIndex := 0
      bufferFrames := 0
      bufferEnd := 0
      bufferOffset := pos
      currFrame := pos
      sfPosition := pos } := by
  simp only [setPosition, sfSeek, if_pos hpos, Int.toNat_natCast]
  rw [if_neg (by omega)]

theorem setPosition_of_lt {pos : ℕ} (hpos : file.frames < pos) : setPosition file s pos = s := by
  simp only [setPosition, sfSeek, if_neg (Nat.not_le.mpr hpos)]
  rw [if_pos (by decide)]

theorem Invariant.setPosition (h : Invariant file maxFrames s) {pos : ℕ} (hpos : pos ≤ file.frames) :
    Invariant file maxFrames (setPosition file s pos) := by
  rw [setPosition_of_le hpos]
  exact ⟨h.openP, rfl, hpos, hpos, Nat.zero_le _, Nat.zero_le _, (Nat.zero_mul _).symm, .inl rfl,
    fun _ hi => absurd hi (Nat.not_lt_zero _), .inl rfl, le_rfl, fun _ => ⟨le_rfl, le_rfl, by simp⟩⟩

/-- The offset of the buffer is not left behind, if the frame seems to be in it. -/
def RewindMeets (file : File α) (s : Stream α) (frame : ℕ) : Prop :=
  frame < s.currFrame → s.bufferOffset ≤ frame →
    ((frame : ℤ) - s.bufferOffset) * file.channels < s.bufferIndex →
      s.bufferOffset + s.bufferFrames = s.sfPosition

theorem Invariant.moveIndex (h : Invariant file maxFrames s) (hframe : frame < file.frames)
    (hoffset : s.bufferOffset ≤ frame) (hfresh : s.bufferOffset + s.bufferFrames = s.sfPosition)
    (hindex : ((frame : ℤ) - s.bufferOffset) * file.channels < s.bufferEnd) :
    Invariant file maxFrames { s with
      bufferIndex := ((frame : ℤ) - s.bufferOffset) * file.channels
      currFrame := frame } := by
  have hdiff : (frame : ℤ) - s.bufferOffset = ((frame - s.bufferOffset : ℕ) : ℤ) := by omega
  have hlt : frame - s.bufferOffset < s.bufferFrames := by
    rw [hdiff, h.bufferEnd] at hindex
    exact Nat.lt_of_mul_lt_mul_right (by exact_mod_cast hindex)
  refine ⟨h.openP, h.sf, h.sfPosition_le, hframe.le, h.frames_le, h.frames_le_max, h.bufferEnd,
    h.whole, h.cells, h.offset, hindex.le, fun _ => ⟨?_, ?_, ?_⟩⟩
  · show s.sfPosition ≤ frame + s.bufferFrames
    omega
  · show frame ≤ s.sfPosition
    omega
  · show ((frame : ℤ) - s.bufferOffset) * file.channels =
      ((frame + s.bufferFrames - s.sfPosition : ℕ) : ℤ) * file.channels
    rw [hdiff]
    congr 2
    omega

theorem Invariant.moveToFrame (h : Invariant file maxFrames s) (hframe : frame < file.frames)
    (hmeets : RewindMeets file s frame) :
    Invariant file maxFrames (moveToFrame file s frame s.bufferEnd) ∧
      (moveToFrame file s frame s.bufferEnd).currFrame = frame := by
  have hseek : Invariant file maxFrames (Soundfile.setPosition file s frame) ∧
      (Soundfile.setPosition file s frame).currFrame = frame := by
    refine ⟨h.setPosition hframe.le, ?_⟩
    rw [setPosition_of_le hframe.le]
  rw [Soundfile.moveToFrame]
  by_cases heq : frame = s.currFrame
  · rw [if_pos heq]
    exact ⟨h, heq.symm⟩
  rw [if_neg heq]
  by_cases hforward : s.currFrame < frame
  · rw [if_pos hforward, bufferIndexFwd, bufferIndexBelow]
    by_cases hindex : ((frame : ℤ) - s.bufferOffset) * file.channels < s.bufferEnd
    · rw [if_pos hindex, Option.getD_some]
      obtain ⟨hstart, hend, -⟩ := h.index (hforward.trans hframe)
      have hoffset := h.offset
      have hmax := h.frames_le_max
      have hle : s.bufferOffset ≤ frame := by omega
      have hdiff : (frame : ℤ) - s.bufferOffset = ((frame - s.bufferOffset : ℕ) : ℤ) := by omega
      have hlt : frame - s.bufferOffset < s.bufferFrames := by
        rw [hdiff, h.bufferEnd] at hindex
        exact Nat.lt_of_mul_lt_mul_right (by exact_mod_cast hindex)
      exact ⟨h.moveIndex hframe hle (by omega) hindex, rfl⟩
    · rw [if_neg hindex, Option.getD_none]
      exact hseek
  · rw [if_neg hforward]
    by_cases hoffset : frame < s.bufferOffset
    · rw [if_neg (not_not.mpr hoffset)]
      exact hseek
    · rw [if_pos hoffset, bufferIndexRew, bufferIndexBelow]
      by_cases hindex : ((frame : ℤ) - s.bufferOffset) * file.channels < s.bufferIndex
      · rw [if_pos hindex, Option.getD_some]
        have hfresh := hmeets (by omega) (Nat.le_of_not_lt hoffset) hindex
        exact ⟨h.moveIndex hframe (Nat.le_of_not_lt hoffset) hfresh
          (hindex.trans_le h.index_le), rfl⟩
      · rw [if_neg hindex, Option.getD_none]
        exact hseek

end Moves

section Reads

variable [Zero α]

theorem File.value_of_lt (hframe : frame < file.frames) (hchannel : channel < file.channels) :
    file.value frame channel = file.data frame channel :=
  if_pos ⟨hframe, hchannel⟩

theorem File.value_of_le (hframe : file.frames ≤ frame) (channel : ℕ) :
    file.value frame channel = 0 :=
  if_neg fun h => absurd h.1 (Nat.not_lt.mpr hframe)

theorem File.value_of_channels_le (hchannel : file.channels ≤ channel) (frame : ℕ) :
    file.value frame channel = 0 :=
  if_neg fun h => absurd h.2 (Nat.not_lt.mpr hchannel)

theorem Invariant.readForward (h : Invariant file maxFrames s) (hmax : 0 < maxFrames)
    (channel : ℕ) (peekP : Bool) :
    (readForward file maxFrames s channel peekP).1 = file.value s.currFrame channel ∧
      Invariant file maxFrames (readForward file maxFrames s channel peekP).2 ∧
      (readForward file maxFrames s channel peekP).2.currFrame =
        if channel < file.channels then file.move s.currFrame peekP true else s.currFrame := by
  rw [Soundfile.readForward]
  by_cases hchannel : file.channels ≤ channel
  · rw [if_pos (.inr (.inl hchannel)), if_neg (Nat.not_lt.mpr hchannel)]
    exact ⟨(File.value_of_channels_le hchannel _).symm, h, rfl⟩
  have hlt : channel < file.channels := Nat.lt_of_not_le hchannel
  have hchannels : 0 < file.channels := Nat.zero_lt_of_lt hlt
  rw [if_pos hlt]
  by_cases heof : file.frames ≤ s.currFrame
  · have hcurr : s.currFrame = file.frames := Nat.le_antisymm h.currFrame_le heof
    rw [if_pos (.inr (.inr (by rw [eofP]; exact decide_eq_true heof)))]
    refine ⟨(File.value_of_le heof _).symm, h, ?_⟩
    rw [File.move, hcurr]
    cases peekP <;> simp
  have hcurr : s.currFrame < file.frames := Nat.lt_of_not_le heof
  rw [if_neg (by simp [h.openP, hchannel, eofP, heof])]
  obtain ⟨hread, hsame, hframes⟩ := h.maybeRead hmax hcurr
  rw [← hsame] at hcurr ⊢
  generalize Soundfile.maybeRead file maxFrames s = s at hread hframes hcurr ⊢
  rw [File.value_of_lt hcurr hlt]
  have hmove : ∀ peekP : Bool, file.move s.currFrame peekP true =
      if peekP then s.currFrame else s.currFrame + 1 := by
    intro peekP
    rw [File.move]
    cases peekP
    · simp only [Bool.false_eq_true, if_false, if_true]
      omega
    · simp only [if_true]
      omega
  obtain ⟨s', frames, hs', hpos, hinv, hsame', hindex⟩ : ∃ (s' : Stream α) (frames : ℕ),
      (if (s.bufferEnd : ℤ) ≤ s.bufferIndex then Soundfile.readIntoBuffer file maxFrames s
        else (s, s.bufferFrames)) = (s', frames) ∧ frames ≠ 0 ∧ Invariant file maxFrames s' ∧
        s'.currFrame = s.currFrame ∧ s'.bufferIndex < s'.bufferEnd := by
    by_cases hend : (s.bufferEnd : ℤ) ≤ s.bufferIndex
    · have hposition := (hread.bufferEnd_le hchannels hcurr).mp hend
      have hinv := hread.readIntoBuffer hmax hcurr hposition
      rw [if_pos hend]
      rw [readIntoBuffer_eq hmax hread.sf (hposition ▸ hcurr)] at hinv ⊢
      have hfill : 0 < min maxFrames (file.frames - s.sfPosition) := by omega
      refine ⟨_, _, rfl, hfill.ne', hinv, rfl, ?_⟩
      show (0 : ℤ) < ((min maxFrames (file.frames - s.sfPosition) * file.channels : ℕ) : ℤ)
      exact_mod_cast Nat.mul_pos hfill hchannels
    · rw [if_neg hend]
      exact ⟨s, _, rfl, hframes.ne', hread, rfl, lt_of_not_ge hend⟩
  simp only [if_neg hframes.ne', hs', if_neg hpos]
  have hcurr' : s'.currFrame < file.frames := by rw [hsame']; exact hcurr
  rw [hmove]
  refine ⟨?_, ?_, ?_⟩
  · rw [hinv.buffer_index hcurr' hindex hlt, hsame']
  · cases peekP with
    | true => exact hinv
    | false => exact hinv.advance hcurr' hchannels hindex
  · cases peekP with
    | true => exact hsame'
    | false => exact congrArg (· + 1) hsame'

end Reads

variable {peekP : Bool}

section Backward

theorem File.move_backward (hframe : frame < file.frames) (peekP : Bool) :
    file.move frame peekP false = frame - if peekP then 0 else 1 := by
  rw [File.move]
  cases peekP
  · simp only [Bool.false_eq_true, if_false]
    omega
  · simp only [if_true]
    omega

theorem Invariant.retreat (h : Invariant file maxFrames s) (hchannels : 0 < file.channels)
    (hcurr : s.currFrame < file.frames) (hindex : (file.channels : ℤ) ≤ s.bufferIndex) :
    Invariant file maxFrames { s with
      currFrame := s.currFrame - 1
      bufferIndex := s.bufferIndex - file.channels } := by
  obtain ⟨hstart, hend, heq⟩ := h.index hcurr
  have hle := h.frames_le
  have hindex_le := h.index_le
  have hone : 1 ≤ s.currFrame + s.bufferFrames - s.sfPosition := by
    apply Nat.le_of_mul_le_mul_right _ hchannels
    rw [Nat.one_mul]
    exact_mod_cast hindex.trans_eq heq
  have hpred : s.currFrame + s.bufferFrames - s.sfPosition =
      s.currFrame - 1 + s.bufferFrames - s.sfPosition + 1 := by omega
  refine ⟨h.openP, h.sf, h.sfPosition_le, (Nat.sub_le _ _).trans hcurr.le, h.frames_le,
    h.frames_le_max, h.bufferEnd, h.whole, h.cells, h.offset, ?_, fun _ => ⟨?_, ?_, ?_⟩⟩
  · show s.bufferIndex - file.channels ≤ s.bufferEnd
    omega
  · show s.sfPosition ≤ s.currFrame - 1 + s.bufferFrames
    omega
  · show s.currFrame - 1 ≤ s.sfPosition
    omega
  · show s.bufferIndex - file.channels =
      ((s.currFrame - 1 + s.bufferFrames - s.sfPosition : ℕ) : ℤ) * file.channels
    rw [heq, hpred]
    push_cast
    ring

theorem Invariant.refill (h : Invariant file maxFrames s) (hmax : 0 < maxFrames) {pos frame : ℕ}
    (hpos : pos < file.frames) (hframe : pos ≤ frame)
    (hend : frame ≤ pos + min maxFrames (file.frames - pos)) :
    Invariant file maxFrames
      { (Soundfile.readIntoBuffer file maxFrames (Soundfile.setPosition file s pos)).1 with
        currFrame := frame
        bufferIndex := ((frame - pos : ℕ) : ℤ) * file.channels } := by
  have hseek := h.setPosition hpos.le
  have heq := setPosition_of_le (s := s) hpos.le
  have hcurr : (Soundfile.setPosition file s pos).currFrame = pos := by rw [heq]
  have hposition : (Soundfile.setPosition file s pos).sfPosition = pos := by rw [heq]
  have hfill := hseek.readIntoBuffer hmax (by rw [hcurr]; exact hpos) (hcurr.trans hposition.symm)
  rw [readIntoBuffer_eq hmax hseek.sf (by rw [hposition]; exact hpos)] at hfill ⊢
  simp only [hposition] at hfill ⊢
  set frames := min maxFrames (file.frames - pos) with hframes
  have hle : pos + frames ≤ file.frames := by omega
  have hoffset := hfill.offset
  refine ⟨hfill.openP, hfill.sf, hfill.sfPosition_le, hend.trans hle, hfill.frames_le,
    hfill.frames_le_max, hfill.bufferEnd, hfill.whole, hfill.cells, hoffset, ?_,
    fun _ => ⟨?_, hend, ?_⟩⟩
  · show ((frame - pos : ℕ) : ℤ) * file.channels ≤ ((frames * file.channels : ℕ) : ℤ)
    have hdiff : frame - pos ≤ frames := by omega
    exact_mod_cast Nat.mul_le_mul_right _ hdiff
  · show pos + frames ≤ frame + frames
    omega
  · show ((frame - pos : ℕ) : ℤ) * file.channels =
      ((frame + frames - (pos + frames) : ℕ) : ℤ) * file.channels
    rw [Nat.add_sub_add_right]

/-- The current frame is in the buffer, the position is not less than the number of channels and,
if the first frame of the buffer is left after the first buffer, the buffer is full. -/
def BackwardMeets (file : File α) (maxFrames : ℕ) (s : Stream α) (peekP : Bool) : Prop :=
  file.frames = 0 ∨ s.currFrame < file.frames ∧
    (s.bufferFrames = 0 ∨ s.bufferIndex < s.bufferEnd) ∧
    file.channels ≤ (maybeRead file maxFrames s).sfPosition ∧
    ((maybeRead file maxFrames s).bufferIndex < file.channels → maxFrames < s.currFrame →
      (maybeRead file maxFrames s).bufferFrames = maxFrames ∧ (peekP = false → 1 < maxFrames))

theorem maybeRead_of_empty (h : Invariant file maxFrames s) (hempty : file.frames = 0) :
    maybeRead file maxFrames s = s := by
  have hposition : s.sfPosition = 0 := Nat.le_zero.mp (hempty ▸ h.sfPosition_le)
  have hframes : s.bufferFrames = 0 := Nat.le_zero.mp (hposition ▸ h.frames_le)
  have hend : s.bufferEnd = 0 := by rw [h.bufferEnd, hframes, Nat.zero_mul]
  have hfill : file.fill s.sf 0 s.buffer = s.buffer := by
    funext i
    rw [File.fill, if_neg]
    rw [Nat.cast_zero, zero_mul]
    omega
  rw [maybeRead, if_pos hframes]
  simp only [readIntoBuffer, hempty, Nat.zero_sub, Nat.min_zero, hfill, Nat.add_zero,
    lt_irrefl, if_false, Nat.zero_mul]
  obtain ⟨openP, sf, sfPosition, currFrame, buffer, bufferIndex, bufferEnd, bufferFrames, offset⟩ := s
  simp only at hframes hend
  rw [hframes, hend]

theorem Invariant.readBackward [Zero α] (h : Invariant file maxFrames s) (hmax : 0 < maxFrames)
    (hchannels : 0 < file.channels) (channel : ℕ)
    (hmeets : channel < file.channels → BackwardMeets file maxFrames s peekP) :
    (readBackward file maxFrames s channel peekP).1 = file.value s.currFrame channel ∧
      Invariant file maxFrames (readBackward file maxFrames s channel peekP).2 ∧
      (readBackward file maxFrames s channel peekP).2.currFrame =
        if channel < file.channels then file.move s.currFrame peekP false else s.currFrame := by
  rw [Soundfile.readBackward]
  by_cases hchannel : file.channels ≤ channel
  · rw [if_pos (.inr hchannel), if_neg (Nat.not_lt.mpr hchannel)]
    exact ⟨(File.value_of_channels_le hchannel _).symm, h, rfl⟩
  have hlt : channel < file.channels := Nat.lt_of_not_le hchannel
  rw [if_neg (by simp [h.openP, hchannel]), if_pos hlt]
  rcases hmeets hlt with hempty | ⟨hcurr, hinside, hposition, hfull⟩
  · have hcurr : s.currFrame = 0 := Nat.le_zero.mp (hempty ▸ h.currFrame_le)
    have hsf : s.sfPosition = 0 := Nat.le_zero.mp (hempty ▸ h.sfPosition_le)
    rw [maybeRead_of_empty h hempty]
    simp only [hsf, if_pos hchannels]
    refine ⟨(File.value_of_le (by rw [hempty]; exact Nat.zero_le _) _).symm, h, ?_⟩
    rw [File.move, hcurr, hempty]
    cases peekP <;> rfl
  obtain ⟨hread, hsame, hframes⟩ := h.maybeRead hmax hcurr
  have hindex : (Soundfile.maybeRead file maxFrames s).bufferIndex <
      (Soundfile.maybeRead file maxFrames s).bufferEnd := by
    rw [Soundfile.maybeRead]
    by_cases hempty : s.bufferFrames = 0
    · have hnext := h.currFrame_of_empty hcurr hempty
      rw [if_pos hempty, readIntoBuffer_eq hmax h.sf (hnext ▸ hcurr)]
      have hfill : 0 < min maxFrames (file.frames - s.sfPosition) := by omega
      show (0 : ℤ) < ((min maxFrames (file.frames - s.sfPosition) * file.channels : ℕ) : ℤ)
      exact_mod_cast Nat.mul_pos hfill hchannels
    · rw [if_neg hempty]
      exact hinside.resolve_left hempty
  rw [← hsame] at hcurr hfull ⊢
  generalize Soundfile.maybeRead file maxFrames s = s at *
  have hvalue : s.buffer (s.bufferIndex + channel) = file.value s.currFrame channel := by
    rw [hread.buffer_index hcurr hindex hlt, File.value_of_lt hcurr hlt]
  simp only [if_neg (Nat.not_lt.mpr hposition), hvalue, File.move_backward hcurr]
  by_cases hzero : s.currFrame = 0
  · simp only [if_pos hzero]
    refine ⟨trivial, hread.setPosition (Nat.zero_le _), ?_⟩
    rw [setPosition_of_le (Nat.zero_le _), hzero, Nat.zero_sub]
  simp only [if_neg hzero]
  obtain ⟨hstart, hend, heq⟩ := hread.index hcurr
  have hle := hread.frames_le
  by_cases hfirst : s.bufferIndex < file.channels
  · have hplace : s.currFrame + s.bufferFrames = s.sfPosition := by
      rw [heq] at hfirst
      have hlt : (s.currFrame + s.bufferFrames - s.sfPosition) * file.channels <
          1 * file.channels := by
        rw [Nat.one_mul]
        exact_mod_cast hfirst
      have hzero := Nat.lt_of_mul_lt_mul_right hlt
      omega
    simp only [if_pos hfirst]
    by_cases hlater : maxFrames < s.currFrame
    · obtain ⟨hwhole, hone⟩ := hfull hfirst hlater
      have hdelta : (if peekP then 0 else 1) + 1 ≤ maxFrames := by
        cases peekP
        · exact hone rfl
        · exact hmax
      have hrefill := @Invariant.refill α file maxFrames s hread hmax
        (1 + (s.currFrame - maxFrames)) (s.currFrame - if peekP then 0 else 1) (by omega)
        (by omega) (by omega)
      have hframe : ((s.currFrame - (if peekP then 0 else 1) -
          (1 + (s.currFrame - maxFrames)) : ℕ) : ℤ) =
            s.bufferFrames - 1 - (if peekP then 0 else 1 : ℕ) := by
        rw [hwhole]
        omega
      rw [hframe] at hrefill
      simp only [if_pos hlater]
      exact ⟨trivial, hrefill, trivial⟩
    · have hrefill := @Invariant.refill α file maxFrames s hread hmax 0
        (s.currFrame - if peekP then 0 else 1) (by omega) (Nat.zero_le _) (by omega)
      have hframe : ((s.currFrame - (if peekP then 0 else 1) - 0 : ℕ) : ℤ) =
          s.currFrame - (if peekP then 0 else 1 : ℕ) := by
        have hdelta : (if peekP then 0 else 1) ≤ s.currFrame := by
          cases peekP
          · exact Nat.pos_of_ne_zero hzero
          · exact Nat.zero_le _
        omega
      rw [hframe] at hrefill
      simp only [if_neg hlater]
      exact ⟨trivial, hrefill, trivial⟩
  simp only [if_neg hfirst]
  cases peekP with
  | true => exact ⟨rfl, hread, rfl⟩
  | false => exact ⟨rfl, hread.retreat hchannels hcurr (not_lt.mp hfirst), rfl⟩

end Backward

/-- A read that goes back to a frame does not use an offset left behind, a read that goes backward
meets its cases, and it does not start after the end of the file. -/
def Call.Meets (file : File α) (maxFrames : ℕ) (s : Stream α) : Call → Prop
  | .read frame channel peekP forwardP => channel < file.channels →
      (frame.getD s.currFrame < file.frames →
        RewindMeets file s (frame.getD s.currFrame) ∧
          (forwardP = false → BackwardMeets file maxFrames
            (moveToFrame file s (frame.getD s.currFrame) s.bufferEnd) peekP)) ∧
      (file.frames ≤ frame.getD s.currFrame → file.frames = 0 ∨ peekP ∨ forwardP)
  | .readNext channel peekP forwardP => channel < file.channels → forwardP = false →
      BackwardMeets file maxFrames s peekP
  | .setPosition _ => True

def CallsMeet [Zero α] (file : File α) (maxFrames : ℕ) (s : Stream α) : List Call → Prop
  | [] => True
  | c :: cs => c.Meets file maxFrames s ∧ CallsMeet file maxFrames (call file maxFrames s c).2 cs

section Runs

theorem File.move_of_le (hframe : file.frames ≤ frame) {forwardP : Bool}
    (h : file.frames = 0 ∨ peekP ∨ forwardP) : file.move frame peekP forwardP = file.frames := by
  rw [File.move]
  cases peekP
  · cases forwardP
    · simp only [Bool.false_eq_true, or_false] at h ⊢
      simp only [if_false]
      omega
    · simp only [Bool.false_eq_true, if_false, if_true]
      omega
  · simp only [if_true]
    omega

variable [Zero α]

section

variable (h : Invariant file maxFrames s) (hmax : 0 < maxFrames) (hchannels : 0 < file.channels)
include h hmax hchannels

theorem Invariant.readNext (channel : ℕ) {forwardP : Bool}
    (hmeets : channel < file.channels → forwardP = false → BackwardMeets file maxFrames s peekP) :
    (readNext file maxFrames s channel peekP forwardP).1 = file.value s.currFrame channel ∧
      Invariant file maxFrames (readNext file maxFrames s channel peekP forwardP).2 ∧
      (readNext file maxFrames s channel peekP forwardP).2.currFrame =
        if channel < file.channels then file.move s.currFrame peekP forwardP
        else s.currFrame := by
  cases forwardP with
  | true => exact h.readForward hmax channel peekP
  | false => exact h.readBackward hmax hchannels channel fun hchannel => hmeets hchannel rfl

theorem Invariant.read (frame : Option ℕ) (channel : ℕ) {forwardP : Bool}
    (hmeets : Call.Meets file maxFrames s (.read frame channel peekP forwardP)) :
    (read file maxFrames s frame channel peekP forwardP).1 =
        file.value (frame.getD s.currFrame) channel ∧
      Invariant file maxFrames (read file maxFrames s frame channel peekP forwardP).2 ∧
      (read file maxFrames s frame channel peekP forwardP).2.currFrame =
        if channel < file.channels then file.move (frame.getD s.currFrame) peekP forwardP
        else s.currFrame := by
  rw [Soundfile.read]
  by_cases hchannel : file.channels ≤ channel
  · rw [if_pos (.inr hchannel), if_neg (Nat.not_lt.mpr hchannel)]
    exact ⟨(File.value_of_channels_le hchannel _).symm, h, rfl⟩
  have hlt : channel < file.channels := Nat.lt_of_not_le hchannel
  obtain ⟨hinside, houtside⟩ := hmeets hlt
  rw [if_neg (by simp [h.openP, hchannel]), if_pos hlt]
  set f := frame.getD s.currFrame with hf
  by_cases hend : file.frames ≤ f
  · simp only [if_pos hend]
    rw [File.move_of_le hend (houtside hend)]
    refine ⟨(File.value_of_le hend _).symm, ?_⟩
    by_cases hsame : f = s.currFrame
    · rw [if_pos hsame]
      exact ⟨h, Nat.le_antisymm h.currFrame_le (hsame ▸ hend)⟩
    · rw [if_neg hsame]
      exact ⟨⟨h.openP, h.sf, h.sfPosition_le, le_rfl, h.frames_le, h.frames_le_max, h.bufferEnd,
        h.whole, h.cells, h.offset, h.index_le, fun hcurr => absurd hcurr (lt_irrefl _)⟩, rfl⟩
  · have hframe : f < file.frames := Nat.lt_of_not_le hend
    obtain ⟨hrewind, hbackward⟩ := hinside hframe
    obtain ⟨hmoved, hcurr⟩ := h.moveToFrame hframe hrewind
    have hnext := hmoved.readNext hmax hchannels channel fun _ => hbackward
    rw [hcurr, if_pos hlt] at hnext
    simp only [if_neg hend]
    exact hnext

theorem Invariant.call {c : Call} (hmeets : c.Meets file maxFrames s) :
    (call file maxFrames s c).1 = (file.call s.currFrame c).1 ∧
      Invariant file maxFrames (call file maxFrames s c).2 ∧
      (call file maxFrames s c).2.currFrame = (file.call s.currFrame c).2 := by
  cases c with
  | read frame channel peekP forwardP =>
    obtain ⟨hvalue, hinv, hcurr⟩ := h.read hmax hchannels frame channel hmeets
    exact ⟨congrArg some hvalue, hinv, hcurr⟩
  | readNext channel peekP forwardP =>
    obtain ⟨hvalue, hinv, hcurr⟩ := h.readNext hmax hchannels channel hmeets
    exact ⟨congrArg some hvalue, hinv, hcurr⟩
  | setPosition pos =>
    refine ⟨rfl, ?_⟩
    by_cases hpos : pos ≤ file.frames
    · refine ⟨h.setPosition hpos, ?_⟩
      show (Soundfile.setPosition file s pos).currFrame = if pos ≤ file.frames then pos else _
      rw [setPosition_of_le hpos, if_pos hpos]
    · have hsame := setPosition_of_lt (s := s) (Nat.lt_of_not_le hpos)
      show Invariant file maxFrames (Soundfile.setPosition file s pos) ∧
        (Soundfile.setPosition file s pos).currFrame = if pos ≤ file.frames then pos else _
      rw [hsame, if_neg hpos]
      exact ⟨h, rfl⟩

end

theorem calls_cons (s : Stream α) (c : Call) (cs : List Call) :
    calls file maxFrames s (c :: cs) =
      ((call file maxFrames s c).1 :: (calls file maxFrames (call file maxFrames s c).2 cs).1,
        (calls file maxFrames (call file maxFrames s c).2 cs).2) := rfl

theorem File.calls_cons (currFrame : ℕ) (c : Call) (cs : List Call) :
    file.calls currFrame (c :: cs) =
      ((file.call currFrame c).1 :: (file.calls (file.call currFrame c).2 cs).1,
        (file.calls (file.call currFrame c).2 cs).2) := rfl

theorem Invariant.calls (h : Invariant file maxFrames s) (hmax : 0 < maxFrames)
    (hchannels : 0 < file.channels) {cs : List Call} (hmeets : CallsMeet file maxFrames s cs) :
    (calls file maxFrames s cs).1 = (file.calls s.currFrame cs).1 ∧
      (calls file maxFrames s cs).2.currFrame = (file.calls s.currFrame cs).2 := by
  induction cs generalizing s with
  | nil => exact ⟨rfl, rfl⟩
  | cons c cs ih =>
    obtain ⟨hvalue, hinv, hcurr⟩ := h.call hmax hchannels hmeets.1
    obtain ⟨hvalues, hlast⟩ := ih hinv hmeets.2
    rw [hcurr] at hvalues hlast
    rw [calls_cons, File.calls_cons, hvalue, hvalues]
    exact ⟨rfl, hlast⟩

/-- The values of the calls on a new stream are the ones of the array. -/
theorem calls_eq (file : File α) (hchannels : 0 < file.channels) (hmax : 0 < maxFrames)
    (buffer : Cells α) {cs : List Call}
    (hmeets : CallsMeet file maxFrames (newStream buffer) cs) :
    (calls file maxFrames (newStream buffer) cs).1 = (file.calls 0 cs).1 ∧
      (calls file maxFrames (newStream buffer) cs).2.currFrame = (file.calls 0 cs).2 :=
  (newStream_invariant file maxFrames buffer).calls hmax hchannels hmeets

end Runs

/-- A mono file whose values are the numbers of the frames. -/
def ramp (frames : ℕ) : File ℕ := ⟨frames, 1, fun frame _ => frame⟩

theorem calls_eq_ramp : (calls (ramp 9) 4 (newStream fun _ => 0)
    [.read (some 2) 0 false true, .readNext 0 false false]).1 = [some 2, some 3] := by
  have hread : Call.Meets (ramp 9) 4 (newStream fun _ => 0) (.read (some 2) 0 false true) :=
    fun _ => ⟨fun _ => ⟨fun h => absurd h (by decide), fun h => nomatch h⟩,
      fun h => absurd h (by decide)⟩
  have hnext : Call.Meets (ramp 9) 4
      (call (ramp 9) 4 (newStream fun _ => 0) (.read (some 2) 0 false true)).2
      (.readNext 0 false false) :=
    fun _ _ => .inr ⟨by decide, .inr (by decide), by decide, by decide⟩
  have hmeets : CallsMeet (ramp 9) 4 (newStream fun _ => 0)
      [.read (some 2) 0 false true, .readNext 0 false false] := ⟨hread, hnext, trivial⟩
  exact (calls_eq (ramp 9) (by decide) (by decide) (fun _ => 0) hmeets).1

def rewindCalls : List Call :=
  [.read (some 0) 0 true true, .read (some 8191) 0 false true, .readNext 0 false true,
    .readNext 0 false true, .read (some 1) 0 true true]

/-- The frame 1 is looked for in the buffer, which starts at the frame 8192. -/
theorem rewindCalls_ramp :
    (calls (ramp 8200) 8192 (newStream fun _ => 0) rewindCalls).1 =
        [some 0, some 8191, some 8192, some 8193, some 8193] ∧
      ((ramp 8200).calls 0 rewindCalls).1 =
        [some 0, some 8191, some 8192, some 8193, some 1] := by
  decide +kernel

end Incudine.Soundfile

import Incudine.MidifileSession

/-!
# The events of an input stream

What one call of `read-event` finds, and when it signals an error instead.
-/

namespace Incudine.Midifile

open Octets Signals

theorem not_lt_octet {b : Octet} {n : Octet} (h : n.toNat ≤ b.toNat) : ¬ b < n :=
  fun hlt => absurd (UInt8.lt_iff_toNat_lt.mp hlt) (Nat.not_lt.mpr h)

theorem onSource_ok {α : Type} {x : Source α} {mf : InputStream} {a : α} {rest : List Octet}
    (h : x mf.fdStream = .ok a rest) : onSource x mf = .ok a { mf with fdStream := rest } := by
  rw [onSource, h]

variable {octet : Octet} {octets : List Octet}

theorem readByte_cons (mf : InputStream) (h : mf.fdStream = octet :: octets) :
    onSource readByte mf = .ok octet { mf with fdStream := octets } := by
  rw [onSource, h]
  rfl

theorem nextInputTrack_last {mf : InputStream}
    (h : ¬ (0 < mf.format ∧ mf.currentTrack < mf.numberOfTracks - 1)) :
    nextInputTrack mf = .ok none mf := by
  rw [nextInputTrack, get_bind, if_neg h, pure_apply]

theorem shift_add (v : ℕ) (b : Octet) : v <<< 7 + (b.toNat &&& 0x7f) = v * 0x80 + b.toNat % 0x80 := by
  rw [Nat.shiftLeft_eq, Nat.and_two_pow_sub_one_eq_mod b.toNat 7]

theorem quantityError_fails {α : Type} (bytes : ℕ) (mf : InputStream) :
    Fails (quantityError bytes : Input α) mf := by
  rw [Fails, quantityError, get_bind]
  split
  · rename_i hle
    rw [updateByteCounters, bind_assoc]
    simp only [get_bind, bind_assoc, modify_bind]
    rw [bind_ok (check_pos hle _ _)]
    exact ⟨_, _, rfl⟩
  · exact ⟨_, _, rfl⟩

variable {left : ℕ}

theorem quantityLoop_ok {rest : List Octet} (h : Delimited octets) {bytes v : ℕ}
    (hleft : octets.length ≤ left + 1) (mf : InputStream) (hfile : mf.fdStream = octets ++ rest) :
    quantityLoop left bytes v mf =
      .ok (extend v octets, bytes + octets.length - 1) { mf with fdStream := rest } := by
  induction octets generalizing left bytes v mf with
  | nil => exact h.elim
  | cons b bs ih =>
    cases bs with
    | nil =>
      have hlast : b < 0x80 := UInt8.lt_iff_toNat_lt.mpr h
      rw [quantityLoop, bind_ok (readByte_cons mf hfile)]
      simp only [if_pos hlast, shift_add]
      rfl
    | cons c bs =>
      obtain ⟨hhigh, hrest⟩ := h
      have hmore : ¬ b < 0x80 := not_lt_octet hhigh
      obtain ⟨left, rfl⟩ : ∃ k, left = k + 1 := ⟨left - 1, by
        simp only [List.length_cons] at hleft
        omega⟩
      rw [quantityLoop, bind_ok (readByte_cons mf hfile)]
      simp only [if_neg hmore, shift_add]
      rw [ih hrest (by simpa using hleft) _ rfl]
      simp only [extend_cons, List.length_cons, EStateM.Result.ok.injEq, Prod.mk.injEq, true_and,
        and_true]
      omega

theorem quantityLoop_fails {rest : List Octet} (h : Delimited octets) {bytes v : ℕ}
    (hleft : left + 1 < octets.length) (mf : InputStream) (hfile : mf.fdStream = octets ++ rest) :
    Fails (quantityLoop left bytes v) mf := by
  induction octets generalizing left bytes v mf with
  | nil => exact h.elim
  | cons b bs ih =>
    cases bs with
    | nil => simp at hleft
    | cons c bs =>
      obtain ⟨hhigh, hrest⟩ := h
      have hmore : ¬ b < 0x80 := not_lt_octet hhigh
      rw [quantityLoop.eq_def]
      refine Fails.bind_of_ok (readByte_cons mf hfile) ?_
      simp only [if_neg hmore]
      cases left with
      | zero => exact quantityError_fails bytes _
      | succ left => exact ih hrest (by simpa using hleft) _ rfl

structure InputStream.TempoOk (mf : InputStream) : Prop where
  index : mf.tempoIndex < mf.tempoMap.length
  next : 0 < mf.nextTempoTime → mf.tempoIndex + 1 < mf.tempoMap.length

theorem InputStream.TempoOk.update (mf : InputStream) {i : ℕ} (h : i < mf.tempoMap.length) :
    ({ mf with tempoIndex := i }.updateNextTempoTime (i + 1)).TempoOk where
  index := h
  next := by
    intro hnext
    by_contra hle
    simp only [InputStream.updateNextTempoTime] at hnext hle
    rw [List.getElem?_eq_none (by omega)] at hnext
    exact absurd hnext (Nat.lt_irrefl 0)

/-- The fields that only a new track changes, and the buffer. -/
structure InputStream.SameTrack (mf mf' : InputStream) : Prop where
  format : mf'.format = mf.format
  numberOfTracks : mf'.numberOfTracks = mf.numberOfTracks
  currentTrack : mf'.currentTrack = mf.currentTrack
  ppqn : mf'.ppqn = mf.ppqn

theorem InputStream.SameTrack.trans {mf mf' mf'' : InputStream} (h : mf.SameTrack mf')
    (h' : mf'.SameTrack mf'') : mf.SameTrack mf'' where
  format := h'.format.trans h.format
  numberOfTracks := h'.numberOfTracks.trans h.numberOfTracks
  currentTrack := h'.currentTrack.trans h.currentTrack
  ppqn := h'.ppqn.trans h.ppqn

def InputStream.waited (mf : InputStream) (deltaTime : ℕ) : InputStream :=
  if 0 < mf.nextTempoTime ∧ mf.nextTempoTime < mf.trackTime + deltaTime then
    { mf with
      trackTime := mf.trackTime + deltaTime
      tempoIndex := mf.tempoIndex + 1 }.updateNextTempoTime (mf.tempoIndex + 2)
  else { mf with trackTime := mf.trackTime + deltaTime }

theorem advanceTrackTime_ok {mf : InputStream} {deltaTime : ℕ}
    (htime : mf.trackTime + deltaTime < fixnumBound) :
    advanceTrackTime deltaTime mf = .ok ⟨⟩ (mf.waited deltaTime) := by
  rw [advanceTrackTime, get_bind, bind_ok (check_pos htime _ mf), modify_bind, get_bind,
    InputStream.waited]
  split
  · rfl
  · rfl

theorem InputStream.waited_eq (mf : InputStream) (deltaTime : ℕ) :
    ∃ index next, mf.waited deltaTime = { mf with
        trackTime := mf.trackTime + deltaTime
        tempoIndex := index
        nextTempoTime := next } := by
  rw [InputStream.waited]
  split
  · exact ⟨_, _, rfl⟩
  · exact ⟨_, _, rfl⟩

theorem InputStream.TempoOk.waited {mf : InputStream} (h : mf.TempoOk) (deltaTime : ℕ) :
    (mf.waited deltaTime).TempoOk := by
  rw [InputStream.waited]
  split
  · rename_i hnext
    exact InputStream.TempoOk.update { mf with trackTime := mf.trackTime + deltaTime }
      (h.next hnext.1)
  · exact ⟨h.index, h.next⟩

theorem updateByteCounters_ok {mf : InputStream} {bytes : ℕ} (h : bytes ≤ mf.trackBytesRemain) :
    updateByteCounters bytes mf = .ok ⟨⟩ { mf with
      position := mf.position + bytes
      trackBytesRemain := mf.trackBytesRemain - bytes } := by
  rw [updateByteCounters, get_bind, modify_bind, bind_ok (check_pos h _ _), modify_apply]

def InputStream.delayed (mf : InputStream) (deltaTime bytes : ℕ) (rest : List Octet) :
    InputStream :=
  { (if 0 < deltaTime then mf.waited deltaTime else mf) with
    fdStream := rest
    position := mf.position + bytes
    trackBytesRemain := mf.trackBytesRemain - bytes
    lastDeltaTime := deltaTime }

def InputStream.counted (mf : InputStream) (bytes : ℕ) (rest : List Octet) : InputStream :=
  { mf with
    fdStream := rest
    position := mf.position + bytes
    trackBytesRemain := mf.trackBytesRemain - bytes }

section DeltaTime

variable {mf : InputStream} {rest : List Octet} (h : Delimited octets)
  (hfile : mf.fdStream = octets ++ rest) (hfive : octets.length ≤ 5)
  (hremain : octets.length < mf.trackBytesRemain)
include h hfile hfive hremain

theorem readDeltaTime_eq :
    readDeltaTime mf = (do
      if 0 < quantity octets then advanceTrackTime (quantity octets)
      modify fun mf => { mf with lastDeltaTime := quantity octets }
      return some (quantity octets) : Input (Option ℕ)) (mf.counted octets.length rest) := by
  have hpos : 0 < mf.trackBytesRemain := by omega
  have hcount : 1 + octets.length - 1 = octets.length := by omega
  have hquantity : quantityLoop 4 1 0 mf =
      .ok (quantity octets, octets.length) { mf with fdStream := rest } := by
    rw [quantityLoop_ok h hfive mf hfile, hcount]
    rfl
  rw [readDeltaTime, get_bind, if_pos hpos, readVariableLengthQuantity, bind_ok hquantity]
  simp only [get_bind, if_pos hremain]
  rw [bind_ok (updateByteCounters_ok (by exact hremain.le)), InputStream.counted]

theorem readDeltaTime_ok (htime : 0 < quantity octets →
      mf.trackTime + quantity octets < fixnumBound) :
    readDeltaTime mf =
      .ok (some (quantity octets)) (mf.delayed (quantity octets) octets.length rest) := by
  rw [readDeltaTime_eq h hfile hfive hremain, InputStream.counted, InputStream.delayed]
  by_cases hdelta : 0 < quantity octets
  · rw [if_pos hdelta, if_pos hdelta, bind_ok (advanceTrackTime_ok (by exact htime hdelta)),
      InputStream.waited, InputStream.waited]
    split
    · rfl
    · rfl
  · rw [if_neg hdelta, if_neg hdelta]
    rfl

theorem readDeltaTime_error (hdelta : 0 < quantity octets)
    (htime : fixnumBound ≤ mf.trackTime + quantity octets) :
    readDeltaTime mf = .error .typeError (mf.counted octets.length rest) := by
  rw [readDeltaTime_eq h hfile hfive hremain, if_pos hdelta]
  refine bind_error ?_ _
  rw [advanceTrackTime, get_bind]
  exact bind_error (check_neg (Nat.not_lt.mpr htime) _ _) _

end DeltaTime

/-- A delta time changes the time and the tempo, and the counters of the octets. -/
structure InputStream.Delayed (mf mf' : InputStream) (deltaTime bytes : ℕ) (rest : List Octet) :
    Prop where
  same : mf.SameTrack mf'
  fdStream : mf'.fdStream = rest
  position : mf'.position = mf.position + bytes
  remain : mf'.trackBytesRemain = mf.trackBytesRemain - bytes
  time : mf'.trackTime = mf.trackTime + deltaTime
  buffer : mf'.buffer = mf.buffer
  length : mf'.lastMessageLength = mf.lastMessageLength
  map : mf'.tempoMap = mf.tempoMap

theorem InputStream.delayed_spec (mf : InputStream) (deltaTime bytes : ℕ) (rest : List Octet) :
    mf.Delayed (mf.delayed deltaTime bytes rest) deltaTime bytes rest := by
  rw [InputStream.delayed]
  by_cases hdelta : 0 < deltaTime
  · obtain ⟨index, next, hwaited⟩ := mf.waited_eq deltaTime
    rw [if_pos hdelta, hwaited]
    exact ⟨⟨rfl, rfl, rfl, rfl⟩, rfl, rfl, rfl, rfl, rfl, rfl, rfl⟩
  · obtain rfl : deltaTime = 0 := by omega
    exact ⟨⟨rfl, rfl, rfl, rfl⟩, rfl, rfl, rfl, rfl, rfl, rfl, rfl⟩

theorem InputStream.TempoOk.delayed {mf : InputStream} (h : mf.TempoOk) (deltaTime bytes : ℕ)
    (rest : List Octet) : (mf.delayed deltaTime bytes rest).TempoOk := by
  rw [InputStream.delayed]
  by_cases hdelta : 0 < deltaTime
  · rw [if_pos hdelta]
    exact ⟨(h.waited deltaTime).index, (h.waited deltaTime).next⟩
  · rw [if_neg hdelta]
    exact ⟨h.index, h.next⟩

theorem readDeltaTime_fails {mf : InputStream} {rest : List Octet} (h : Delimited octets)
    (hfile : mf.fdStream = octets ++ rest) (hfive : 5 < octets.length)
    (hremain : 0 < mf.trackBytesRemain) : Fails readDeltaTime mf := by
  obtain ⟨e, s, hfails⟩ := quantityLoop_fails h hfive mf hfile
  refine ⟨e, s, ?_⟩
  rw [readDeltaTime, get_bind, if_pos hremain, readVariableLengthQuantity, bind_error hfails]

theorem storeOctet_ok {mf : InputStream} {i : ℕ} (h : i < mf.buffer.length) (octet : Octet) :
    storeOctet i octet mf = .ok ⟨⟩ { mf with buffer := mf.buffer.set i octet } := by
  rw [storeOctet, get_bind, bind_ok (check_pos h _ mf), modify_apply]

theorem bufferOctet_ok {mf : InputStream} {i : ℕ} (h : mf.buffer[i]? = some octet) :
    bufferOctet i mf = .ok octet mf := by
  rw [bufferOctet, get_bind, h]
  rfl

theorem readIntoMessageBuffer_ok (mf : InputStream) {start n : ℕ}
    (h : start + n ≤ mf.buffer.length) :
    readIntoMessageBuffer start (start + n) mf =
      .ok (start + (mf.fdStream.take n).length) { mf with
        fdStream := mf.fdStream.drop n
        buffer := splice mf.buffer start (mf.fdStream.take n) } := by
  rw [readIntoMessageBuffer, get_bind, bind_ok (check_pos ⟨Nat.le_add_right _ _, h⟩ _ mf),
    Nat.add_sub_cancel_left, modify_bind, pure_apply, List.length_take, ← List.drop_eq_drop_min]

variable {status : Octet}

theorem readStatusByte_status {mf : InputStream} {rest : List Octet}
    (hfile : mf.fdStream = status :: rest) (hstatus : 0x80 ≤ status.toNat)
    (hbuffer : 0 < mf.buffer.length) :
    readStatusByte mf = .ok status { mf with
      fdStream := rest
      buffer := mf.buffer.set 0 status } := by
  have hindex : (status.toNat >>> 7) ^^^ 1 = 0 := by
    have hlt := status.toNat_lt
    have hone : status.toNat >>> 7 = 1 := by
      rw [Nat.shiftRight_eq_div_pow]
      omega
    rw [hone]
    rfl
  rw [readStatusByte, bind_ok (readByte_cons mf hfile), hindex,
    bind_ok (storeOctet_ok (by exact hbuffer) status), pure_apply]

theorem readStatusByte_data {mf : InputStream} {data : Octet} {rest : List Octet}
    (hfile : mf.fdStream = data :: rest) (hdata : data.toNat < 0x80)
    (hbuffer : 1 < mf.buffer.length) :
    readStatusByte mf = .ok data { mf with
      fdStream := rest
      buffer := mf.buffer.set 1 data } := by
  have hindex : (data.toNat >>> 7) ^^^ 1 = 1 := by
    have hzero : data.toNat >>> 7 = 0 := by
      rw [Nat.shiftRight_eq_div_pow]
      omega
    rw [hzero]
    rfl
  rw [readStatusByte, bind_ok (readByte_cons mf hfile), hindex,
    bind_ok (storeOctet_ok (by exact hbuffer) data), pure_apply]

theorem statusIndex_eq (status : Octet) : statusIndex status = status.toNat / 16 - 7 := by
  rw [statusIndex, Nat.shiftRight_eq_div_pow]

theorem metaOrSysexLoop_ok {rest : List Octet} (h : Delimited octets) {bufferStart i len : ℕ}
    (hleft : octets.length ≤ left) (mf : InputStream)
    (hbuffer : i + octets.length ≤ mf.buffer.length) (hfile : mf.fdStream = octets ++ rest) :
    metaOrSysexLoop bufferStart left i len mf =
      .ok (i + octets.length, i + octets.length + extend len octets) { mf with
        fdStream := rest
        buffer := splice mf.buffer i octets } := by
  induction octets generalizing left i len mf with
  | nil => exact h.elim
  | cons b bs ih =>
    obtain ⟨left, rfl⟩ : ∃ k, left = k + 1 := ⟨left - 1, by
      simp only [List.length_cons] at hleft
      omega⟩
    have hi : i < mf.buffer.length := by
      simp only [List.length_cons] at hbuffer
      omega
    rw [metaOrSysexLoop, bind_ok (readByte_cons mf hfile)]
    simp only [shift_add]
    rw [bind_ok (storeOctet_ok (by exact hi) b)]
    cases bs with
    | nil =>
      have hlast : b < 0x80 := UInt8.lt_iff_toNat_lt.mpr h
      rw [if_pos hlast, pure_apply, set_eq_splice hi]
      rfl
    | cons c bs =>
      obtain ⟨hhigh, hrest⟩ := h
      have hmore : ¬ b < 0x80 := not_lt_octet hhigh
      rw [if_neg hmore, ih hrest (by simpa using hleft) _ (by
        simp only [List.length_set, List.length_cons] at hbuffer ⊢
        omega) rfl]
      simp only [splice_set hi, extend_cons, List.length_cons, Nat.add_assoc, Nat.add_comm 1]

theorem metaOrSysexLoop_fails {rest : List Octet} (h : Delimited octets) {bufferStart i len : ℕ}
    (hleft : left < octets.length) (mf : InputStream) (hbuffer : i + left ≤ mf.buffer.length)
    (hfile : mf.fdStream = octets ++ rest) : Fails (metaOrSysexLoop bufferStart left i len) mf := by
  induction octets generalizing left i len mf with
  | nil => exact h.elim
  | cons b bs ih =>
    rw [metaOrSysexLoop.eq_def]
    refine Fails.bind_of_ok (readByte_cons mf hfile) ?_
    cases left with
    | zero => exact quantityError_fails (i - bufferStart) _
    | succ left =>
      have hi : i < mf.buffer.length := by omega
      refine Fails.bind_of_ok (storeOctet_ok (by exact hi) b) ?_
      cases bs with
      | nil => simp at hleft
      | cons c bs =>
        obtain ⟨hhigh, hrest⟩ := h
        have hmore : ¬ b < 0x80 := not_lt_octet hhigh
        rw [if_neg hmore]
        exact ih hrest (by simpa using hleft) _ (by
          simp only [List.length_set]
          omega) rfl

variable {length : List Octet}

/-- The data are read up to the end of the file. -/
theorem readMetaOrSysex_take (mf : InputStream) (start : ℕ) {octets : List Octet}
    (h : Delimited length) (hfour : length.length ≤ 4) (hbuffer : start + 4 ≤ mf.buffer.length)
    (hfile : mf.fdStream = length ++ octets) :
    ∃ buffer, readMetaOrSysex start mf =
        .ok (start + (length ++ octets.take (quantity length)).length)
          { mf with fdStream := octets.drop (quantity length), buffer := buffer } ∧
      buffer.take (start + (length ++ octets.take (quantity length)).length) =
        mf.buffer.take start ++ (length ++ octets.take (quantity length)) ∧
      mf.buffer.length ≤ buffer.length := by
  have hroom : start + length.length ≤ mf.buffer.length := by omega
  have hlength := length_splice hroom
  rw [readMetaOrSysex, metaOrSysexEnd, bind_ok (metaOrSysexLoop_ok h hfour mf hroom hfile)]
  simp only [modify_bind, hlength]
  set grown := splice mf.buffer start length ++
    List.replicate (start + length.length + extend 0 length - mf.buffer.length) 0 with hgrown
  have hlen : start + length.length + quantity length ≤ grown.length := by
    rw [quantity, hgrown, List.length_append, List.length_replicate, hlength]
    omega
  rw [readIntoMessageBuffer_ok _ (by exact hlen), List.length_append, ← Nat.add_assoc]
  refine ⟨splice grown (start + length.length) (octets.take (quantity length)), rfl, ?_, ?_⟩
  · rw [take_splice ((Nat.le_add_right _ _).trans hlen), hgrown,
      List.take_append_of_le_length (by omega), take_splice (by omega), List.append_assoc]
  · rw [length_splice (by rw [List.length_take]; omega), hgrown, List.length_append, hlength]
    exact Nat.le_add_right _ _

theorem readMetaOrSysex_ok (mf : InputStream) (start : ℕ) {data rest : List Octet}
    (h : Delimited length) (hquantity : quantity length = data.length) (hfour : length.length ≤ 4)
    (hbuffer : start + 4 ≤ mf.buffer.length) (hfile : mf.fdStream = length ++ (data ++ rest)) :
    ∃ buffer, readMetaOrSysex start mf = .ok (start + (length ++ data).length)
        { mf with fdStream := rest, buffer := buffer } ∧
      buffer.take (start + (length ++ data).length) = mf.buffer.take start ++ (length ++ data) ∧
      mf.buffer.length ≤ buffer.length := by
  have hread := readMetaOrSysex_take mf start h hfour hbuffer hfile
  rwa [hquantity, List.take_left, List.drop_left] at hread

theorem readMetaOrSysex_fails (mf : InputStream) (start : ℕ) {rest : List Octet}
    (h : Delimited length) (hfour : 4 < length.length) (hbuffer : start + 4 ≤ mf.buffer.length)
    (hfile : mf.fdStream = length ++ rest) : Fails (readMetaOrSysex start) mf :=
  Fails.bind (metaOrSysexLoop_fails h hfour mf hbuffer hfile) _

theorem currentTempo_ok {mf : InputStream} (h : mf.tempoIndex < mf.tempoMap.length) :
    currentTempo mf = .ok mf.tempoMap[mf.tempoIndex] mf := by
  rw [currentTempo, get_bind, List.getElem?_eq_getElem h]
  rfl

theorem eventSeconds_ok {mf : InputStream} (hppqn : 0 < mf.ppqn)
    (h : mf.tempoIndex < mf.tempoMap.length) :
    eventSeconds mf = .ok (mf.tempoMap[mf.tempoIndex].seconds +
      mf.tempoMap[mf.tempoIndex].microsecondsPerQuarterNote * (1 / 1000000) *
        (((mf.trackTime : ℚ) - mf.tempoMap[mf.tempoIndex].time) / mf.ppqn)) mf := by
  rw [eventSeconds, get_bind, bind_ok (check_pos hppqn _ mf), bind_ok (currentTempo_ok h),
    pure_apply]

theorem updateTempoMap_ok (mf : InputStream) (htempo : mf.TempoOk)
    (hbuffer : 8 ≤ mf.buffer.length) (hppqn : 0 < mf.ppqn) :
    ∃ tempoMap index, updateTempoMap mf =
        .ok ⟨⟩ { mf with tempoMap := tempoMap, tempoIndex := index } ∧
      { mf with tempoMap := tempoMap, tempoIndex := index }.TempoOk := by
  have hoctet (i : ℕ) (hi : i < mf.buffer.length) : mf.buffer[i]? = some mf.buffer[i] :=
    List.getElem?_eq_getElem hi
  rw [updateTempoMap, bind_ok (bufferOctet_ok (hoctet 3 (by omega))),
    bind_ok (bufferOctet_ok (hoctet 4 (by omega))), bind_ok (bufferOctet_ok (hoctet 5 (by omega))),
    bind_ok (currentTempo_ok htempo.index), get_bind]
  split
  · exact ⟨_, _, rfl, htempo⟩
  · rename_i hdiscard
    split
    · refine ⟨_, _, rfl, ?_, ?_⟩
      · rw [List.length_set]
        exact htempo.index
      · intro hnext
        rw [List.length_set]
        exact htempo.next hnext
    · rw [bind_ok (eventSeconds_ok hppqn htempo.index)]
      refine ⟨_, _, rfl, ?_, ?_⟩
      · simp
      · intro hnext
        exact absurd (Or.inl hnext) hdiscard

/-- The octets of the length of a message that are followed by another one. -/
def lengthContinued (message : List Octet) : List Octet :=
  (if message.headD 0 = 0xff then message.drop 2 else message.drop 1).takeWhile (0x80 ≤ ·.toNat)

/-- The length of a meta event or of a system exclusive message takes at most four octets. -/
def ShortLength (message : List Octet) : Prop :=
  0xf0 ≤ (message.headD 0).toNat → (lengthContinued message).length < 4

theorem length_takeWhile_delimited (h : Delimited octets) (rest : List Octet) :
    ((octets ++ rest).takeWhile (0x80 ≤ ·.toNat)).length + 1 = octets.length := by
  induction octets with
  | nil => exact h.elim
  | cons b bs ih =>
    cases bs with
    | nil =>
      have hlast : b.toNat < 0x80 := h
      simp [Nat.not_le.mpr hlast]
    | cons c bs =>
      obtain ⟨hhigh, hrest⟩ := h
      rw [List.cons_append, List.takeWhile_cons_of_pos (by simpa using hhigh), List.length_cons,
        ih hrest]
      rfl

theorem continueEvent_two (hlow : 0xc0 ≤ status.toNat) (hhigh : status.toNat ≤ 0xdf) :
    continueEvent (statusIndex status) = continueMidiEventTwoBytes := by
  have hindex : statusIndex status = 5 ∨ statusIndex status = 6 := by
    rw [statusIndex_eq]
    omega
  rcases hindex with h | h
  · rw [h]
    rfl
  · rw [h]
    rfl

theorem continueEvent_three
    (h : 0x80 ≤ status.toNat ∧ status.toNat < 0xc0 ∨ 0xe0 ≤ status.toNat ∧ status.toNat < 0xf0) :
    continueEvent (statusIndex status) = continueMidiEventThreeBytes := by
  have hindex : statusIndex status = 1 ∨ statusIndex status = 2 ∨ statusIndex status = 3 ∨
      statusIndex status = 4 ∨ statusIndex status = 7 := by
    rw [statusIndex_eq]
    omega
  rcases hindex with h | h | h | h | h
  all_goals
    rw [h]
    rfl

theorem continueEvent_meta (h : 0xf0 ≤ status.toNat) :
    continueEvent (statusIndex status) = continueMetaOrSysex := by
  have hlt := status.toNat_lt
  have hindex : statusIndex status = 8 := by
    rw [statusIndex_eq]
    omega
  rw [hindex]
  rfl

variable {l : List Octet}

theorem exists_three (h : 8 ≤ l.length) :
    ∃ a b c tail, l = a :: b :: c :: tail ∧ 5 ≤ tail.length := by
  match l with
  | a :: b :: c :: tail => exact ⟨a, b, c, tail, rfl, by simpa using h⟩

theorem endOfTrackP_of_buffer {mf : InputStream} {tail : List Octet}
    (h : mf.buffer = 0xff :: 0x2f :: tail) : mf.endOfTrackP = true := by
  rw [InputStream.endOfTrackP, InputStream.metaEventP, h]
  rfl

theorem endOfTrackP_of_stored {mf : InputStream} {buffer : List Octet} (hlength : 8 ≤ buffer.length)
    (hbuffer : mf.buffer = ((buffer.set 0 0xff).set 1 0x2f).set 2 octet) :
    mf.endOfTrackP = true := by
  obtain ⟨b0, b1, b2, tail, hb, -⟩ := exists_three hlength
  rw [hb] at hbuffer
  exact endOfTrackP_of_buffer hbuffer

theorem reads_two {mf : InputStream} {data : Octet} {rest : List Octet} (hlow : 0xc0 ≤ status.toNat)
    (hhigh : status.toNat ≤ 0xdf) (hbuffer : 8 ≤ mf.buffer.length)
    (hstatus : mf.buffer[0]? = some status) (hfile : mf.fdStream = data :: rest) :
    ∃ buffer, continueEvent (statusIndex status) mf =
        .ok 2 { mf with fdStream := rest, buffer := buffer } ∧
      buffer.take 2 = [status, data] ∧ 8 ≤ buffer.length := by
  obtain ⟨b0, b1, b2, tail, hb, htail⟩ := exists_three hbuffer
  have hb0 : b0 = status := by simpa [hb] using hstatus
  have hone : 1 < mf.buffer.length := by omega
  refine ⟨mf.buffer.set 1 data, ?_, ?_, ?_⟩
  · rw [continueEvent_two hlow hhigh, continueMidiEventTwoBytes, bind_ok (readByte_cons mf hfile),
      bind_ok (storeOctet_ok (by exact hone) data), pure_apply]
  · rw [hb, hb0]
    rfl
  · rw [List.length_set]
    exact hbuffer

theorem reads_three {mf : InputStream} {data1 data2 : Octet} {rest : List Octet}
    (h : 0x80 ≤ status.toNat ∧ status.toNat < 0xc0 ∨ 0xe0 ≤ status.toNat ∧ status.toNat < 0xf0)
    (hbuffer : 8 ≤ mf.buffer.length) (hstatus : mf.buffer[0]? = some status)
    (hfile : mf.fdStream = data1 :: data2 :: rest) :
    ∃ buffer, continueEvent (statusIndex status) mf =
        .ok 3 { mf with fdStream := rest, buffer := buffer } ∧
      buffer.take 3 = [status, data1, data2] ∧ 8 ≤ buffer.length := by
  obtain ⟨b0, b1, b2, tail, hb, htail⟩ := exists_three hbuffer
  have hb0 : b0 = status := by simpa [hb] using hstatus
  have hroom : 1 + [data1, data2].length ≤ mf.buffer.length := by
    simp only [List.length_cons, List.length_nil]
    omega
  refine ⟨splice mf.buffer 1 [data1, data2], ?_, ?_, ?_⟩
  · rw [continueEvent_three h, continueMidiEventThreeBytes]
    have hread := readIntoMessageBuffer_ok mf hroom
    rw [hfile] at hread
    exact hread
  · rw [hb, hb0]
    rfl
  · rw [length_splice hroom]
    exact hbuffer

theorem continueMetaOrSysex_meta {mf : InputStream} {type : Octet} {rest : List Octet}
    (hbuffer : 8 ≤ mf.buffer.length) (hstatus : mf.buffer[0]? = some 0xff)
    (htype : type ≠ 0x2f) (hfile : mf.fdStream = type :: rest) :
    continueMetaOrSysex mf =
      readMetaOrSysex 2 { mf with fdStream := rest, buffer := mf.buffer.set 1 type } := by
  have hone : 1 < mf.buffer.length := by omega
  have hmeta : mf.metaEventP = true := by simp [InputStream.metaEventP, hstatus]
  have hend : ({ mf with
      fdStream := rest
      buffer := mf.buffer.set 1 type } : InputStream).endOfTrackP = false := by
    simp [InputStream.endOfTrackP, List.getElem?_set_self hone, htype]
  rw [continueMetaOrSysex, get_bind, if_pos hmeta, bind_ok (readByte_cons mf hfile),
    bind_ok (storeOctet_ok (by exact hone) type), get_bind, hend]
  rfl

theorem continueMetaOrSysex_end {mf : InputStream} {rest : List Octet}
    (hbuffer : 8 ≤ mf.buffer.length) (hstatus : mf.buffer[0]? = some 0xff)
    (hfile : mf.fdStream = 0x2f :: octet :: rest) (hremain : 3 ≤ mf.trackBytesRemain) :
    continueMetaOrSysex mf = .ok 3 { mf with
      fdStream := rest
      buffer := (mf.buffer.set 1 0x2f).set 2 octet
      position := mf.position + 3
      trackBytesRemain := mf.trackBytesRemain - 3 } := by
  have hone : 1 < mf.buffer.length := by omega
  have htwo : 2 < (mf.buffer.set 1 0x2f).length := by
    rw [List.length_set]
    omega
  have hmeta : mf.metaEventP = true := by simp [InputStream.metaEventP, hstatus]
  have hend : ({ mf with
      fdStream := octet :: rest
      buffer := mf.buffer.set 1 0x2f } : InputStream).endOfTrackP = true := by
    simp [InputStream.endOfTrackP, InputStream.metaEventP, List.getElem?_set_self hone, hstatus]
  rw [continueMetaOrSysex, get_bind, if_pos hmeta, bind_ok (readByte_cons mf hfile),
    bind_ok (storeOctet_ok (by exact hone) 0x2f), get_bind, if_pos hend,
    bind_ok (readByte_cons _ rfl), bind_ok (storeOctet_ok (by exact htwo) octet),
    bind_ok (updateByteCounters_ok (by exact hremain)), pure_apply]

theorem continueMetaOrSysex_sysex {mf : InputStream} (hstatus : mf.buffer[0]? = some status)
    (hsysex : status ≠ 0xff) : continueMetaOrSysex mf = readMetaOrSysex 1 mf := by
  have hmeta : mf.metaEventP = false := by simp [InputStream.metaEventP, hstatus, hsysex]
  rw [continueMetaOrSysex, get_bind, hmeta]
  rfl

theorem take_set_two (h : 8 ≤ l.length) {first : Octet} (hfirst : l[0]? = some first)
    (octet : Octet) : (l.set 1 octet).take 2 = [first, octet] := by
  obtain ⟨b0, b1, b2, tail, rfl, -⟩ := exists_three h
  obtain rfl : b0 = first := by simpa using hfirst
  rfl

theorem take_one {first : Octet} (hfirst : l[0]? = some first) : l.take 1 = [first] := by
  cases l with
  | nil => simp at hfirst
  | cons b tail =>
    obtain rfl : b = first := by simpa using hfirst
    rfl

theorem length_lengthContinued_meta (type : Octet) (h : Delimited length) (data : List Octet) :
    (lengthContinued (0xff :: type :: (length ++ data))).length + 1 = length.length :=
  length_takeWhile_delimited h data

theorem length_lengthContinued_sysex (hstatus : status ≠ 0xff) (h : Delimited length)
    (data : List Octet) :
    (lengthContinued (status :: (length ++ data))).length + 1 = length.length := by
  rw [lengthContinued, List.headD_cons, if_neg hstatus]
  exact length_takeWhile_delimited h data

theorem sysex_ne_meta (h : status = 0xf0 ∨ status = 0xf7) : status ≠ 0xff := by
  rcases h with rfl | rfl
  · decide
  · decide

theorem reads_long {mf : InputStream} {message rest : List Octet} (h : Complete (status :: message))
    (hlong : 0xf0 ≤ status.toNat) (hbuffer : 8 ≤ mf.buffer.length)
    (hstatus : mf.buffer[0]? = some status) (hfile : mf.fdStream = message ++ rest)
    (hshort : ShortLength (status :: message)) :
    ∃ buffer, continueEvent (statusIndex status) mf =
        .ok (status :: message).length { mf with fdStream := rest, buffer := buffer } ∧
      buffer.take (status :: message).length = status :: message ∧ 8 ≤ buffer.length := by
  have hcontinued := hshort hlong
  rw [continueEvent_meta hlong]
  cases h with
  | twoBytes _ _ _ hhigh => omega
  | threeBytes _ _ _ hchannel => omega
  | metaEvent type length data htype hlength hquantity =>
    have hcount := length_lengthContinued_meta type hlength data
    have hafter : mf.fdStream = type :: (length ++ (data ++ rest)) := by rw [hfile]; simp
    have htotal : (0xff :: type :: (length ++ data)).length = 2 + (length ++ data).length :=
      Nat.add_comm _ 2
    obtain ⟨buffer, hread, htake, hle⟩ := readMetaOrSysex_ok { mf with
        fdStream := length ++ (data ++ rest)
        buffer := mf.buffer.set 1 type } 2 hlength hquantity (by omega)
      (by rw [List.length_set]; omega) rfl
    rw [take_set_two hbuffer hstatus] at htake
    rw [List.length_set] at hle
    refine ⟨buffer, ?_, ?_, by omega⟩
    · rw [continueMetaOrSysex_meta hbuffer hstatus htype hafter, hread, htotal]
    · rw [htotal, htake]
      rfl
  | sysex _ length data hsysex hlength hquantity =>
    have hne := sysex_ne_meta hsysex
    have hcount := length_lengthContinued_sysex hne hlength data
    have hafter : mf.fdStream = length ++ (data ++ rest) := by rw [hfile, List.append_assoc]
    have htotal : (status :: (length ++ data)).length = 1 + (length ++ data).length :=
      Nat.add_comm _ 1
    obtain ⟨buffer, hread, htake, hle⟩ := readMetaOrSysex_ok mf 1 hlength hquantity (by omega)
      (by omega) hafter
    rw [take_one hstatus] at htake
    refine ⟨buffer, ?_, ?_, by omega⟩
    · rw [continueMetaOrSysex_sysex hstatus hne, hread, htotal]
    · rw [htotal, htake]
      rfl

theorem reads_long_fails {mf : InputStream} {message rest : List Octet}
    (h : Complete (status :: message)) (hbuffer : 8 ≤ mf.buffer.length)
    (hstatus : mf.buffer[0]? = some status) (hfile : mf.fdStream = message ++ rest)
    (hshort : ¬ ShortLength (status :: message)) :
    Fails (continueEvent (statusIndex status)) mf := by
  rw [ShortLength, Classical.not_imp, List.headD_cons] at hshort
  obtain ⟨hlong, hcontinued⟩ := hshort
  rw [continueEvent_meta hlong]
  cases h with
  | twoBytes _ _ _ hhigh => omega
  | threeBytes _ _ _ hchannel => omega
  | metaEvent type length data htype hlength hquantity =>
    have hcount := length_lengthContinued_meta type hlength data
    have hafter : mf.fdStream = type :: (length ++ (data ++ rest)) := by rw [hfile]; simp
    rw [Fails, continueMetaOrSysex_meta hbuffer hstatus htype hafter]
    exact readMetaOrSysex_fails _ 2 hlength (by omega) (by rw [List.length_set]; omega) rfl
  | sysex _ length data hsysex hlength hquantity =>
    have hne := sysex_ne_meta hsysex
    have hcount := length_lengthContinued_sysex hne hlength data
    have hafter : mf.fdStream = length ++ (data ++ rest) := by rw [hfile, List.append_assoc]
    rw [Fails, continueMetaOrSysex_sysex hstatus hne]
    exact readMetaOrSysex_fails mf 1 hlength (by omega) (by omega) hafter

theorem reads_body (mf : InputStream) {message rest : List Octet} (h : Complete (status :: message))
    (hbuffer : 8 ≤ mf.buffer.length) (hstatus : mf.buffer[0]? = some status)
    (hfile : mf.fdStream = message ++ rest) (hshort : ShortLength (status :: message)) :
    ∃ buffer, continueEvent (statusIndex status) mf =
        .ok (status :: message).length { mf with fdStream := rest, buffer := buffer } ∧
      buffer.take (status :: message).length = status :: message ∧ 8 ≤ buffer.length := by
  by_cases hlong : 0xf0 ≤ status.toNat
  · exact reads_long h hlong hbuffer hstatus hfile hshort
  · cases h with
    | twoBytes _ data hlow hhigh _ => exact reads_two hlow hhigh hbuffer hstatus hfile
    | threeBytes _ data1 data2 hchannel _ _ => exact reads_three hchannel hbuffer hstatus hfile
    | metaEvent => exact absurd (by decide) hlong
    | sysex _ _ _ hsysex =>
      rcases hsysex with rfl | rfl
      · exact absurd (by decide) hlong
      · exact absurd (by decide) hlong

def channelLength (status : Octet) : ℕ :=
  if status < 0xc0 ∨ 0xdf < status then 3 else 2

theorem Complete.status_ge {message : List Octet} (h : Complete (status :: message)) :
    0x80 ≤ status.toNat := by
  cases h with
  | twoBytes => omega
  | threeBytes => omega
  | metaEvent => decide
  | sysex _ _ _ hsysex =>
    rcases hsysex with rfl | rfl
    · decide
    · decide

theorem Complete.length_channel {message : List Octet} (h : Complete (status :: message))
    (hchannel : status.toNat < 0xf0) : (status :: message).length = channelLength status := by
  cases h with
  | twoBytes _ data hlow hhigh _ =>
    have hnot : ¬ (status < 0xc0 ∨ 0xdf < status) := by
      rw [UInt8.lt_iff_toNat_lt, UInt8.lt_iff_toNat_lt]
      simp only [UInt8.reduceToNat]
      omega
    rw [channelLength, if_neg hnot]
    rfl
  | threeBytes _ data1 data2 hstatus _ _ =>
    have hthree : status < 0xc0 ∨ 0xdf < status := by
      rw [UInt8.lt_iff_toNat_lt, UInt8.lt_iff_toNat_lt]
      simp only [UInt8.reduceToNat]
      omega
    rw [channelLength, if_pos hthree]
    rfl
  | metaEvent => exact absurd hchannel (by decide)
  | sysex _ _ _ hsysex =>
    rcases hsysex with rfl | rfl
    · exact absurd hchannel (by decide)
    · exact absurd hchannel (by decide)

theorem reads_running {mf : InputStream} {message rest : List Octet}
    (h : Complete (status :: message)) (hchannel : status.toNat < 0xf0)
    (hbuffer : 8 ≤ mf.buffer.length) (hstatus : mf.buffer[0]? = some status)
    (hlast : mf.lastMessageLength = channelLength status) (hfile : mf.fdStream = message ++ rest) :
    ∃ data mf₁ buffer, readStatusByte mf = .ok data mf₁ ∧ statusIndex data = 0 ∧
      continueEvent 0 mf₁ =
        .ok (status :: message).length { mf with fdStream := rest, buffer := buffer } ∧
      buffer.take (status :: message).length = status :: message ∧ 8 ≤ buffer.length := by
  have hlength := h.length_channel hchannel
  obtain ⟨b0, b1, b2, tail, hb, htail⟩ := exists_three hbuffer
  obtain rfl : b0 = status := by simpa [hb] using hstatus
  have hone : 1 < mf.buffer.length := by omega
  have htwo : 2 < mf.buffer.length := by omega
  have hrunning : b0 < 0xf0 := UInt8.lt_iff_toNat_lt.mpr hchannel
  have hkeep (data : Octet) : (mf.buffer.set 1 data)[0]? = some b0 := by rw [hb]; rfl
  cases h with
  | twoBytes _ data hlow hhigh hdata =>
    have hindex : statusIndex data = 0 := by
      rw [statusIndex_eq]
      omega
    have hnot : ¬ (b0 < 0xc0 ∨ 0xdf < b0) := by
      rw [UInt8.lt_iff_toNat_lt, UInt8.lt_iff_toNat_lt]
      simp only [UInt8.reduceToNat]
      omega
    refine ⟨data, _, mf.buffer.set 1 data, readStatusByte_data hfile hdata hone, hindex, ?_, ?_, ?_⟩
    · rw [continueEvent, continueRunningStatus, bind_ok (bufferOctet_ok (by exact hkeep data)),
        if_pos hrunning, if_neg hnot, hlength, ← hlast]
      rfl
    · rw [hb]
      rfl
    · rw [List.length_set]
      exact hbuffer
  | threeBytes _ data1 data2 hthree hdata1 hdata2 =>
    have hindex : statusIndex data1 = 0 := by
      rw [statusIndex_eq]
      omega
    have hmore : b0 < 0xc0 ∨ 0xdf < b0 := by
      rw [UInt8.lt_iff_toNat_lt, UInt8.lt_iff_toNat_lt]
      simp only [UInt8.reduceToNat]
      omega
    refine ⟨data1, _, (mf.buffer.set 1 data1).set 2 data2, readStatusByte_data hfile hdata1 hone,
      hindex, ?_, ?_, ?_⟩
    · rw [continueEvent, continueRunningStatus, bind_ok (bufferOctet_ok (by exact hkeep data1)),
        if_pos hrunning, if_pos hmore, bind_ok (readByte_cons _ rfl),
        bind_ok (storeOctet_ok (by rw [List.length_set]; exact htwo) data2), hlength, ← hlast]
      rfl
    · rw [hb]
      rfl
    · rw [List.length_set, List.length_set]
      exact hbuffer
  | metaEvent => exact absurd hchannel (by decide)
  | sysex _ _ _ hsysex =>
    rcases hsysex with rfl | rfl
    · exact absurd hchannel (by decide)
    · exact absurd hchannel (by decide)

theorem Complete.not_endOfTrack {message : List Octet} (h : Complete message) :
    ¬ (message[0]? = some 0xff ∧ message[1]? = some 0x2f) := by
  rintro ⟨hmeta, hend⟩
  cases h with
  | twoBytes status data _ hhigh _ =>
    obtain rfl : status = 0xff := by simpa using hmeta
    exact absurd hhigh (by decide)
  | threeBytes status data1 data2 hstatus _ _ =>
    obtain rfl : status = 0xff := by simpa using hmeta
    exact absurd hstatus (by decide)
  | metaEvent type length data htype _ _ =>
    exact htype (by simpa using hend)
  | sysex status length data hsysex _ _ =>
    exact sysex_ne_meta hsysex (by simpa using hmeta)

theorem getElem?_of_take {message : List Octet} {i : ℕ} (h : l.take message.length = message)
    (hi : i < message.length) : l[i]? = message[i]? := by
  rw [← h, List.getElem?_take_of_lt hi]

theorem Complete.endOfTrackP_eq {mf : InputStream} {message : List Octet} (h : Complete message)
    (htake : mf.buffer.take message.length = message) : mf.endOfTrackP = false := by
  have htwo := h.two_le_length
  have hnot := h.not_endOfTrack
  rw [← getElem?_of_take htake (show 0 < message.length by omega),
    ← getElem?_of_take htake (show 1 < message.length by omega)] at hnot
  simpa [InputStream.endOfTrackP, InputStream.metaEventP] using hnot

/-- The end of `read-event`: the tempo map and the status byte. -/
def messageStatus : Input Octet := do
  let mf ← get
  if mf.tempoEventP ∧ 0 < mf.ppqn then
    updateTempoMap
  bufferOctet 0

/-- What `read-event` does after the message is in the buffer. -/
def finishMessage (index length : ℕ) : Input Octet := do
  modify fun mf => { mf with lastMessageLength := length }
  let size := if index = 0 then length - 1 else length
  let mf ← get
  if mf.endOfTrackP then
    let _ ← nextInputTrack
  else if index = 0 ∧ length = 0 then
    modify fun mf => { mf with
      position := mf.position - 1
      trackBytesRemain := mf.trackBytesRemain + 1 }
  else if size < mf.trackBytesRemain then
    updateByteCounters size
  else chunkLengthError
  messageStatus

theorem readMessage_eq : readMessage = (do
    let status ← readStatusByte
    let length ← continueEvent (statusIndex status)
    finishMessage (statusIndex status) length) := rfl

theorem finishMessage_eq {mf : InputStream} {index length size : ℕ} (hend : mf.endOfTrackP = false)
    (hlength : index = 0 → 0 < length)
    (hsize : (if index = 0 then length - 1 else length) = size) :
    finishMessage index length mf =
      ((if size < mf.trackBytesRemain then updateByteCounters size else chunkLengthError) >>=
        fun _ => messageStatus) { mf with lastMessageLength := length } := by
  have hend' : ({ mf with lastMessageLength := length } : InputStream).endOfTrackP = false := hend
  have hback : ¬ (index = 0 ∧ length = 0) := fun hzero => (hlength hzero.1).ne' hzero.2
  rw [finishMessage, modify_bind]
  simp only [get_bind, hend', hsize, Bool.false_eq_true, if_false, if_neg hback]
  split <;> rfl

/-- What `read-event` does after an end of track. -/
def finishEnd : Input Octet := do
  let _ ← nextInputTrack
  messageStatus

theorem readMessage_end {mf : InputStream} {rest : List Octet} (hbuffer : 8 ≤ mf.buffer.length)
    (hfile : mf.fdStream = 0xff :: 0x2f :: octet :: rest) (hremain : 3 ≤ mf.trackBytesRemain) :
    readMessage mf = finishEnd { mf with
      fdStream := rest
      buffer := ((mf.buffer.set 0 0xff).set 1 0x2f).set 2 octet
      position := mf.position + 3
      trackBytesRemain := mf.trackBytesRemain - 3
      lastMessageLength := 3 } := by
  have hset : (mf.buffer.set 0 0xff)[0]? = some 0xff := List.getElem?_set_self (by omega)
  have hend (p r n : ℕ) : ({ mf with
      fdStream := rest
      buffer := ((mf.buffer.set 0 0xff).set 1 0x2f).set 2 octet
      position := p
      trackBytesRemain := r
      lastMessageLength := n } : InputStream).endOfTrackP = true :=
    endOfTrackP_of_stored hbuffer rfl
  rw [readMessage_eq, bind_ok (readStatusByte_status hfile (by decide) (by omega)),
    continueEvent_meta (by decide), bind_ok (continueMetaOrSysex_end (by
      rw [List.length_set]
      exact hbuffer) hset rfl (by exact hremain)), finishMessage]
  simp only [modify_bind, get_bind, hend, if_true]
  rfl

/-- The message is in the buffer and its octets are counted. -/
structure InputStream.Collects (mf mf' : InputStream) (message rest : List Octet) (size : ℕ) :
    Prop where
  same : mf.SameTrack mf'
  fdStream : mf'.fdStream = rest
  remain : mf'.trackBytesRemain = mf.trackBytesRemain - size
  time : mf'.trackTime = mf.trackTime
  length : mf'.lastMessageLength = message.length
  message : mf'.buffer.take message.length = message
  buffer : 8 ≤ mf'.buffer.length
  map : mf'.tempoMap = mf.tempoMap
  index : mf'.tempoIndex = mf.tempoIndex
  next : mf'.nextTempoTime = mf.nextTempoTime

/-- What a call of `read-event` leaves when it found `message`. -/
structure InputStream.Found (mf mf' : InputStream) (message rest : List Octet)
    (size time : ℕ) : Prop where
  same : mf.SameTrack mf'
  fdStream : mf'.fdStream = rest
  remain : mf'.trackBytesRemain = mf.trackBytesRemain - size
  time : mf'.trackTime = time
  length : mf'.lastMessageLength = message.length
  message : mf'.buffer.take message.length = message
  buffer : 8 ≤ mf'.buffer.length
  tempo : mf'.TempoOk

/-- The buffer holds the message that `lastStatus` lets the next one continue. -/
structure InputStream.Synced (mf : InputStream) (lastStatus : Octet) : Prop where
  buffer : 8 ≤ mf.buffer.length
  tempo : mf.TempoOk
  running : 0x80 ≤ lastStatus.toNat → lastStatus.toNat < 0xf0 →
    mf.buffer[0]? = some lastStatus ∧ mf.lastMessageLength = channelLength lastStatus

theorem InputStream.Synced.delayed {mf : InputStream} {lastStatus : Octet}
    (h : mf.Synced lastStatus) (deltaTime bytes : ℕ) (rest : List Octet) :
    (mf.delayed deltaTime bytes rest).Synced lastStatus where
  buffer := by
    rw [(mf.delayed_spec deltaTime bytes rest).buffer]
    exact h.buffer
  tempo := h.tempo.delayed deltaTime bytes rest
  running := by
    rw [(mf.delayed_spec deltaTime bytes rest).buffer, (mf.delayed_spec deltaTime bytes rest).length]
    exact h.running

theorem running_of_take {mf : InputStream} {message : List Octet} (h : Complete message)
    (htake : mf.buffer.take message.length = message)
    (hlength : mf.lastMessageLength = message.length) (hchannel : (message.headD 0).toNat < 0xf0) :
    mf.buffer[0]? = some (message.headD 0) ∧
      mf.lastMessageLength = channelLength (message.headD 0) := by
  have htwo := h.two_le_length
  cases message with
  | nil => simp at htwo
  | cons status message =>
    constructor
    · rw [getElem?_of_take htake (by simp)]
      rfl
    · rw [hlength]
      exact h.length_channel hchannel

theorem InputStream.Found.synced {mf mf' : InputStream} {message rest : List Octet} {size time : ℕ}
    (h : mf.Found mf' message rest size time) (hcomplete : Complete message) :
    mf'.Synced (message.headD 0) where
  buffer := h.buffer
  tempo := h.tempo
  running := fun _ hchannel => running_of_take hcomplete h.message h.length hchannel

def messageOctets (running : Bool) (message : List Octet) : List Octet :=
  if running then message.tail else message

section Event

variable {mf : InputStream} {lastStatus : Octet} {message rest : List Octet} {running : Bool}

section

variable (hsynced : mf.Synced lastStatus) (h : Complete message)
  (hrunning : running = true → message.headD 0 = lastStatus ∧ lastStatus.toNat < 0xf0)
  (hfile : mf.fdStream = messageOctets running message ++ rest)
include hsynced h hrunning hfile

theorem reads_message (hshort : ShortLength message) :
    ∃ octet mf₁ buffer, readStatusByte mf = .ok octet mf₁ ∧
      continueEvent (statusIndex octet) mf₁ =
        .ok message.length { mf with fdStream := rest, buffer := buffer } ∧
      (if statusIndex octet = 0 then message.length - 1 else message.length) =
        (messageOctets running message).length ∧
      buffer.take message.length = message ∧ 8 ≤ buffer.length := by
  have htwo := h.two_le_length
  cases message with
  | nil => simp at htwo
  | cons status message =>
    have hge := h.status_ge
    cases running with
    | true =>
      obtain ⟨hstatus, hchannel⟩ := hrunning rfl
      obtain rfl : status = lastStatus := hstatus
      obtain ⟨hzero, hlast⟩ := hsynced.running hge hchannel
      obtain ⟨data, mf₁, buffer, hread, hindex, hcontinue, htake, hle⟩ :=
        reads_running h hchannel hsynced.buffer hzero hlast hfile
      refine ⟨data, mf₁, buffer, hread, ?_, ?_, htake, hle⟩
      · rw [hindex, hcontinue]
      · rw [if_pos hindex]
        rfl
    | false =>
      have hbuffer := hsynced.buffer
      have hindex : ¬ statusIndex status = 0 := by
        rw [statusIndex_eq]
        omega
      have hfile' : mf.fdStream = status :: (message ++ rest) := hfile
      have hset : (mf.buffer.set 0 status)[0]? = some status :=
        List.getElem?_set_self (by omega)
      obtain ⟨buffer, hcontinue, htake, hle⟩ := reads_body { mf with
          fdStream := message ++ rest
          buffer := mf.buffer.set 0 status } h (by rw [List.length_set]; exact hbuffer) hset rfl
        hshort
      refine ⟨status, _, buffer, readStatusByte_status hfile' hge (by omega), hcontinue, ?_, htake,
        hle⟩
      rw [if_neg hindex]
      rfl

theorem readMessage_fails (hshort : ¬ ShortLength message) : Fails readMessage mf := by
  have htwo := h.two_le_length
  have hbuffer := hsynced.buffer
  cases message with
  | nil => simp at htwo
  | cons status message =>
    have hge := h.status_ge
    have hlong : 0xf0 ≤ status.toNat := by
      rw [ShortLength, Classical.not_imp, List.headD_cons] at hshort
      exact hshort.1
    cases running with
    | true =>
      obtain ⟨hstatus, hchannel⟩ := hrunning rfl
      obtain rfl : status = lastStatus := hstatus
      omega
    | false =>
      have hfile' : mf.fdStream = status :: (message ++ rest) := hfile
      have hset : (mf.buffer.set 0 status)[0]? = some status :=
        List.getElem?_set_self (by omega)
      rw [readMessage_eq]
      refine Fails.bind_of_ok (readStatusByte_status hfile' hge (by omega)) (Fails.bind ?_ _)
      exact reads_long_fails h (by rw [List.length_set]; exact hbuffer) hset rfl hshort

theorem readMessage_collects (hshort : ShortLength message)
    (hremain : (messageOctets running message).length < mf.trackBytesRemain) :
    ∃ s, readMessage mf = messageStatus s ∧
      mf.Collects s message rest (messageOctets running message).length := by
  obtain ⟨octet, mf₁, buffer, hread, hcontinue, hsize, htake, hle⟩ :=
    reads_message hsynced h hrunning hfile hshort
  have htwo := h.two_le_length
  refine ⟨{ mf with
      fdStream := rest
      buffer := buffer
      lastMessageLength := message.length
      position := mf.position + (messageOctets running message).length
      trackBytesRemain := mf.trackBytesRemain - (messageOctets running message).length }, ?_,
    ⟨⟨rfl, rfl, rfl, rfl⟩, rfl, rfl, rfl, rfl, htake, hle, rfl, rfl, rfl⟩⟩
  rw [readMessage_eq, bind_ok hread, bind_ok hcontinue,
    finishMessage_eq (h.endOfTrackP_eq htake) (fun _ => by omega) hsize, if_pos (by exact hremain)]
  exact bind_ok (updateByteCounters_ok (by exact hremain.le)) _

theorem readMessage_ok (hshort : ShortLength message)
    (hremain : (messageOctets running message).length < mf.trackBytesRemain) :
    ∃ status mf', readMessage mf = .ok status mf' ∧
      mf.Found mf' message rest (messageOctets running message).length mf.trackTime := by
  obtain ⟨s, hread, hcollects⟩ := readMessage_collects hsynced h hrunning hfile hshort hremain
  have hbuffer := hcollects.buffer
  have hzero : s.buffer[0]? = some s.buffer[0] := List.getElem?_eq_getElem (by omega)
  have htempo : s.TempoOk := by
    refine ⟨?_, ?_⟩
    · rw [hcollects.index, hcollects.map]
      exact hsynced.tempo.index
    · rw [hcollects.next, hcollects.index, hcollects.map]
      exact hsynced.tempo.next
  have hfound (tempoMap : List Tempo) (index : ℕ)
      (htempo : { s with tempoMap := tempoMap, tempoIndex := index }.TempoOk) :
      mf.Found { s with tempoMap := tempoMap, tempoIndex := index } message rest
        (messageOctets running message).length mf.trackTime :=
    ⟨⟨hcollects.same.format, hcollects.same.numberOfTracks, hcollects.same.currentTrack,
      hcollects.same.ppqn⟩, hcollects.fdStream, hcollects.remain, hcollects.time, hcollects.length,
      hcollects.message, hbuffer, htempo⟩
  rw [hread, messageStatus, get_bind]
  split
  · rename_i hppqn
    obtain ⟨tempoMap, index, hupdate, htempo'⟩ := updateTempoMap_ok s htempo hbuffer hppqn.2
    rw [bind_ok hupdate]
    exact ⟨_, _, bufferOctet_ok hzero, hfound tempoMap index htempo'⟩
  · exact ⟨_, _, bufferOctet_ok hzero, hfound _ _ htempo⟩

theorem readMessage_fails_at_end (hshort : ShortLength message)
    (hremain : mf.trackBytesRemain ≤ (messageOctets running message).length) :
    Fails readMessage mf := by
  obtain ⟨octet, mf₁, buffer, hread, hcontinue, hsize, htake, hle⟩ :=
    reads_message hsynced h hrunning hfile hshort
  rw [readMessage_eq]
  refine Fails.bind_of_ok hread (Fails.bind_of_ok hcontinue ?_)
  have htwo := h.two_le_length
  rw [Fails, finishMessage_eq (h.endOfTrackP_eq htake) (fun _ => by omega) hsize,
    if_neg (Nat.not_lt.mpr hremain)]
  exact ⟨_, _, rfl⟩

end

def eventOctets (deltaTime : ℕ) (running : Bool) (message : List Octet) : List Octet :=
  encode deltaTime ++ messageOctets running message

theorem length_encode_le_five {v : ℕ} : (encode v).length ≤ 5 ↔ v < 0x80 ^ 5 := by
  rw [length_encode]
  exact octetCount_le_iff (by decide)

theorem readDeltaTime_event {deltaTime : ℕ} (hsynced : mf.Synced lastStatus)
    (hpos : 0 < (messageOctets running message).length)
    (hfile : mf.fdStream = eventOctets deltaTime running message ++ rest)
    (hdelta : deltaTime < 0x80 ^ 5) (htime : mf.trackTime + deltaTime < fixnumBound)
    (hremain : (eventOctets deltaTime running message).length ≤ mf.trackBytesRemain) :
    ∃ mf', readDeltaTime mf = .ok (some deltaTime) mf' ∧ mf.SameTrack mf' ∧
      mf'.fdStream = messageOctets running message ++ rest ∧
      mf'.trackBytesRemain = mf.trackBytesRemain - (encode deltaTime).length ∧
      mf'.trackTime = mf.trackTime + deltaTime ∧ mf'.Synced lastStatus := by
  rw [eventOctets, List.length_append] at hremain
  rw [eventOctets, List.append_assoc] at hfile
  have hread := readDeltaTime_ok (delimited_encode deltaTime) hfile
    (length_encode_le_five.mpr hdelta) (by omega) (fun _ => by rwa [quantity_encode])
  rw [quantity_encode] at hread
  have hspec := mf.delayed_spec deltaTime (encode deltaTime).length
    (messageOctets running message ++ rest)
  exact ⟨_, hread, hspec.same, hspec.fdStream, hspec.remain, hspec.time,
    hsynced.delayed deltaTime _ _⟩

theorem length_messageOctets_pos (h : Complete message) :
    0 < (messageOctets running message).length := by
  have htwo := h.two_le_length
  cases running with
  | true =>
    simp only [messageOctets, if_true, List.length_tail]
    omega
  | false =>
    simp only [messageOctets, Bool.false_eq_true, if_false]
    omega

variable {deltaTime : ℕ}

theorem readEvent_ok (hsynced : mf.Synced lastStatus) (h : Complete message)
    (hrunning : running = true → message.headD 0 = lastStatus ∧ lastStatus.toNat < 0xf0)
    (hfile : mf.fdStream = eventOctets deltaTime running message ++ rest)
    (hdelta : deltaTime < 0x80 ^ 5) (htime : mf.trackTime + deltaTime < fixnumBound)
    (hshort : ShortLength message)
    (hremain : (eventOctets deltaTime running message).length < mf.trackBytesRemain) :
    ∃ status mf', readEvent mf = .ok (some status) mf' ∧
      mf.Found mf' message rest (eventOctets deltaTime running message).length
        (mf.trackTime + deltaTime) := by
  obtain ⟨mf₁, hread, hsame, hrest, hleft, htrack, hsynced'⟩ :=
    readDeltaTime_event hsynced (length_messageOctets_pos h) hfile hdelta htime hremain.le
  rw [eventOctets, List.length_append] at hremain
  obtain ⟨status, mf', hmessage, hfound⟩ :=
    readMessage_ok hsynced' h hrunning hrest hshort (by omega)
  refine ⟨status, mf', ?_, ⟨hsame.trans hfound.same, hfound.fdStream, ?_, ?_, hfound.length,
    hfound.message, hfound.buffer, hfound.tempo⟩⟩
  · rw [readEvent, bind_ok hread]
    exact bind_ok hmessage _
  · rw [hfound.remain, hleft, eventOctets, List.length_append, Nat.sub_sub]
  · rw [hfound.time, htrack]

/-- The caller can read the next event after this one. -/
structure Readable (deltaTime : ℕ) (message : List Octet) : Prop where
  delta : deltaTime < 0x80 ^ 5
  length : ShortLength message

section

variable (hsynced : mf.Synced lastStatus) (h : Complete message)
  (hrunning : running = true → message.headD 0 = lastStatus ∧ lastStatus.toNat < 0xf0)
  (hfile : mf.fdStream = eventOctets deltaTime running message ++ rest)
  (htime : mf.trackTime + deltaTime < fixnumBound)
include hsynced h hrunning hfile htime

theorem readEvent_fails
    (hremain : (eventOctets deltaTime running message).length ≤ mf.trackBytesRemain)
    (hreadable : ¬ Readable deltaTime message) : Fails readEvent mf := by
  rw [readEvent]
  by_cases hdelta : deltaTime < 0x80 ^ 5
  · obtain ⟨mf₁, hread, -, hrest, -, -, hsynced'⟩ :=
      readDeltaTime_event hsynced (length_messageOctets_pos h) hfile hdelta htime hremain
    refine Fails.bind_of_ok hread (Fails.bind ?_ _)
    exact readMessage_fails hsynced' h hrunning hrest (fun hshort => hreadable ⟨hdelta, hshort⟩)
  · rw [eventOctets, List.append_assoc] at hfile
    have hfive : 5 < (encode deltaTime).length := by
      rw [← Nat.not_le, length_encode_le_five]
      exact hdelta
    rw [eventOctets, List.length_append] at hremain
    exact Fails.bind (readDeltaTime_fails (delimited_encode deltaTime) hfile hfive (by omega)) _

theorem readEvent_fails_at_end
    (hremain : mf.trackBytesRemain = (eventOctets deltaTime running message).length) :
    Fails readEvent mf := by
  by_cases hreadable : Readable deltaTime message
  · obtain ⟨mf₁, hread, -, hrest, hleft, -, hsynced'⟩ := readDeltaTime_event hsynced
      (length_messageOctets_pos h) hfile hreadable.delta htime hremain.ge
    rw [eventOctets, List.length_append] at hremain
    rw [readEvent]
    refine Fails.bind_of_ok hread (Fails.bind ?_ _)
    exact readMessage_fails_at_end hsynced' h hrunning hrest hreadable.length (by omega)
  · exact readEvent_fails hsynced h hrunning hfile htime hremain.ge hreadable

end

end Event

end Incudine.Midifile

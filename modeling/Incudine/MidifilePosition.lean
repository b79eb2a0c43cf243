import Incudine.MidifileReader

/-!
# The position of an input stream

The position in the file and the bytes that remain in the track chunk are counters updated by
hand. The calls that keep them equal to the octets really read, also when a call signals an error.
-/

namespace Incudine.Midifile

open Octets Signals

inductive ChunkAt (file : List Octet) : ℕ → Prop
  | first : ChunkAt file 14
  | next {p type size : ℕ} {rest : List Octet} (h : ChunkAt file p)
      (hheader : chunkTypeAndLength (file.drop p) = .ok (type, size) rest) :
      ChunkAt file (p + 8 + size)

def TrackChunk (file : List Octet) (start size : ℕ) : Prop :=
  ∃ p rest, ChunkAt file p ∧ chunkTypeAndLength (file.drop p) = .ok (trackType, size) rest ∧
    start = p + 8

/-- The first track chunk, after whole chunks of other types. -/
inductive TrackAhead (size : ℕ) : List Octet → Prop
  | track {octets rest : List Octet}
      (hheader : chunkTypeAndLength octets = .ok (trackType, size) rest) : TrackAhead size octets
  | skip {octets rest : List Octet} {type other : ℕ}
      (hheader : chunkTypeAndLength octets = .ok (type, other) rest) (htype : type ≠ trackType)
      (hsize : other ≤ rest.length) (h : TrackAhead size (rest.drop other)) :
      TrackAhead size octets

/-- There is no other track chunk. The file ends after a chunk or after the header of a chunk. -/
inductive NoTrackAhead : List Octet → Prop
  | nil : NoTrackAhead []
  | header {octets : List Octet} {type size : ℕ}
      (hheader : chunkTypeAndLength octets = .ok (type, size) []) (htype : type ≠ trackType)
      (hsize : 0 < size) : NoTrackAhead octets
  | skip {octets rest : List Octet} {type size : ℕ}
      (hheader : chunkTypeAndLength octets = .ok (type, size) rest) (htype : type ≠ trackType)
      (hsize : size ≤ rest.length) (h : NoTrackAhead (rest.drop size)) : NoTrackAhead octets

section Chunks

theorem readByte_eq_ok {octets rest : List Octet} {b : Octet} (h : readByte octets = .ok b rest) :
    octets = b :: rest := by
  cases octets with
  | nil => cases h
  | cons c octets =>
    cases h
    rfl

theorem readTwoBytes_eq_ok {octets rest : List Octet} {n : ℕ}
    (h : readTwoBytes octets = .ok n rest) : ∃ a b, octets = a :: b :: rest := by
  obtain ⟨a, octets', hhigh, h⟩ := bind_eq_ok.mp h
  obtain ⟨b, octets'', hlow, h⟩ := bind_eq_ok.mp h
  cases h
  exact ⟨a, b, by rw [readByte_eq_ok hhigh, readByte_eq_ok hlow]⟩

theorem readFourBytes_eq_ok {octets rest : List Octet} {n : ℕ}
    (h : readFourBytes octets = .ok n rest) :
    ∃ header, octets = header ++ rest ∧ header.length = 4 := by
  obtain ⟨high, octets', hhigh, h⟩ := bind_eq_ok.mp h
  obtain ⟨low, octets'', hlow, h⟩ := bind_eq_ok.mp h
  cases h
  obtain ⟨a, b, rfl⟩ := readTwoBytes_eq_ok hhigh
  obtain ⟨c, d, rfl⟩ := readTwoBytes_eq_ok hlow
  exact ⟨[a, b, c, d], rfl, rfl⟩

theorem chunkTypeAndLength_eq_ok {octets rest : List Octet} {v : ℕ × ℕ}
    (h : chunkTypeAndLength octets = .ok v rest) :
    rest = octets.drop 8 ∧ octets.length = 8 + rest.length := by
  obtain ⟨type, octets', htype, h⟩ := bind_eq_ok.mp h
  obtain ⟨length, octets'', hlength, h⟩ := bind_eq_ok.mp h
  cases h
  obtain ⟨header, rfl, hheader⟩ := readFourBytes_eq_ok htype
  obtain ⟨header', rfl, hheader'⟩ := readFourBytes_eq_ok hlength
  constructor
  · rw [← List.append_assoc, List.drop_left']
    rw [List.length_append, hheader, hheader']
  · simp only [List.length_append]
    omega

theorem skipBytes_eq (n : ℕ) (octets : List Octet) :
    skipBytes n octets =
      if n ≤ octets.length then .ok ⟨⟩ (octets.drop n) else .error .endOfFile [] := by
  induction n generalizing octets with
  | zero => rfl
  | succ n ih =>
    cases octets with
    | nil => rfl
    | cons b octets =>
      rw [skipBytes, bind_ok (show readByte (b :: octets) = .ok b octets from rfl), ih]
      simp only [List.length_cons, Nat.add_le_add_iff_right, List.drop_succ_cons]

variable {mf : InputStream}

theorem nextTrackChunk_skip {offset : ℕ} (h : offset ≤ mf.fdStream.length) (fuel : ℕ) :
    nextTrackChunk (fuel + 1) offset mf = nextTrackChunk (fuel + 1) 0 { mf with
      fdStream := mf.fdStream.drop offset
      position := mf.position + offset } := by
  by_cases hpos : 0 < offset
  · have hskip : skipBytes offset mf.fdStream = .ok ⟨⟩ (mf.fdStream.drop offset) := by
      rw [skipBytes_eq, if_pos h]
    rw [nextTrackChunk, if_pos hpos, nextTrackChunk, if_neg (Nat.lt_irrefl 0)]
    exact (bind_ok (onSource_ok hskip) _).trans rfl
  · obtain rfl : offset = 0 := by omega
    rfl

theorem nextTrackChunk_header {octets rest : List Octet} {type size : ℕ}
    (hheader : chunkTypeAndLength octets = .ok (type, size) rest) (hfile : mf.fdStream = octets)
    (fuel : ℕ) :
    nextTrackChunk (fuel + 1) 0 mf =
      (if type = trackType then pure size else nextTrackChunk fuel size : Input ℕ) { mf with
        fdStream := rest
        position := mf.position + 8 } := by
  rw [nextTrackChunk, if_neg (Nat.lt_irrefl 0)]
  exact (bind_ok (onSource_ok (by rw [hfile]; exact hheader)) _).trans rfl

theorem nextTrackChunk_ahead (mf : InputStream) (file : List Octet) {octets : List Octet} {size : ℕ}
    (h : TrackAhead size octets) (fuel : ℕ) (hfile : mf.fdStream = octets) (hfuel : octets.length < fuel)
    (hle : mf.position ≤ file.length) (hdrop : octets = file.drop mf.position)
    (hchunk : ChunkAt file mf.position) :
    ∃ p, nextTrackChunk fuel 0 mf = .ok size { mf with
        fdStream := file.drop p
        position := p } ∧
      mf.position ≤ p ∧ p ≤ file.length ∧ TrackChunk file p size := by
  induction h generalizing fuel mf with
  | track hheader =>
    obtain ⟨fuel, rfl⟩ : ∃ k, fuel = k + 1 := ⟨fuel - 1, by omega⟩
    obtain ⟨hrest, hlen⟩ := chunkTypeAndLength_eq_ok hheader
    have hlength := congrArg List.length hdrop
    rw [List.length_drop] at hlength
    refine ⟨mf.position + 8, ?_, Nat.le_add_right _ _, by omega, ?_⟩
    · rw [nextTrackChunk_header hheader hfile, if_pos rfl, hrest, hdrop, List.drop_drop]
      rfl
    · exact ⟨mf.position, _, hchunk, by rw [← hdrop, hheader], rfl⟩
  | @skip octets rest type other hheader htype hsize _ ih =>
    obtain ⟨fuel, rfl⟩ : ∃ k, fuel = k + 2 := ⟨fuel - 2, by
      have := (chunkTypeAndLength_eq_ok hheader).2
      omega⟩
    obtain ⟨hrest, hlen⟩ := chunkTypeAndLength_eq_ok hheader
    have hlength := congrArg List.length hdrop
    rw [List.length_drop] at hlength
    have hnext := hchunk.next (by rw [← hdrop, hheader])
    obtain ⟨p, hresult, hge, hple, htrack⟩ := ih { mf with
        fdStream := rest.drop other
        position := mf.position + 8 + other } (fuel + 1) rfl
      (by rw [List.length_drop]; omega) (show mf.position + 8 + other ≤ _ by omega)
      (by rw [hrest, hdrop, List.drop_drop, List.drop_drop, ← Nat.add_assoc]) hnext
    refine ⟨p, ?_, ?_, hple, htrack⟩
    · rw [nextTrackChunk_header hheader hfile, if_neg htype,
        nextTrackChunk_skip (by exact hsize), hresult]
    · have hge' : mf.position + 8 + other ≤ p := hge
      omega

theorem nextTrackChunk_noTrack {octets : List Octet} (h : NoTrackAhead octets) {fuel : ℕ}
    (hfile : mf.fdStream = octets) (hfuel : octets.length < fuel) :
    nextTrackChunk fuel 0 mf = .error .endOfFile { mf with
      fdStream := []
      position := mf.position + octets.length } := by
  induction h generalizing fuel mf with
  | nil =>
    obtain ⟨fuel, rfl⟩ : ∃ k, fuel = k + 1 := ⟨fuel - 1, by omega⟩
    have hend : onSource chunkTypeAndLength mf = .error .endOfFile { mf with fdStream := [] } := by
      rw [onSource, hfile]
      rfl
    rw [nextTrackChunk, if_neg (Nat.lt_irrefl 0)]
    exact (bind_error hend _).trans rfl
  | @header octets type size hheader htype hsize =>
    obtain ⟨hrest, hlen⟩ := chunkTypeAndLength_eq_ok hheader
    obtain ⟨fuel, rfl⟩ : ∃ k, fuel = k + 2 := ⟨fuel - 2, by omega⟩
    have hend (s : InputStream) (hs : s.fdStream = []) :
        onSource (skipBytes size) s = .error .endOfFile { s with fdStream := [] } := by
      rw [onSource, skipBytes_eq, hs, if_neg (by simpa using hsize.ne')]
    rw [nextTrackChunk_header hheader hfile, if_neg htype, nextTrackChunk, if_pos hsize, hlen]
    exact (bind_error (hend _ rfl) _).trans rfl
  | @skip octets rest type size hheader htype hsize _ ih =>
    obtain ⟨hrest, hlen⟩ := chunkTypeAndLength_eq_ok hheader
    obtain ⟨fuel, rfl⟩ : ∃ k, fuel = k + 2 := ⟨fuel - 2, by omega⟩
    rw [nextTrackChunk_header hheader hfile, if_neg htype, nextTrackChunk_skip (by exact hsize),
      ih rfl (by rw [List.length_drop]; omega), List.length_drop]
    have hposition : mf.position + 8 + size + (rest.length - size) =
        mf.position + octets.length := by omega
    simp only [hposition]

end Chunks

/-- The octets left are the ones of the file after the position, and the bytes that remain are the
ones of the track chunk after the position. After the end of the file there is nothing left to
count. -/
structure InputStream.Accurate (mf : InputStream) (file : List Octet) : Prop where
  position_le : mf.position ≤ file.length
  fdStream : mf.fdStream = file.drop mf.position
  track : ∃ start size, TrackChunk file start size ∧ start ≤ mf.position ∧
    mf.trackBytesRemain = start + size - mf.position ∧
    (mf.position ≤ start + size ∨ mf.fdStream = [])

/-- In a chunk from `start` to `stop`, `n` octets are read and not yet counted. -/
structure InputStream.InChunk (mf : InputStream) (file : List Octet) (start stop n : ℕ) :
    Prop where
  le : mf.position + n ≤ file.length
  fdStream : mf.fdStream = file.drop (mf.position + n)
  start_le : start ≤ mf.position
  stop_eq : mf.position + mf.trackBytesRemain = stop
  buffer : 8 ≤ mf.buffer.length

/-- What the calls keep: the counters, and the room in the message buffer. -/
def InputStream.Kept (mf : InputStream) (file : List Octet) : Prop :=
  mf.Accurate file ∧ 8 ≤ mf.buffer.length

section Counters

variable {mf : InputStream} {file rest : List Octet} {start size stop n : ℕ}

theorem InputStream.InChunk.kept (h : mf.InChunk file start (start + size) 0)
    (htrack : TrackChunk file start size) : mf.Kept file := by
  have hstop := h.stop_eq
  refine ⟨⟨h.le, h.fdStream, start, size, htrack, h.start_le, by omega, .inl (by omega)⟩, h.buffer⟩

theorem InputStream.InChunk.read (h : mf.InChunk file start stop n) (octets : List Octet)
    (mf' : InputStream) (hfile : mf.fdStream = octets ++ rest) (hrest : mf'.fdStream = rest)
    (hposition : mf'.position = mf.position) (hremain : mf'.trackBytesRemain = mf.trackBytesRemain)
    (hbuffer : 8 ≤ mf'.buffer.length) : mf'.InChunk file start stop (n + octets.length) := by
  have hle := h.le
  have hfile' := h.fdStream
  rw [hfile] at hfile'
  have hlength := congrArg List.length hfile'
  rw [List.length_append, List.length_drop] at hlength
  refine ⟨by omega, ?_, by rw [hposition]; exact h.start_le, by
    rw [hposition, hremain]; exact h.stop_eq, hbuffer⟩
  rw [hrest, hposition, ← Nat.add_assoc, ← List.drop_drop, ← hfile', List.drop_left]

theorem InputStream.InChunk.count (h : mf.InChunk file start stop n) (mf' : InputStream)
    (hn : n ≤ mf.trackBytesRemain) (hrest : mf'.fdStream = mf.fdStream)
    (hposition : mf'.position = mf.position + n)
    (hremain : mf'.trackBytesRemain = mf.trackBytesRemain - n)
    (hbuffer : mf'.buffer = mf.buffer) : mf'.InChunk file start stop 0 := by
  have hstart := h.start_le
  have hstop := h.stop_eq
  refine ⟨by rw [hposition]; exact h.le, ?_, by omega, by omega, by rw [hbuffer]; exact h.buffer⟩
  rw [hrest, hposition, h.fdStream, Nat.add_zero]

end Counters

structure InputStream.SameCounters (mf mf' : InputStream) : Prop where
  fdStream : mf'.fdStream = mf.fdStream
  position : mf'.position = mf.position
  trackBytesRemain : mf'.trackBytesRemain = mf.trackBytesRemain
  buffer : mf'.buffer = mf.buffer

section SameCounters

instance : IsPreorder InputStream InputStream.SameCounters where
  refl _ := ⟨rfl, rfl, rfl, rfl⟩
  trans _ _ _ h h' := ⟨h'.fdStream.trans h.fdStream, h'.position.trans h.position,
    h'.trackBytesRemain.trans h.trackBytesRemain, h'.buffer.trans h.buffer⟩

theorem InputStream.SameCounters.kept {mf mf' : InputStream} {file : List Octet}
    (h : mf.SameCounters mf') (hkept : mf.Kept file) : mf'.Kept file := by
  obtain ⟨⟨hle, hfile, track⟩, hbuffer⟩ := hkept
  refine ⟨⟨?_, ?_, ?_⟩, ?_⟩
  · rw [h.position]
    exact hle
  · rw [h.fdStream, h.position]
    exact hfile
  · rw [h.position, h.trackBytesRemain, h.fdStream]
    exact track
  · rw [h.buffer]
    exact hbuffer

open InputStream (SameCounters)

theorem respects_bufferOctet (i : ℕ) : Respects SameCounters (bufferOctet i) := by
  refine Respects.bind respects_get fun mf => ?_
  cases mf.buffer[i]? with
  | none => exact respects_throw _
  | some octet => exact respects_pure _

theorem respects_currentTempo : Respects SameCounters currentTempo := by
  refine Respects.bind respects_get fun mf => ?_
  cases mf.tempoMap[mf.tempoIndex]? with
  | none => exact respects_throw _
  | some tempo => exact respects_pure _

theorem respects_eventSeconds : Respects SameCounters eventSeconds := by
  refine Respects.bind respects_get fun mf => ?_
  refine Respects.bind (respects_check _ _) fun _ => ?_
  exact Respects.bind respects_currentTempo fun _ =>
    respects_pure _

theorem respects_updateTempoMap : Respects SameCounters updateTempoMap := by
  refine Respects.bind (respects_bufferOctet 3) fun high => ?_
  refine Respects.bind (respects_bufferOctet 4) fun middle => ?_
  refine Respects.bind (respects_bufferOctet 5) fun low => ?_
  refine Respects.bind respects_currentTempo fun curr => ?_
  refine Respects.bind respects_get fun mf => ?_
  split
  · exact respects_pure _
  · split
    · exact respects_modify fun s => ⟨rfl, rfl, rfl, rfl⟩
    · exact Respects.bind respects_eventSeconds fun _ =>
        respects_modify fun s => ⟨rfl, rfl, rfl, rfl⟩

theorem respects_messageStatus : Respects SameCounters messageStatus := by
  refine Respects.bind respects_get fun mf => ?_
  split
  · exact Respects.bind respects_updateTempoMap fun _ => respects_bufferOctet 0
  · exact respects_bufferOctet 0

end SameCounters

/-- `next-track` keeps the counters if it does nothing, if it finds a track that has data or after
the end of a track, or if it finds the end of the file and has nothing to skip. -/
def CountsTrack (mf : InputStream) (octets : List Octet) (remain : ℕ) : Prop :=
  0 < mf.format ∧ mf.currentTrack < mf.numberOfTracks - 1 →
    octets = [] ∨ remain = 0 ∧ NoTrackAhead octets ∨ remain ≤ octets.length ∧
      ∃ size, TrackAhead size (octets.drop remain) ∧ (0 < size ∨ remain = 0)

section NextTrack

variable {mf : InputStream} {file : List Octet} {start size : ℕ}

theorem TrackChunk.chunkAt (h : TrackChunk file start size) : ChunkAt file (start + size) := by
  obtain ⟨p, rest, hchunk, hheader, rfl⟩ := h
  exact hchunk.next hheader

theorem nextInputTrack_kept_end (h : mf.Kept file) (hzero : mf.trackBytesRemain = 0)
    (hnone : NoTrackAhead mf.fdStream)
    (hguard : 0 < mf.format ∧ mf.currentTrack < mf.numberOfTracks - 1) :
    (after nextInputTrack mf).Kept file := by
  obtain ⟨⟨hle, hfile, start, size, htrack, hstart, hremain, -⟩, hbuffer⟩ := h
  have hlength := congrArg List.length hfile
  rw [List.length_drop] at hlength
  have hresult := nextTrackChunk_noTrack hnone rfl (Nat.lt_succ_self _)
  rw [nextInputTrack, after, get_bind, if_pos hguard, hzero, bind_error hresult]
  refine ⟨⟨?_, ?_, start, size, htrack, ?_, ?_, .inr rfl⟩, hbuffer⟩
  · show mf.position + mf.fdStream.length ≤ file.length
    omega
  · show [] = file.drop (mf.position + mf.fdStream.length)
    rw [List.drop_of_length_le (by omega)]
  · exact hstart.trans (Nat.le_add_right _ _)
  · show mf.trackBytesRemain = start + size - (mf.position + mf.fdStream.length)
    omega

theorem nextInputTrack_kept (htrack : TrackChunk file start size)
    (h : mf.InChunk file start (start + size) 0)
    (hcounts : CountsTrack mf mf.fdStream mf.trackBytesRemain) :
    (after nextInputTrack mf).Kept file := by
  by_cases hguard : 0 < mf.format ∧ mf.currentTrack < mf.numberOfTracks - 1
  swap
  · rw [after_ok (nextInputTrack_last hguard)]
    exact h.kept htrack
  have hstop := h.stop_eq
  have hfile : mf.fdStream = file.drop mf.position := h.fdStream
  have hle : mf.position ≤ file.length := h.le
  have hlength := congrArg List.length hfile
  rw [List.length_drop] at hlength
  rcases hcounts hguard with hnil | ⟨hzero, hnone⟩ | ⟨hremain, size', hahead, hsize⟩
  · by_cases hzero : mf.trackBytesRemain = 0
    · exact nextInputTrack_kept_end (h.kept htrack) hzero (hnil ▸ .nil) hguard
    · have hresult : nextTrackChunk (mf.fdStream.length + 1) mf.trackBytesRemain mf =
          .error .endOfFile mf := by
        have hskip : onSource (skipBytes mf.trackBytesRemain) mf = .error .endOfFile mf := by
          rw [onSource, skipBytes_eq, hnil, if_neg (by simpa using hzero), ← hnil]
        rw [nextTrackChunk, if_pos (Nat.pos_of_ne_zero hzero)]
        exact (bind_error hskip _).trans rfl
      rw [nextInputTrack, after, get_bind, if_pos hguard, bind_error hresult]
      exact h.kept htrack
  · exact nextInputTrack_kept_end (h.kept htrack) hzero hnone hguard
  · obtain ⟨p, hresult, hge, hple, htrack'⟩ := nextTrackChunk_ahead { mf with
        fdStream := mf.fdStream.drop mf.trackBytesRemain
        position := mf.position + mf.trackBytesRemain } file hahead (mf.fdStream.length + 1) rfl
      (by rw [List.length_drop]; omega)
      (show mf.position + mf.trackBytesRemain ≤ _ by omega)
      (by rw [hfile, List.drop_drop]) (by rw [hstop]; exact htrack.chunkAt)
    rw [← nextTrackChunk_skip hremain] at hresult
    rw [nextInputTrack, after, get_bind, if_pos hguard, bind_ok hresult]
    by_cases hpos : 0 < size'
    · rw [if_pos hpos]
      refine ⟨⟨hple, rfl, p, size', htrack', Nat.le_refl _, (Nat.add_sub_cancel_left _ _).symm,
        .inl (Nat.le_add_right _ _)⟩, ?_⟩
      exact h.buffer.trans_eq (List.length_set).symm
    · rw [if_neg hpos]
      obtain rfl : size' = 0 := by omega
      have hzero : mf.trackBytesRemain = 0 := hsize.resolve_left hpos
      exact ⟨⟨hple, rfl, p, 0, htrack', Nat.le_refl _, hzero.trans (Nat.sub_self _).symm,
        .inl (Nat.le_refl _)⟩, h.buffer⟩

theorem InputStream.Kept.nextInputTrack (h : mf.Kept file)
    (hcounts : CountsTrack mf mf.fdStream mf.trackBytesRemain) :
    (after nextInputTrack mf).Kept file := by
  obtain ⟨⟨hle, hfile, start, size, htrack, hstart, hremain, hinside⟩, hbuffer⟩ := id h
  rcases Nat.lt_or_ge (start + size) mf.position with hbeyond | hinside'
  · have hzero : mf.trackBytesRemain = 0 := by omega
    have hnil : mf.fdStream = [] := hinside.resolve_left (Nat.not_le.mpr hbeyond)
    by_cases hguard : 0 < mf.format ∧ mf.currentTrack < mf.numberOfTracks - 1
    · exact nextInputTrack_kept_end h hzero (hnil ▸ .nil) hguard
    · rw [after_ok (nextInputTrack_last hguard)]
      exact h
  · exact nextInputTrack_kept htrack ⟨hle, hfile, hstart, by omega, hbuffer⟩ hcounts

end NextTrack

/-- Running status: the data bytes are read if the last message has the length of the status byte,
and the error about the status byte is counted. -/
def CountsRunning (mf : InputStream) (octets : List Octet) (remain : ℕ) (previous : Octet) : Prop :=
  0xf0 ≤ previous.toNat ∨ channelLength previous ≤ octets.length + 1 ∧
    mf.lastMessageLength = channelLength previous ∧ channelLength previous ≤ remain

/-- The length takes at most four octets, and the chunk goes on after the data. -/
def CountsLong (first : ℕ) (octets : List Octet) (remain : ℕ) : Prop :=
  ∃ length data, octets = length ++ data ∧ Delimited length ∧ length.length ≤ 4 ∧
    first + length.length + min (quantity length) data.length < remain

def CountsEnd (mf : InputStream) (remain : ℕ) : List Octet → Prop
  | [] => False
  | _ :: octets => 3 ≤ remain ∧ CountsTrack mf octets (remain - 3)

/-- The octets after the status byte of a meta event. -/
def CountsMeta (mf : InputStream) (remain : ℕ) : List Octet → Prop
  | [] => False
  | type :: octets =>
    if type = 0x2f then CountsEnd mf remain octets else CountsLong 2 octets remain

def CountsMessage (mf : InputStream) (remain : ℕ) : List Octet → Prop
  | [] => True
  | status :: octets =>
    if status.toNat < 0x80 then
      ∀ previous, mf.buffer[0]? = some previous →
        CountsRunning mf (status :: octets) remain previous
    else if 0xc0 ≤ status.toNat ∧ status.toNat ≤ 0xdf then 1 ≤ octets.length ∧ 2 < remain
    else if status.toNat < 0xf0 then 1 + min 2 octets.length < remain
    else if status = 0xff then CountsMeta mf remain octets
    else CountsLong 1 octets remain

theorem countsMessage_congr {mf mf' : InputStream} (hbuffer : mf'.buffer = mf.buffer)
    (hlast : mf'.lastMessageLength = mf.lastMessageLength) (hformat : mf'.format = mf.format)
    (htracks : mf'.numberOfTracks = mf.numberOfTracks)
    (hcurrent : mf'.currentTrack = mf.currentTrack) : CountsMessage mf' = CountsMessage mf := by
  have htrack : CountsTrack mf' = CountsTrack mf := by
    funext octets remain
    simp only [CountsTrack, hformat, htracks, hcurrent]
  have hend : CountsEnd mf' = CountsEnd mf := by
    funext remain octets
    cases octets with
    | nil => rfl
    | cons octet octets => simp only [CountsEnd, htrack]
  have hmeta : CountsMeta mf' = CountsMeta mf := by
    funext remain octets
    cases octets with
    | nil => rfl
    | cons type octets => simp only [CountsMeta, hend]
  funext remain octets
  cases octets with
  | nil => rfl
  | cons status octets => simp only [CountsMessage, CountsRunning, hbuffer, hlast, hmeta]

section Messages

variable {mf : InputStream} {file : List Octet} {start size : ℕ}

theorem kept_bind {α β : Type} {x : Input α} {f : α → Input β} (h : (after x mf).Kept file)
    (hf : ∀ a, Respects InputStream.SameCounters (f a)) : (after (x >>= f) mf).Kept file := by
  cases hx : x mf with
  | ok a s =>
    rw [after_ok hx] at h
    rw [after_bind_ok hx]
    exact (hf a s).kept h
  | error e s =>
    rw [after_error hx] at h
    rw [after_bind_error hx]
    exact h

theorem finishMessage_kept {mf : InputStream} {index length n : ℕ} (htrack : TrackChunk file start size)
    (h : mf.InChunk file start (start + size) n) (hend : mf.endOfTrackP = false)
    (hlength : index = 0 → 0 < length)
    (hsize : (if index = 0 then length - 1 else length) = n) (hremain : n < mf.trackBytesRemain) :
    (after (finishMessage index length) mf).Kept file := by
  have hcount : updateByteCounters n { mf with lastMessageLength := length } = .ok ⟨⟩ _ :=
    updateByteCounters_ok (show n ≤ mf.trackBytesRemain by omega)
  rw [after, finishMessage_eq hend hlength hsize, if_pos hremain, ← after]
  refine kept_bind ?_ fun _ => respects_messageStatus
  rw [after_ok hcount]
  exact InputStream.InChunk.kept (h.count _ hremain.le rfl rfl rfl rfl) htrack

theorem endOfTrackP_of_status {mf : InputStream} {status : Octet} (h : mf.buffer[0]? = some status)
    (hstatus : status ≠ 0xff) : mf.endOfTrackP = false := by
  simp [InputStream.endOfTrackP, InputStream.metaEventP, h, hstatus]

theorem head_of_take {l tail : List Octet} {n : ℕ} {octet : Octet} (h : l.take n = octet :: tail) :
    l[0]? = some octet := by
  cases l with
  | nil => simp at h
  | cons first l =>
    cases n with
    | zero => cases h
    | succ n =>
      cases h
      rfl

theorem statusIndex_ne_zero {status : Octet} (h : 0x80 ≤ status.toNat) : statusIndex status ≠ 0 := by
  rw [statusIndex_eq]
  omega

section Kinds

variable {status : Octet} {octets : List Octet}

section

variable (htrack : TrackChunk file start size)
include htrack

theorem readMetaOrSysex_kept {first : ℕ} (h : mf.InChunk file start (start + size) first)
    (hstatus : 0x80 ≤ status.toNat) (hroom : first + 4 ≤ mf.buffer.length)
    (hend : ∀ buffer, buffer.take first = mf.buffer.take first →
      ∀ rest, ({ mf with fdStream := rest, buffer := buffer } : InputStream).endOfTrackP = false)
    (hcounts : CountsLong first mf.fdStream mf.trackBytesRemain) :
    (after (readMetaOrSysex first >>= finishMessage (statusIndex status)) mf).Kept file := by
  obtain ⟨length, data, hfile, hdelimited, hfour, hremain⟩ := hcounts
  obtain ⟨buffer, hread, htake, hle⟩ := readMetaOrSysex_take mf first hdelimited hfour hroom hfile
  have hfirst : buffer.take first = mf.buffer.take first := by
    have htake' := congrArg (List.take first) htake
    rw [List.take_take, Nat.min_eq_left (Nat.le_add_right _ _), List.take_append_of_le_length (by
      rw [List.length_take]
      omega), List.take_take, Nat.min_self] at htake'
    exact htake'
  have hsplit : mf.fdStream = (length ++ data.take (quantity length)) ++
      data.drop (quantity length) := by
    rw [hfile, List.append_assoc, List.take_append_drop]
  have hpos := hdelimited.length_pos
  rw [Nat.add_assoc, ← List.length_take, ← List.length_append] at hremain
  rw [after_bind_ok hread]
  refine finishMessage_kept htrack (h.read _ _ hsplit rfl rfl rfl (h.buffer.trans hle))
    (hend buffer hfirst _) (fun _ => ?_) (if_neg (statusIndex_ne_zero hstatus)) hremain
  rw [List.length_append]
  omega

section

variable (h : mf.InChunk file start (start + size) 0)
include h

theorem readMessage_kept_running (hpos : 0 < mf.trackBytesRemain)
    (hfile : mf.fdStream = status :: octets) (hdata : status.toNat < 0x80) {previous : Octet}
    (hprevious : mf.buffer[0]? = some previous)
    (hcounts : CountsRunning mf (status :: octets) mf.trackBytesRemain previous) :
    (after readMessage mf).Kept file := by
  have hbuffer := h.buffer
  have hkeep : (mf.buffer.set 1 status)[0]? = some previous := by
    rw [List.getElem?_set_ne (by decide)]
    exact hprevious
  have hindex : statusIndex status = 0 := by
    rw [statusIndex_eq]
    omega
  have hread := h.read [status] { mf with
      fdStream := octets
      buffer := mf.buffer.set 1 status } hfile rfl rfl rfl (by rw [List.length_set]; exact hbuffer)
  rw [readMessage_eq, after_bind_ok (readStatusByte_data hfile hdata (by omega)), hindex]
  by_cases hsystem : 0xf0 ≤ previous.toNat
  · have hnot : ¬ previous < 0xf0 := not_lt_octet hsystem
    have hcount : updateByteCounters 1 { mf with
        fdStream := octets
        buffer := mf.buffer.set 1 status } = .ok ⟨⟩ _ :=
      updateByteCounters_ok (show 1 ≤ mf.trackBytesRemain by omega)
    have hresult : ∃ e, continueEvent 0 { mf with
        fdStream := octets
        buffer := mf.buffer.set 1 status } = .error e { mf with
          fdStream := octets
          buffer := mf.buffer.set 1 status
          position := mf.position + 1
          trackBytesRemain := mf.trackBytesRemain - 1 } := by
      refine ⟨.invalidRunningStatus previous (mf.position + 1) mf.currentTrack, ?_⟩
      rw [continueEvent, continueRunningStatus, bind_ok (bufferOctet_ok hkeep), if_neg hnot,
        get_bind, if_pos hpos.ne']
      exact (bind_ok hcount _).trans rfl
    obtain ⟨e, hresult⟩ := hresult
    rw [after_bind_error hresult]
    exact InputStream.InChunk.kept (hread.count _ (show 1 ≤ mf.trackBytesRemain by omega)
      rfl rfl rfl rfl) htrack
  · obtain hsystem' | ⟨hlen, hlast, hremain⟩ := hcounts
    · exact absurd hsystem' hsystem
    have hrunning : previous < 0xf0 := UInt8.lt_iff_toNat_lt.mpr (by simpa using hsystem)
    have hne : previous ≠ 0xff := by
      rintro rfl
      simp at hsystem
    by_cases hmore : previous < 0xc0 ∨ 0xdf < previous
    · rw [channelLength, if_pos hmore] at hlen hlast hremain
      cases octets with
      | nil => simp at hlen
      | cons data octets =>
        have hcontinue : continueEvent 0 { mf with
            fdStream := data :: octets
            buffer := mf.buffer.set 1 status } = .ok 3 { mf with
              fdStream := octets
              buffer := (mf.buffer.set 1 status).set 2 data } := by
          rw [continueEvent, continueRunningStatus, bind_ok (bufferOctet_ok hkeep),
            if_pos hrunning, if_pos hmore, bind_ok (readByte_cons _ rfl),
            bind_ok (storeOctet_ok (by simp; omega) data), ← hlast]
          rfl
        rw [after_bind_ok hcontinue]
        refine finishMessage_kept htrack (n := 2) ?_ (endOfTrackP_of_status ?_ hne)
          (fun _ => by decide) rfl (show 2 < mf.trackBytesRemain from hremain)
        · exact h.read [status, data] _ hfile rfl rfl rfl (by simpa using hbuffer)
        · show ((mf.buffer.set 1 status).set 2 data)[0]? = some previous
          rw [List.getElem?_set_ne (by decide)]
          exact hkeep
    · rw [channelLength, if_neg hmore] at hlen hlast hremain
      have hcontinue : continueEvent 0 { mf with
          fdStream := octets
          buffer := mf.buffer.set 1 status } = .ok 2 { mf with
            fdStream := octets
            buffer := mf.buffer.set 1 status } := by
        rw [continueEvent, continueRunningStatus, bind_ok (bufferOctet_ok hkeep),
          if_pos hrunning, if_neg hmore, ← hlast]
        rfl
      rw [after_bind_ok hcontinue]
      exact finishMessage_kept htrack hread (endOfTrackP_of_status hkeep hne)
        (fun _ => by decide) rfl (show 1 < mf.trackBytesRemain from hremain)

theorem readMessage_kept_two (hfile : mf.fdStream = status :: octets) (hlow : 0xc0 ≤ status.toNat)
    (hhigh : status.toNat ≤ 0xdf) (hlen : 1 ≤ octets.length) (hremain : 2 < mf.trackBytesRemain) :
    (after readMessage mf).Kept file := by
  have hbuffer := h.buffer
  have hset : (mf.buffer.set 0 status)[0]? = some status := List.getElem?_set_self (by omega)
  cases octets with
  | nil => simp at hlen
  | cons data octets =>
    have hset' : ({ mf with
        fdStream := data :: octets
        buffer := mf.buffer.set 0 status } : InputStream).buffer[0]? = some status := hset
    obtain ⟨buffer, hcontinue, htake, hle⟩ :=
      reads_two hlow hhigh (by rw [List.length_set]; exact hbuffer) hset' rfl
    have hstatus := head_of_take htake
    rw [readMessage_eq, after_bind_ok (readStatusByte_status hfile (by omega) (by omega)),
      after_bind_ok hcontinue]
    refine finishMessage_kept htrack (n := 2) ?_ (endOfTrackP_of_status hstatus ?_) ?_ ?_ hremain
    · exact h.read [status, data] _ hfile rfl rfl rfl hle
    · rintro rfl
      exact absurd hhigh (by decide)
    · exact fun _ => by decide
    · exact if_neg (statusIndex_ne_zero (by omega))

theorem readMessage_kept_three (hfile : mf.fdStream = status :: octets)
    (hstatus : 0x80 ≤ status.toNat ∧ status.toNat < 0xc0 ∨ 0xe0 ≤ status.toNat ∧ status.toNat < 0xf0)
    (hremain : 1 + min 2 octets.length < mf.trackBytesRemain) :
    (after readMessage mf).Kept file := by
  have hbuffer := h.buffer
  have hset : (mf.buffer.set 0 status)[0]? = some status := List.getElem?_set_self (by omega)
  have hroom : 1 + 2 ≤ (mf.buffer.set 0 status).length := by
    rw [List.length_set]
    omega
  have hthree := readIntoMessageBuffer_ok { mf with
    fdStream := octets
    buffer := mf.buffer.set 0 status } (show 1 + 2 ≤ (mf.buffer.set 0 status).length from hroom)
  have hcontinue := (congrFun (continueEvent_three hstatus) _).trans hthree
  have hone : 1 ≤ (mf.buffer.set 0 status).length := by omega
  have htake := (take_start_splice hone (octets.take 2)).trans (take_one hset)
  have hsplit : mf.fdStream = (status :: octets.take 2) ++ octets.drop 2 := by
    rw [hfile, List.cons_append, List.take_append_drop]
  have hread := h.read _ { mf with
    fdStream := octets.drop 2
    buffer := splice (mf.buffer.set 0 status) 1 (octets.take 2) } hsplit rfl rfl rfl (by
      rw [length_splice (by rw [List.length_take]; omega), List.length_set]
      exact hbuffer)
  rw [Nat.zero_add, List.length_cons, Nat.add_comm _ 1] at hread
  rw [← List.length_take] at hremain
  rw [readMessage_eq, after_bind_ok (readStatusByte_status hfile (by omega) (by omega)),
    after_bind_ok hcontinue]
  refine finishMessage_kept htrack hread (endOfTrackP_of_status (head_of_take htake) ?_)
    (fun _ => by omega) (if_neg (statusIndex_ne_zero (by omega))) hremain
  rintro rfl
  simp at hstatus

theorem readMessage_kept_sysex (hfile : mf.fdStream = status :: octets)
    (hstatus : 0xf0 ≤ status.toNat) (hsysex : status ≠ 0xff)
    (hcounts : CountsLong 1 octets mf.trackBytesRemain) : (after readMessage mf).Kept file := by
  have hbuffer := h.buffer
  have hset : (mf.buffer.set 0 status)[0]? = some status := List.getElem?_set_self (by omega)
  rw [readMessage_eq, after_bind_ok (readStatusByte_status hfile (by omega) (by omega)),
    continueEvent_meta hstatus, after, bind_of_eq (continueMetaOrSysex_sysex hset hsysex), ← after]
  refine readMetaOrSysex_kept htrack ?_ (by omega) (by rw [List.length_set]; omega) ?_ hcounts
  · exact h.read [status] _ hfile rfl rfl rfl (by rw [List.length_set]; exact hbuffer)
  · intro buffer htake rest
    rw [take_one hset] at htake
    exact endOfTrackP_of_status (head_of_take htake) hsysex

theorem readMessage_kept_end (hfile : mf.fdStream = 0xff :: 0x2f :: octets)
    (hcounts : CountsEnd mf mf.trackBytesRemain octets) : (after readMessage mf).Kept file := by
  cases octets with
  | nil => exact hcounts.elim
  | cons octet octets =>
    obtain ⟨hthree, hcounts⟩ := hcounts
    have hbuffer := h.buffer
    have hbuffer' : 8 ≤ (((mf.buffer.set 0 0xff).set 1 0x2f).set 2 octet).length := by
      simpa using hbuffer
    have hread := h.read [0xff, 0x2f, octet] { mf with
        fdStream := octets
        buffer := ((mf.buffer.set 0 0xff).set 1 0x2f).set 2 octet
        lastMessageLength := 3 } hfile rfl rfl rfl hbuffer'
    have hcount := hread.count { mf with
        fdStream := octets
        buffer := ((mf.buffer.set 0 0xff).set 1 0x2f).set 2 octet
        position := mf.position + 3
        trackBytesRemain := mf.trackBytesRemain - 3
        lastMessageLength := 3 } hthree rfl rfl rfl rfl
    have hnext := nextInputTrack_kept htrack hcount hcounts
    rw [after, readMessage_end hbuffer hfile hthree, finishEnd, ← after]
    exact kept_bind hnext fun _ => respects_messageStatus

theorem readMessage_kept_meta (hfile : mf.fdStream = 0xff :: octets)
    (hcounts : CountsMeta mf mf.trackBytesRemain octets) : (after readMessage mf).Kept file := by
  cases octets with
  | nil => exact hcounts.elim
  | cons type octets =>
    rw [CountsMeta] at hcounts
    split_ifs at hcounts with htype
    · rw [htype] at hfile
      exact readMessage_kept_end htrack h hfile hcounts
    · have hbuffer := h.buffer
      have hset : (mf.buffer.set 0 0xff)[0]? = some 0xff := List.getElem?_set_self (by omega)
      have hset' : 8 ≤ (mf.buffer.set 0 0xff).length := by
        rw [List.length_set]
        exact hbuffer
      rw [readMessage_eq, after_bind_ok (readStatusByte_status hfile (by decide) (by omega)),
        continueEvent_meta (by decide), after,
        bind_of_eq (continueMetaOrSysex_meta hset' hset htype rfl), ← after]
      refine readMetaOrSysex_kept htrack ?_ (by decide) (by simp; omega) ?_ hcounts
      · exact h.read [0xff, type] _ hfile rfl rfl rfl (by simpa using hbuffer)
      · intro buffer htake rest
        rw [take_set_two hset' hset] at htake
        have hone : buffer[1]? = some type := by
          rw [← List.getElem?_take_of_lt (show 1 < 2 by decide), htake]
          rfl
        simp [InputStream.endOfTrackP, hone, htype]

end

end

end Kinds

theorem readMessage_kept {octets : List Octet} (htrack : TrackChunk file start size)
    (h : mf.InChunk file start (start + size) 0) (hpos : 0 < mf.trackBytesRemain)
    (hfile : mf.fdStream = octets) (hcounts : CountsMessage mf mf.trackBytesRemain octets) :
    (after readMessage mf).Kept file := by
  cases octets with
  | nil =>
    have hend : readStatusByte mf = .error .endOfFile mf := by
      have hbyte : onSource readByte mf = .error .endOfFile mf := by
        rw [onSource, hfile]
        show EStateM.Result.error Error.endOfFile { mf with fdStream := [] } = _
        rw [← hfile]
      exact bind_error hbyte _
    rw [readMessage_eq, after_bind_error hend]
    exact h.kept htrack
  | cons status octets =>
    rw [CountsMessage] at hcounts
    split_ifs at hcounts with hdata htwo hchannel hmeta
    · have hbuffer := h.buffer
      have hpositive : 0 < mf.buffer.length := by omega
      have hprevious : mf.buffer[0]? = some mf.buffer[0] := List.getElem?_eq_getElem hpositive
      exact readMessage_kept_running htrack h hpos hfile hdata hprevious (hcounts _ hprevious)
    · exact readMessage_kept_two htrack h hfile htwo.1 htwo.2 hcounts.1 hcounts.2
    · exact readMessage_kept_three htrack h hfile (by omega) hcounts
    · rw [hmeta] at hfile
      exact readMessage_kept_meta htrack h hfile hcounts
    · exact readMessage_kept_sysex htrack h hfile (by omega) hmeta hcounts

end Messages

/-- `read-event` keeps the counters: there is nothing to read, the delta time has five octets that
are followed by another one, or the delta time ends before the chunk and the message is counted. -/
def CountsEvent (mf : InputStream) : Prop :=
  mf.trackBytesRemain = 0 ∨ mf.fdStream = [] ∨
  (∃ octets rest, mf.fdStream = octets ++ rest ∧ octets.length = 5 ∧
    (∀ b ∈ octets, 0x80 ≤ b.toNat) ∧ 5 ≤ mf.trackBytesRemain) ∨
  ∃ octets rest, mf.fdStream = octets ++ rest ∧ Delimited octets ∧ octets.length ≤ 5 ∧
    octets.length < mf.trackBytesRemain ∧
    (0 < quantity octets ∧ fixnumBound ≤ mf.trackTime + quantity octets ∨
      CountsMessage mf (mf.trackBytesRemain - octets.length) rest)

section Events

variable {mf : InputStream} {file : List Octet} {start size : ℕ}

theorem quantityLoop_high {octets rest : List Octet} {left bytes v : ℕ}
    (hlen : octets.length = left + 1) (hhigh : ∀ b ∈ octets, 0x80 ≤ b.toNat)
    (hfile : mf.fdStream = octets ++ rest) :
    quantityLoop left bytes v mf = quantityError (bytes + left) { mf with fdStream := rest } := by
  induction octets generalizing left bytes v mf with
  | nil => simp at hlen
  | cons b bs ih =>
    have hmore : ¬ b < 0x80 := not_lt_octet (hhigh b List.mem_cons_self)
    rw [quantityLoop, bind_ok (readByte_cons mf hfile)]
    simp only [if_neg hmore]
    cases left with
    | zero =>
      obtain rfl : bs = [] := List.length_eq_zero_iff.mp (by simpa using hlen)
      rfl
    | succ left =>
      simp only
      rw [ih (by simpa using hlen) (fun c hc => hhigh c (List.mem_cons_of_mem _ hc)) rfl,
        Nat.add_assoc, Nat.add_comm 1]

theorem quantityError_counted {α : Type} {n : ℕ} (h : n ≤ mf.trackBytesRemain) :
    ∃ e, (quantityError n : Input α) mf = .error e { mf with
      position := mf.position + n
      trackBytesRemain := mf.trackBytesRemain - n } := by
  refine ⟨.invalidVariableLengthQuantity {
    string := "Variable length quantity in more than four bytes"
    position := mf.position + 1
    track := mf.currentTrack }, ?_⟩
  rw [quantityError, get_bind, if_pos h]
  exact (bind_ok (updateByteCounters_ok h) _).trans rfl

theorem InputStream.Kept.readEvent (h : mf.Kept file) (hcounts : CountsEvent mf) :
    (after readEvent mf).Kept file := by
  by_cases hzero : mf.trackBytesRemain = 0
  · have hnothing : readDeltaTime mf = .ok none mf := by
      rw [readDeltaTime, get_bind, if_neg (by omega), pure_apply]
    rw [Midifile.readEvent, after_bind_ok hnothing]
    exact h
  have hpos : 0 < mf.trackBytesRemain := Nat.pos_of_ne_zero hzero
  obtain ⟨⟨hle, hfile, start, size, htrack, hstart, hremain, hinside⟩, hbuffer⟩ := id h
  have hchunk : mf.InChunk file start (start + size) 0 := ⟨hle, hfile, hstart, by omega, hbuffer⟩
  rcases hcounts with hnone | hnil | ⟨octets, rest, hsplit, hfive, hhigh, hle'⟩ |
    ⟨octets, rest, hsplit, hdelimited, hfive, hlt, hmessage⟩
  · exact absurd hnone hzero
  · have hbyte : onSource readByte mf = .error .endOfFile mf := by
      rw [onSource, hnil]
      show EStateM.Result.error Error.endOfFile { mf with fdStream := [] } = _
      rw [← hnil]
    have hdelta : readDeltaTime mf = .error .endOfFile mf := by
      rw [readDeltaTime, get_bind, if_pos hpos, readVariableLengthQuantity, quantityLoop]
      exact bind_error (bind_error hbyte _) _
    rw [Midifile.readEvent, after_bind_error hdelta]
    exact h
  · obtain ⟨e, herror⟩ : ∃ e, (quantityError 5 : Input (ℕ × ℕ)) { mf with fdStream := rest } =
        .error e _ := quantityError_counted hle'
    have hdelta : readDeltaTime mf = .error e { mf with
        fdStream := rest
        position := mf.position + 5
        trackBytesRemain := mf.trackBytesRemain - 5 } := by
      rw [readDeltaTime, get_bind, if_pos hpos, readVariableLengthQuantity]
      exact bind_error ((quantityLoop_high hfive hhigh hsplit).trans herror) _
    rw [Midifile.readEvent, after_bind_error hdelta]
    have hread := hchunk.read octets { mf with fdStream := rest } hsplit rfl rfl rfl hbuffer
    rw [Nat.zero_add, hfive] at hread
    exact InputStream.InChunk.kept (hread.count _ hle' rfl rfl rfl rfl) htrack
  · have hread := hchunk.read octets { mf with fdStream := rest } hsplit rfl rfl rfl hbuffer
    rw [Nat.zero_add] at hread
    by_cases hover : 0 < quantity octets ∧ fixnumBound ≤ mf.trackTime + quantity octets
    · rw [Midifile.readEvent,
        after_bind_error (readDeltaTime_error hdelimited hsplit hfive hlt hover.1 hover.2)]
      exact InputStream.InChunk.kept (hread.count _ hlt.le rfl rfl rfl rfl) htrack
    · have hdelta := readDeltaTime_ok hdelimited hsplit hfive hlt
        fun hpos => Nat.not_le.mp fun htime => hover ⟨hpos, htime⟩
      have hspec := mf.delayed_spec (quantity octets) octets.length rest
      have hchunk' := hread.count _ hlt.le hspec.fdStream hspec.position hspec.remain hspec.buffer
      rw [Midifile.readEvent, after_bind_ok hdelta]
      refine kept_bind (readMessage_kept htrack hchunk' (by rw [hspec.remain]; omega) hspec.fdStream
        ?_) fun _ => respects_pure _
      rw [hspec.remain, countsMessage_congr hspec.buffer hspec.length hspec.same.format
        hspec.same.numberOfTracks hspec.same.currentTrack]
      exact hmessage.resolve_left hover

end Events

section Open

variable {mf mf' : InputStream} {file octets rest : List Octet}

theorem getTimecode_eq_ok {n : ℕ} {v : ℕ × ℕ} (h : getTimecode n octets = .ok v rest) :
    rest = octets := by
  rw [getTimecode] at h
  obtain ⟨_, octets', hcheck, h⟩ := bind_eq_ok.mp h
  rw [pure_apply] at h
  cases h
  exact (check_eq_ok.mp hcheck).2

theorem headerEnd_eq_ok {size : ℕ} {header header' : Header}
    (h : (if 6 < size then (do skipBytes (size - 6); throw .warning) else pure header' :
      Source Header) octets = .ok header rest) : size ≤ 6 ∧ header = header' ∧ rest = octets := by
  split at h
  · obtain ⟨_, octets', -, h⟩ := bind_eq_ok.mp h
    cases h
  · rename_i hle
    cases h
    exact ⟨Nat.not_lt.mp hle, rfl, rfl⟩

theorem readHeader_eq_ok {header : Header} (h : readHeader octets = .ok header rest) :
    header.size = 14 ∧ rest = octets.drop 14 ∧ 14 ≤ octets.length := by
  rw [readHeader] at h
  obtain ⟨⟨type, size⟩, octets₁, hchunk, h⟩ := bind_eq_ok.mp h
  obtain ⟨_, octets₂, hcheck, h⟩ := bind_eq_ok.mp h
  obtain ⟨format, octets₃, hformat, h⟩ := bind_eq_ok.mp h
  obtain ⟨_, octets₄, hcheck', h⟩ := bind_eq_ok.mp h
  obtain ⟨ntracks, octets₅, hntracks, h⟩ := bind_eq_ok.mp h
  obtain ⟨division, octets₆, hdivision, h⟩ := bind_eq_ok.mp h
  obtain ⟨_, octets₇, hcheck'', h⟩ := bind_eq_ok.mp h
  have hend : size ≤ 6 ∧ header.size = 8 + size ∧ rest = octets₇ := by
    by_cases htimecode : division.testBit 15 = true
    · simp only [htimecode, if_true] at h
      obtain ⟨timecode, octets₈, hread, h⟩ := bind_eq_ok.mp h
      obtain ⟨hle, rfl, hrest⟩ := headerEnd_eq_ok h
      exact ⟨hle, rfl, hrest.trans (getTimecode_eq_ok hread)⟩
    · simp only [htimecode, Bool.false_eq_true, if_false] at h
      obtain ⟨hle, rfl, hrest⟩ := headerEnd_eq_ok h
      exact ⟨hle, rfl, hrest⟩
  obtain ⟨hrest₁, hlen₁⟩ := chunkTypeAndLength_eq_ok hchunk
  obtain ⟨⟨-, hsize⟩, rfl⟩ := check_eq_ok.mp hcheck
  obtain ⟨a, b, rfl⟩ := readTwoBytes_eq_ok hformat
  obtain ⟨-, rfl⟩ := check_eq_ok.mp hcheck'
  obtain ⟨c, d, rfl⟩ := readTwoBytes_eq_ok hntracks
  obtain ⟨e, f, rfl⟩ := readTwoBytes_eq_ok hdivision
  obtain ⟨-, rfl⟩ := check_eq_ok.mp hcheck''
  obtain ⟨hle, hheader, rfl⟩ := hend
  refine ⟨by omega, ?_, ?_⟩
  · have hdrop := congrArg (List.drop 6) hrest₁
    rw [List.drop_drop] at hdrop
    exact hdrop
  · simp only [List.length_cons] at hlen₁
    omega

theorem onSource_eq_ok {α : Type} {x : Source α} {a : α} (h : onSource x mf = .ok a mf') :
    ∃ rest, x mf.fdStream = .ok a rest ∧ mf' = { mf with fdStream := rest } := by
  rw [onSource] at h
  split at h
  · rename_i b rest hx
    cases h
    exact ⟨rest, hx, rfl⟩
  · cases h

theorem nextTrackChunk_cases {size fuel : ℕ}
    (h : nextTrackChunk (fuel + 1) 0 mf = .ok size mf') :
    ∃ type other rest, chunkTypeAndLength mf.fdStream = .ok (type, other) rest ∧
      (type = trackType ∧ other = size ∨ type ≠ trackType ∧
        nextTrackChunk fuel other { mf with fdStream := rest, position := mf.position + 8 } =
          .ok size mf') := by
  rw [nextTrackChunk, if_neg (Nat.lt_irrefl 0)] at h
  obtain ⟨⟨type, other⟩, s, hread, h⟩ := bind_eq_ok.mp h
  obtain ⟨rest, hheader, rfl⟩ := onSource_eq_ok hread
  simp only [modify_bind] at h
  refine ⟨type, other, rest, hheader, ?_⟩
  by_cases htype : type = trackType
  · rw [if_pos htype] at h
    cases h
    exact .inl ⟨htype, rfl⟩
  · rw [if_neg htype] at h
    exact .inr ⟨htype, h⟩

theorem trackAhead_of_nextTrackChunk {size fuel : ℕ}
    (h : nextTrackChunk (fuel + 1) 0 mf = .ok size mf') : TrackAhead size mf.fdStream := by
  induction fuel generalizing mf with
  | zero =>
    obtain ⟨type, other, rest, hheader, ⟨rfl, rfl⟩ | ⟨-, h⟩⟩ := nextTrackChunk_cases h
    · exact .track hheader
    · cases h
  | succ fuel ih =>
    obtain ⟨type, other, rest, hheader, ⟨rfl, rfl⟩ | ⟨htype, h⟩⟩ := nextTrackChunk_cases h
    · exact .track hheader
    · by_cases hsize : other ≤ rest.length
      · rw [nextTrackChunk_skip (by exact hsize)] at h
        exact .skip hheader htype hsize (ih h)
      · have hskip : 0 < other := by omega
        rw [nextTrackChunk, if_pos hskip] at h
        obtain ⟨_, s, hend, -⟩ := bind_eq_ok.mp h
        obtain ⟨rest', hend, -⟩ := onSource_eq_ok hend
        rw [skipBytes_eq, if_neg hsize] at hend
        cases hend

theorem openInput_kept {pooled : Option (List Octet)} (h : openInput file pooled = .ok ⟨⟩ mf) :
    mf.Kept file := by
  obtain ⟨header, s, hread, h⟩ := bind_eq_ok.mp h
  obtain ⟨rest, hheader, rfl⟩ := onSource_eq_ok hread
  obtain ⟨hsize, rfl, hlen⟩ := readHeader_eq_ok hheader
  simp only [modify_bind, get_bind] at h
  obtain ⟨remain, s, hchunk, h⟩ := bind_eq_ok.mp h
  have hahead := trackAhead_of_nextTrackChunk hchunk
  have hbuffer : 8 ≤ (makeBuffer pooled 8).length := by
    cases pooled with
    | none => exact List.length_replicate.ge
    | some buf =>
      rw [makeBuffer, List.length_append, List.length_replicate]
      omega
  obtain ⟨p, hresult, hge, hple, htrack⟩ := nextTrackChunk_ahead _ file hahead _ rfl
    (Nat.lt_succ_self _) (by exact hsize ▸ hlen) (by rw [hsize]) (show ChunkAt file header.size by rw [hsize]; exact .first)
  rw [hchunk] at hresult
  cases hresult
  cases h
  exact ⟨⟨hple, rfl, p, remain, htrack, Nat.le_refl _, (Nat.add_sub_cancel_left _ _).symm,
    .inl (Nat.le_add_right _ _)⟩, hbuffer⟩

end Open

/-- The runs of `read-event` and `next-track` on the stream of a file, also after errors, where
each call meets the condition of its function. -/
inductive Run (file : List Octet) : InputStream → Prop
  | opened {pooled : Option (List Octet)} {mf : InputStream}
      (h : openInput file pooled = .ok ⟨⟩ mf) : Run file mf
  | readEvent {mf : InputStream} (h : Run file mf) (hcounts : CountsEvent mf) :
      Run file (after readEvent mf)
  | nextTrack {mf : InputStream} (h : Run file mf)
      (hcounts : CountsTrack mf mf.fdStream mf.trackBytesRemain) :
      Run file (after nextInputTrack mf)

theorem Run.kept {file : List Octet} {mf : InputStream} (h : Run file mf) : mf.Kept file := by
  induction h with
  | opened h => exact openInput_kept h
  | readEvent _ hcounts ih => exact ih.readEvent hcounts
  | nextTrack _ hcounts ih => exact ih.nextInputTrack hcounts

/-- After each call the position and the bytes that remain are equal to the octets read, and the
bytes that remain end where the next chunk starts. -/
theorem accurate_of_run {file : List Octet} {mf : InputStream} (h : Run file mf) :
    mf.Accurate file ∧
      (ChunkAt file (mf.position + mf.trackBytesRemain) ∨ mf.fdStream = []) := by
  obtain ⟨haccurate, -⟩ := h.kept
  refine ⟨haccurate, ?_⟩
  obtain ⟨start, size, htrack, -, hremain, hinside⟩ := haccurate.track
  rcases hinside with hle | hnil
  · left
    rw [hremain, Nat.add_sub_of_le hle]
    exact htrack.chunkAt
  · exact .inr hnil

def noteFile : List Octet :=
  headerChunk 0 1 480 0 ++ fourBytes trackType ++ fourBytes 8 ++
    [0x00, 0x90, 0x3c, 0x40, 0x00, 0xff, 0x2f, 0x00]

theorem accurate_of_run_note : ∃ mf, openInput noteFile none = .ok ⟨⟩ mf ∧
    (after readEvent (after readEvent mf)).Accurate noteFile ∧
    (after readEvent (after readEvent mf)).position = 30 := by
  have hdelimited : Delimited [0x00] := show (0x00 : Octet).toNat < 0x80 by decide
  refine ⟨_, rfl, ?_, ?_⟩
  · refine (accurate_of_run (((Run.opened rfl).readEvent ?_).readEvent ?_)).1
    · refine .inr (.inr (.inr ⟨[0x00], [0x90, 0x3c, 0x40, 0x00, 0xff, 0x2f, 0x00], by decide +kernel,
        hdelimited, by decide, by decide +kernel, .inr ?_⟩))
      rw [CountsMessage, if_neg (by decide), if_neg (by decide), if_pos (by decide)]
      decide +kernel
    · refine .inr (.inr (.inr ⟨[0x00], [0xff, 0x2f, 0x00], by decide +kernel, hdelimited, by decide,
        by decide +kernel, .inr ?_⟩))
      rw [CountsMessage, if_neg (by decide), if_neg (by decide), if_neg (by decide), if_pos rfl,
        CountsMeta, if_pos rfl]
      exact ⟨by decide +kernel, fun _ => .inl rfl⟩
  · decide +kernel

/-- A note at the end of the chunk is read and not counted. -/
def cutFile : List Octet :=
  headerChunk 0 1 480 0 ++ fourBytes trackType ++ fourBytes 4 ++ [0x00, 0x90, 0x3c, 0x40]

theorem not_accurate_cut : ∃ mf, openInput cutFile none = .ok ⟨⟩ mf ∧
    ¬ (after readEvent mf).Accurate cutFile := by
  refine ⟨_, rfl, fun h => ?_⟩
  have hfile := h.fdStream
  revert hfile
  decide +kernel

end Incudine.Midifile

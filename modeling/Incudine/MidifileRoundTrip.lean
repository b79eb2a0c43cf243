import Incudine.MidifileReader
import Mathlib.Data.Int.ConditionallyCompleteOrder

/-!
# What is written is what is read

The file of a session, read back with `read-event`.
-/

namespace Incudine.Midifile

open Octets Signals OutputStream

section Round

theorem round_le_ceil (q : ℚ) : round q ≤ ⌊q⌋ + 1 := by
  rw [round]
  split
  · omega
  · split
    · exact le_rfl
    · split
      · omega
      · exact le_rfl

theorem floor_le_round (q : ℚ) : ⌊q⌋ ≤ round q := by
  rw [round]
  split
  · exact le_rfl
  · split
    · omega
    · split
      · exact le_rfl
      · omega

theorem round_mono : Monotone round := by
  intro q r hqr
  have hfloor : ⌊q⌋ ≤ ⌊r⌋ := Int.floor_le_floor hqr
  rcases hfloor.lt_or_eq with hlt | heq
  · exact (round_le_ceil q).trans ((Int.add_one_le_iff.mpr hlt).trans (floor_le_round r))
  · have hfract : Int.fract q ≤ Int.fract r := by
      rw [Int.fract, Int.fract, heq]
      linarith
    rw [round, round, heq]
    split_ifs
    all_goals first
      | omega
      | exfalso; linarith

theorem round_nonneg {q : ℚ} (h : 0 ≤ q) : 0 ≤ round q :=
  (Int.floor_nonneg.mpr h).trans (floor_le_round q)

end Round

variable {mf' : InputStream}

section Chunks

theorem readTwoBytes_twoBytes (n : ℕ) (rest : List Octet) :
    readTwoBytes (twoBytes n ++ rest) = .ok (n % 0x10000) rest := by
  rw [← two_octets n]
  rfl

theorem readFourBytes_fourBytes {n : ℕ} (h : n < 0x100000000) (rest : List Octet) :
    readFourBytes (fourBytes n ++ rest) = .ok n rest := by
  have hhigh : (n >>> 16) % 0x10000 = n >>> 16 := by
    rw [Nat.shiftRight_eq_div_pow]
    omega
  rw [readFourBytes, fourBytes, List.append_assoc, bind_ok (readTwoBytes_twoBytes _ _),
    bind_ok (readTwoBytes_twoBytes _ _), pure_apply, hhigh, two_halves]

theorem chunkTypeAndLength_ok {type length : ℕ} (htype : type < 0x100000000)
    (hlength : length < 0x100000000) (rest : List Octet) :
    chunkTypeAndLength (fourBytes type ++ fourBytes length ++ rest) = .ok (type, length) rest := by
  rw [chunkTypeAndLength, List.append_assoc, bind_ok (readFourBytes_fourBytes htype _),
    bind_ok (readFourBytes_fourBytes hlength _), pure_apply]

theorem nextTrackChunk_ok {mf : InputStream} {length : ℕ} {rest : List Octet} (fuel : ℕ)
    (hlength : length < 0x100000000)
    (hfile : mf.fdStream = fourBytes trackType ++ fourBytes length ++ rest) :
    nextTrackChunk (fuel + 1) 0 mf =
      .ok length { mf with fdStream := rest, position := mf.position + 8 } := by
  have htype : trackType < 0x100000000 := by decide
  have hread : chunkTypeAndLength mf.fdStream = .ok (trackType, length) rest := by
    rw [hfile, chunkTypeAndLength_ok htype hlength]
  rw [nextTrackChunk, if_neg (Nat.lt_irrefl 0)]
  exact (bind_ok (onSource_ok hread) _).trans rfl

def endOctets : List Octet := [0x00, 0xff, 0x2f, 0x00]

/-- The stream at the start of the next track, whose data are `rest` from the position `p`. -/
def InputStream.advanced (mf : InputStream) (length p : ℕ) (rest : List Octet) : InputStream :=
  { { mf with
      fdStream := rest
      position := p
      trackBytesRemain := length
      buffer := mf.buffer.set 0 0xff
      trackTime := 0
      tempoIndex := 0 }.updateNextTempoTime 1 with
    currentTrack := mf.currentTrack + 1 }

theorem nextInputTrack_more {mf : InputStream} {length p : ℕ} {rest : List Octet}
    (h : 0 < mf.format ∧ mf.currentTrack < mf.numberOfTracks - 1)
    (hremain : mf.trackBytesRemain = 0) (hpos : 0 < length)
    (hnext : nextTrackChunk (mf.fdStream.length + 1) 0 mf =
      .ok length { mf with fdStream := rest, position := p }) :
    nextInputTrack mf = .ok (some (mf.currentTrack + 1)) (mf.advanced length p rest) := by
  rw [nextInputTrack, get_bind, if_pos h, hremain, bind_ok hnext, if_pos hpos]
  rfl

theorem InputStream.advanced_synced (mf : InputStream) (length p : ℕ) (rest : List Octet)
    (hbuffer : 8 ≤ mf.buffer.length) (hmap : 0 < mf.tempoMap.length) :
    (mf.advanced length p rest).Synced 0xff where
  buffer := hbuffer.trans_eq List.length_set.symm
  tempo := ⟨(InputStream.TempoOk.update mf hmap).index, (InputStream.TempoOk.update mf hmap).next⟩
  running := fun _ hchannel => absurd hchannel (by decide)

theorem readEvent_end {mf : InputStream} {lastStatus : Octet} {octets rest : List Octet}
    (hsynced : mf.Synced lastStatus) (h : Delimited octets) (hfive : octets.length ≤ 5)
    (hfile : mf.fdStream = octets ++ (0xff :: 0x2f :: 0x00 :: rest))
    (hremain : mf.trackBytesRemain = octets.length + 3)
    (htime : mf.trackTime + quantity octets < fixnumBound) :
    ∃ s, readEvent mf = (do return some (← finishEnd) : Input (Option Octet)) s ∧
      mf.SameTrack s ∧ s.fdStream = rest ∧ s.trackBytesRemain = 0 ∧
      (∃ tail, s.buffer = 0xff :: 0x2f :: 0x00 :: tail ∧ 5 ≤ tail.length) ∧ s.TempoOk ∧
      s.tempoMap = mf.tempoMap := by
  have hread := readDeltaTime_ok h hfile hfive (by omega) fun _ => htime
  have hspec := mf.delayed_spec (quantity octets) octets.length (0xff :: 0x2f :: 0x00 :: rest)
  have htempo := hsynced.tempo.delayed (quantity octets) octets.length
    (0xff :: 0x2f :: 0x00 :: rest)
  have hle := (hsynced.delayed (quantity octets) octets.length
    (0xff :: 0x2f :: 0x00 :: rest)).buffer
  have hmessage := readMessage_end hle hspec.fdStream (by rw [hspec.remain]; omega)
  refine ⟨_, (bind_ok hread _).trans (bind_of_eq hmessage _),
    hspec.same.trans ⟨rfl, rfl, rfl, rfl⟩, rfl, ?_, ?_, ⟨htempo.index, htempo.next⟩, hspec.map⟩
  · simp only [hspec.remain]
    omega
  · obtain ⟨b0, b1, b2, tail, hb, htail⟩ := exists_three hle
    refine ⟨tail, ?_, htail⟩
    simp only [hb]
    rfl

theorem delimited_zero : Delimited [0x00] :=
  show (0x00 : Octet).toNat < 0x80 by decide

theorem tempoEventP_of_buffer {mf : InputStream} {tail : List Octet}
    (h : mf.buffer = 0xff :: 0x2f :: tail) : mf.tempoEventP = false := by
  rw [InputStream.tempoEventP, InputStream.metaEventP, h]
  rfl

theorem finishEnd_ok {mf : InputStream} {track : Option ℕ} {tail : List Octet}
    (hnext : nextInputTrack mf = .ok track mf') (h : mf'.buffer = 0xff :: 0x2f :: tail) :
    (do return some (← finishEnd) : Input (Option Octet)) mf = .ok (some 0xff) mf' := by
  have htempo : ¬ (mf'.tempoEventP = true ∧ 0 < mf'.ppqn) := by
    rw [tempoEventP_of_buffer h]
    simp
  have hzero : mf'.buffer[0]? = some 0xff := by rw [h]; rfl
  rw [finishEnd, bind_assoc, bind_ok hnext, messageStatus]
  simp only [get_bind, bind_assoc, if_neg htempo]
  rw [bind_ok (bufferOctet_ok hzero), pure_apply]

theorem readEvent_end_last {mf : InputStream} {lastStatus : Octet} (hsynced : mf.Synced lastStatus)
    (hfile : mf.fdStream = endOctets) (hremain : mf.trackBytesRemain = 4)
    (htime : mf.trackTime < fixnumBound)
    (hlast : ¬ (0 < mf.format ∧ mf.currentTrack < mf.numberOfTracks - 1)) :
    ∃ mf', readEvent mf = .ok (some 0xff) mf' ∧ mf'.endOfTrackP = true ∧
      mf'.trackBytesRemain = 0 := by
  have hfile' : mf.fdStream = [0x00] ++ (0xff :: 0x2f :: 0x00 :: []) := hfile
  obtain ⟨s, hread, hsame, -, hleft, ⟨tail, hbuffer, -⟩, -⟩ :=
    readEvent_end hsynced delimited_zero (by decide) hfile' hremain htime
  refine ⟨s, ?_, endOfTrackP_of_buffer hbuffer, hleft⟩
  rw [hread]
  refine finishEnd_ok (nextInputTrack_last ?_) hbuffer
  rwa [hsame.format, hsame.numberOfTracks, hsame.currentTrack]

/-- The reader at the start of a track, after the header of its chunk. -/
structure InputStream.AtTrack (mf : InputStream) (format numberOfTracks track remain : ℕ)
    (lastStatus : Octet) (rest : List Octet) : Prop where
  synced : mf.Synced lastStatus
  time : mf.trackTime = 0
  format : mf.format = format
  numberOfTracks : mf.numberOfTracks = numberOfTracks
  track : mf.currentTrack = track
  remain : mf.trackBytesRemain = remain
  fdStream : mf.fdStream = rest

theorem readEvent_end_more {mf : InputStream} {lastStatus : Octet} {length : ℕ} {rest : List Octet}
    (hsynced : mf.Synced lastStatus)
    (hfile : mf.fdStream = endOctets ++ (fourBytes trackType ++ fourBytes length ++ rest))
    (hremain : mf.trackBytesRemain = 4) (htime : mf.trackTime < fixnumBound)
    (hmore : 0 < mf.format ∧ mf.currentTrack < mf.numberOfTracks - 1) (hpos : 0 < length)
    (hlength : length < 0x100000000) :
    ∃ mf', readEvent mf = .ok (some 0xff) mf' ∧ mf'.endOfTrackP = true ∧
      mf'.AtTrack mf.format mf.numberOfTracks (mf.currentTrack + 1) length 0xff rest := by
  obtain ⟨s, hread, hsame, hrest, hleft, ⟨tail, hbuffer, htail⟩, htempo, -⟩ :=
    readEvent_end hsynced delimited_zero (by decide) hfile hremain htime
  have hbuffer' : s.buffer.set 0 0xff = 0xff :: 0x2f :: 0x00 :: tail := by
    rw [hbuffer]
    rfl
  refine ⟨s.advanced length (s.position + 8) rest, ?_, endOfTrackP_of_buffer hbuffer',
    s.advanced_synced _ _ _ (by simpa [hbuffer] using htail) (Nat.zero_lt_of_lt htempo.index), rfl,
    hsame.format, hsame.numberOfTracks, congrArg (· + 1) hsame.currentTrack, rfl, rfl⟩
  rw [hread]
  refine finishEnd_ok (nextInputTrack_more ?_ hleft hpos (nextTrackChunk_ok _ hlength hrest)) hbuffer'
  rwa [hsame.format, hsame.numberOfTracks, hsame.currentTrack]

end Chunks

variable {c : WriteCall}

section Calls

theorem readEvents_succ {mf : InputStream} {status : Octet}
    (h : readEvent mf = .ok (some status) mf') (n : ℕ) :
    readEvents (n + 1) mf = (readEvents n mf').map (Reading.of mf mf' :: ·) := by
  rw [readEvents, h]

theorem readEvents_done {mf : InputStream} (h : readEvent mf = .ok none mf') (n : ℕ) :
    readEvents (n + 1) mf = some [] := by
  rw [readEvents, h]

theorem readEvents_of_fails {mf : InputStream} (h : Fails readEvent mf) (n : ℕ) :
    readEvents n mf = none := by
  obtain ⟨e, s, h⟩ := h
  cases n with
  | zero => rfl
  | succ n => rw [readEvents, h]

theorem readEvents_add {mf : InputStream} {n : ℕ} {readings : List Reading}
    (h : readEvents n mf = some readings) (k : ℕ) : readEvents (n + k) mf = some readings := by
  induction n generalizing mf readings with
  | zero => cases h
  | succ n ih =>
    rw [Nat.succ_add_eq_add_succ, Nat.add_succ]
    cases hread : readEvent mf with
    | error e s => rw [readEvents, hread] at h; cases h
    | ok status s =>
      cases status with
      | none => rwa [readEvents_done hread] at h ⊢
      | some status =>
        rw [readEvents_succ hread] at h ⊢
        obtain ⟨tail, htail, rfl⟩ := Option.map_eq_some_iff.mp h
        rw [ih htail, Option.map_some]

def body (expandSize : ℕ) (mf : OutputStream) : List WriteCall → List Octet
  | [] => []
  | c :: cs => c.octets mf ++ body expandSize (mf.after expandSize c) cs

def trackReadings (expandSize track : ℕ) (mf : OutputStream) : List WriteCall → List Reading
  | [] => []
  | c :: cs => .message track (mf.trackTime + mf.deltaTime c.beats) c.message ::
      trackReadings expandSize track (mf.after expandSize c) cs

/-- The delta times and the lengths of the messages can be read. -/
def CallsReadable (expandSize : ℕ) (mf : OutputStream) : List WriteCall → Prop
  | [] => True
  | c :: cs => Readable (mf.deltaTime c.beats) c.message ∧
      CallsReadable expandSize (mf.after expandSize c) cs

theorem octets_eq (mf : OutputStream) (c : WriteCall) :
    c.octets mf = eventOctets (mf.deltaTime c.beats) (c.running mf) c.message := rfl

theorem running_spec {mf : OutputStream} (h : c.running mf = true) :
    c.message.headD 0 = mf.lastStatus ∧ mf.lastStatus.toNat < 0xf0 := by
  cases c with
  | shortEvent beats msg size =>
    simp only [WriteCall.running, decide_eq_true_eq] at h
    obtain ⟨hstatus, hchannel⟩ := h
    rw [hstatus] at hchannel
    exact ⟨hstatus, UInt8.lt_iff_toNat_lt.mp hchannel⟩
  | event beats data start finish => exact absurd h Bool.false_ne_true

theorem body_length_pos {expandSize : ℕ} {mf : OutputStream} (cs : List WriteCall) :
    0 < (body expandSize mf (c :: cs)).length := by
  have hpos := octetCount_pos (mf.deltaTime c.beats)
  rw [body, List.length_append, WriteCall.octets, List.length_append, length_encode]
  omega

variable {expandSize : ℕ} {out : OutputStream} {mf : InputStream} {calls : List WriteCall}
  {rest : List Octet} {k : ℕ}

theorem readEvent_call {cs : List WriteCall} (hwf : c.WellFormed) (hfits : out.Fits expandSize c)
    (hreadable : Readable (out.deltaTime c.beats) c.message) (hsynced : mf.Synced out.lastStatus)
    (htime : mf.trackTime = out.trackTime)
    (hfile : mf.fdStream = body expandSize out (c :: cs) ++ rest)
    (hremain : mf.trackBytesRemain = (body expandSize out (c :: cs)).length + k)
    (hmore : 0 < (body expandSize (out.after expandSize c) cs).length + k) :
    ∃ status mf', readEvent mf = .ok (some status) mf' ∧ mf.SameTrack mf' ∧
      mf'.Synced (out.after expandSize c).lastStatus ∧
      mf'.trackTime = (out.after expandSize c).trackTime ∧
      mf'.fdStream = body expandSize (out.after expandSize c) cs ++ rest ∧
      mf'.trackBytesRemain = (body expandSize (out.after expandSize c) cs).length + k ∧
      Reading.of mf mf' =
        .message mf.currentTrack (out.trackTime + out.deltaTime c.beats) c.message := by
  rw [body, octets_eq, List.append_assoc] at hfile
  rw [body, octets_eq, List.length_append] at hremain
  obtain ⟨status, mf', hread, hfound⟩ := readEvent_ok hsynced hwf.complete running_spec hfile
    hreadable.delta (by rw [htime]; exact hfits.time) hreadable.length (by omega)
  have hend : mf'.endOfTrackP = false := hwf.complete.endOfTrackP_eq hfound.message
  refine ⟨status, mf', hread, hfound.same, hfound.synced hwf.complete, ?_, hfound.fdStream, ?_, ?_⟩
  · rw [hfound.time, htime]
    rfl
  · rw [hfound.remain]
    omega
  · rw [Reading.of, hend, if_neg Bool.false_ne_true, hfound.time, hfound.length, hfound.message,
      htime]

section

variable (hwf : ∀ c ∈ calls, c.WellFormed) (hfit : out.AllFit expandSize calls)
include hwf hfit

theorem readEvents_calls (hreadable : CallsReadable expandSize out calls)
    (hsynced : mf.Synced out.lastStatus) (htime : mf.trackTime = out.trackTime)
    (hfile : mf.fdStream = body expandSize out calls ++ rest)
    (hremain : mf.trackBytesRemain = (body expandSize out calls).length + k) (hk : 0 < k) :
    ∃ mf', mf.SameTrack mf' ∧ mf'.Synced (out.afterCalls expandSize calls).lastStatus ∧
      mf'.trackTime = (out.afterCalls expandSize calls).trackTime ∧ mf'.fdStream = rest ∧
      mf'.trackBytesRemain = k ∧
      ∀ n, readEvents (calls.length + n) mf = (readEvents n mf').map
        (trackReadings expandSize mf.currentTrack out calls ++ ·) := by
  induction calls generalizing out mf with
  | nil =>
    refine ⟨mf, ⟨rfl, rfl, rfl, rfl⟩, hsynced, htime, hfile, ?_, ?_⟩
    · rw [hremain]
      exact Nat.zero_add k
    · intro n
      simp [trackReadings]
  | cons c cs ih =>
    obtain ⟨status, mf₁, hread, hsame, hsynced', htime', hfile', hremain', hreading⟩ :=
      readEvent_call (hwf c List.mem_cons_self) hfit.1 hreadable.1 hsynced htime hfile hremain
        (by omega)
    obtain ⟨mf', hsame', hsynced'', htime'', hfile'', hremain'', hreads⟩ :=
      ih (fun c' hc' => hwf c' (List.mem_cons_of_mem c hc')) hfit.2 hreadable.2 hsynced' htime'
        hfile' hremain'
    refine ⟨mf', hsame.trans hsame', hsynced'', htime'', hfile'', hremain'', ?_⟩
    intro n
    rw [List.length_cons, Nat.succ_add_eq_add_succ, Nat.add_succ, readEvents_succ hread, hreads n,
      Option.map_map, hreading, hsame.currentTrack]
    rfl

theorem readEvents_calls_fail (hfails : ¬ CallsReadable expandSize out calls ∨ calls ≠ [] ∧ k = 0)
    (hsynced : mf.Synced out.lastStatus) (htime : mf.trackTime = out.trackTime)
    (hfile : mf.fdStream = body expandSize out calls ++ rest)
    (hremain : mf.trackBytesRemain = (body expandSize out calls).length + k) (n : ℕ) :
    readEvents n mf = none := by
  induction calls generalizing out mf n with
  | nil => exact hfails.elim (absurd trivial) fun h => absurd rfl h.1
  | cons c cs ih =>
    have hc := hwf c List.mem_cons_self
    have hlt : mf.trackTime + out.deltaTime c.beats < fixnumBound := by
      rw [htime]
      exact hfit.1.time
    have hevent := hfile
    have hleft := hremain
    rw [body, octets_eq, List.append_assoc] at hevent
    rw [body, octets_eq, List.length_append] at hleft
    by_cases hfirst : Readable (out.deltaTime c.beats) c.message
    swap
    · exact readEvents_of_fails
        (readEvent_fails hsynced hc.complete running_spec hevent hlt (by omega) hfirst) n
    rcases Nat.eq_zero_or_pos ((body expandSize (out.after expandSize c) cs).length + k) with
      hend | hmore
    · exact readEvents_of_fails
        (readEvent_fails_at_end hsynced hc.complete running_spec hevent hlt (by omega)) n
    have hrest : ¬ CallsReadable expandSize (out.after expandSize c) cs ∨ cs ≠ [] ∧ k = 0 := by
      refine hfails.imp (fun hnot h => hnot ⟨hfirst, h⟩) fun hk => ⟨?_, hk.2⟩
      rintro rfl
      exact hmore.ne' (by rw [hk.2, body, List.length_nil])
    obtain ⟨status, mf₁, hread, -, hsynced', htime', hfile', hremain', -⟩ :=
      readEvent_call hc hfit.1 hfirst hsynced htime hfile hremain hmore
    cases n with
    | zero => rfl
    | succ n =>
      rw [readEvents_succ hread, ih (fun c' hc' => hwf c' (List.mem_cons_of_mem c hc')) hfit.2
        hrest hsynced' htime' hfile' hremain' n]
      rfl

end

end Calls

section Tracks

def written (mf : OutputStream) : List Octet :=
  mf.buffer.take mf.bufferIndex

variable {expandSize : ℕ} {out : OutputStream} {mf : InputStream} {calls : List WriteCall}

theorem written_after (h : out.Metrical) (c : WriteCall) :
    written (out.after expandSize c) = written out ++ c.octets out := by
  have hgrown := le_length_grown h.index expandSize c.eventSize
  have htake : (out.grown expandSize c.eventSize).take out.bufferIndex = written out := by
    rw [grown, written]
    split
    · rw [List.take_append_of_le_length h.index]
    · rfl
  rw [written, OutputStream.after]
  simp only [take_splice hgrown, htake]

theorem written_afterCalls (h : out.Metrical) (hfit : out.AllFit expandSize calls) :
    written (out.afterCalls expandSize calls) = written out ++ body expandSize out calls := by
  induction calls generalizing out with
  | nil => simp [OutputStream.afterCalls, body]
  | cons c cs ih =>
    have hnext := ih (h.after hfit.1) hfit.2
    rw [written_after h, List.append_assoc] at hnext
    exact hnext

theorem afterCalls_trackTime_lt (htime : out.trackTime < fixnumBound)
    (hfit : out.AllFit expandSize calls) :
    (out.afterCalls expandSize calls).trackTime < fixnumBound := by
  induction calls generalizing out with
  | nil => exact htime
  | cons c cs ih => exact ih hfit.1.time hfit.2

theorem octets_endCall (mf : OutputStream) : endCall.octets mf = endOctets := by
  have hdelta : mf.deltaTime endCall.beats = 0 := mf.deltaTime_zero
  have hrunning : endCall.running mf = false := by
    have hstatus : ¬ endCall.status < 0xf0 := by decide
    rw [endCall, WriteCall.running, ← endCall]
    simp [hstatus]
  rw [WriteCall.octets, hdelta, hrunning]
  rfl

def content (expandSize : ℕ) (mf : OutputStream) : List Octet :=
  written (mf.ended expandSize)

theorem content_eq (h : out.Metrical) :
    content expandSize out = written out ++ if out.endOfTrackP then [] else endOctets := by
  cases hp : out.endOfTrackP with
  | true =>
    rw [content, ended, if_pos hp]
    simp
  | false =>
    rw [content, ended, hp, if_neg Bool.false_ne_true, written_after h, octets_endCall]
    rfl

theorem length_content (h : out.Metrical) (hend : out.EndFits expandSize) :
    (content expandSize out).length = (out.ended expandSize).bufferIndex := by
  rw [content, written, List.length_take]
  exact min_eq_left (h.ended hend).index

theorem lastStatus_ended (expandSize : ℕ) (mf : OutputStream) :
    (mf.ended expandSize).lastStatus = 0xff := by
  rw [ended]
  split
  · rename_i hend
    simp only [endOfTrackP, decide_eq_true_eq] at hend
    exact hend.1
  · rfl

/-- The last event of the track is not a meta event whose last byte but one is that of the type
of an end of track. -/
def EndsOpen (track : List WriteCall) : Prop :=
  ∀ c ∈ track.getLast?, ¬ (c.status = 0xff ∧ c.message[c.message.length - 2]? = some 0x2f)

theorem endOfTrackP_after (h : out.Metrical) (hlen : 2 ≤ c.message.length) :
    (out.after expandSize c).endOfTrackP = true ↔
      c.status = 0xff ∧ c.message[c.message.length - 2]? = some 0x2f := by
  have hgrown := le_length_grown h.index expandSize c.eventSize
  have hstatus : (out.after expandSize c).lastStatus = c.status := rfl
  have hpos := octetCount_pos (out.deltaTime c.beats)
  rw [endOfTrackP, hstatus, decide_eq_true_eq]
  by_cases hmeta : c.status = 0xff
  · have hrunning : c.running out = false := by
      cases hrun : c.running out with
      | false => rfl
      | true =>
        obtain ⟨hlast, hchannel⟩ := running_spec hrun
        have hsame : out.lastStatus = 0xff := by
          rw [← hlast]
          exact hmeta
        rw [hsame] at hchannel
        exact absurd hchannel (by decide)
    have hoctets : c.octets out = encode (out.deltaTime c.beats) ++ c.message := by
      rw [WriteCall.octets, hrunning, if_neg Bool.false_ne_true]
    have hlength : (c.octets out).length =
        octetCount (out.deltaTime c.beats) + c.message.length := by
      rw [hoctets, List.length_append, length_encode]
    have hindex : (out.after expandSize c).bufferIndex - 2 =
        out.bufferIndex + ((c.octets out).length - 2) := by
      simp only [OutputStream.after]
      omega
    have hlast : (out.after expandSize c).buffer[(out.after expandSize c).bufferIndex - 2]? =
        c.message[c.message.length - 2]? := by
      rw [hindex]
      simp only [OutputStream.after]
      rw [getElem?_splice hgrown (by omega), hlength, hoctets,
        List.getElem?_append_right (by rw [length_encode]; omega), length_encode]
      congr 1
      omega
    have hmany : 2 < (out.after expandSize c).bufferIndex := by
      simp only [OutputStream.after]
      omega
    rw [hlast]
    simp [hmeta, hmany]
  · simp [hmeta]

theorem allFit_of_append {cs cs' : List WriteCall} (h : out.AllFit expandSize (cs ++ cs')) :
    out.AllFit expandSize cs := by
  induction cs generalizing out with
  | nil => exact trivial
  | cons c cs ih => exact ⟨h.1, ih h.2⟩

theorem endOfTrackP_afterCalls (h : out.Metrical) (hindex : out.bufferIndex = 0)
    (hwf : ∀ c ∈ calls, c.WellFormed) (hfit : out.AllFit expandSize calls) :
    (out.afterCalls expandSize calls).endOfTrackP = true ↔ ¬ EndsOpen calls := by
  rcases List.eq_nil_or_concat calls with rfl | ⟨cs, c, rfl⟩
  · have hend : out.endOfTrackP = false := by simp [endOfTrackP, hindex]
    have hopen : EndsOpen [] := by simp [EndsOpen]
    simp [OutputStream.afterCalls, hend, hopen]
  · rw [List.concat_eq_append] at hwf hfit ⊢
    have hcs := allFit_of_append hfit
    have hafter : out.afterCalls expandSize (cs ++ [c]) =
        (out.afterCalls expandSize cs).after expandSize c := by
      rw [OutputStream.afterCalls, List.foldl_append]
      rfl
    have hlen := (hwf c (by simp)).complete.two_le_length
    rw [hafter, endOfTrackP_after (h.afterCalls hcs) hlen, EndsOpen]
    simp [List.getLast?_append]

def TracksReadable (expandSize : ℕ) (mf : OutputStream) :
    List WriteCall → List (List WriteCall) → Prop
  | track, [] => CallsReadable expandSize mf track ∧ EndsOpen track
  | track, next :: tracks => (CallsReadable expandSize mf track ∧ EndsOpen track) ∧
      TracksReadable expandSize ((mf.afterCalls expandSize track).next expandSize) next tracks

def sessionReadings (expandSize : ℕ) (index : ℕ) (mf : OutputStream) :
    List WriteCall → List (List WriteCall) → List Reading
  | track, [] => trackReadings expandSize index mf track ++ [.endOfTrack index]
  | track, next :: tracks => trackReadings expandSize index mf track ++ .endOfTrack index ::
      sessionReadings expandSize (index + 1) ((mf.afterCalls expandSize track).next expandSize)
        next tracks

def laterChunks (expandSize : ℕ) (mf : OutputStream) : List (List WriteCall) → List Octet
  | [] => []
  | next :: tracks => (mf.next expandSize).chunks expandSize next tracks

theorem chunks_eq (h : out.Metrical) (track : List WriteCall) (tracks : List (List WriteCall))
    (hend : (out.afterCalls expandSize track).EndFits expandSize)
    (hfit : out.AllFit expandSize track) :
    out.chunks expandSize track tracks =
      fourBytes trackType ++
        fourBytes (content expandSize (out.afterCalls expandSize track)).length ++
        (content expandSize (out.afterCalls expandSize track) ++
          laterChunks expandSize (out.afterCalls expandSize track) tracks) := by
  rw [length_content (h.afterCalls hfit) hend]
  cases tracks with
  | nil =>
    rw [chunks, chunk, laterChunks, List.append_nil]
    rfl
  | cons next tracks =>
    rw [chunks, chunk, laterChunks, ← List.append_assoc]
    rfl

theorem OutputStream.TracksFit.first {track : List WriteCall} {tracks : List (List WriteCall)}
    (h : out.TracksFit expandSize track tracks) :
    out.AllFit expandSize track ∧ (out.afterCalls expandSize track).EndFits expandSize := by
  cases tracks with
  | nil => exact h
  | cons next tracks => exact ⟨h.1, h.2.1⟩

section Track

variable {format numberOfTracks index : ℕ} {rest : List Octet}

section

variable (h : out.Metrical) (hindex : out.bufferIndex = 0) (htime : out.trackTime = 0)
  (hwf : ∀ c ∈ calls, c.WellFormed) (hfit : out.AllFit expandSize calls)
  (hat : mf.AtTrack format numberOfTracks index (content expandSize (out.afterCalls expandSize calls)).length out.lastStatus (content expandSize (out.afterCalls expandSize calls) ++ rest))
include h hindex htime hwf hfit hat

theorem readEvents_track (hreadable : CallsReadable expandSize out calls) (hopen : EndsOpen calls) :
    ∃ mf', mf.SameTrack mf' ∧ mf'.Synced (out.afterCalls expandSize calls).lastStatus ∧
      mf'.trackTime < fixnumBound ∧ mf'.fdStream = endOctets ++ rest ∧ mf'.trackBytesRemain = 4 ∧
      ∀ n, readEvents (calls.length + n) mf = (readEvents n mf').map
        (trackReadings expandSize index out calls ++ ·) := by
  have hwritten : written out = [] := by rw [written, hindex, List.take_zero]
  have hend : (out.afterCalls expandSize calls).endOfTrackP = false := by
    rw [← Bool.not_eq_true, endOfTrackP_afterCalls h hindex hwf hfit, not_not]
    exact hopen
  have hcontent : content expandSize (out.afterCalls expandSize calls) =
      body expandSize out calls ++ endOctets := by
    rw [content_eq (h.afterCalls hfit), written_afterCalls h hfit, hwritten, hend, List.nil_append,
      if_neg Bool.false_ne_true]
  have hremain := hat.remain
  have hfile := hat.fdStream
  rw [hcontent, List.length_append] at hremain
  rw [hcontent, List.append_assoc] at hfile
  obtain ⟨mf', hsame, hsynced, htime', hrest, hleft, hreads⟩ := readEvents_calls (k := 4) hwf hfit
    hreadable hat.synced (by rw [hat.time, htime]) hfile hremain (by decide)
  refine ⟨mf', hsame, hsynced, ?_, hrest, hleft, ?_⟩
  · rw [htime']
    exact afterCalls_trackTime_lt (by rw [htime]; decide) hfit
  · intro n
    rw [hreads n, hat.track]

theorem readEvents_track_none (hbad : ¬ (CallsReadable expandSize out calls ∧ EndsOpen calls))
    (n : ℕ) : readEvents n mf = none := by
  have hwritten : written out = [] := by rw [written, hindex, List.take_zero]
  have hcontent : content expandSize (out.afterCalls expandSize calls) =
      body expandSize out calls ++
        if (out.afterCalls expandSize calls).endOfTrackP then [] else endOctets := by
    rw [content_eq (h.afterCalls hfit), written_afterCalls h hfit, hwritten, List.nil_append]
  have hremain := hat.remain
  have hfile := hat.fdStream
  have hstart : mf.trackTime = out.trackTime := by rw [hat.time, htime]
  rw [hcontent, List.length_append] at hremain
  rw [hcontent, List.append_assoc] at hfile
  by_cases hreadable : CallsReadable expandSize out calls
  · have hclosed : ¬ EndsOpen calls := fun hopen => hbad ⟨hreadable, hopen⟩
    have hcalls : calls ≠ [] := by
      rintro rfl
      exact hclosed (by simp [EndsOpen])
    rw [(endOfTrackP_afterCalls h hindex hwf hfit).mpr hclosed, if_pos rfl] at hremain
    exact readEvents_calls_fail (k := 0) hwf hfit (.inr ⟨hcalls, rfl⟩) hat.synced hstart hfile
      hremain n
  · exact readEvents_calls_fail hwf hfit (.inl hreadable) hat.synced hstart hfile hremain n

end

theorem exists_readEvents_of_map {mf : InputStream} {before readings : List Reading} {k : ℕ}
    (hreads : ∀ n, readEvents (k + n) mf = (readEvents n mf').map (before ++ ·)) :
    (∃ n, readEvents n mf = some (before ++ readings)) ↔ ∃ n, readEvents n mf' = some readings := by
  constructor
  · rintro ⟨n, hn⟩
    have hmore := readEvents_add hn k
    rw [Nat.add_comm, hreads] at hmore
    obtain ⟨tail, htail, heq⟩ := Option.map_eq_some_iff.mp hmore
    exact ⟨n, by rw [htail, List.append_cancel_left heq]⟩
  · rintro ⟨n, hn⟩
    exact ⟨k + n, by rw [hreads, hn, Option.map_some]⟩

theorem readEvents_end {mf : InputStream} {status : Octet}
    (hread : readEvent mf = .ok (some status) mf') (hend : mf'.endOfTrackP = true) (n : ℕ) :
    readEvents (1 + n) mf = (readEvents n mf').map ([.endOfTrack mf.currentTrack] ++ ·) := by
  rw [Nat.add_comm, readEvents_succ hread, Reading.of, if_pos hend]
  rfl

theorem readEvents_no_bytes {mf : InputStream} (h : mf.trackBytesRemain = 0) (n : ℕ) :
    readEvents (n + 1) mf = some [] := by
  have hread : readEvent mf = .ok none mf := by
    rw [readEvent, readDeltaTime]
    simp only [bind_assoc, get_bind, h, Nat.lt_irrefl, if_false, pure_bind]
    rfl
  exact readEvents_done hread n

theorem readEvents_tracks {track : List WriteCall} {tracks : List (List WriteCall)}
    (h : out.Metrical) (hindex : out.bufferIndex = 0) (htime : out.trackTime = 0)
    (hwf : ∀ t ∈ track :: tracks, ∀ c ∈ t, c.WellFormed)
    (hfit : out.TracksFit expandSize track tracks) (hformat : 0 < tracks.length → 0 < format)
    (hnumber : numberOfTracks = index + tracks.length + 1)
    (hat : mf.AtTrack format numberOfTracks index
      (content expandSize (out.afterCalls expandSize track)).length out.lastStatus
      (content expandSize (out.afterCalls expandSize track) ++
        laterChunks expandSize (out.afterCalls expandSize track) tracks)) :
    (∃ n, readEvents n mf = some (sessionReadings expandSize index out track tracks)) ↔
      TracksReadable expandSize out track tracks := by
  have htrack := hwf track List.mem_cons_self
  induction tracks generalizing out mf track index with
  | nil =>
    rw [TracksReadable, sessionReadings]
    by_cases hgood : CallsReadable expandSize out track ∧ EndsOpen track
    · obtain ⟨mf₁, hsame, hsynced, hbound, hrest, hleft, hreads⟩ :=
        readEvents_track h hindex htime htrack hfit.1 hat hgood.1 hgood.2
      have hlast : ¬ (0 < mf₁.format ∧ mf₁.currentTrack < mf₁.numberOfTracks - 1) := by
        rw [hsame.currentTrack, hsame.numberOfTracks, hat.track, hat.numberOfTracks, hnumber]
        simp
      obtain ⟨mf₂, hread, hend, hzero⟩ :=
        readEvent_end_last hsynced (by rw [hrest]; rfl) hleft hbound hlast
      have htrackEnd := readEvents_end hread hend 1
      rw [readEvents_no_bytes hzero 0, hsame.currentTrack, hat.track] at htrackEnd
      rw [exists_readEvents_of_map hreads]
      exact ⟨fun _ => hgood, fun _ => ⟨_, htrackEnd⟩⟩
    · constructor
      · rintro ⟨n, hn⟩
        rw [readEvents_track_none h hindex htime htrack hfit.1 hat hgood n] at hn
        cases hn
      · intro hreadable
        exact absurd hreadable hgood
  | cons next tracks ih =>
    obtain ⟨hall, hendFits, hrestFit⟩ := hfit
    rw [TracksReadable, sessionReadings]
    by_cases hgood : CallsReadable expandSize out track ∧ EndsOpen track
    · obtain ⟨mf₁, hsame, hsynced, hbound, hrest, hleft, hreads⟩ :=
        readEvents_track h hindex htime htrack hall hat hgood.1 hgood.2
      have hmetrical := (h.afterCalls hall).next hendFits
      obtain ⟨hnextFit, hnextEnd⟩ := hrestFit.first
      have hlast : ((out.afterCalls expandSize track).next expandSize).lastStatus = 0xff :=
        lastStatus_ended expandSize _
      have hmore : 0 < mf₁.format ∧ mf₁.currentTrack < mf₁.numberOfTracks - 1 := by
        rw [hsame.format, hsame.currentTrack, hsame.numberOfTracks, hat.format, hat.track,
          hat.numberOfTracks, hnumber, List.length_cons]
        exact ⟨hformat (Nat.succ_pos _), by omega⟩
      have hlength := length_content (hmetrical.afterCalls hnextFit) hnextEnd
      rw [laterChunks, chunks_eq hmetrical next tracks hnextEnd hnextFit] at hrest
      obtain ⟨mf₂, hread, hend, hat'⟩ := readEvent_end_more hsynced hrest hleft hbound hmore
        (by rw [hlength]; exact ended_bufferIndex_pos expandSize _)
        (by rw [hlength]; exact hnextEnd.length)
      rw [hsame.format, hat.format, hsame.numberOfTracks, hat.numberOfTracks, hsame.currentTrack,
        hat.track, ← hlast] at hat'
      have hreads' (n : ℕ) : readEvents (track.length + 1 + n) mf = (readEvents n mf₂).map
          ((trackReadings expandSize index out track ++ [.endOfTrack index]) ++ ·) := by
        rw [Nat.add_assoc, hreads, readEvents_end hread hend, hsame.currentTrack, hat.track,
          Option.map_map]
        simp only [List.append_assoc]
        rfl
      have hsession := ih hmetrical rfl rfl (fun t ht => hwf t (List.mem_cons_of_mem track ht))
        hrestFit (fun _ => hformat (Nat.succ_pos _))
        (by rw [hnumber, List.length_cons]; omega) hat'
        (hwf next (List.mem_cons_of_mem track List.mem_cons_self))
      rw [List.append_cons]
      exact (exists_readEvents_of_map hreads').trans
        ⟨fun hread => ⟨hgood, hsession.mp hread⟩, fun hreadable => hsession.mpr hreadable.2⟩
    · constructor
      · rintro ⟨n, hn⟩
        rw [readEvents_track_none h hindex htime htrack hall hat hgood n] at hn
        cases hn
      · rintro ⟨hreadable, -⟩
        exact absurd hreadable hgood

end Track

def expectedReadings (ppqn : ℕ) : ℕ → List WriteCall → List (List WriteCall) → List Reading
  | index, track, [] =>
    track.map (fun c => .message index (round (c.beats * ppqn)).toNat c.message) ++
      [.endOfTrack index]
  | index, track, next :: tracks =>
    track.map (fun c => .message index (round (c.beats * ppqn)).toNat c.message) ++
      .endOfTrack index :: expectedReadings ppqn (index + 1) next tracks

/-- The events of a track are in the order of their beats. -/
def InOrder (track : List WriteCall) : Prop :=
  track.Pairwise fun c c' => c.beats ≤ c'.beats

theorem trackTime_after (expandSize : ℕ) (h : (out.trackTime : ℤ) ≤ round (c.beats * out.ppqn)) :
    ((out.after expandSize c).trackTime : ℤ) = round (c.beats * out.ppqn) := by
  have hafter : (out.after expandSize c).trackTime = out.trackTime + out.deltaTime c.beats := rfl
  rw [hafter, OutputStream.deltaTime]
  omega

theorem trackReadings_eq {index : ℕ} (horder : InOrder calls)
    (hstart : ∀ c ∈ calls, (out.trackTime : ℤ) ≤ round (c.beats * out.ppqn)) :
    trackReadings expandSize index out calls =
      calls.map fun c => .message index (round (c.beats * out.ppqn)).toNat c.message := by
  induction calls generalizing out with
  | nil => rfl
  | cons c cs ih =>
    obtain ⟨hfirst, hrest⟩ := List.pairwise_cons.mp horder
    have htime := trackTime_after expandSize (hstart c List.mem_cons_self)
    have hpulse : out.trackTime + out.deltaTime c.beats = (round (c.beats * out.ppqn)).toNat := by
      rw [← htime]
      rfl
    have hlater : ∀ c' ∈ cs, ((out.after expandSize c).trackTime : ℤ) ≤
        round (c'.beats * (out.after expandSize c).ppqn) := by
      intro c' hc'
      rw [htime]
      refine round_mono (mul_le_mul_of_nonneg_right ?_ (Nat.cast_nonneg _))
      exact NNRat.coe_le_coe.mpr (hfirst c' hc')
    rw [trackReadings, List.map_cons, hpulse, ih hrest hlater]
    rfl

theorem sessionReadings_eq {index : ℕ} {track : List WriteCall} {tracks : List (List WriteCall)}
    (htime : out.trackTime = 0) (horder : ∀ t ∈ track :: tracks, InOrder t) :
    sessionReadings expandSize index out track tracks =
      expectedReadings out.ppqn index track tracks := by
  have hstart (out : OutputStream) (htime : out.trackTime = 0) (calls : List WriteCall) :
      ∀ c ∈ calls, (out.trackTime : ℤ) ≤ round (c.beats * out.ppqn) := by
    intro c _
    rw [htime]
    exact round_nonneg (mul_nonneg (NNRat.coe_nonneg _) (Nat.cast_nonneg _))
  induction tracks generalizing out track index with
  | nil =>
    rw [sessionReadings, expectedReadings,
      trackReadings_eq (horder track List.mem_cons_self) (hstart out htime track)]
  | cons next tracks ih =>
    have hppqn : ((out.afterCalls expandSize track).next expandSize).ppqn = out.ppqn := by
      rw [OutputStream.next, flushed]
      simp only [ended_ppqn, afterCalls_ppqn]
    have hrest : sessionReadings expandSize (index + 1)
        ((out.afterCalls expandSize track).next expandSize) next tracks =
        expectedReadings ((out.afterCalls expandSize track).next expandSize).ppqn (index + 1) next
          tracks := ih rfl (fun t ht => horder t (List.mem_cons_of_mem track ht))
    rw [hppqn] at hrest
    rw [sessionReadings, expectedReadings,
      trackReadings_eq (horder track List.mem_cons_self) (hstart out htime track), hrest]

end Tracks

section Header

theorem lt_or_testBit {n : ℕ} (h : n < 0x10000) : n.testBit 15 = false ↔ n < 0x8000 := by
  rw [Nat.testBit_eq_decide_div_mod_eq, decide_eq_false_iff_not]
  omega

def DivisionReadable (division : ℕ) : Prop :=
  division < 0x8000 ∨ division / 0x100 ∈ [0xe2, 0xe3, 0xe7, 0xe8]

theorem toNat_shift {n : ℕ} (h : n < 0x10000) : (UInt8.ofNat (n >>> 8)).toNat = n / 0x100 := by
  rw [UInt8.toNat_ofNat', Nat.shiftRight_eq_div_pow]
  omega

theorem readTwoBytes_header {n : ℕ} (h : n < 0x10000) (rest : List Octet) :
    readTwoBytes (UInt8.ofNat (n >>> 8) :: UInt8.ofNat (n &&& 0xff) :: rest) = .ok n rest := by
  have hread : readTwoBytes (UInt8.ofNat (n >>> 8) :: UInt8.ofNat (n &&& 0xff) :: rest) =
      .ok ((UInt8.ofNat (n >>> 8)).toNat <<< 8 ||| (UInt8.ofNat (n &&& 0xff)).toNat) rest := rfl
  have hlow : n % 0x100 < 2 ^ 8 := Nat.mod_lt n (by decide)
  rw [hread, toNat_shift h, toNat_low, ← Nat.shiftLeft_add_eq_or_of_lt hlow, Nat.shiftLeft_eq]
  congr 1
  omega

/-- What `read-header` does after the division. -/
def finishHeader (format ntracks division : ℕ) : Source Header := do
  let (ppqnOrSmpteFormat, ticksPerFrame) ←
    if division.testBit 15 then do
      let (smpteFormat, ticks) ← getTimecode division
      pure (smpteFormat, some ticks)
    else pure (division, none)
  return { format, ntracks, ppqnOrSmpteFormat, ticksPerFrame, size := 14 }

theorem readHeader_headerChunk {format numberOfTracks division : ℕ} (hformat : format ≤ 2)
    (htracks : numberOfTracks < 0x10000) (hdivision : division < 0x10000)
    (hsingle : format = 0 → numberOfTracks = 1) (rest : List Octet) :
    readHeader (headerChunk format numberOfTracks division 0 ++ rest) =
      finishHeader format numberOfTracks division rest := by
  have hread : chunkTypeAndLength (headerChunk format numberOfTracks division 0 ++ rest) =
      .ok (headerType, 6) (0 :: UInt8.ofNat (format &&& 0xff) ::
        UInt8.ofNat (numberOfTracks >>> 8) :: UInt8.ofNat (numberOfTracks &&& 0xff) ::
        UInt8.ofNat (division >>> 8) :: UInt8.ofNat (division &&& 0xff) :: rest) := rfl
  have hzero : UInt8.ofNat (format >>> 8) = 0 := by
    rw [Nat.shiftRight_eq_div_pow, Nat.div_eq_of_lt (by omega)]
    rfl
  have hbyte := readTwoBytes_header (n := format) (by omega)
    (UInt8.ofNat (numberOfTracks >>> 8) :: UInt8.ofNat (numberOfTracks &&& 0xff) ::
      UInt8.ofNat (division >>> 8) :: UInt8.ofNat (division &&& 0xff) :: rest)
  rw [hzero] at hbyte
  rw [readHeader, bind_ok hread]
  simp only [Nat.lt_irrefl, if_false]
  rw [bind_ok (check_pos ⟨rfl, le_rfl⟩ _ _), bind_ok hbyte, bind_ok (check_pos hformat _ _),
    bind_ok (readTwoBytes_header htracks _), bind_ok (readTwoBytes_header hdivision _),
    bind_ok (check_pos hsingle _ _)]
  rfl

theorem high_octet {n : ℕ} (h : n < 0x10000) : n >>> 8 &&& 0xff = n / 0x100 := by
  rw [Nat.shiftRight_eq_div_pow, Nat.and_two_pow_sub_one_eq_mod _ 8]
  omega

theorem finishHeader_ok (format numberOfTracks : ℕ) {division : ℕ} (hdivision : division < 0x10000)
    (h : DivisionReadable division) (rest : List Octet) :
    ∃ header, finishHeader format numberOfTracks division rest = .ok header rest ∧
      header.format = format ∧ header.ntracks = numberOfTracks := by
  cases htime : division.testBit 15 with
  | false =>
    rw [finishHeader, htime]
    exact ⟨_, rfl, rfl, rfl⟩
  | true =>
    have hcode : division >>> 8 &&& 0xff ∈ [0xe2, 0xe3, 0xe7, 0xe8] := by
      rw [high_octet hdivision]
      rcases h with hlt | hcode
      · rw [(lt_or_testBit hdivision).mpr hlt] at htime
        cases htime
      · exact hcode
    rw [finishHeader, htime, if_pos rfl, getTimecode, bind_assoc]
    simp only
    rw [bind_ok (check_pos hcode _ rest)]
    exact ⟨_, rfl, rfl, rfl⟩

theorem finishHeader_fails (format numberOfTracks : ℕ) {division : ℕ} (hdivision : division < 0x10000)
    (h : ¬ DivisionReadable division) (rest : List Octet) :
    Fails (finishHeader format numberOfTracks division) rest := by
  have htime : division.testBit 15 = true := by
    rw [← Bool.not_eq_false, lt_or_testBit hdivision]
    exact fun hlt => h (Or.inl hlt)
  have hcode : ¬ division >>> 8 &&& 0xff ∈ [0xe2, 0xe3, 0xe7, 0xe8] := by
    rw [high_octet hdivision]
    exact fun hcode => h (Or.inr hcode)
  rw [Fails, finishHeader, htime, if_pos rfl, getTimecode]
  exact ⟨_, _, bind_error (bind_error (check_neg hcode _ rest) _) _⟩

theorem length_makeBuffer (pooled : Option (List Octet)) (size : ℕ) :
    size ≤ (makeBuffer pooled size).length := by
  cases pooled with
  | none => simp [makeBuffer]
  | some buf =>
    simp only [makeBuffer, List.length_append, List.length_replicate]
    omega

variable {format numberOfTracks division length : ℕ} {rest : List Octet}

section

variable (pooled : Option (List Octet)) (hformat : format ≤ 2) (htracks : numberOfTracks < 0x10000)
  (hdivision : division < 0x10000) (hsingle : format = 0 → numberOfTracks = 1)
include pooled hformat htracks hdivision hsingle

theorem openInput_ok (hreadable : DivisionReadable division) (hlength : length < 0x100000000) :
    ∃ mf, openInput (headerChunk format numberOfTracks division 0 ++
        (fourBytes trackType ++ fourBytes length ++ rest)) pooled = .ok ⟨⟩ mf ∧
      mf.AtTrack format numberOfTracks 0 length 0 rest := by
  obtain ⟨header, hheader, hformat', htracks'⟩ := finishHeader_ok format
    numberOfTracks hdivision hreadable
    (fourBytes trackType ++ fourBytes length ++ rest)
  rw [← readHeader_headerChunk hformat htracks hdivision hsingle] at hheader
  have hbuffer := length_makeBuffer pooled 8
  rw [openInput, bind_ok (onSource_ok hheader), modify_bind, get_bind,
    bind_ok (nextTrackChunk_ok _ hlength rfl), modify_apply]
  refine ⟨_, rfl, ⟨⟨hbuffer, ⟨Nat.one_pos, fun h => absurd h (Nat.lt_irrefl 0)⟩, ?_⟩, rfl, hformat',
    htracks', rfl, rfl, rfl⟩⟩
  intro hstatus
  exact absurd hstatus (by decide)

theorem openInput_fails (hreadable : ¬ DivisionReadable division) (u : PUnit) (mf : InputStream) :
    openInput (headerChunk format numberOfTracks division 0 ++ rest) pooled ≠ .ok u mf := by
  obtain ⟨e, s, hheader⟩ := finishHeader_fails format numberOfTracks hdivision hreadable rest
  rw [← readHeader_headerChunk hformat htracks hdivision hsingle] at hheader
  intro hok
  rw [openInput] at hok
  obtain ⟨header, s', hread, -⟩ := bind_eq_ok.mp hok
  rw [onSource, hheader] at hread
  cases hread

end

end Header

section RoundTrip

variable (expandSize : ℕ) (format : Option (Fin 3)) (ppqn bufferSize : ℕ)
  (pooled pooled' : Option (List Octet)) (track : List WriteCall) (tracks : List (List WriteCall))

/-- The file of the session is written, opened and read without error, and `read-event` finds,
track by track, the messages at their pulses and one end of track. -/
def RoundTrips : Prop :=
  ∃ file, writeFile expandSize format ppqn bufferSize pooled track tracks = some file ∧
    ∃ u mf, openInput file pooled' = .ok u mf ∧
      ∃ n, readEvents n mf = some (expectedReadings ppqn 0 track tracks)

/-- The division can be read, the tracks can be counted in two octets, every call finds the room
that it needs in the buffer, and every event can be read. -/
structure Manageable : Prop where
  header : ppqn < 0x10000
  division : DivisionReadable ppqn
  count : tracks.length + 1 < 0x10000
  fits : (opened format ppqn bufferSize pooled).TracksFit expandSize track tracks
  readable : TracksReadable expandSize (opened format ppqn bufferSize pooled) track tracks

variable {expandSize format ppqn bufferSize pooled pooled' track tracks}

theorem reads_session (hwf : ∀ t ∈ track :: tracks, ∀ c ∈ t, c.WellFormed)
    (hppqn : ppqn < 0x10000) (hcount : tracks.length + 1 < 0x10000)
    (hfit : (opened format ppqn bufferSize pooled).TracksFit expandSize track tracks) :
    (∃ u mf, openInput (headerChunk
        (if 0 < tracks.length ∧ (format.getD 0).val = 0 then 1 else (format.getD 0).val)
        (tracks.length + 1) ppqn 0 ++
          (opened format ppqn bufferSize pooled).chunks expandSize track tracks) pooled' =
        .ok u mf ∧
      ∃ n, readEvents n mf = some
        (sessionReadings expandSize 0 (opened format ppqn bufferSize pooled) track tracks)) ↔
      DivisionReadable ppqn ∧
        TracksReadable expandSize (opened format ppqn bufferSize pooled) track tracks := by
  have hle : (format.getD 0).val ≤ 2 := Nat.le_of_lt_succ (format.getD 0).isLt
  have hformat : (if 0 < tracks.length ∧ (format.getD 0).val = 0 then 1 else
      (format.getD 0).val) ≤ 2 := by
    split
    · decide
    · exact hle
  have hsingle : (if 0 < tracks.length ∧ (format.getD 0).val = 0 then 1 else
      (format.getD 0).val) = 0 → tracks.length + 1 = 1 := by
    split
    · intro hone
      cases hone
    · rename_i hnot
      intro hzero
      have hnone : ¬ 0 < tracks.length := fun hpos => hnot ⟨hpos, hzero⟩
      omega
  have hmany : 0 < tracks.length → 0 < (if 0 < tracks.length ∧ (format.getD 0).val = 0 then 1 else
      (format.getD 0).val) := by
    intro hpos
    split
    · exact Nat.one_pos
    · rename_i hnot
      exact Nat.pos_of_ne_zero fun hzero => hnot ⟨hpos, hzero⟩
  have hmetrical : (opened format ppqn bufferSize pooled).Metrical := metrical_opened hppqn
  obtain ⟨hall, hend⟩ := hfit.first
  have hlength : (content expandSize ((opened format ppqn bufferSize pooled).afterCalls expandSize
      track)).length < 0x100000000 := by
    rw [length_content (hmetrical.afterCalls hall) hend]
    exact hend.length
  by_cases hdivision : DivisionReadable ppqn
  · rw [chunks_eq hmetrical track tracks hend hall]
    obtain ⟨mf, hopen, hat⟩ := openInput_ok pooled' hformat hcount hppqn hsingle
      hdivision hlength
    have hsession := readEvents_tracks hmetrical rfl rfl hwf hfit hmany (by simp) hat
    constructor
    · rintro ⟨u, mf', hopen', hread⟩
      rw [hopen] at hopen'
      cases hopen'
      exact ⟨hdivision, hsession.mp hread⟩
    · rintro ⟨-, hreadable⟩
      exact ⟨⟨⟩, mf, hopen, hsession.mpr hreadable⟩
  · constructor
    · rintro ⟨u, mf, hopen, -⟩
      exact absurd hopen (openInput_fails pooled' hformat hcount hppqn hsingle hdivision u mf)
    · rintro ⟨hreadable, -⟩
      exact absurd hreadable hdivision

/-- What is written is what is read exactly when the session is manageable. -/
theorem roundTrips_iff (hwf : ∀ t ∈ track :: tracks, ∀ c ∈ t, c.WellFormed)
    (horder : ∀ t ∈ track :: tracks, InOrder t) :
    RoundTrips expandSize format ppqn bufferSize pooled pooled' track tracks ↔
      Manageable expandSize format ppqn bufferSize pooled track tracks := by
  have hreadings : sessionReadings expandSize 0 (opened format ppqn bufferSize pooled) track
      tracks = expectedReadings (opened format ppqn bufferSize pooled).ppqn 0 track tracks :=
    sessionReadings_eq rfl horder
  have hppqn : (opened format ppqn bufferSize pooled).ppqn = ppqn := rfl
  rw [hppqn] at hreadings
  rw [RoundTrips, ← hreadings]
  constructor
  · rintro ⟨file, hwrite, hread⟩
    obtain ⟨hppqn, hfit, hcount, rfl⟩ := (writeFile_eq_some hwf).mp hwrite
    obtain ⟨hdivision, hreadable⟩ := (reads_session hwf hppqn hcount hfit).mp hread
    exact ⟨hppqn, hdivision, hcount, hfit, hreadable⟩
  · rintro ⟨hppqn, hdivision, hcount, hfit, hreadable⟩
    exact ⟨_, (writeFile_eq_some hwf).mpr ⟨hppqn, hfit, hcount, rfl⟩,
      (reads_session hwf hppqn hcount hfit).mpr ⟨hdivision, hreadable⟩⟩

end RoundTrip

/-- Two notes, the second one with running status, and a system exclusive message in the second
track. -/
theorem roundTrips_notes :
    RoundTrips 4000 none 480 16 none none
      [.shortEvent 0 0x403c90 3, .shortEvent (1 / 2) 0x003c90 3]
      [[.event 1 [0xf0, 0x01, 0xf7] 0 none]] := by
  have hnote (data2 : Octet) (h : data2.toNat < 0x80) : Complete [0x90, 0x3c, data2] :=
    .threeBytes 0x90 0x3c data2 (by decide) (by decide) h
  have hsysex : Complete [0xf0, 0x01, 0xf7] :=
    .sysex 0xf0 [0x01] [0xf7] (by decide) (show (0x01 : Octet).toNat < 0x80 by decide) rfl
  refine (roundTrips_iff ?_ ?_).mpr ⟨by decide, Or.inl (by decide), by decide, ?_, ?_⟩
  · simp only [List.mem_cons, List.not_mem_nil, or_false, forall_eq_or_imp, forall_eq]
    exact ⟨⟨⟨⟨by decide, by decide⟩, hnote 0x40 (by decide)⟩,
      ⟨⟨by decide, by decide⟩, hnote 0x00 (by decide)⟩⟩, ⟨⟨by decide, by decide⟩, hsysex⟩⟩
  · simp [InOrder, WriteCall.beats]
  · refine ⟨⟨⟨trivial, ?_, ?_⟩, ⟨trivial, ?_, ?_⟩, trivial⟩, ⟨fun _ => ⟨trivial, ?_, ?_⟩, ?_⟩,
      ⟨⟨fun _ => rfl, ?_, ?_⟩, trivial⟩, ⟨fun _ => ⟨trivial, ?_, ?_⟩, ?_⟩⟩
    all_goals decide +kernel
  · have hchannel (data2 : Octet) : ShortLength [0x90, 0x3c, data2] :=
      fun hlong => absurd hlong (show ¬ 0xf0 ≤ (0x90 : Octet).toNat by decide)
    refine ⟨⟨⟨⟨?_, hchannel 0x40⟩, ⟨?_, hchannel 0x00⟩, trivial⟩, ?_⟩,
      ⟨⟨?_, fun _ => by decide⟩, trivial⟩, ?_⟩
    any_goals decide +kernel
    all_goals
      rintro c hlast ⟨hmeta, -⟩
      obtain rfl := Option.some.inj hlast
      exact absurd hmeta (by decide +kernel)

/-- The file cannot be opened, or the first call of `read-event` signals an error. -/
def failsAtOnce (file : List Octet) : Bool :=
  match openInput file none with
  | .error _ _ => true
  | .ok _ mf =>
    match readEvent mf with
    | .error _ _ => true
    | .ok _ _ => false

theorem fails_of_failsAtOnce {file : List Octet} (h : failsAtOnce file = true) {u : PUnit}
    {mf : InputStream} (hopen : openInput file none = .ok u mf) : Fails readEvent mf := by
  rw [failsAtOnce, hopen] at h
  cases hread : readEvent mf with
  | error e s => exact ⟨e, s, hread⟩
  | ok status s => simp [hread] at h

/-- The last byte but one of the text is the type of an end of track, and no end of track is
written. -/
theorem text_not_roundTrips :
    (∀ t ∈ [[WriteCall.event 0 [0xff, 0x01, 0x02, 0x2f, 0x41] 0 none]],
      InOrder t ∧ ∀ c ∈ t, c.WellFormed) ∧
    ¬ RoundTrips 4000 none 480 0 none none
      [.event 0 [0xff, 0x01, 0x02, 0x2f, 0x41] 0 none] [] := by
  have htext : Complete [0xff, 0x01, 0x02, 0x2f, 0x41] :=
    .metaEvent 0x01 [0x02] [0x2f, 0x41] (by decide) (show (0x02 : Octet).toNat < 0x80 by decide) rfl
  constructor
  · simp only [List.mem_cons, List.not_mem_nil, or_false, forall_eq]
    exact ⟨by simp [InOrder], ⟨by decide, by decide⟩, htext⟩
  · rintro ⟨file, hwrite, u, mf, hopen, n, hread⟩
    have hfile : writeFile 4000 none 480 0 none [.event 0 [0xff, 0x01, 0x02, 0x2f, 0x41] 0 none]
        [] = some [0x4d, 0x54, 0x68, 0x64, 0, 0, 0, 6, 0, 0, 0, 1, 0x01, 0xe0,
          0x4d, 0x54, 0x72, 0x6b, 0, 0, 0, 6, 0, 0xff, 0x01, 0x02, 0x2f, 0x41] := by
      decide +kernel
    rw [hfile, Option.some.injEq] at hwrite
    subst hwrite
    rw [readEvents_of_fails (fails_of_failsAtOnce (by decide +kernel) hopen)] at hread
    cases hread

end Incudine.Midifile

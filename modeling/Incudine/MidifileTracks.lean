import Incudine.MidifileTrackData
import Incudine.MidifileWriteEvent

/-!
# The tracks that an output stream writes

The chunks of the file after any sequence of calls, compared with the events that the calls write.
`end-of-track` guesses the end of a track, and an error in the middle of a call can leave the last
status and the time changed.
-/

namespace Incudine.Midifile

open Octets Signals OutputStream

/-- The events of a track and, after its end, the delta time of the end. -/
structure WrittenTrack where
  events : List WrittenEvent := []
  finish : Option ℕ := none
  deriving Repr, DecidableEq

namespace WrittenTrack

def time (t : WrittenTrack) : ℕ :=
  (t.events.map WrittenEvent.delta).sum + t.finish.getD 0

/-- The delta time of an event at `beats`, zero if it precedes the last event. -/
def delta (ppqn : ℕ) (beats : ℚ≥0) (t : WrittenTrack) : ℕ :=
  (round (beats * ppqn) - t.time).toNat

def write (ppqn : ℕ) (c : WriteCall) (t : WrittenTrack) : WrittenTrack :=
  if c.message = endMessage then { t with finish := some (t.delta ppqn c.beats) }
  else { t with events := t.events ++ [⟨t.delta ppqn c.beats, c.message⟩] }

def endAt (ppqn : ℕ) (beats : ℚ≥0) (t : WrittenTrack) : WrittenTrack :=
  if t.finish.isSome then t else { t with finish := some (t.delta ppqn beats) }

/-- The events so far, with the end of the track. -/
def recorded (t : WrittenTrack) : List WrittenEvent :=
  t.events ++ (t.finish.map fun d => ⟨d, endMessage⟩).toList

def data (t : WrittenTrack) : List WrittenEvent :=
  t.events ++ [⟨t.finish.getD 0, endMessage⟩]

/-- The last event has the status and the last octet but one of an end of track. -/
def EndsLikeEnd (t : WrittenTrack) : Prop :=
  ∃ e ∈ t.recorded.getLast?, e.message.headD 0 = 0xff ∧
    e.message[e.message.length - 2]? = some 0x2f

end WrittenTrack

/-- What the calls write: the tracks in the file and the current one. -/
structure Score where
  ppqn : ℕ
  closed : Bool := false
  finished : List WrittenTrack := []
  current : WrittenTrack := {}
  deriving Repr, DecidableEq

namespace Score

def next (s : Score) : Score :=
  { s with
    finished := s.finished ++ [s.current.endAt s.ppqn 0]
    current := {} }

def done (s : Score) (c : OutputCall) : Score :=
  if s.closed then s
  else
    match c with
    | .write c => { s with current := s.current.write s.ppqn c }
    | .endOfTrack beats => { s with current := s.current.endAt s.ppqn beats }
    | .nextTrack => s.next
    | .close => { s.next with closed := true }

/-- A call that signals an error: `next-track` and `close` can write the chunk before the error of
the header, or add the end of the track to a chunk that is too long. -/
def interrupted (s : Score) (mf mf' : OutputStream) : OutputCall → Score
  | .write _ | .endOfTrack _ => s
  | .nextTrack | .close =>
    if mf'.fdStream ≠ mf.fdStream then s.next
    else if mf'.bufferIndex ≠ mf.bufferIndex then
      { s with current := s.current.endAt s.ppqn 0 }
    else s

def after (expandSize : ℕ) (mf : OutputStream) (s : Score) (c : OutputCall) : Score :=
  match c.run expandSize mf with
  | .ok _ _ => s.done c
  | .error _ mf' => s.interrupted mf mf' c

end Score

def OutputCall.Whole : OutputCall → Prop
  | .write c => c.InBounds ∧ (Complete c.message ∨ c.message = endMessage)
  | _ => True

/-- A stream after `open` and a sequence of calls that meet a condition, also of calls that
signal an error, with the score of what they write. -/
inductive OutputRun (meets : ℕ → OutputStream → Score → OutputCall → Prop) :
    OutputStream → Score → Prop
  | opened {format : Option (Fin 3)} {ppqn bufferSize : ℕ} {pooled : Option (List Octet)}
      {u : PUnit} {mf : OutputStream} :
      openOutput format ppqn bufferSize pooled = .ok u mf → OutputRun meets mf { ppqn }
  | call {mf : OutputStream} {s : Score} (expandSize : ℕ) (c : OutputCall) :
      OutputRun meets mf s → c.Whole → meets expandSize mf s c →
      OutputRun meets (Signals.after (c.run expandSize) mf) (s.after expandSize mf c)

def chunkOf (data : List Octet) : List Octet :=
  fourBytes trackType ++ fourBytes data.length ++ data

def WrittenEvent.EndOfTrack (e : WrittenEvent) : Prop :=
  e.message[0]? = some 0xff ∧ e.message[1]? = some 0x2f

/-- The data of a chunk are the events of the track, then its end. -/
structure HoldsTrack (data : List Octet) (t : WrittenTrack) : Prop where
  length : data.length < 0x100000000
  parsed : parseTrack data = some t.data
  once : ∀ e ∈ t.events, ¬ e.EndOfTrack

/-- After the header the file is made of the chunks of the tracks. -/
def WellFormedChunks (mf : OutputStream) (tracks : List WrittenTrack) : Prop :=
  ∃ chunks : List (List Octet), mf.fdStream.drop 14 = (chunks.map chunkOf).flatten ∧
    List.Forall₂ HoldsTrack chunks tracks

def endEvent (beats : ℚ≥0) : WriteCall :=
  .shortEvent beats endOfTrackMessage 3

/-- An error of the call leaves the status and the time of the track as they are. -/
def OutputStream.LeftBy (mf : OutputStream) (c : WriteCall) : Prop :=
  c.status = mf.lastStatus ∧
    (fixnumBound ≤ mf.trackTime + mf.deltaTime c.beats ∨ mf.deltaTime c.beats = 0)

/-- The call finds the room that it needs, or its error leaves the track as it is. -/
def OutputStream.Safe (expandSize : ℕ) (mf : OutputStream) (c : WriteCall) : Prop :=
  mf.Fits expandSize c ∨ mf.LeftBy c

def OutputStream.GuessesRight (expandSize : ℕ) (mf : OutputStream) (s : Score) (beats : ℚ≥0) :
    Prop :=
  s.current.finish = none → ¬ s.current.EndsLikeEnd ∧ mf.Safe expandSize (endEvent beats)

/-- No event is written after the end of its track, the end of a track is guessed right, and no
error changes the state of the track. -/
def Meets (expandSize : ℕ) (mf : OutputStream) (s : Score) : OutputCall → Prop
  | .write c => s.closed = false → s.current.finish = none ∧ mf.Safe expandSize c
  | .endOfTrack beats => s.closed = false → mf.GuessesRight expandSize s beats
  | .nextTrack | .close => s.closed = false → mf.GuessesRight expandSize s 0

variable {e : Error} {c : WriteCall}

section Errors

variable {expandSize : ℕ} {mf mf' : OutputStream}

/-- The two streams differ in the state of the track only. -/
def SameFile (mf mf' : OutputStream) : Prop :=
  ∃ trackTime buffer bufferIndex lastStatus, mf' = { mf with
    trackTime := trackTime
    buffer := buffer
    bufferIndex := bufferIndex
    lastStatus := lastStatus }

instance : IsPreorder OutputStream SameFile where
  refl _ := ⟨_, _, _, _, rfl⟩
  trans := by
    rintro _ _ _ ⟨trackTime, buffer, bufferIndex, lastStatus, rfl⟩ ⟨_, _, _, _, rfl⟩
    exact ⟨_, _, _, _, rfl⟩

theorem sameFile_setOctet (i : ℕ) (octet : Octet) : Respects SameFile (setOctet i octet) := by
  refine .bind respects_get fun mf => ?_
  refine .bind (respects_check _ _) fun _ => ?_
  exact respects_modify fun mf => ⟨_, _, _, _, rfl⟩

theorem sameFile_storeAll (octets : List Octet) (i : ℕ) :
    Respects SameFile (storeAll octets i) := by
  induction octets generalizing i with
  | nil => exact respects_pure _
  | cons octet octets ih => exact .bind (sameFile_setOctet i octet) fun _ => ih _

theorem sameFile_writeEventTime (beats : ℚ≥0) : Respects SameFile (writeEventTime beats) := by
  refine .bind respects_get fun mf => ?_
  refine .bind (respects_check _ _) fun _ => ?_
  refine .bind (respects_check _ _) fun _ => ?_
  refine .bind (respects_modify fun mf => ⟨_, _, _, _, rfl⟩) fun _ => ?_
  rw [writeDeltaTime_eq]
  exact .bind (sameFile_storeAll _ _) fun _ => respects_pure _

theorem sameFile_shortMessage (beats : ℚ≥0) (value n : ℕ) :
    Respects SameFile (do
      let start ← writeEventTime beats
      let j ← shortMessageToOctets value n start
      modify fun mf => { mf with bufferIndex := j }
      return j : Output ℕ) := by
  refine .bind (sameFile_writeEventTime beats) fun start => ?_
  rw [shortMessageToOctets_eq, bind_assoc]
  refine .bind (sameFile_storeAll _ _) fun _ => ?_
  rw [pure_bind]
  exact .bind (respects_modify fun mf => ⟨_, _, _, _, rfl⟩)
    fun _ => respects_pure _

theorem sameFile_ensureBufferSpace (expandSize eventSize : ℕ) :
    Respects SameFile (ensureBufferSpace expandSize eventSize) := by
  intro mf
  rw [after_ok (ensureBufferSpace_apply expandSize eventSize mf)]
  exact ⟨_, _, _, _, rfl⟩

theorem sameFile_writeShortEvent (expandSize : ℕ) (beats : ℚ≥0) (msg : UInt32) (size : ℕ) :
    Respects SameFile (writeShortEvent expandSize beats msg size) := by
  refine .bind (respects_check _ _) fun _ => ?_
  refine .bind respects_get fun mf => ?_
  refine .bind (respects_check _ _) fun _ => ?_
  refine .bind (sameFile_ensureBufferSpace expandSize 8) fun _ => ?_
  refine .bind respects_get fun mf' => ?_
  split
  · refine .bind (respects_check _ _) fun _ => ?_
    exact sameFile_shortMessage beats _ _
  · refine .bind (respects_modify fun _ => ⟨_, _, _, _, rfl⟩) fun _ => ?_
    exact sameFile_shortMessage beats _ _

theorem sameFile_octetAt (data : List Octet) (i : ℕ) : Respects SameFile (octetAt data i) := by
  rw [octetAt]
  split
  · exact respects_pure _
  · exact respects_throw _

theorem sameFile_copyOctets (data : List Octet) (n i j : ℕ) :
    Respects SameFile (copyOctets data n i j) := by
  induction n generalizing i j with
  | zero => exact respects_pure _
  | succ n ih =>
    refine .bind (sameFile_octetAt data i) fun octet => ?_
    exact .bind (sameFile_setOctet j octet) fun _ => ih _ _

theorem sameFile_writeEvent (expandSize : ℕ) (beats : ℚ≥0) (data : List Octet) (start : ℕ)
    (finish : Option ℕ) : Respects SameFile (writeEvent expandSize beats data start finish) := by
  refine .bind respects_get fun mf => ?_
  refine .bind (respects_check _ _) fun _ => ?_
  refine .bind (respects_check _ _) fun _ => ?_
  refine .bind (sameFile_octetAt data start) fun status => ?_
  refine .bind (respects_modify fun _ => ⟨_, _, _, _, rfl⟩) fun _ => ?_
  split
  · refine .bind (sameFile_ensureBufferSpace expandSize _) fun _ => ?_
    refine .bind (sameFile_writeEventTime beats) fun first => ?_
    refine .bind (sameFile_copyOctets data _ start first) fun j => ?_
    exact .bind (respects_modify fun _ => ⟨_, _, _, _, rfl⟩)
      fun _ => respects_pure _
  · exact .bind respects_get
      fun mf => respects_pure _

theorem WriteCall.sameFile_run (expandSize : ℕ) (c : WriteCall) :
    Respects SameFile (c.run expandSize) := by
  cases c with
  | shortEvent beats msg size => exact sameFile_writeShortEvent expandSize beats msg size
  | event beats data start finish => exact sameFile_writeEvent expandSize beats data start finish

theorem WriteCall.keepsIndex_run (expandSize : ℕ) (c : WriteCall) :
    Respects KeepsIndex (c.run expandSize) := by
  cases c with
  | shortEvent beats msg size => exact keepsIndex_writeShortEvent expandSize beats msg size
  | event beats data start finish => exact keepsIndex_writeEvent expandSize beats data start finish

theorem addEvent_error {beats : ℚ≥0} {octets : List Octet}
    (hindex : mf.bufferIndex ≤ mf.buffer.length)
    (htime : fixnumBound ≤ mf.trackTime + mf.deltaTime beats ∨ mf.deltaTime beats = 0)
    (h : addEvent beats octets mf = .error e mf') : mf.Unchanged mf' := by
  rw [addEvent] at h
  have hkept {mf₁ mf₂ : OutputStream} {i : ℕ} (hstored : mf₁.StoredFrom mf₂ i)
      (hle : mf.bufferIndex ≤ i) (htrack : mf₁.trackTime = mf.trackTime)
      (hstatus : mf₁.lastStatus = mf.lastStatus) (hsame : mf₁.bufferIndex = mf.bufferIndex)
      (htake : mf₁.buffer.take mf.bufferIndex = mf.buffer.take mf.bufferIndex) :
      mf.Unchanged mf₂ := by
    obtain ⟨buffer, rfl, -, htake'⟩ := hstored.mono hle
    exact ⟨htrack, hstatus, hsame, htake'.trans htake⟩
  rcases bind_eq_error.mp h with h | ⟨start, s, hok, h⟩
  · rcases writeEventTime_error h with ⟨-, rfl⟩ | ⟨hlt, hstored⟩
    · exact ⟨rfl, rfl, rfl, rfl⟩
    · have hzero : mf.deltaTime beats = 0 := by omega
      exact hkept hstored le_rfl (by rw [hzero, Nat.add_zero]) rfl rfl rfl
  · obtain ⟨hlt, hroom, rfl, rfl⟩ := (writeEventTime_eq_ok hindex).mp hok
    have hzero : mf.deltaTime beats = 0 := by omega
    rcases bind_eq_error.mp h with h | ⟨_, s', -, h⟩
    · exact hkept (storeAll_error h) (Nat.le_add_right _ _) (by rw [hzero, Nat.add_zero]) rfl rfl
        (take_start_splice hindex _)
    · cases h

theorem WriteCall.unchanged_of_error (h : mf.Metrical) (hbounds : c.InBounds)
    (hlen : 2 ≤ c.message.length) (hleft : mf.LeftBy c)
    (herror : c.run expandSize mf = .error e mf') : mf.Unchanged mf' := by
  obtain ⟨hstatus, htime⟩ := hleft
  cases c with
  | shortEvent beats msg size =>
    have hsize : 2 ≤ size := by simpa [WriteCall.message, length_shortOctets] using hlen
    rw [WriteCall.run, writeShortEvent_eq h.opened ⟨hsize, hbounds.2⟩] at herror
    have hgrown : (mf.grown expandSize 8).take mf.bufferIndex =
        mf.buffer.take mf.bufferIndex := by
      rw [OutputStream.grown]
      split
      · exact List.take_append_of_le_length h.index
      · rfl
    have hunchanged : (mf.prepared expandSize (.shortEvent beats msg size)).Unchanged _ :=
      addEvent_error (OutputStream.le_length_grown h.index expandSize 8) htime herror
    exact ⟨hunchanged.trackTime, hunchanged.lastStatus.trans hstatus, hunchanged.bufferIndex,
      hunchanged.octets.trans hgrown⟩
  | event beats data start finish =>
    obtain ⟨hstart, hcount, hfirst⟩ := event_bounds hbounds (by omega)
    rw [hstatus] at hfirst
    have hfirst : data[start]? = some mf.lastStatus := by
      rw [hfirst, List.getElem?_eq_getElem hstart]
    have hstores : StoresOrLeaves expandSize mf beats data start finish :=
      (writeEvent_storesOrLeaves h.index).mpr (.inr ⟨hcount, .inr ⟨hfirst, htime⟩⟩)
    rcases hstores with ⟨j, s, hok, -⟩ | ⟨e', s, herror', hunchanged⟩
    · rw [WriteCall.run, hok] at herror
      cases herror
    · rw [WriteCall.run, herror', EStateM.Result.error.injEq] at herror
      rwa [← herror.2]

end Errors

variable {t : WrittenTrack}

section Writing

/-- The state of an open stream with the score of the current track. -/
structure Writing (mf : OutputStream) (s : Score) : Prop where
  metrical : mf.Metrical
  ppqn : mf.ppqn = s.ppqn
  time : mf.trackTime = s.current.time
  holds : ∃ running, Holds none (written mf) s.current.recorded running ∧
    (0x80 ≤ mf.lastStatus.toNat → mf.lastStatus.toNat < 0xf0 → running = some mf.lastStatus)
  ends : mf.endOfTrackP = true ↔ s.current.EndsLikeEnd
  complete : ∀ e ∈ s.current.events, Complete e.message

variable {expandSize : ℕ} {mf mf' : OutputStream} {s : Score}

theorem Writing.delta (h : Writing mf s) (beats : ℚ≥0) :
    mf.deltaTime beats = s.current.delta s.ppqn beats := by
  rw [OutputStream.deltaTime, WrittenTrack.delta, h.ppqn, h.time]

theorem Writing.after (h : Writing mf s) (hfits : mf.Fits expandSize c)
    (hparsable : Parsable c.message) (hlen : 2 ≤ c.message.length)
    (htime : t.time = s.current.time + mf.deltaTime c.beats)
    (hrecorded : t.recorded = s.current.recorded ++ [⟨mf.deltaTime c.beats, c.message⟩])
    (hcomplete : ∀ e ∈ t.events, Complete e.message) :
    Writing (mf.after expandSize c) { s with current := t } where
  metrical := h.metrical.after hfits
  ppqn := h.ppqn
  time := by
    rw [htime, ← h.time]
    rfl
  holds := by
    obtain ⟨running, hholds, hrunning⟩ := h.holds
    have homitted : c.running mf = true →
        running = some (c.message.headD 0) ∧ (c.message.headD 0).toNat < 0xf0 := by
      intro hrun
      obtain ⟨hstatus, hchannel⟩ := running_spec hrun
      rw [hstatus]
      refine ⟨hrunning ?_ hchannel, hchannel⟩
      rw [← hstatus]
      exact hparsable.status_ge
    refine ⟨runningStatus c.message, ?_, fun _ hchannel => ?_⟩
    · rw [hrecorded, written_after h.metrical, octets_eq]
      exact .snoc _ _ _ hholds hparsable homitted
    · have hstatus : (mf.after expandSize c).lastStatus = c.message.headD 0 := rfl
      rw [hstatus] at hchannel ⊢
      cases hmessage : c.message with
      | nil => simp [hmessage] at hlen
      | cons status message =>
        rw [hmessage, List.headD_cons] at hchannel
        simp [runningStatus, Option.filter, UInt8.lt_iff_toNat_lt, hchannel]
  ends := by
    rw [endOfTrackP_after h.metrical hlen, WrittenTrack.EndsLikeEnd, hrecorded, WriteCall.status]
    simp
  complete := hcomplete

theorem Writing.unchanged (h : Writing mf s) (hunchanged : mf.Unchanged mf')
    (hfile : SameFile mf mf') (hindex : mf'.bufferIndex ≤ mf'.buffer.length) : Writing mf' s := by
  have hwritten : written mf' = written mf := by
    rw [written, written, hunchanged.bufferIndex, hunchanged.octets]
  have hends : mf'.endOfTrackP = mf.endOfTrackP := by
    rw [endOfTrackP, endOfTrackP, hunchanged.lastStatus, hunchanged.bufferIndex]
    by_cases hmany : 2 < mf.bufferIndex
    · have hget (buffer : List Octet) :
          buffer[mf.bufferIndex - 2]? = (buffer.take mf.bufferIndex)[mf.bufferIndex - 2]? :=
        (List.getElem?_take_of_lt (by omega)).symm
      rw [hget mf'.buffer, hunchanged.octets, ← hget]
    · simp [hmany]
  obtain ⟨trackTime, buffer, bufferIndex, lastStatus, rfl⟩ := hfile
  exact {
    metrical := {
      opened := h.metrical.opened
      index := hindex
      smpte := h.metrical.smpte
      ticks := h.metrical.ticks
      format := h.metrical.format
      ppqn := h.metrical.ppqn }
    ppqn := h.ppqn
    time := hunchanged.trackTime.trans h.time
    holds := by
      obtain ⟨running, hholds, hrunning⟩ := h.holds
      rw [hwritten, hunchanged.lastStatus]
      exact ⟨running, hholds, hrunning⟩
    ends := by rw [hends, h.ends]
    complete := h.complete }

theorem Writing.run (h : Writing mf s) (hbounds : c.InBounds) (hlen : 2 ≤ c.message.length)
    (hsafe : mf.Safe expandSize c) :
    (mf.Fits expandSize c ∧
      c.run expandSize mf = .ok (mf.after expandSize c).bufferIndex (mf.after expandSize c)) ∨
    ∃ e mf', c.run expandSize mf = .error e mf' ∧ Writing mf' s ∧ SameFile mf mf' ∧
      mf.Unchanged mf' := by
  by_cases hfits : mf.Fits expandSize c
  · exact .inl ⟨hfits, (WriteCall.run_eq_ok h.metrical.opened h.metrical.index hbounds hlen).mpr
      ⟨hfits, rfl, rfl⟩⟩
  · have hleft : mf.LeftBy c := hsafe.resolve_left hfits
    cases hrun : c.run expandSize mf with
    | ok j mf' =>
      exact absurd ((WriteCall.run_eq_ok h.metrical.opened h.metrical.index hbounds hlen).mp hrun).1
        hfits
    | error e mf' =>
      have hunchanged := WriteCall.unchanged_of_error h.metrical hbounds hlen hleft hrun
      have hfile := c.sameFile_run expandSize mf
      have hkeeps := c.keepsIndex_run expandSize mf h.metrical.index
      rw [after_error hrun] at hfile hkeeps
      exact .inr ⟨e, mf', rfl, h.unchanged hunchanged hfile hkeeps, hfile, hunchanged⟩

theorem WrittenTrack.recorded_of_open (h : t.finish = none) : t.recorded = t.events := by
  rw [WrittenTrack.recorded, h]
  exact List.append_nil _

theorem WrittenTrack.write_spec (h : t.finish = none) (ppqn : ℕ) (c : WriteCall) :
    (t.write ppqn c).time = t.time + t.delta ppqn c.beats ∧
      (t.write ppqn c).recorded = t.recorded ++ [⟨t.delta ppqn c.beats, c.message⟩] := by
  rw [WrittenTrack.write, WrittenTrack.recorded_of_open h, WrittenTrack.time, h]
  split
  · rename_i hend
    simp [WrittenTrack.time, WrittenTrack.recorded, hend, h]
  · simp [WrittenTrack.time, WrittenTrack.recorded, h]

theorem WrittenTrack.endAt_spec (h : t.finish = none) (ppqn : ℕ) (beats : ℚ≥0) :
    (t.endAt ppqn beats).time = t.time + t.delta ppqn beats ∧
      (t.endAt ppqn beats).recorded = t.recorded ++ [⟨t.delta ppqn beats, endMessage⟩] := by
  rw [WrittenTrack.endAt, WrittenTrack.recorded_of_open h, WrittenTrack.time, h]
  simp [WrittenTrack.time, WrittenTrack.recorded, h]

theorem WrittenTrack.endAt_events (t : WrittenTrack) (ppqn : ℕ) (beats : ℚ≥0) :
    (t.endAt ppqn beats).events = t.events := by
  rw [WrittenTrack.endAt]
  split
  · rfl
  · rfl

theorem WrittenTrack.recorded_endAt (t : WrittenTrack) (ppqn : ℕ) (beats : ℚ≥0) :
    (t.endAt ppqn beats).recorded = (t.endAt ppqn beats).data := by
  rw [WrittenTrack.recorded, WrittenTrack.data, WrittenTrack.endAt]
  cases h : t.finish with
  | none => simp
  | some d => simp [h]

theorem WrittenTrack.endsLikeEnd_of_finish {d : ℕ} (h : t.finish = some d) : t.EndsLikeEnd := by
  refine ⟨⟨d, endMessage⟩, ?_, rfl, rfl⟩
  simp [WrittenTrack.recorded, h]

theorem Writing.endOfTrack (h : Writing mf s) {beats : ℚ≥0}
    (hguess : mf.GuessesRight expandSize s beats) :
    (∃ mf', Midifile.endOfTrack expandSize beats mf = .ok mf'.bufferIndex mf' ∧
      Writing mf' { s with current := s.current.endAt s.ppqn beats } ∧
      SameFile mf mf' ∧ mf'.lastStatus = 0xff ∧
      (mf'.bufferIndex = mf.bufferIndex → s.current.endAt s.ppqn beats = s.current)) ∨
    ∃ e mf', Midifile.endOfTrack expandSize beats mf = .error e mf' ∧ Writing mf' s ∧
      SameFile mf mf' ∧ mf'.bufferIndex = mf.bufferIndex := by
  rw [Midifile.endOfTrack, get_bind]
  cases hfinish : s.current.finish with
  | some d =>
    have hends : mf.endOfTrackP = true := h.ends.mpr (WrittenTrack.endsLikeEnd_of_finish hfinish)
    have hsame : s.current.endAt s.ppqn beats = s.current := by
      rw [WrittenTrack.endAt, hfinish]
      rfl
    have hstatus : mf.lastStatus = 0xff := by
      rw [endOfTrackP, decide_eq_true_eq] at hends
      exact hends.1
    rw [if_pos hends, pure_apply, hsame]
    exact .inl ⟨mf, rfl, h, refl mf, hstatus, fun _ => rfl⟩
  | none =>
    obtain ⟨hopen, hsafe⟩ := hguess hfinish
    have hends : mf.endOfTrackP = false := by
      rw [← Bool.not_eq_true, h.ends]
      exact hopen
    have hrun : writeShortEvent expandSize beats endOfTrackMessage 3 mf =
      (endEvent beats).run expandSize mf := rfl
    rw [hends, if_neg Bool.false_ne_true, hrun]
    have hbounds : (endEvent beats).InBounds := ⟨by decide, by decide⟩
    rcases h.run hbounds (by decide : 2 ≤ endMessage.length) hsafe with
      ⟨hfits, hok⟩ | ⟨e, mf', herror, hwriting, hfile, hunchanged⟩
    · obtain ⟨htime, hrecorded⟩ := WrittenTrack.endAt_spec hfinish s.ppqn beats
      have hdelta := h.delta beats
      refine .inl ⟨_, hok, ?_, ⟨_, _, _, _, rfl⟩, rfl, fun hindex => ?_⟩
      · refine h.after hfits parsable_endMessage (by decide : 2 ≤ endMessage.length) ?_ ?_ ?_
        · rw [htime, ← hdelta]
          rfl
        · rw [hrecorded, ← hdelta]
          rfl
        · rw [WrittenTrack.endAt_events]
          exact h.complete
      · have hpos := (delimited_encode (mf.deltaTime beats)).length_pos
        have hlength : mf.bufferIndex + ((endEvent beats).octets mf).length = mf.bufferIndex :=
          hindex
        rw [WriteCall.octets, List.length_append] at hlength
        have hbeats : (endEvent beats).beats = beats := rfl
        rw [hbeats] at hlength
        omega
    · exact .inr ⟨e, mf', herror, hwriting, hfile, hunchanged.bufferIndex⟩

def OutputStream.emptied (mf : OutputStream) : OutputStream :=
  { mf with
    fdStream := mf.fdStream ++ chunkOf (written mf)
    trackTime := 0
    bufferIndex := 0 }

theorem Writing.writeTrack (h : Writing mf s) (hguess : mf.GuessesRight expandSize s 0) :
    (∃ mf₁, Midifile.writeTrack expandSize mf = .ok ⟨⟩ mf₁.emptied ∧
      Writing mf₁ { s with current := s.current.endAt s.ppqn 0 } ∧ SameFile mf mf₁ ∧
      mf₁.lastStatus = 0xff ∧ (written mf₁).length < 0x100000000) ∨
    ∃ e mf', Midifile.writeTrack expandSize mf = .error e mf' ∧ SameFile mf mf' ∧
      Writing mf' (if mf'.bufferIndex ≠ mf.bufferIndex then
        { s with current := s.current.endAt s.ppqn 0 } else s) := by
  rw [Midifile.writeTrack]
  rcases h.endOfTrack hguess with
    ⟨mf₁, hok, hwriting, hfile, hstatus, hsame⟩ | ⟨e, mf', herror, hwriting, hfile, hindex⟩
  · have hlength : (written mf₁).length = mf₁.bufferIndex := by
      rw [written, List.length_take, Nat.min_eq_left hwriting.metrical.index]
    rw [bind_ok hok]
    by_cases hshort : mf₁.bufferIndex < 0x100000000
    · have hpos : 0 < mf₁.bufferIndex := by
        obtain ⟨running, hholds, -⟩ := hwriting.holds
        have hle := hholds.length_le
        rw [WrittenTrack.recorded_endAt, WrittenTrack.data, List.length_append, List.length_singleton,
          hlength] at hle
        omega
      have hchunk : mf.fdStream = mf₁.fdStream := by
        obtain ⟨_, _, _, _, rfl⟩ := hfile
        rfl
      rw [bind_ok (check_pos hshort _ mf₁), bind_ok (check_pos hpos _ mf₁), modify_apply]
      refine .inl ⟨mf₁, ?_, hwriting, hfile, hstatus, by rwa [hlength]⟩
      rw [OutputStream.emptied, chunkOf, hlength, written]
      simp only [List.append_assoc]
    · refine .inr ⟨_, mf₁, bind_error (check_neg hshort _ mf₁) _, hfile, ?_⟩
      split_ifs with hindex
      · exact hwriting
      · rw [hsame (not_not.mp hindex)] at hwriting
        exact hwriting
  · refine .inr ⟨e, mf', bind_error herror _, hfile, ?_⟩
    rw [if_neg (not_not.mpr hindex)]
    exact hwriting

end Writing

section Chunks

variable {expandSize : ℕ} {mf mf' : OutputStream} {s : Score}

/-- The chunks of the file, and the current track of an open stream. -/
structure Recorded (mf : OutputStream) (s : Score) : Prop where
  chunks : WellFormedChunks mf s.finished
  header : 14 ≤ mf.fdStream.length
  closed : s.closed = true → mf.openP = false
  writing : s.closed = false → Writing mf s

theorem WellFormedChunks.emptied (h : WellFormedChunks mf s.finished)
    (hheader : 14 ≤ mf.fdStream.length)
    (hwriting : Writing mf { s with current := s.current.endAt s.ppqn 0 })
    (hlength : (written mf).length < 0x100000000) :
    WellFormedChunks mf.emptied s.next.finished := by
  obtain ⟨chunks, hfile, hholds⟩ := h
  refine ⟨chunks ++ [written mf], ?_, List.rel_append hholds (.cons ?_ .nil)⟩
  · rw [OutputStream.emptied, List.drop_append_of_le_length hheader, hfile]
    simp
  · obtain ⟨running, hrecorded, -⟩ := hwriting.holds
    rw [WrittenTrack.recorded_endAt] at hrecorded
    exact ⟨hlength, hrecorded.parseTrack,
      fun e he => (hwriting.complete e he).not_endOfTrack⟩

theorem Writing.emptied {mf₁ : OutputStream}
    (h : Writing mf₁ { s with current := s.current.endAt s.ppqn 0 })
    (hstatus : mf₁.lastStatus = 0xff) (numberOfTracks currentTrack format : ℕ)
    (hformat : format ≤ 2) :
    Writing { mf₁.emptied with
      numberOfTracks := numberOfTracks
      currentTrack := currentTrack
      format := format } s.next where
  metrical := {
    opened := h.metrical.opened
    index := Nat.zero_le _
    smpte := h.metrical.smpte
    ticks := h.metrical.ticks
    format := hformat
    ppqn := h.metrical.ppqn }
  ppqn := h.ppqn
  time := rfl
  holds := by
    refine ⟨none, .nil none, fun _ hchannel => ?_⟩
    rw [OutputStream.emptied, hstatus] at hchannel
    exact absurd hchannel (by decide)
  ends := by
    have hempty : ¬ ({} : WrittenTrack).EndsLikeEnd := by
      rintro ⟨e, he, -⟩
      cases he
    have hends : ({ mf₁.emptied with
        numberOfTracks := numberOfTracks
        currentTrack := currentTrack
        format := format } : OutputStream).endOfTrackP = false := by
      simp [endOfTrackP, OutputStream.emptied]
    rw [hends]
    exact iff_of_false Bool.false_ne_true hempty
  complete := fun e he => by cases he

theorem WellFormedChunks.of_drop {tracks : List WrittenTrack} (h : WellFormedChunks mf tracks)
    (hfile : mf'.fdStream.drop 14 = mf.fdStream.drop 14) : WellFormedChunks mf' tracks := by
  obtain ⟨chunks, hchunks, hholds⟩ := h
  exact ⟨chunks, hfile.trans hchunks, hholds⟩

theorem SameFile.fdStream (h : SameFile mf mf') : mf'.fdStream = mf.fdStream := by
  obtain ⟨trackTime, buffer, bufferIndex, lastStatus, rfl⟩ := h
  rfl

theorem Recorded.of_writing (h : Recorded mf s) (hfile : SameFile mf mf') (hopen : s.closed = false)
    (hwriting : Writing mf' { s with current := t }) : Recorded mf' { s with current := t } where
  chunks := h.chunks.of_drop (congrArg (List.drop 14) hfile.fdStream)
  header := by
    rw [hfile.fdStream]
    exact h.header
  closed := fun hclosed => absurd (hopen.symm.trans hclosed) Bool.false_ne_true
  writing := fun _ => hwriting

theorem writeShortEvent_closed (hclosed : mf.openP = false) (expandSize : ℕ) (beats : ℚ≥0)
    (msg : UInt32) (size : ℕ) : ∃ e, writeShortEvent expandSize beats msg size mf = .error e mf := by
  have hnot : ¬ mf.openP = true := by simp [hclosed]
  rw [writeShortEvent]
  by_cases hsize : 1 ≤ size ∧ size ≤ 4
  · rw [bind_ok (check_pos hsize _ mf), get_bind]
    exact ⟨_, bind_error (check_neg hnot _ mf) _⟩
  · exact ⟨_, bind_error (check_neg hsize _ mf) _⟩

theorem OutputCall.after_closed (hclosed : mf.openP = false) (expandSize : ℕ) (c : OutputCall) :
    Signals.after (c.run expandSize) mf = mf := by
  have hnot : ¬ mf.openP = true := by simp [hclosed]
  cases c with
  | write c =>
    cases c with
    | shortEvent beats msg size =>
      obtain ⟨e, herror⟩ := writeShortEvent_closed hclosed expandSize beats msg size
      exact after_bind_error herror _
    | event beats data start finish =>
      have hrefused : mf.RefusedAtOnce data start finish := .inl hclosed
      obtain ⟨e, herror⟩ := writeEvent_refused hrefused expandSize beats
      exact after_bind_error herror _
  | endOfTrack beats =>
    cases hends : mf.endOfTrackP with
    | true =>
      have hok : Midifile.endOfTrack expandSize beats mf = .ok mf.bufferIndex mf := by
        rw [Midifile.endOfTrack, get_bind, if_pos hends, pure_apply]
      exact after_bind_ok hok _
    | false =>
      obtain ⟨e, herror⟩ := writeShortEvent_closed hclosed expandSize beats endOfTrackMessage 3
      have herror' : Midifile.endOfTrack expandSize beats mf = .error e mf := by
        rw [Midifile.endOfTrack, get_bind, hends, if_neg Bool.false_ne_true, herror]
      exact after_bind_error herror' _
  | nextTrack =>
    have hok : nextOutputTrack expandSize mf = .ok 0 mf := by
      rw [nextOutputTrack, get_bind, if_neg hnot, pure_apply]
    exact after_bind_ok hok _
  | close =>
    have hok : closeOutput expandSize mf = .ok ⟨⟩ mf := by
      rw [closeOutput, get_bind, if_neg hnot, pure_apply]
    exact after_ok hok

theorem Score.after_closed (hclosed : mf.openP = false) (hs : s.closed = true) (expandSize : ℕ)
    (c : OutputCall) : s.after expandSize mf c = s := by
  have hafter := c.after_closed hclosed expandSize
  rw [Score.after]
  cases hrun : c.run expandSize mf with
  | ok u mf' => simp [Score.done, hs]
  | error e mf' =>
    rw [after_error hrun] at hafter
    rw [hafter]
    cases c with
    | write c => rfl
    | endOfTrack beats => rfl
    | nextTrack => simp [Score.interrupted]
    | close => simp [Score.interrupted]

theorem after_ignored {α : Type} {x : Output α} {a : α} (h : x mf = .ok a mf') :
    (do let _ ← x : Output PUnit) mf = .ok ⟨⟩ mf' :=
  bind_ok h _

theorem error_ignored {α : Type} {x : Output α} (h : x mf = .error e mf') :
    (do let _ ← x : Output PUnit) mf = .error e mf' :=
  bind_error h _

theorem Score.after_ok {c : OutputCall} {u : PUnit} (h : c.run expandSize mf = .ok u mf') :
    s.after expandSize mf c = s.done c := by
  rw [Score.after, h]

theorem Score.after_error {c : OutputCall} (h : c.run expandSize mf = .error e mf') :
    s.after expandSize mf c = s.interrupted mf mf' c := by
  rw [Score.after, h]

section

variable (h : Recorded mf s) (hopen : s.closed = false)
include h hopen

theorem recorded_write (hwhole : (OutputCall.write c).Whole) (hfinish : s.current.finish = none)
    (hsafe : mf.Safe expandSize c) :
    Recorded (Signals.after ((OutputCall.write c).run expandSize) mf)
      (s.after expandSize mf (.write c)) := by
  obtain ⟨hbounds, hmessage⟩ := hwhole
  have hparsable : Parsable c.message := by
    rcases hmessage with hcomplete | hend
    · exact hcomplete.parsable
    · rw [hend]
      exact parsable_endMessage
  have hlen : 2 ≤ c.message.length := by
    rcases hmessage with hcomplete | hend
    · exact hcomplete.two_le_length
    · rw [hend]
      decide
  have hwriting := h.writing hopen
  rcases hwriting.run hbounds hlen hsafe with
    ⟨hfits, hok⟩ | ⟨e, mf', herror, hwriting', hfile, -⟩
  · have hrun : (OutputCall.write c).run expandSize mf = .ok ⟨⟩ (mf.after expandSize c) :=
      after_ignored hok
    have hdone : s.done (.write c) = { s with current := s.current.write s.ppqn c } := by
      simp [Score.done, hopen]
    rw [Signals.after_ok hrun, Score.after_ok hrun, hdone]
    obtain ⟨htime, hrecorded⟩ := WrittenTrack.write_spec hfinish s.ppqn c
    refine h.of_writing ⟨_, _, _, _, rfl⟩ hopen (hwriting.after hfits hparsable hlen ?_ ?_ ?_)
    · rw [htime, hwriting.delta]
    · rw [hrecorded, hwriting.delta]
    · rw [WrittenTrack.write]
      split
      · exact hwriting.complete
      · rename_i hnot
        intro e he
        rcases List.mem_append.mp he with he | he
        · exact hwriting.complete e he
        · rw [List.mem_singleton.mp he]
          exact hmessage.resolve_right hnot
  · have hrun : (OutputCall.write c).run expandSize mf = .error e mf' := error_ignored herror
    rw [Signals.after_error hrun, Score.after_error hrun]
    exact h.of_writing (t := s.current) hfile hopen hwriting'

theorem recorded_endOfTrack {beats : ℚ≥0} (hguess : mf.GuessesRight expandSize s beats) :
    Recorded (Signals.after ((OutputCall.endOfTrack beats).run expandSize) mf)
      (s.after expandSize mf (.endOfTrack beats)) := by
  rcases (h.writing hopen).endOfTrack hguess with
    ⟨mf', hok, hwriting, hfile, -⟩ | ⟨e, mf', herror, hwriting, hfile, -⟩
  · have hrun : (OutputCall.endOfTrack beats).run expandSize mf = .ok ⟨⟩ mf' := after_ignored hok
    have hdone : s.done (.endOfTrack beats) =
        { s with current := s.current.endAt s.ppqn beats } := by
      simp [Score.done, hopen]
    rw [Signals.after_ok hrun, Score.after_ok hrun, hdone]
    exact h.of_writing hfile hopen hwriting
  · have hrun : (OutputCall.endOfTrack beats).run expandSize mf = .error e mf' :=
      error_ignored herror
    rw [Signals.after_error hrun, Score.after_error hrun]
    exact h.of_writing (t := s.current) hfile hopen hwriting

theorem recorded_interrupted (hfile : SameFile mf mf')
    (hwriting : Writing mf' (if mf'.bufferIndex ≠ mf.bufferIndex then
      { s with current := s.current.endAt s.ppqn 0 } else s)) :
    Recorded mf' (if mf'.fdStream ≠ mf.fdStream then s.next
      else if mf'.bufferIndex ≠ mf.bufferIndex then
        { s with current := s.current.endAt s.ppqn 0 } else s) := by
  rw [if_neg (not_not.mpr hfile.fdStream)]
  split_ifs at hwriting ⊢ with hindex
  · exact h.of_writing hfile hopen hwriting
  · exact h.of_writing (t := s.current) hfile hopen hwriting

theorem recorded_nextTrack (hguess : mf.GuessesRight expandSize s 0) :
    Recorded (Signals.after (OutputCall.nextTrack.run expandSize) mf)
      (s.after expandSize mf .nextTrack) := by
  have hwriting := h.writing hopen
  rcases hwriting.writeTrack hguess with
    ⟨mf₁, hok, hwriting₁, hfile, hstatus, hlength⟩ | ⟨e, mf', herror, hfile, hwriting'⟩
  · have hnext : nextOutputTrack expandSize mf =
        .ok (mf₁.emptied.currentTrack + 1) { mf₁.emptied with
          numberOfTracks := mf₁.emptied.numberOfTracks + 1
          currentTrack := mf₁.emptied.currentTrack + 1 } := by
      rw [nextOutputTrack, get_bind, if_pos hwriting.metrical.opened, bind_ok hok, modify_bind,
        get_bind, pure_apply]
    have hrun := after_ignored hnext
    have hdone : s.done .nextTrack = s.next := by simp [Score.done, hopen]
    rw [OutputCall.run, Signals.after_ok hrun, Score.after_ok (c := .nextTrack) hrun, hdone]
    have hsame : mf₁.fdStream = mf.fdStream := hfile.fdStream
    have hheader : 14 ≤ mf₁.fdStream.length := hsame ▸ h.header
    have hchunks := (h.chunks.of_drop (congrArg (List.drop 14) hsame)).emptied hheader hwriting₁
      hlength
    refine ⟨hchunks.of_drop rfl, ?_, fun hclosed => absurd (hopen.symm.trans hclosed)
      Bool.false_ne_true, fun _ => ?_⟩
    · exact hheader.trans (by simp [OutputStream.emptied])
    · exact hwriting₁.emptied hstatus _ _ _ hwriting₁.metrical.format
  · have hnext : nextOutputTrack expandSize mf = .error e mf' := by
      rw [nextOutputTrack, get_bind, if_pos hwriting.metrical.opened, bind_error herror]
    have hrun := error_ignored hnext
    rw [OutputCall.run, Signals.after_error hrun, Score.after_error (c := .nextTrack) hrun]
    exact recorded_interrupted h hopen hfile hwriting'

end

theorem eq_of_check_error {p : Prop} [Decidable p] {e' : Error}
    (h : (check p e : Output PUnit) mf = .error e' mf') : mf' = mf := by
  by_cases hp : p
  · rw [check_pos hp] at h
    cases h
  · rw [check_neg hp, EStateM.Result.error.injEq] at h
    exact h.2.symm

theorem writeHeader_error (h : writeHeader mf = .error e mf') : mf' = mf := by
  rw [writeHeader, get_bind] at h
  rcases bind_eq_error.mp h with hcheck | ⟨_, s', -, hmodify⟩
  · exact eq_of_check_error hcheck
  · cases hmodify

theorem drop_header (format numberOfTracks division : ℕ) (octets : List Octet) :
    (headerChunk format numberOfTracks division 0 ++ octets).drop 14 = octets := by
  rw [← length_headerChunk format numberOfTracks division, List.drop_left]

theorem recorded_close (h : Recorded mf s) (hopen : s.closed = false)
    (hguess : mf.GuessesRight expandSize s 0) :
    Recorded (Signals.after (OutputCall.close.run expandSize) mf)
      (s.after expandSize mf .close) := by
  have hwriting := h.writing hopen
  have hclose : OutputCall.close.run expandSize = closeOutput expandSize := rfl
  rcases hwriting.writeTrack hguess with
    ⟨mf₁, hok, hwriting₁, hfile, hstatus, hlength⟩ | ⟨e, mf', herror, hfile, hwriting'⟩
  · have hsame : mf₁.fdStream = mf.fdStream := hfile.fdStream
    have hheader : 14 ≤ mf₁.fdStream.length := hsame ▸ h.header
    have hchunks := (h.chunks.of_drop (congrArg (List.drop 14) hsame)).emptied hheader hwriting₁
      hlength
    have hheader' : 14 ≤ mf₁.emptied.fdStream.length :=
      hheader.trans (by simp [OutputStream.emptied])
    have hdone : s.done .close = { s.next with closed := true } := by simp [Score.done, hopen]
    have hclosed {mf₂ : OutputStream} (hrun : closeOutput expandSize mf = .ok ⟨⟩ mf₂)
        (hp : mf₂.openP = false) (hlen : 14 ≤ mf₂.fdStream.length)
        (hdrop : mf₂.fdStream.drop 14 = mf₁.emptied.fdStream.drop 14) :
        Recorded (Signals.after (OutputCall.close.run expandSize) mf)
          (s.after expandSize mf .close) := by
      rw [hclose, Signals.after_ok hrun, Score.after_ok (c := .close) hrun, hdone]
      exact ⟨hchunks.of_drop hdrop, hlen, fun _ => hp, fun hfalse => by cases hfalse⟩
    have hstart : closeOutput expandSize mf = (do
        if 1 < (← get).numberOfTracks then
          modify fun mf => { mf with format := if mf.format = 0 then 1 else mf.format }
          writeHeader
        modify fun mf => { mf with openP := false } : Output PUnit) mf₁.emptied := by
      rw [closeOutput, get_bind, if_pos hwriting.metrical.opened, bind_ok hok]
    rw [get_bind] at hstart
    by_cases hmany : 1 < mf₁.emptied.numberOfTracks
    · rw [if_pos hmany, modify_bind] at hstart
      set mf₂ : OutputStream := { mf₁.emptied with
        format := if mf₁.emptied.format = 0 then 1 else mf₁.emptied.format } with hmf₂
      have hformat : mf₂.format ≤ 2 := by
        have hle : mf₁.emptied.format ≤ 2 := hwriting₁.metrical.format
        change (if mf₁.emptied.format = 0 then 1 else mf₁.emptied.format) ≤ 2
        split
        · decide
        · exact hle
      cases hwrite : writeHeader mf₂ with
      | ok u mf₃ =>
        have hsmpte : mf₂.smpteFormat = 0 := hwriting₁.metrical.smpte
        obtain ⟨-, rfl⟩ := (writeHeader_eq_ok hsmpte hwriting₁.metrical.ticks hformat
          hwriting₁.metrical.ppqn).mp hwrite
        rw [bind_ok hwrite] at hstart
        refine hclosed hstart rfl ?_ (drop_header _ _ _ _)
        rw [List.length_append, length_headerChunk]
        exact Nat.le_add_right 14 _
      | error e mf₃ =>
        obtain rfl := writeHeader_error hwrite
        rw [bind_error hwrite] at hstart
        have hgrown : mf₂.fdStream ≠ mf.fdStream := by
          intro heq
          have hlen := congrArg List.length heq
          rw [hmf₂, OutputStream.emptied, ← hsame] at hlen
          simp [chunkOf, fourBytes, twoBytes] at hlen
        rw [hclose, Signals.after_error hstart, Score.after_error (c := .close) hstart,
          Score.interrupted, if_pos hgrown]
        refine ⟨hchunks.of_drop rfl, hheader', fun hfalse => absurd (hopen.symm.trans hfalse)
          Bool.false_ne_true, fun _ => ?_⟩
        exact hwriting₁.emptied hstatus _ _ _ hformat
    · rw [if_neg hmany] at hstart
      exact hclosed hstart rfl hheader' rfl
  · have herror' : closeOutput expandSize mf = .error e mf' := by
      rw [closeOutput, get_bind, if_pos hwriting.metrical.opened, bind_error herror]
    rw [hclose, Signals.after_error herror', Score.after_error (c := .close) herror']
    exact recorded_interrupted h hopen hfile hwriting'

theorem recorded_call (h : Recorded mf s) {c : OutputCall} (hwhole : c.Whole)
    (hmeets : Meets expandSize mf s c) :
    Recorded (Signals.after (c.run expandSize) mf) (s.after expandSize mf c) := by
  cases hclosed : s.closed with
  | true =>
    have hp := h.closed hclosed
    rw [c.after_closed hp, Score.after_closed hp hclosed]
    exact h
  | false =>
    cases c with
    | write c =>
      obtain ⟨hfinish, hsafe⟩ := hmeets hclosed
      exact recorded_write h hclosed hwhole hfinish hsafe
    | endOfTrack beats => exact recorded_endOfTrack h hclosed (hmeets hclosed)
    | nextTrack => exact recorded_nextTrack h hclosed (hmeets hclosed)
    | close => exact recorded_close h hclosed (hmeets hclosed)

theorem recorded_opened {format : Option (Fin 3)} {ppqn bufferSize : ℕ}
    {pooled : Option (List Octet)} (hppqn : ppqn < 0x10000) :
    Recorded (opened format ppqn bufferSize pooled) { ppqn } where
  chunks := ⟨[], rfl, .nil⟩
  header := le_of_eq rfl
  closed := fun hclosed => by cases hclosed
  writing := fun _ => {
    metrical := metrical_opened hppqn
    ppqn := rfl
    time := rfl
    holds := ⟨none, .nil none, fun hge => absurd hge (show ¬ 0x80 ≤ (0 : Octet).toNat by decide)⟩
    ends := by
      refine iff_of_false Bool.false_ne_true ?_
      rintro ⟨e, he, -⟩
      cases he
    complete := fun e he => by cases he }

theorem OutputRun.recorded (h : OutputRun Meets mf s) : Recorded mf s := by
  induction h with
  | opened hopen =>
    obtain ⟨hppqn, rfl⟩ := openOutput_eq_ok.mp hopen
    exact recorded_opened hppqn
  | call expandSize c _ hwhole hmeets ih => exact recorded_call ih hwhole hmeets

/-- In every run where no event follows the end of its track, the end of a track is guessed right
and no error changes the state of the track, the chunks hold the written events and then one end
of track. -/
theorem chunks_wellFormed (h : OutputRun Meets mf s) : WellFormedChunks mf s.finished :=
  h.recorded.chunks

theorem chunks_wellFormed_noteOn :
    ∃ mf s, OutputRun Meets mf s ∧ s.finished.length = 1 ∧ WellFormedChunks mf s.finished := by
  set note : WriteCall := .event 0 [0x90, 0x3c, 0x40] 0 none with hnote
  have hcomplete : Complete note.message := .threeBytes 0x90 0x3c 0x40 (by decide) (by decide)
    (by decide)
  have hfits : emptyOutput.Fits 4000 note :=
    ⟨fun _ => rfl, by decide +kernel, by decide +kernel⟩
  have hstart : OutputRun Meets emptyOutput { ppqn := 480 } := .opened openOutput_emptyOutput
  have hfirst := hstart.call 4000 (.write note) ⟨⟨by decide, by decide⟩, .inl hcomplete⟩
    fun _ => ⟨rfl, .inl hfits⟩
  have hstatus : ∀ e ∈ (Score.after 4000 emptyOutput { ppqn := 480 }
      (.write note)).current.recorded.getLast?, e.message.headD 0 ≠ 0xff := by decide +kernel
  have hlast := hfirst.call 4000 .close trivial fun _ _ =>
    ⟨fun ⟨e, he, hend, _⟩ => hstatus e he hend, .inl ⟨trivial, by decide +kernel, by decide +kernel⟩⟩
  exact ⟨_, _, hlast, by decide +kernel, chunks_wellFormed hlast⟩

def slashText : WriteCall :=
  .event 0 [0xff, 0x01, 0x02, 0x2f, 0x78] 0 none

/-- No end of track is added after such a text. -/
theorem not_chunks_wellFormed :
    ¬ ∀ (mf : OutputStream) (s : Score), OutputRun (fun _ _ _ _ => True) mf s →
      WellFormedChunks mf s.finished := by
  intro hall
  have hcomplete : Complete slashText.message :=
    .metaEvent 0x01 [0x02] [0x2f, 0x78] (by decide) (show (0x02 : Octet).toNat < 0x80 by decide) rfl
  have hstart : OutputRun (fun _ _ _ _ => True) emptyOutput { ppqn := 480 } :=
    .opened openOutput_emptyOutput
  have hrun := (hstart.call 4000 (.write slashText) ⟨⟨by decide, by decide⟩, .inl hcomplete⟩
    trivial).call 4000 .close trivial trivial
  obtain ⟨chunks, hchunks, hholds⟩ := hall _ _ hrun
  have hfile : (Signals.after (OutputCall.close.run 4000)
      (Signals.after ((OutputCall.write slashText).run 4000) emptyOutput)).fdStream.drop 14 =
        chunkOf [0x00, 0xff, 0x01, 0x02, 0x2f, 0x78] := by decide +kernel
  have htwo : (Score.after 4000 (Signals.after ((OutputCall.write slashText).run 4000) emptyOutput)
      (Score.after 4000 emptyOutput { ppqn := 480 } (.write slashText)) .close).finished.map
        (·.data.length) = [2] := by decide +kernel
  obtain ⟨track, htrack, hlength⟩ := List.map_eq_singleton_iff.mp htwo
  rw [htrack] at hholds
  obtain ⟨data, _, hdata, hnil, rfl⟩ := List.forall₂_cons_right_iff.mp hholds
  obtain rfl := List.forall₂_nil_right_iff.mp hnil
  rw [hfile] at hchunks
  have hsame : chunkOf [0x00, 0xff, 0x01, 0x02, 0x2f, 0x78] = chunkOf data := by simpa using hchunks
  have hdata' : [0x00, 0xff, 0x01, 0x02, 0x2f, 0x78] = data := congrArg (List.drop 8) hsame
  have hparsed := congrArg (Option.map List.length) hdata.parsed
  rw [← hdata', Option.map_some, hlength] at hparsed
  exact absurd hparsed (by decide)

end Chunks

end Incudine.Midifile

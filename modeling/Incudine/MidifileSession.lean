import Incudine.Literals
import Incudine.MidifileWriter

/-!
# The file that an output stream writes

A session opens an output stream, writes the events of the tracks, calls `next-track` between
two tracks and closes the stream.
-/

namespace Incudine.Midifile

open Octets Signals

/-- A whole message: a channel message, a meta event other than the end of a track, or a system
exclusive message, the last two with the length of their data. -/
inductive Complete : List Octet → Prop
  | twoBytes (status data : Octet) :
      0xc0 ≤ status.toNat → status.toNat ≤ 0xdf → data.toNat < 0x80 → Complete [status, data]
  | threeBytes (status data1 data2 : Octet) :
      0x80 ≤ status.toNat ∧ status.toNat < 0xc0 ∨ 0xe0 ≤ status.toNat ∧ status.toNat < 0xf0 →
      data1.toNat < 0x80 → data2.toNat < 0x80 → Complete [status, data1, data2]
  | metaEvent (type : Octet) (length data : List Octet) :
      type ≠ 0x2f → Delimited length → quantity length = data.length →
      Complete (0xff :: type :: (length ++ data))
  | sysex (status : Octet) (length data : List Octet) :
      status = 0xf0 ∨ status = 0xf7 → Delimited length → quantity length = data.length →
      Complete (status :: (length ++ data))

theorem Complete.two_le_length {message : List Octet} (h : Complete message) :
    2 ≤ message.length := by
  cases h with
  | twoBytes => simp
  | threeBytes => simp
  | metaEvent => simp
  | sysex _ length _ _ hlength =>
    have hpos := hlength.length_pos
    simp only [List.length_cons, List.length_append]
    omega

structure WriteCall.WellFormed (c : WriteCall) : Prop where
  inBounds : c.InBounds
  complete : Complete c.message

def writeCalls (expandSize : ℕ) : List WriteCall → Output PUnit
  | [] => pure ⟨⟩
  | c :: cs => do
    let _ ← c.run expandSize
    writeCalls expandSize cs

def writeTracks (expandSize : ℕ) : List WriteCall → List (List WriteCall) → Output PUnit
  | track, [] => do
    writeCalls expandSize track
    closeOutput expandSize
  | track, next :: tracks => do
    writeCalls expandSize track
    let _ ← nextOutputTrack expandSize
    writeTracks expandSize next tracks

/-- The file of a session, if no call signals an error. -/
def writeFile (expandSize : ℕ) (format : Option (Fin 3)) (ppqn bufferSize : ℕ)
    (pooled : Option (List Octet)) (track : List WriteCall) (tracks : List (List WriteCall)) :
    Option (List Octet) :=
  match openOutput format ppqn bufferSize pooled with
  | .error _ _ => none
  | .ok _ mf =>
    match writeTracks expandSize track tracks mf with
    | .error _ _ => none
    | .ok _ mf => some mf.fdStream

variable {file : List Octet}

namespace OutputStream

structure Metrical (mf : OutputStream) : Prop where
  opened : mf.openP = true
  index : mf.bufferIndex ≤ mf.buffer.length
  smpte : mf.smpteFormat = 0
  ticks : mf.ticksPerFrame = 0
  format : mf.format ≤ 2
  ppqn : mf.ppqn < 0x10000

def afterCalls (expandSize : ℕ) (mf : OutputStream) (calls : List WriteCall) : OutputStream :=
  calls.foldl (after expandSize) mf

def AllFit (expandSize : ℕ) (mf : OutputStream) : List WriteCall → Prop
  | [] => True
  | c :: cs => mf.Fits expandSize c ∧ (mf.after expandSize c).AllFit expandSize cs

def endCall : WriteCall := .shortEvent 0 endOfTrackMessage 3

def ended (expandSize : ℕ) (mf : OutputStream) : OutputStream :=
  if mf.endOfTrackP then mf else mf.after expandSize endCall

/-- There is room for the end of the track, and its length is an `(unsigned-byte 32)`. -/
structure EndFits (expandSize : ℕ) (mf : OutputStream) : Prop where
  fits : mf.endOfTrackP = false → mf.Fits expandSize endCall
  length : (mf.ended expandSize).bufferIndex < 0x100000000

def chunk (expandSize : ℕ) (mf : OutputStream) : List Octet :=
  fourBytes trackType ++ fourBytes (mf.ended expandSize).bufferIndex ++
    (mf.ended expandSize).buffer.take (mf.ended expandSize).bufferIndex

def flushed (expandSize : ℕ) (mf : OutputStream) : OutputStream :=
  { mf.ended expandSize with
    fdStream := mf.fdStream ++ mf.chunk expandSize
    trackTime := 0
    bufferIndex := 0 }

def next (expandSize : ℕ) (mf : OutputStream) : OutputStream :=
  { mf.flushed expandSize with
    numberOfTracks := mf.numberOfTracks + 1
    currentTrack := mf.currentTrack + 1 }

/-- The header with the format that `close` gives to a file of more than one track. -/
def finalHeader (mf : OutputStream) (numberOfTracks : ℕ) : List Octet :=
  headerChunk (if mf.format = 0 then 1 else mf.format) numberOfTracks mf.ppqn 0

def closedFile (expandSize : ℕ) (mf : OutputStream) : List Octet :=
  if 1 < mf.numberOfTracks then
    mf.finalHeader mf.numberOfTracks ++ (mf.flushed expandSize).fdStream.drop 14
  else (mf.flushed expandSize).fdStream

variable {expandSize : ℕ} {mf mf' : OutputStream}

theorem Metrical.after (h : mf.Metrical) {c : WriteCall} (hfits : mf.Fits expandSize c) :
    (mf.after expandSize c).Metrical where
  opened := h.opened
  index := by
    have hlen := length_splice hfits.room
    simp only [OutputStream.after, hlen]
    exact hfits.room
  smpte := h.smpte
  ticks := h.ticks
  format := h.format
  ppqn := h.ppqn

theorem Metrical.afterCalls (h : mf.Metrical) {calls : List WriteCall}
    (hfit : mf.AllFit expandSize calls) : (mf.afterCalls expandSize calls).Metrical := by
  induction calls generalizing mf with
  | nil => exact h
  | cons c cs ih => exact ih (h.after hfit.1) hfit.2

theorem writeCalls_eq_ok (h : mf.Metrical) {calls : List WriteCall}
    (hwf : ∀ c ∈ calls, c.WellFormed) {u : PUnit} :
    writeCalls expandSize calls mf = .ok u mf' ↔
      mf.AllFit expandSize calls ∧ mf' = mf.afterCalls expandSize calls := by
  induction calls generalizing mf with
  | nil =>
    rw [writeCalls, pure_apply, EStateM.Result.ok.injEq]
    simp [AllFit, OutputStream.afterCalls, eq_comm]
  | cons c cs ih =>
    have hc := hwf c List.mem_cons_self
    have hcs : ∀ c ∈ cs, c.WellFormed := fun c' hc' => hwf c' (List.mem_cons_of_mem c hc')
    rw [writeCalls, bind_eq_ok]
    constructor
    · rintro ⟨j, s, hrun, hrest⟩
      obtain ⟨hfits, rfl, -⟩ :=
        (WriteCall.run_eq_ok h.opened h.index hc.inBounds hc.complete.two_le_length).mp hrun
      obtain ⟨hall, rfl⟩ := (ih (h.after hfits) hcs).mp hrest
      exact ⟨⟨hfits, hall⟩, rfl⟩
    · rintro ⟨⟨hfits, hall⟩, rfl⟩
      refine ⟨_, _, (WriteCall.run_eq_ok h.opened h.index hc.inBounds
        hc.complete.two_le_length).mpr ⟨hfits, rfl, rfl⟩, ?_⟩
      exact (ih (h.after hfits) hcs).mpr ⟨hall, rfl⟩

theorem endOfTrack_eq_ok (h : mf.Metrical) {j : ℕ} :
    endOfTrack expandSize 0 mf = .ok j mf' ↔
      (mf.endOfTrackP = false → mf.Fits expandSize endCall) ∧
        mf' = mf.ended expandSize ∧ j = mf'.bufferIndex := by
  rw [endOfTrack, get_bind, ended]
  cases hend : mf.endOfTrackP with
  | true =>
    rw [if_pos rfl, if_pos rfl, pure_apply, EStateM.Result.ok.injEq]
    constructor
    · rintro ⟨rfl, rfl⟩
      exact ⟨fun hfalse => absurd hfalse (by decide), rfl, rfl⟩
    · rintro ⟨-, rfl, rfl⟩
      exact ⟨rfl, rfl⟩
  | false =>
    have hrun : writeShortEvent expandSize 0 endOfTrackMessage 3 mf = endCall.run expandSize mf :=
      rfl
    have hbounds : endCall.InBounds := ⟨by decide, by decide⟩
    rw [if_neg Bool.false_ne_true, if_neg Bool.false_ne_true, hrun,
      WriteCall.run_eq_ok h.opened h.index hbounds (by decide)]
    simp

theorem ended_fdStream (expandSize : ℕ) (mf : OutputStream) :
    (mf.ended expandSize).fdStream = mf.fdStream := by
  rw [ended]
  split
  · rfl
  · rfl

theorem ended_bufferIndex_pos (expandSize : ℕ) (mf : OutputStream) :
    0 < (mf.ended expandSize).bufferIndex := by
  rw [ended]
  split
  · rename_i hend
    simp only [endOfTrackP, decide_eq_true_eq] at hend
    omega
  · have hlen : 0 < (endCall.octets mf).length := by
      rw [WriteCall.octets, List.length_append, length_encode]
      have hpos := octetCount_pos (mf.deltaTime endCall.beats)
      omega
    simp only [OutputStream.after]
    omega

theorem writeTrack_eq_ok (h : mf.Metrical) {u : PUnit} :
    writeTrack expandSize mf = .ok u mf' ↔
      mf.EndFits expandSize ∧ mf' = mf.flushed expandSize := by
  rw [writeTrack, bind_eq_ok]
  constructor
  · rintro ⟨len, s, hend, hok⟩
    obtain ⟨hfits, rfl, rfl⟩ := (endOfTrack_eq_ok h).mp hend
    obtain ⟨_, s, hcheck, hok⟩ := bind_eq_ok.mp hok
    obtain ⟨hlength, rfl⟩ := check_eq_ok.mp hcheck
    obtain ⟨_, s, hcheck, hok⟩ := bind_eq_ok.mp hok
    obtain ⟨-, rfl⟩ := check_eq_ok.mp hcheck
    rw [modify_apply, EStateM.Result.ok.injEq] at hok
    obtain ⟨-, rfl⟩ := hok
    refine ⟨⟨hfits, hlength⟩, ?_⟩
    simp only [flushed, chunk, ended_fdStream, List.append_assoc]
  · rintro ⟨⟨hfits, hlength⟩, rfl⟩
    refine ⟨_, _, (endOfTrack_eq_ok h).mpr ⟨hfits, rfl, rfl⟩, ?_⟩
    rw [bind_ok (check_pos hlength _ _),
      bind_ok (check_pos (ended_bufferIndex_pos expandSize mf) _ _), modify_apply]
    simp only [flushed, chunk, ended_fdStream, List.append_assoc]

theorem Metrical.ended (h : mf.Metrical) (hend : mf.EndFits expandSize) :
    (mf.ended expandSize).Metrical := by
  cases hp : mf.endOfTrackP with
  | true => rwa [OutputStream.ended, if_pos hp]
  | false =>
    rw [OutputStream.ended, hp, if_neg Bool.false_ne_true]
    exact h.after (hend.fits hp)

theorem ended_numberOfTracks (expandSize : ℕ) (mf : OutputStream) :
    (mf.ended expandSize).numberOfTracks = mf.numberOfTracks := by
  rw [OutputStream.ended]
  split
  · rfl
  · rfl

theorem ended_currentTrack (expandSize : ℕ) (mf : OutputStream) :
    (mf.ended expandSize).currentTrack = mf.currentTrack := by
  rw [OutputStream.ended]
  split
  · rfl
  · rfl

theorem ended_ppqn (expandSize : ℕ) (mf : OutputStream) :
    (mf.ended expandSize).ppqn = mf.ppqn := by
  rw [OutputStream.ended]
  split
  · rfl
  · rfl

theorem ended_format (expandSize : ℕ) (mf : OutputStream) :
    (mf.ended expandSize).format = mf.format := by
  rw [OutputStream.ended]
  split
  · rfl
  · rfl

theorem Metrical.next (h : mf.Metrical) (hend : mf.EndFits expandSize) :
    (mf.next expandSize).Metrical where
  opened := (h.ended hend).opened
  index := Nat.zero_le _
  smpte := (h.ended hend).smpte
  ticks := (h.ended hend).ticks
  format := (h.ended hend).format
  ppqn := (h.ended hend).ppqn

theorem nextOutputTrack_eq_ok (h : mf.Metrical) {j : ℕ} :
    nextOutputTrack expandSize mf = .ok j mf' ↔
      mf.EndFits expandSize ∧ mf' = mf.next expandSize ∧ j = mf.currentTrack + 1 := by
  have hnext : { mf.flushed expandSize with
      numberOfTracks := (mf.flushed expandSize).numberOfTracks + 1
      currentTrack := (mf.flushed expandSize).currentTrack + 1 } = mf.next expandSize := by
    simp only [OutputStream.next, flushed, ended_numberOfTracks, ended_currentTrack]
  rw [nextOutputTrack, get_bind, if_pos h.opened, bind_eq_ok]
  constructor
  · rintro ⟨_, s, hwrite, hok⟩
    obtain ⟨hend, rfl⟩ := (writeTrack_eq_ok h).mp hwrite
    rw [modify_bind, get_bind, hnext, pure_apply, EStateM.Result.ok.injEq] at hok
    exact ⟨hend, hok.2.symm, hok.1.symm⟩
  · rintro ⟨hend, rfl, rfl⟩
    refine ⟨⟨⟩, _, (writeTrack_eq_ok h).mpr ⟨hend, rfl⟩, ?_⟩
    rw [modify_bind, get_bind, hnext, pure_apply]
    rfl

theorem length_headerChunk (format numberOfTracks division : ℕ) :
    (headerChunk format numberOfTracks division 0).length = 14 := rfl

theorem writeHeader_eq_ok {u : PUnit} (hsmpte : mf.smpteFormat = 0) (hticks : mf.ticksPerFrame = 0)
    (hformat : mf.format ≤ 2) (hppqn : mf.ppqn < 0x10000) :
    writeHeader mf = .ok u mf' ↔ mf.numberOfTracks < 0x10000 ∧
      mf' = { mf with
        fdStream := headerChunk mf.format mf.numberOfTracks mf.ppqn 0 ++ mf.fdStream.drop 14 } := by
  have hdivision : (if 0 < mf.ppqn then mf.ppqn else mf.smpteFormat) = mf.ppqn := by
    split
    · rfl
    · omega
  have hheader : headerChunk mf.format mf.numberOfTracks mf.ppqn mf.ticksPerFrame =
      headerChunk mf.format mf.numberOfTracks mf.ppqn 0 := by rw [hticks]
  rw [writeHeader, get_bind, hdivision, hheader]
  constructor
  · intro hok
    obtain ⟨_, s, hcheck, hok⟩ := bind_eq_ok.mp hok
    obtain ⟨htypes, rfl⟩ := check_eq_ok.mp hcheck
    rw [modify_apply, EStateM.Result.ok.injEq, length_headerChunk] at hok
    exact ⟨htypes.2.1, hok.2.symm⟩
  · rintro ⟨htracks, rfl⟩
    rw [bind_ok (check_pos ⟨by omega, htracks, hppqn, by omega, by omega⟩ _ mf), modify_apply,
      length_headerChunk]

theorem closeOutput_eq_ok (h : mf.Metrical) :
    (∃ u mf', closeOutput expandSize mf = .ok u mf' ∧ mf'.fdStream = file) ↔
      mf.EndFits expandSize ∧ mf.numberOfTracks < 0x10000 ∧ file = mf.closedFile expandSize := by
  rw [closeOutput, get_bind, if_pos h.opened]
  by_cases hend : mf.EndFits expandSize
  swap
  · constructor
    · rintro ⟨u, mf', hok, -⟩
      obtain ⟨_, s, hwrite, -⟩ := bind_eq_ok.mp hok
      exact absurd ((writeTrack_eq_ok h).mp hwrite).1 hend
    · rintro ⟨hfits, -⟩
      exact absurd hfits hend
  have hmetrical := h.ended hend
  have htracks : (mf.flushed expandSize).numberOfTracks = mf.numberOfTracks :=
    ended_numberOfTracks expandSize mf
  rw [bind_ok ((writeTrack_eq_ok (u := ⟨⟩) h).mpr ⟨hend, rfl⟩), get_bind, htracks, closedFile]
  by_cases hmany : 1 < mf.numberOfTracks
  · have hformat : (if (mf.flushed expandSize).format = 0 then 1
        else (mf.flushed expandSize).format) ≤ 2 := by
      have hle : (mf.flushed expandSize).format ≤ 2 := hmetrical.format
      split
      · decide
      · exact hle
    have hheader : headerChunk (if (mf.flushed expandSize).format = 0 then 1
          else (mf.flushed expandSize).format) (mf.flushed expandSize).numberOfTracks
          (mf.flushed expandSize).ppqn 0 = mf.finalHeader mf.numberOfTracks := by
      simp only [flushed, finalHeader, ended_format, ended_ppqn, ended_numberOfTracks]
    rw [if_pos hmany, if_pos hmany, modify_bind]
    constructor
    · rintro ⟨u, s, hok, rfl⟩
      obtain ⟨_, s', hwrite, hok⟩ := bind_eq_ok.mp hok
      obtain ⟨hcount, rfl⟩ := (writeHeader_eq_ok (by exact hmetrical.smpte)
        (by exact hmetrical.ticks) hformat (by exact hmetrical.ppqn)).mp hwrite
      obtain ⟨-, rfl⟩ := EStateM.Result.ok.inj hok
      exact ⟨hend, by rwa [htracks] at hcount, congrArg (· ++ _) hheader⟩
    · rintro ⟨-, hcount, rfl⟩
      refine ⟨⟨⟩, _, bind_eq_ok.mpr ⟨⟨⟩, _, (writeHeader_eq_ok (by exact hmetrical.smpte)
        (by exact hmetrical.ticks) hformat (by exact hmetrical.ppqn)).mpr ⟨?_, rfl⟩, rfl⟩, ?_⟩
      · rwa [htracks]
      · exact congrArg (· ++ _) hheader
  · rw [if_neg hmany, if_neg hmany]
    constructor
    · rintro ⟨u, s, hok, rfl⟩
      obtain ⟨-, rfl⟩ := EStateM.Result.ok.inj hok
      exact ⟨hend, by omega, rfl⟩
    · rintro ⟨-, -, rfl⟩
      exact ⟨⟨⟩, _, rfl, rfl⟩

/-- Every call of the session finds the room that it needs. -/
def TracksFit (expandSize : ℕ) (mf : OutputStream) : List WriteCall → List (List WriteCall) → Prop
  | track, [] => mf.AllFit expandSize track ∧ (mf.afterCalls expandSize track).EndFits expandSize
  | track, next :: tracks =>
    mf.AllFit expandSize track ∧ (mf.afterCalls expandSize track).EndFits expandSize ∧
      ((mf.afterCalls expandSize track).next expandSize).TracksFit expandSize next tracks

def chunks (expandSize : ℕ) (mf : OutputStream) : List WriteCall → List (List WriteCall) →
    List Octet
  | track, [] => (mf.afterCalls expandSize track).chunk expandSize
  | track, next :: tracks =>
    (mf.afterCalls expandSize track).chunk expandSize ++
      ((mf.afterCalls expandSize track).next expandSize).chunks expandSize next tracks

def sessionHeader (mf : OutputStream) (tracks : ℕ) : List Octet :=
  if 1 < mf.numberOfTracks + tracks then mf.finalHeader (mf.numberOfTracks + tracks)
  else mf.fdStream.take 14

theorem afterCalls_fdStream (expandSize : ℕ) (mf : OutputStream) (calls : List WriteCall) :
    (mf.afterCalls expandSize calls).fdStream = mf.fdStream := by
  induction calls generalizing mf with
  | nil => rfl
  | cons c cs ih => exact ih (mf.after expandSize c)

theorem afterCalls_numberOfTracks (expandSize : ℕ) (mf : OutputStream) (calls : List WriteCall) :
    (mf.afterCalls expandSize calls).numberOfTracks = mf.numberOfTracks := by
  induction calls generalizing mf with
  | nil => rfl
  | cons c cs ih => exact ih (mf.after expandSize c)

theorem afterCalls_format (expandSize : ℕ) (mf : OutputStream) (calls : List WriteCall) :
    (mf.afterCalls expandSize calls).format = mf.format := by
  induction calls generalizing mf with
  | nil => rfl
  | cons c cs ih => exact ih (mf.after expandSize c)

theorem afterCalls_ppqn (expandSize : ℕ) (mf : OutputStream) (calls : List WriteCall) :
    (mf.afterCalls expandSize calls).ppqn = mf.ppqn := by
  induction calls generalizing mf with
  | nil => rfl
  | cons c cs ih => exact ih (mf.after expandSize c)

theorem closedFile_afterCalls (hheader : 14 ≤ mf.fdStream.length) (calls : List WriteCall) :
    (mf.afterCalls expandSize calls).closedFile expandSize =
      mf.sessionHeader 0 ++ mf.fdStream.drop 14 ++
        (mf.afterCalls expandSize calls).chunk expandSize := by
  rw [closedFile, sessionHeader, flushed, afterCalls_numberOfTracks, afterCalls_fdStream,
    Nat.add_zero, finalHeader, afterCalls_format, afterCalls_ppqn]
  split
  · rw [finalHeader, List.drop_append_of_le_length hheader, List.append_assoc]
  · rw [List.take_append_drop]

theorem next_fdStream (expandSize : ℕ) (mf : OutputStream) :
    (mf.next expandSize).fdStream = mf.fdStream ++ mf.chunk expandSize := rfl

theorem sessionHeader_next (expandSize : ℕ) (hheader : 14 ≤ mf.fdStream.length)
    (calls : List WriteCall) (n : ℕ) :
    ((mf.afterCalls expandSize calls).next expandSize).sessionHeader n =
      mf.sessionHeader (n + 1) := by
  have htracks : ((mf.afterCalls expandSize calls).next expandSize).numberOfTracks + n =
      mf.numberOfTracks + (n + 1) := by
    rw [OutputStream.next, afterCalls_numberOfTracks]
    simp only [Nat.add_assoc, Nat.add_comm 1 n]
  have hformat : ((mf.afterCalls expandSize calls).next expandSize).format = mf.format := by
    rw [OutputStream.next, flushed]
    simp only [ended_format, afterCalls_format]
  have hppqn : ((mf.afterCalls expandSize calls).next expandSize).ppqn = mf.ppqn := by
    rw [OutputStream.next, flushed]
    simp only [ended_ppqn, afterCalls_ppqn]
  rw [sessionHeader, sessionHeader, htracks, finalHeader, finalHeader, hformat, hppqn,
    next_fdStream, afterCalls_fdStream, List.take_append_of_le_length hheader]

theorem writeTracks_eq_ok {track : List WriteCall} {tracks : List (List WriteCall)}
    (h : mf.Metrical) (hheader : 14 ≤ mf.fdStream.length)
    (hwf : ∀ t ∈ track :: tracks, ∀ c ∈ t, c.WellFormed) :
    (∃ u mf', writeTracks expandSize track tracks mf = .ok u mf' ∧ mf'.fdStream = file) ↔
      mf.TracksFit expandSize track tracks ∧ mf.numberOfTracks + tracks.length < 0x10000 ∧
        file = mf.sessionHeader tracks.length ++ mf.fdStream.drop 14 ++
          mf.chunks expandSize track tracks := by
  induction tracks generalizing mf track with
  | nil =>
    have htrack := hwf track List.mem_cons_self
    rw [TracksFit, chunks, writeTracks, List.length_nil, Nat.add_zero,
      ← closedFile_afterCalls hheader]
    by_cases hall : mf.AllFit expandSize track
    · rw [bind_ok ((writeCalls_eq_ok (u := ⟨⟩) h htrack).mpr ⟨hall, rfl⟩),
        closeOutput_eq_ok (h.afterCalls hall), afterCalls_numberOfTracks]
      simp [hall]
    · constructor
      · rintro ⟨u, s, hok, -⟩
        obtain ⟨_, s', hcalls, -⟩ := bind_eq_ok.mp hok
        exact absurd ((writeCalls_eq_ok h htrack).mp hcalls).1 hall
      · rintro ⟨⟨hfit, -⟩, -⟩
        exact absurd hfit hall
  | cons next tracks ih =>
    have htrack := hwf track List.mem_cons_self
    have hoctets : ((mf.afterCalls expandSize track).next expandSize).sessionHeader tracks.length ++
        ((mf.afterCalls expandSize track).next expandSize).fdStream.drop 14 ++
          ((mf.afterCalls expandSize track).next expandSize).chunks expandSize next tracks =
        mf.sessionHeader (tracks.length + 1) ++ mf.fdStream.drop 14 ++
          mf.chunks expandSize track (next :: tracks) := by
      rw [sessionHeader_next expandSize hheader, next_fdStream, afterCalls_fdStream,
        List.drop_append_of_le_length hheader, chunks]
      simp only [List.append_assoc]
    have hnumber : ((mf.afterCalls expandSize track).next expandSize).numberOfTracks =
        mf.numberOfTracks + 1 := by
      rw [OutputStream.next, afterCalls_numberOfTracks]
    have hlength : 14 ≤ ((mf.afterCalls expandSize track).next expandSize).fdStream.length := by
      rw [next_fdStream, afterCalls_fdStream, List.length_append]
      omega
    have hrest : ∀ t ∈ next :: tracks, ∀ c ∈ t, c.WellFormed :=
      fun t ht => hwf t (List.mem_cons_of_mem track ht)
    rw [TracksFit, writeTracks, List.length_cons, ← hoctets]
    constructor
    · rintro ⟨u, s, hok, hfile⟩
      obtain ⟨_, s', hcalls, hok⟩ := bind_eq_ok.mp hok
      obtain ⟨hall, rfl⟩ := (writeCalls_eq_ok h htrack).mp hcalls
      obtain ⟨_, s', hnext, hok⟩ := bind_eq_ok.mp hok
      obtain ⟨hend, rfl, -⟩ := (nextOutputTrack_eq_ok (h.afterCalls hall)).mp hnext
      obtain ⟨hfit, hcount, hfile⟩ :=
        (ih ((h.afterCalls hall).next hend) hlength hrest).mp ⟨u, s, hok, hfile⟩
      rw [hnumber] at hcount
      exact ⟨⟨hall, hend, hfit⟩, by omega, hfile⟩
    · rintro ⟨⟨hall, hend, hfit⟩, hcount, hfile⟩
      obtain ⟨u, s, hok, hfile⟩ := (ih ((h.afterCalls hall).next hend) hlength hrest).mpr
        ⟨hfit, by rw [hnumber]; omega, hfile⟩
      refine ⟨u, s, ?_, hfile⟩
      rw [bind_ok ((writeCalls_eq_ok (u := ⟨⟩) h htrack).mpr ⟨hall, rfl⟩),
        bind_ok ((nextOutputTrack_eq_ok (h.afterCalls hall)).mpr ⟨hend, rfl, rfl⟩), hok]

open scoped Literals in
def opened (format : Option (Fin 3)) (ppqn bufferSize : ℕ) (pooled : Option (List Octet)) :
    OutputStream where
  fdStream := headerChunk (format.getD 0).val 1 ppqn 0
  openP := true
  format := (format.getD 0).val
  numberOfTracks := 1
  currentTrack := 0
  trackTime := 0
  ppqn := ppqn
  smpteFormat := 0
  ticksPerFrame := 0
  buffer := makeBuffer pooled (max 16 bufferSize)
  bufferIndex := 0
  lastStatus := 0

variable {format : Option (Fin 3)} {ppqn bufferSize : ℕ} {pooled : Option (List Octet)}

theorem metrical_opened (h : ppqn < 0x10000) : (opened format ppqn bufferSize pooled).Metrical where
  opened := rfl
  index := Nat.zero_le _
  smpte := rfl
  ticks := rfl
  format := Nat.le_of_lt_succ (format.getD 0).isLt
  ppqn := h

theorem openOutput_eq_ok {u : PUnit} :
    openOutput format ppqn bufferSize pooled = .ok u mf ↔
      ppqn < 0x10000 ∧ mf = opened format ppqn bufferSize pooled := by
  have hformat : (format.getD 0).val ≤ 2 := Nat.le_of_lt_succ (format.getD 0).isLt
  have hdivision : (if 0 < ppqn then ppqn else 0) = ppqn := by
    split
    · rfl
    · omega
  rw [openOutput]
  constructor
  · intro hok
    have hppqn : ppqn < 0x10000 := by
      rw [writeHeader, get_bind, hdivision] at hok
      obtain ⟨_, s, hcheck, -⟩ := bind_eq_ok.mp hok
      exact (check_eq_ok.mp hcheck).1.2.2.1
    obtain ⟨-, rfl⟩ := (writeHeader_eq_ok rfl rfl hformat hppqn).mp hok
    exact ⟨hppqn, by simp [opened]⟩
  · rintro ⟨hppqn, rfl⟩
    exact (writeHeader_eq_ok rfl rfl hformat hppqn).mpr
      ⟨show 1 < 0x10000 by decide, by simp [opened]⟩

theorem opened_sessionHeader (n : ℕ) :
    (opened format ppqn bufferSize pooled).sessionHeader n =
      headerChunk (if 0 < n ∧ (format.getD 0).val = 0 then 1 else (format.getD 0).val) (n + 1)
        ppqn 0 := by
  rw [sessionHeader, finalHeader]
  cases n with
  | zero => rfl
  | succ n => simp [opened, Nat.add_comm 1]

end OutputStream

open OutputStream

theorem writeFile_eq_some_iff {expandSize : ℕ} {format : Option (Fin 3)} {ppqn bufferSize : ℕ}
    {pooled : Option (List Octet)} {track : List WriteCall} {tracks : List (List WriteCall)} :
    writeFile expandSize format ppqn bufferSize pooled track tracks = some file ↔
      ∃ u mf, openOutput format ppqn bufferSize pooled = .ok u mf ∧
        ∃ u mf', writeTracks expandSize track tracks mf = .ok u mf' ∧ mf'.fdStream = file := by
  rw [writeFile]
  cases openOutput format ppqn bufferSize pooled with
  | error e s => simp
  | ok u mf =>
    cases hwrite : writeTracks expandSize track tracks mf with
    | error e s => simp [hwrite]
    | ok u s => simp [hwrite]

theorem writeFile_eq_some {expandSize : ℕ} {format : Option (Fin 3)} {ppqn bufferSize : ℕ}
    {pooled : Option (List Octet)} {track : List WriteCall} {tracks : List (List WriteCall)}
    (hwf : ∀ t ∈ track :: tracks, ∀ c ∈ t, c.WellFormed) :
    writeFile expandSize format ppqn bufferSize pooled track tracks = some file ↔
      ppqn < 0x10000 ∧ (opened format ppqn bufferSize pooled).TracksFit expandSize track tracks ∧
        tracks.length + 1 < 0x10000 ∧
        file = headerChunk
            (if 0 < tracks.length ∧ (format.getD 0).val = 0 then 1 else (format.getD 0).val)
            (tracks.length + 1) ppqn 0 ++
          (opened format ppqn bufferSize pooled).chunks expandSize track tracks := by
  have hheader : (opened format ppqn bufferSize pooled).fdStream.length = 14 := rfl
  have hnumber : (opened format ppqn bufferSize pooled).numberOfTracks + tracks.length =
      tracks.length + 1 := Nat.add_comm 1 tracks.length
  have hdrop : (opened format ppqn bufferSize pooled).fdStream.drop 14 = [] := rfl
  rw [writeFile_eq_some_iff]
  constructor
  · rintro ⟨u, mf, hopen, hwrite⟩
    obtain ⟨hppqn, rfl⟩ := openOutput_eq_ok.mp hopen
    rw [writeTracks_eq_ok (metrical_opened hppqn) hheader.ge hwf, opened_sessionHeader, hnumber,
      hdrop, List.append_nil] at hwrite
    exact ⟨hppqn, hwrite⟩
  · rintro ⟨hppqn, hwrite⟩
    refine ⟨⟨⟩, _, openOutput_eq_ok.mpr ⟨hppqn, rfl⟩, ?_⟩
    rw [writeTracks_eq_ok (metrical_opened hppqn) hheader.ge hwf, opened_sessionHeader, hnumber,
      hdrop, List.append_nil]
    exact hwrite

end Incudine.Midifile

import Incudine.MidifilePosition
import Incudine.MidifileRoundTrip
import Incudine.RateMap

/-!
# The tempo map of an input stream

The tempo map is made while the first track is read, and the time in seconds of an event of the
other tracks follows it with the tempo index.
-/

namespace Incudine.Midifile

open Octets Signals RateMap

structure Chunk where
  type : ℕ
  data : List Octet

def Chunk.octets (c : Chunk) : List Octet :=
  fourBytes c.type ++ fourBytes c.data.length ++ c.data

structure Chunk.WellFormed (c : Chunk) : Prop where
  type : c.type < 0x100000000
  length : c.data.length < 0x100000000
  other : c.type ≠ trackType

/-- An event: its delta time and its message, with or without the status byte. -/
structure TrackEvent where
  deltaTime : List Octet
  running : Bool
  message : List Octet

namespace TrackEvent

def delta (e : TrackEvent) : ℕ := quantity e.deltaTime

def octets (e : TrackEvent) : List Octet := e.deltaTime ++ messageOctets e.running e.message

def IsTempo (e : TrackEvent) : Prop := e.message[0]? = some 0xff ∧ e.message[1]? = some 0x51

/-- The microseconds per quarter note of a tempo event. -/
def tempo? (e : TrackEvent) : Option ℕ :=
  match e.message with
  | [0xff, 0x51, 0x03, high, middle, low] =>
    some (high.toNat <<< 16 + middle.toNat <<< 8 + low.toNat)
  | _ => none

/-- An event after a message with the status `lastStatus`. -/
structure WellFormed (e : TrackEvent) (lastStatus : Octet) : Prop where
  delimited : Delimited e.deltaTime
  delta : e.deltaTime.length ≤ 4
  complete : Complete e.message
  short : ShortLength e.message
  running : e.running = true → e.message.headD 0 = lastStatus ∧ lastStatus.toNat < 0xf0
  tempo : e.IsTempo → e.tempo?.isSome

end TrackEvent

def pulses (events : List TrackEvent) : ℕ := (events.map TrackEvent.delta).sum

def tempoEvents (t : ℕ) : List TrackEvent → List (ℕ × ℕ)
  | [] => []
  | e :: events =>
    (e.tempo?.map (t + e.delta, ·)).toList ++ tempoEvents (t + e.delta) events

def EventsWellFormed (lastStatus : Octet) : List TrackEvent → Prop
  | [] => True
  | e :: events => e.WellFormed lastStatus ∧ EventsWellFormed (e.message.headD 0) events

/-- A track after chunks of other types, with the delta time of its end. -/
structure Track where
  others : List Chunk
  events : List TrackEvent
  endTime : List Octet

namespace Track

def data (track : Track) : List Octet :=
  track.events.flatMap TrackEvent.octets ++ (track.endTime ++ [0xff, 0x2f, 0x00])

def octets (track : Track) : List Octet :=
  track.others.flatMap Chunk.octets ++
    (fourBytes trackType ++ fourBytes track.data.length ++ track.data)

structure WellFormed (track : Track) : Prop where
  others : ∀ c ∈ track.others, c.WellFormed
  events : EventsWellFormed 0xff track.events
  delimited : Delimited track.endTime
  endTime : track.endTime.length ≤ 4
  length : track.data.length < 0x100000000

end Track

structure MetricalFile where
  format : ℕ
  ppqn : ℕ
  first : Track
  tracks : List Track
  trailing : List Octet

namespace MetricalFile

def octets (file : MetricalFile) : List Octet :=
  headerChunk file.format (file.tracks.length + 1) file.ppqn 0 ++
    ((file.first :: file.tracks).flatMap Track.octets ++ file.trailing)

/-- The tempo events are in the first track. -/
structure WellFormed (file : MetricalFile) : Prop where
  format : file.format ≤ 1
  single : file.format = 0 → file.tracks = []
  count : file.tracks.length + 1 < 0x10000
  ppqn_pos : 0 < file.ppqn
  ppqn_lt : file.ppqn < 0x8000
  tracks : ∀ track ∈ file.first :: file.tracks, track.WellFormed
  tempo : ∀ track ∈ file.tracks, ∀ e ∈ track.events, ¬ e.IsTempo

end MetricalFile

/-- The microseconds per quarter note at each pulse: 120 beats per minute before the first
tempo event. -/
def tempoAt (tempos : List (ℕ × ℕ)) : ℕ → ℕ :=
  tempos.foldl (fun f tempo => change f tempo.1 tempo.2) fun _ => 500000

def pulseSeconds (ppqn : ℕ) (tempos : List (ℕ × ℕ)) (p : ℕ) : ℚ :=
  tempoAt tempos p * (1 / 1000000) / ppqn

/-- The last tempo with the pulses after the first one at which the tempo has changed. -/
def changesStep (s : ℕ × List ℕ) (tempo : ℕ × ℕ) : ℕ × List ℕ :=
  if tempo.2 = s.1 ∨ tempo.1 = s.2.getLast?.getD 0 then (tempo.2, s.2)
  else (tempo.2, s.2 ++ [tempo.1])

/-- The pulses after the first one at which a tempo event differs from the tempo before it. -/
def changes (tempos : List (ℕ × ℕ)) : List ℕ :=
  (tempos.foldl changesStep (500000, [])).2

def lastTempo (tempos : List (ℕ × ℕ)) : ℕ :=
  (tempos.foldl changesStep (500000, [])).1

section Tempo

theorem tempoAt_append (tempos : List (ℕ × ℕ)) (t usecs : ℕ) :
    tempoAt (tempos ++ [(t, usecs)]) = change (tempoAt tempos) t usecs := by
  rw [tempoAt, List.foldl_append]
  rfl

theorem pulseSeconds_append (ppqn : ℕ) (tempos : List (ℕ × ℕ)) (t usecs : ℕ) :
    pulseSeconds ppqn (tempos ++ [(t, usecs)]) =
      change (pulseSeconds ppqn tempos) t (usecs * (1 / 1000000) / ppqn) := by
  funext p
  rw [pulseSeconds, tempoAt_append]
  by_cases hp : t ≤ p
  · rw [change_of_le hp, change_of_le hp]
  · rw [change_of_lt (Nat.not_le.mp hp), change_of_lt (Nat.not_le.mp hp), pulseSeconds]

theorem integral_append (ppqn : ℕ) (tempos later : List (ℕ × ℕ)) {t : ℕ}
    (h : ∀ tempo ∈ later, t ≤ tempo.1) :
    integral (pulseSeconds ppqn (tempos ++ later)) t = integral (pulseSeconds ppqn tempos) t := by
  induction later generalizing tempos with
  | nil => rw [List.append_nil]
  | cons tempo later ih =>
    have hle : t ≤ tempo.1 := h tempo List.mem_cons_self
    rw [List.append_cons, ih _ fun tempo' h' => h tempo' (List.mem_cons_of_mem _ h'),
      pulseSeconds_append, integral_change hle]

theorem lastTempo_append (tempos : List (ℕ × ℕ)) (t usecs : ℕ) :
    lastTempo (tempos ++ [(t, usecs)]) = usecs := by
  rw [lastTempo, List.foldl_append, List.foldl_cons, List.foldl_nil, changesStep]
  split
  · rfl
  · rfl

theorem changes_append (tempos : List (ℕ × ℕ)) (t usecs : ℕ) :
    changes (tempos ++ [(t, usecs)]) =
      if usecs = lastTempo tempos ∨ t = (changes tempos).getLast?.getD 0 then changes tempos
      else changes tempos ++ [t] := by
  rw [changes, List.foldl_append, List.foldl_cons, List.foldl_nil, changesStep, lastTempo, changes]
  split
  · rfl
  · rfl

variable {t : ℕ} {events : List TrackEvent}

theorem le_of_mem_tempoEvents {tempo : ℕ × ℕ} (h : tempo ∈ tempoEvents t events) :
    t ≤ tempo.1 := by
  induction events generalizing t with
  | nil => cases h
  | cons e events ih =>
    rcases List.mem_append.mp h with h | h
    · cases he : e.tempo? with
      | none => simp [he] at h
      | some usecs =>
        have htempo : tempo = (t + e.delta, usecs) := by simpa [he] using h
        rw [htempo]
        exact Nat.le_add_right _ _
    · exact (Nat.le_add_right _ _).trans (ih h)

theorem pulses_append (events later : List TrackEvent) :
    pulses (events ++ later) = pulses events + pulses later := by
  rw [pulses, List.map_append, List.sum_append]
  rfl

theorem pulses_cons (e : TrackEvent) (events : List TrackEvent) :
    pulses (e :: events) = e.delta + pulses events := rfl

theorem tempoEvents_append (t : ℕ) (events later : List TrackEvent) :
    tempoEvents t (events ++ later) =
      tempoEvents t events ++ tempoEvents (t + pulses events) later := by
  induction events generalizing t with
  | nil => rfl
  | cons e events ih =>
    rw [List.cons_append, tempoEvents, ih, tempoEvents, pulses_cons, List.append_assoc,
      Nat.add_assoc]

end Tempo

def Tempo.entry (ppqn : ℕ) (te : Tempo) : Entry ℚ :=
  ⟨te.time, te.seconds, te.microsecondsPerQuarterNote * (1 / 1000000) / ppqn⟩

/-- While the first track is read, the current tempo is the last one of the tempo map. -/
structure InputStream.Records (mf : InputStream) (tempos : List (ℕ × ℕ)) (init : List Tempo)
    (last : Tempo) : Prop where
  map : mf.tempoMap = init ++ [last]
  index : mf.tempoIndex = init.length
  next : mf.nextTempoTime = 0
  time : last.time ≤ mf.trackTime
  tempo : last.microsecondsPerQuarterNote = lastTempo tempos
  caches : Caches (pulseSeconds mf.ppqn tempos) ((init ++ [last]).map (Tempo.entry mf.ppqn))
  changes : (init ++ [last]).map Tempo.time = 0 :: changes tempos

/-- The tempo map is made, and `next-tempo-time` is the time of the next entry. -/
structure InputStream.Follows (mf : InputStream) (tempoMap : List Tempo) : Prop where
  map : mf.tempoMap = tempoMap
  index : mf.tempoIndex < tempoMap.length
  next : mf.nextTempoTime = (tempoMap[mf.tempoIndex + 1]?.map Tempo.time).getD 0

section Records

variable {mf : InputStream} {tempos : List (ℕ × ℕ)} {init : List Tempo} {last : Tempo}

section

variable (h : mf.Records tempos init last)
include h

theorem InputStream.Records.tempoOk : mf.TempoOk where
  index := by
    rw [h.index, h.map, List.length_append]
    exact Nat.lt_succ_self _
  next := by
    intro hnext
    rw [h.next] at hnext
    exact absurd hnext (Nat.lt_irrefl 0)

theorem InputStream.Records.delayed (deltaTime bytes : ℕ) (rest : List Octet) :
    (mf.delayed deltaTime bytes rest).tempoIndex = mf.tempoIndex ∧
      (mf.delayed deltaTime bytes rest).nextTempoTime = mf.nextTempoTime := by
  have hnext : ¬ (0 < mf.nextTempoTime ∧ mf.nextTempoTime < mf.trackTime + deltaTime) := by
    rw [h.next]
    exact fun hand => absurd hand.1 (Nat.lt_irrefl 0)
  rw [InputStream.delayed, InputStream.waited, if_neg hnext]
  split
  · exact ⟨rfl, rfl⟩
  · exact ⟨rfl, rfl⟩

theorem InputStream.Records.currentTempo (hindex : mf.tempoIndex < mf.tempoMap.length) :
    mf.tempoMap[mf.tempoIndex] = last := by
  have hget := getElem?_length init last
  rw [← h.index, ← h.map, List.getElem?_eq_getElem hindex] at hget
  exact Option.some.inj hget

theorem InputStream.Records.eventSeconds (hppqn : 0 < mf.ppqn) :
    eventSeconds mf = .ok (integral (pulseSeconds mf.ppqn tempos) mf.trackTime) mf := by
  have hcaches := h.caches
  rw [List.map_append, List.map_singleton] at hcaches
  rw [eventSeconds_ok hppqn h.tempoOk.index, h.currentTempo h.tempoOk.index, hcaches.integral_last h.time]
  simp only [Tempo.entry]
  congr 1
  ring

theorem last_changes : (changes tempos).getLast?.getD 0 = last.time := by
  have hmap := congrArg List.getLast? h.changes
  rw [List.map_append, List.map_singleton, List.getLast?_concat, List.getLast?_cons] at hmap
  exact (Option.some.inj hmap).symm

theorem InputStream.Records.updateTempoMap (hppqn : 0 < mf.ppqn) {high middle low : Octet}
    (hhigh : mf.buffer[3]? = some high) (hmiddle : mf.buffer[4]? = some middle)
    (hlow : mf.buffer[5]? = some low) :
    ∃ tempoMap index init' last', updateTempoMap mf = .ok ⟨⟩ { mf with
        tempoMap := tempoMap
        tempoIndex := index } ∧
      { mf with tempoMap := tempoMap, tempoIndex := index }.Records
        (tempos ++ [(mf.trackTime, high.toNat <<< 16 + middle.toNat <<< 8 + low.toNat)])
        init' last' := by
  have hcaches := h.caches
  rw [List.map_append, List.map_singleton] at hcaches
  have hlast := last_changes h
  rw [Midifile.updateTempoMap, bind_ok (bufferOctet_ok hhigh), bind_ok (bufferOctet_ok hmiddle),
    bind_ok (bufferOctet_ok hlow), bind_ok (currentTempo_ok h.tempoOk.index), get_bind,
    h.currentTempo h.tempoOk.index]
  have hnext : ¬ 0 < mf.nextTempoTime := by
    rw [h.next]
    exact Nat.lt_irrefl 0
  generalize high.toNat <<< 16 + middle.toNat <<< 8 + low.toNat = usecs
  by_cases hsame : last.microsecondsPerQuarterNote = usecs
  · rw [if_pos (Or.inr hsame)]
    refine ⟨mf.tempoMap, mf.tempoIndex, init, last, rfl, h.map, h.index, h.next, h.time, ?_, ?_, ?_⟩
    · rw [lastTempo_append, hsame]
    · rw [pulseSeconds_append, List.map_append, List.map_singleton, ← hsame]
      rw [show (last.microsecondsPerQuarterNote * (1 / 1000000) / mf.ppqn : ℚ) =
        (last.entry mf.ppqn).rate from rfl, hcaches.change_same h.time]
      exact hcaches
    · rw [changes_append, if_pos (Or.inl (hsame.symm.trans h.tempo))]
      exact h.changes
  · rw [if_neg (fun hor => hor.elim hnext hsame)]
    by_cases htime : mf.trackTime = last.time
    · rw [if_pos htime]
      refine ⟨_, _, init, { last with microsecondsPerQuarterNote := usecs }, rfl, ?_, h.index, h.next,
        h.time, ?_, ?_, ?_⟩
      · rw [h.index, h.map, List.set_append_right _ _ (Nat.le_refl _), Nat.sub_self]
        rfl
      · rw [lastTempo_append]
      · have hreplace := hcaches.replace (usecs * (1 / 1000000) / mf.ppqn : ℚ)
        rw [pulseSeconds_append, List.map_append, List.map_singleton, htime]
        exact hreplace
      · rw [changes_append, if_pos (Or.inr (htime.trans hlast.symm)), ← h.changes]
        simp
    · have hlt : last.time < mf.trackTime := Nat.lt_of_le_of_ne h.time (Ne.symm htime)
      rw [if_neg htime, bind_ok (h.eventSeconds hppqn)]
      refine ⟨_, _, init ++ [last], ⟨mf.trackTime, integral (pulseSeconds mf.ppqn tempos) mf.trackTime,
        usecs⟩, rfl, ?_, ?_, h.next, Nat.le_refl mf.trackTime, ?_, ?_, ?_⟩
      · rw [h.map]
      · rw [h.map]
      · rw [lastTempo_append]
      · have hpush := hcaches.push hlt (usecs * (1 / 1000000) / mf.ppqn : ℚ)
        rw [pulseSeconds_append, List.map_append, List.map_append, List.map_singleton]
        exact hpush
      · have hnew : ¬ (usecs = lastTempo tempos ∨
            mf.trackTime = (Midifile.changes tempos).getLast?.getD 0) := by
          rw [hlast, ← h.tempo]
          exact fun hor => hor.elim (fun hu => hsame hu.symm) htime
        rw [changes_append, if_neg hnew, List.map_append, h.changes]
        rfl

end

end Records

def changesBefore (times : List ℕ) (t : ℕ) : ℕ := times.countP (· < t)

/-- From no event before it, or from the start of the track, there are more changes of the tempo
up to the last event than positive delta times. -/
def CaughtUp (times : List ℕ) (events : List TrackEvent) : Prop :=
  ∀ earlier later, events = earlier ++ later →
    changesBefore times (pulses events) ≤
      changesBefore times (pulses earlier) + later.countP (0 < ·.delta)

/-- The tempo index has gone on with each positive delta time since it was the right one. -/
def IndexAfter (times : List ℕ) (events : List TrackEvent) (index : ℕ) : Prop :=
  index ≤ changesBefore times (pulses events) ∧
    ∃ earlier later, events = earlier ++ later ∧
      index = changesBefore times (pulses earlier) + later.countP (0 < ·.delta)

section Follows

variable {times : List ℕ} {t : ℕ}

theorem changesBefore_mono {t t' : ℕ} (h : t ≤ t') :
    changesBefore times t ≤ changesBefore times t' := by
  apply List.countP_mono_left
  intro p _ hp
  rw [decide_eq_true_iff] at hp ⊢
  exact hp.trans_le h

theorem changesBefore_zero (times : List ℕ) : changesBefore times 0 = 0 := by
  simp [changesBefore]

theorem lt_changesBefore (h : times.Pairwise (· < ·)) {i p : ℕ} (hp : times[i]? = some p) :
    i < changesBefore times t ↔ p < t := by
  induction times generalizing i with
  | nil => simp at hp
  | cons first times ih =>
    rw [List.pairwise_cons] at h
    by_cases hfirst : first < t
    · rw [changesBefore, List.countP_cons_of_pos (by simpa using hfirst)]
      cases i with
      | zero =>
        obtain rfl : first = p := by simpa using hp
        simpa using hfirst
      | succ i =>
        rw [Nat.add_lt_add_iff_right]
        exact ih h.2 (by simpa using hp)
    · have hnone : times.countP (· < t) = 0 := by
        rw [List.countP_eq_zero]
        intro q hq
        have hlt := h.1 q hq
        simp only [decide_eq_true_iff]
        omega
      rw [changesBefore, List.countP_cons_of_neg (by simpa using hfirst), hnone]
      cases i with
      | zero =>
        obtain rfl : first = p := by simpa using hp
        simpa using hfirst
      | succ i =>
        have hlt := h.1 p (List.mem_of_getElem? (by simpa using hp))
        constructor
        · exact fun hi => absurd hi (Nat.not_lt_zero _)
        · intro hpt
          omega

theorem le_of_le_changesBefore (h : times.Pairwise (· < ·)) {i p : ℕ}
    (hp : (0 :: times)[i]? = some p) (hi : i ≤ changesBefore times t) : p ≤ t := by
  cases i with
  | zero =>
    obtain rfl : 0 = p := by simpa using hp
    exact Nat.zero_le _
  | succ i => exact ((lt_changesBefore h (by simpa using hp)).mp hi).le

theorem not_lt_changesBefore {i : ℕ} (hi : times[i]? = none) : ¬ i < changesBefore times t := by
  rw [List.getElem?_eq_none_iff] at hi
  have hle : changesBefore times t ≤ times.length := List.countP_le_length
  omega

theorem CaughtUp.index_eq {events : List TrackEvent} {index : ℕ} (h : CaughtUp times events)
    (hindex : IndexAfter times events index) :
    index = changesBefore times (pulses events) := by
  obtain ⟨hle, earlier, later, hsplit, rfl⟩ := hindex
  exact Nat.le_antisymm hle (h earlier later hsplit)

theorem IndexAfter.next {events : List TrackEvent} {index : ℕ} (h : IndexAfter times events index)
    (e : TrackEvent) :
    IndexAfter times (events ++ [e])
      (if 0 < e.delta ∧ index < changesBefore times (pulses (events ++ [e])) then index + 1
      else index) := by
  obtain ⟨hle, earlier, later, rfl, hindex⟩ := h
  have hmono : changesBefore times (pulses (earlier ++ later)) ≤
      changesBefore times (pulses (earlier ++ later ++ [e])) := by
    apply changesBefore_mono
    rw [pulses_append _ [e]]
    exact Nat.le_add_right _ _
  by_cases hdelta : 0 < e.delta
  · by_cases hlt : index < changesBefore times (pulses (earlier ++ later ++ [e]))
    · rw [if_pos ⟨hdelta, hlt⟩]
      refine ⟨hlt, earlier, later ++ [e], List.append_assoc _ _ _, ?_⟩
      rw [List.countP_append, hindex, List.countP_singleton, if_pos (by simpa using hdelta),
        Nat.add_assoc]
    · rw [if_neg fun hand => hlt hand.2]
      refine ⟨by omega, earlier ++ later ++ [e], [], (List.append_nil _).symm, ?_⟩
      rw [List.countP_nil]
      omega
  · rw [if_neg fun hand => hdelta hand.1]
    refine ⟨by omega, earlier, later ++ [e], List.append_assoc _ _ _, ?_⟩
    rw [List.countP_append, hindex, List.countP_singleton, if_neg (by simpa using hdelta)]
    rfl

variable {mf : InputStream} {tempoMap : List Tempo}

theorem InputStream.Follows.tempoOk (h : mf.Follows tempoMap) : mf.TempoOk where
  index := by
    rw [h.map]
    exact h.index
  next := by
    intro hnext
    rw [h.next] at hnext
    rw [h.map]
    by_contra hle
    rw [List.getElem?_eq_none (Nat.not_lt.mp hle)] at hnext
    exact absurd hnext (Nat.lt_irrefl 0)

theorem InputStream.Follows.delayed (h : mf.Follows tempoMap)
    (htimes : tempoMap.map Tempo.time = 0 :: times) (hsorted : (0 :: times).Pairwise (· < ·))
    (deltaTime bytes : ℕ) (rest : List Octet) :
    (mf.delayed deltaTime bytes rest).Follows tempoMap ∧
      (mf.delayed deltaTime bytes rest).tempoIndex =
        if 0 < deltaTime ∧ mf.tempoIndex < changesBefore times (mf.trackTime + deltaTime) then
          mf.tempoIndex + 1
        else mf.tempoIndex := by
  rw [List.pairwise_cons] at hsorted
  have hnext : tempoMap[mf.tempoIndex + 1]?.map Tempo.time = times[mf.tempoIndex]? := by
    rw [← List.getElem?_map, htimes, List.getElem?_cons_succ]
  have hpassed : (0 < mf.nextTempoTime ∧ mf.nextTempoTime < mf.trackTime + deltaTime) ↔
      mf.tempoIndex < changesBefore times (mf.trackTime + deltaTime) := by
    rw [h.next, hnext]
    cases hget : times[mf.tempoIndex]? with
    | none =>
      constructor
      · exact fun hand => absurd hand.1 (Nat.lt_irrefl 0)
      · exact fun hlt => absurd hlt (not_lt_changesBefore hget)
    | some p =>
      rw [lt_changesBefore hsorted.2 hget]
      exact ⟨fun hand => hand.2, fun hlt => ⟨hsorted.1 p (List.mem_of_getElem? hget), hlt⟩⟩
  rw [InputStream.delayed, InputStream.waited]
  by_cases hdelta : 0 < deltaTime
  · rw [if_pos hdelta]
    by_cases hlt : mf.tempoIndex < changesBefore times (mf.trackTime + deltaTime)
    · have hlength : mf.tempoIndex + 1 < tempoMap.length := by
        have hpos := (hpassed.mpr hlt).1
        rw [h.next] at hpos
        by_contra hle
        rw [List.getElem?_eq_none (Nat.not_lt.mp hle)] at hpos
        exact absurd hpos (Nat.lt_irrefl 0)
      rw [if_pos (hpassed.mpr hlt), if_pos ⟨hdelta, hlt⟩]
      refine ⟨⟨h.map, hlength, ?_⟩, rfl⟩
      simp only [InputStream.updateNextTempoTime, h.map]
    · rw [if_neg (fun hand => hlt (hpassed.mp hand)), if_neg fun hand => hlt hand.2]
      exact ⟨⟨h.map, h.index, h.next⟩, rfl⟩
  · rw [if_neg hdelta, if_neg fun hand => hdelta hand.1]
    exact ⟨⟨h.map, h.index, h.next⟩, rfl⟩

theorem InputStream.Follows.eventSeconds (h : mf.Follows tempoMap) (hppqn : 0 < mf.ppqn)
    {f : ℕ → ℚ} (hcaches : Caches f (tempoMap.map (Tempo.entry mf.ppqn)))
    (htimes : tempoMap.map Tempo.time = 0 :: times) (hsorted : (0 :: times).Pairwise (· < ·))
    (hindex : mf.tempoIndex = changesBefore times mf.trackTime) :
    eventSeconds mf = .ok (integral f mf.trackTime) mf := by
  rw [List.pairwise_cons] at hsorted
  have hlt : mf.tempoIndex < mf.tempoMap.length := h.tempoOk.index
  have hget : tempoMap[mf.tempoIndex]? = some mf.tempoMap[mf.tempoIndex] := by
    rw [← h.map, List.getElem?_eq_getElem hlt]
  have htime (i : ℕ) : tempoMap[i]?.map Tempo.time = (0 :: times)[i]? := by
    rw [← List.getElem?_map, htimes]
  have hle : mf.tempoMap[mf.tempoIndex].time ≤ mf.trackTime := by
    have hti := htime mf.tempoIndex
    rw [hget, Option.map_some] at hti
    exact le_of_le_changesBefore hsorted.2 hti.symm hindex.le
  have hentry := hcaches.integral_eq (i := mf.tempoIndex) (t := mf.trackTime)
    (by rw [List.getElem?_map, hget]; rfl) hle ?_
  · rw [eventSeconds_ok hppqn hlt, hentry]
    simp only [Tempo.entry]
    congr 1
    ring
  · intro next hnext
    rw [List.getElem?_map] at hnext
    cases hsome : tempoMap[mf.tempoIndex + 1]? with
    | none =>
      rw [hsome] at hnext
      cases hnext
    | some te =>
      rw [hsome] at hnext
      cases hnext
      have hti := htime (mf.tempoIndex + 1)
      rw [hsome, List.getElem?_cons_succ] at hti
      have hnot : ¬ te.time < mf.trackTime := by
        rw [← lt_changesBefore hsorted.2 hti.symm, hindex]
        exact Nat.lt_irrefl _
      exact Nat.not_lt.mp hnot

end Follows

structure InputStream.InTrack (mf : InputStream) (file : MetricalFile) (track time : ℕ)
    (lastStatus : Octet) (octets rest : List Octet) : Prop where
  synced : mf.Synced lastStatus
  format : mf.format = file.format
  numberOfTracks : mf.numberOfTracks = file.tracks.length + 1
  track : mf.currentTrack = track
  ppqn : mf.ppqn = file.ppqn
  time : mf.trackTime = time
  remain : mf.trackBytesRemain = octets.length
  fdStream : mf.fdStream = octets ++ rest

section Event

variable {mf : InputStream} {file : MetricalFile} {track time : ℕ} {lastStatus : Octet}
  {octets rest : List Octet} {e : TrackEvent}

theorem tempoEventP_iff {mf : InputStream} {message : List Octet} (h : Complete message)
    (htake : mf.buffer.take message.length = message) :
    mf.tempoEventP = true ↔ message[0]? = some 0xff ∧ message[1]? = some 0x51 := by
  have htwo := h.two_le_length
  rw [← getElem?_of_take htake (show 0 < message.length by omega),
    ← getElem?_of_take htake (show 1 < message.length by omega)]
  simp [InputStream.tempoEventP, InputStream.metaEventP]

theorem messageStatus_other {s : InputStream} {message : List Octet} (h : Complete message)
    (htake : s.buffer.take message.length = message)
    (hother : ¬ (message[0]? = some 0xff ∧ message[1]? = some 0x51)) (hle : 8 ≤ s.buffer.length) :
    ∃ status, messageStatus s = .ok status s := by
  have hzero : s.buffer[0]? = some s.buffer[0] := List.getElem?_eq_getElem (by omega)
  rw [messageStatus, get_bind, if_neg fun hand => hother ((tempoEventP_iff h htake).mp hand.1)]
  exact ⟨_, bufferOctet_ok hzero⟩

theorem TrackEvent.message_of_tempo {usecs : ℕ} (h : e.tempo? = some usecs) :
    ∃ high middle low, e.message = [0xff, 0x51, 0x03, high, middle, low] ∧
      usecs = high.toNat <<< 16 + middle.toNat <<< 8 + low.toNat := by
  rw [TrackEvent.tempo?] at h
  split at h
  · rename_i high middle low hmessage
    exact ⟨high, middle, low, hmessage, (Option.some.inj h).symm⟩
  · cases h

theorem TrackEvent.tempo?_of_not {e : TrackEvent} (h : ¬ e.IsTempo) : e.tempo? = none := by
  cases htempo : e.tempo? with
  | none => rfl
  | some usecs =>
    obtain ⟨high, middle, low, hmessage, -⟩ := e.message_of_tempo htempo
    exact absurd (by rw [TrackEvent.IsTempo, hmessage]; exact ⟨rfl, rfl⟩) h

theorem InputStream.InTrack.readEvent
    (h : mf.InTrack file track time lastStatus (e.octets ++ octets) rest)
    (hwf : e.WellFormed lastStatus) (hpos : 0 < octets.length)
    (htime : time + e.delta < fixnumBound) :
    ∃ s, readEvent mf = (do return some (← messageStatus) : Input (Option Octet)) s ∧
      (mf.delayed e.delta e.deltaTime.length
        (messageOctets e.running e.message ++ (octets ++ rest))).Collects s e.message
          (octets ++ rest) (messageOctets e.running e.message).length ∧
      ∀ tempoMap index,
        { s with tempoMap := tempoMap, tempoIndex := index }.TempoOk →
        { s with tempoMap := tempoMap, tempoIndex := index }.InTrack file track (time + e.delta)
          (e.message.headD 0) octets rest := by
  have hfile : mf.fdStream = e.deltaTime ++ (messageOctets e.running e.message ++
      (octets ++ rest)) := by
    rw [h.fdStream, TrackEvent.octets]
    simp only [List.append_assoc]
  have hremain := h.remain
  rw [TrackEvent.octets, List.length_append, List.length_append] at hremain
  have hmessage : 0 < (messageOctets e.running e.message).length :=
    length_messageOctets_pos hwf.complete
  have hdelta := hwf.delta
  have hread := readDeltaTime_ok hwf.delimited hfile (by omega) (by omega)
    fun _ => by rw [h.time]; exact htime
  have hspec := mf.delayed_spec e.delta e.deltaTime.length
    (messageOctets e.running e.message ++ (octets ++ rest))
  have hsynced := h.synced.delayed e.delta e.deltaTime.length
    (messageOctets e.running e.message ++ (octets ++ rest))
  obtain ⟨s, hstatus, hcollects⟩ := readMessage_collects hsynced hwf.complete hwf.running
    hspec.fdStream hwf.short (by rw [hspec.remain]; omega)
  refine ⟨s, ?_, hcollects, ?_⟩
  · rw [Midifile.readEvent, bind_ok hread]
    exact bind_of_eq hstatus _
  · intro tempoMap index htempo
    refine ⟨⟨hcollects.buffer, htempo, fun _ => running_of_take hwf.complete hcollects.message
      hcollects.length⟩, ?_, ?_, ?_, ?_, ?_, ?_, hcollects.fdStream⟩
    · exact (hspec.same.trans hcollects.same).format.trans h.format
    · exact (hspec.same.trans hcollects.same).numberOfTracks.trans h.numberOfTracks
    · exact (hspec.same.trans hcollects.same).currentTrack.trans h.track
    · exact (hspec.same.trans hcollects.same).ppqn.trans h.ppqn
    · show s.trackTime = _
      rw [hcollects.time, hspec.time, h.time]
    · show s.trackBytesRemain = _
      rw [hcollects.remain, hspec.remain, hremain]
      omega

theorem InputStream.InTrack.readEvent_first {tempos : List (ℕ × ℕ)} {init : List Tempo}
    {last : Tempo} (h : mf.InTrack file track time lastStatus (e.octets ++ octets) rest)
    (hrecords : mf.Records tempos init last) (hppqn : 0 < file.ppqn)
    (hwf : e.WellFormed lastStatus) (hpos : 0 < octets.length)
    (htime : time + e.delta < fixnumBound) :
    ∃ status mf' init' last', Midifile.readEvent mf = .ok (some status) mf' ∧
      mf'.InTrack file track (time + e.delta) (e.message.headD 0) octets rest ∧
      mf'.buffer.take e.message.length = e.message ∧
      mf'.Records (tempos ++ tempoEvents time [e]) init' last' := by
  obtain ⟨s, hread, hcollects, hinTrack⟩ := h.readEvent hwf hpos htime
  have hspec := mf.delayed_spec e.delta e.deltaTime.length
    (messageOctets e.running e.message ++ (octets ++ rest))
  obtain ⟨hindex, hnext⟩ := hrecords.delayed e.delta e.deltaTime.length
    (messageOctets e.running e.message ++ (octets ++ rest))
  have hppqn' : s.ppqn = mf.ppqn := (hspec.same.trans hcollects.same).ppqn
  have hrecords' : s.Records tempos init last := by
    refine ⟨?_, ?_, ?_, ?_, hrecords.tempo, ?_, hrecords.changes⟩
    · rw [hcollects.map, hspec.map, hrecords.map]
    · rw [hcollects.index, hindex, hrecords.index]
    · rw [hcollects.next, hnext, hrecords.next]
    · rw [hcollects.time, hspec.time]
      exact hrecords.time.trans (Nat.le_add_right _ _)
    · rw [hppqn']
      exact hrecords.caches
  by_cases htempo : e.IsTempo
  · obtain ⟨usecs, husecs⟩ := Option.isSome_iff_exists.mp (hwf.tempo htempo)
    obtain ⟨high, middle, low, hmessage, rfl⟩ := e.message_of_tempo husecs
    have hoctet (i : ℕ) (hi : i < 6) :
        s.buffer[i]? = [0xff, 0x51, 0x03, high, middle, low][i]? := by
      have htake := hcollects.message
      rw [hmessage] at htake
      exact getElem?_of_take htake hi
    have hpos' : 0 < s.ppqn := by
      rw [hppqn', h.ppqn]
      exact hppqn
    obtain ⟨tempoMap, index, init', last', hupdate, hrecords''⟩ := hrecords'.updateTempoMap hpos'
      (hoctet 3 (by omega)) (hoctet 4 (by omega)) (hoctet 5 (by omega))
    have hzero : ({ s with tempoMap := tempoMap, tempoIndex := index } : InputStream).buffer[0]? =
        some 0xff := hoctet 0 (by omega)
    refine ⟨0xff, { s with tempoMap := tempoMap, tempoIndex := index }, init', last', ?_,
      hinTrack tempoMap index hrecords''.tempoOk, hcollects.message, ?_⟩
    · have hstatus : messageStatus s =
          .ok 0xff { s with tempoMap := tempoMap, tempoIndex := index } := by
        rw [messageStatus, get_bind,
          if_pos ⟨(tempoEventP_iff hwf.complete hcollects.message).mpr htempo, hpos'⟩,
          bind_ok hupdate]
        exact bufferOctet_ok hzero
      rw [hread, bind_ok hstatus, pure_apply]
    · have htime' : s.trackTime = time + e.delta := by rw [hcollects.time, hspec.time, h.time]
      rw [tempoEvents, husecs, ← htime']
      exact hrecords''
  · obtain ⟨status, hstatus⟩ := messageStatus_other hwf.complete hcollects.message htempo
      hcollects.buffer
    refine ⟨status, s, init, last, ?_, hinTrack _ _ hrecords'.tempoOk, hcollects.message, ?_⟩
    · rw [hread, bind_ok hstatus, pure_apply]
    · rw [tempoEvents, TrackEvent.tempo?_of_not htempo]
      simpa [tempoEvents] using hrecords'

theorem InputStream.InTrack.readEvent_later {tempoMap : List Tempo} {times : List ℕ}
    {events : List TrackEvent}
    (h : mf.InTrack file track (pulses events) lastStatus (e.octets ++ octets) rest)
    (hfollows : mf.Follows tempoMap) (hindex : IndexAfter times events mf.tempoIndex)
    (htimes : tempoMap.map Tempo.time = 0 :: times) (hsorted : (0 :: times).Pairwise (· < ·))
    (hwf : e.WellFormed lastStatus) (htempo : ¬ e.IsTempo) (hpos : 0 < octets.length)
    (htime : pulses events + e.delta < fixnumBound) :
    ∃ status mf', Midifile.readEvent mf = .ok (some status) mf' ∧
      mf'.InTrack file track (pulses (events ++ [e])) (e.message.headD 0) octets rest ∧
      mf'.buffer.take e.message.length = e.message ∧
      mf'.Follows tempoMap ∧ IndexAfter times (events ++ [e]) mf'.tempoIndex := by
  obtain ⟨s, hread, hcollects, hinTrack⟩ := h.readEvent hwf hpos htime
  obtain ⟨hdelayed, hnext⟩ := hfollows.delayed htimes hsorted e.delta e.deltaTime.length
    (messageOctets e.running e.message ++ (octets ++ rest))
  have hpulses : pulses (events ++ [e]) = pulses events + e.delta := by
    rw [pulses_append]
    rfl
  have hfollows' : s.Follows tempoMap := by
    refine ⟨?_, ?_, ?_⟩
    · rw [hcollects.map, hdelayed.map]
    · rw [hcollects.index]
      exact hdelayed.index
    · rw [hcollects.next, hcollects.index]
      exact hdelayed.next
  obtain ⟨status, hstatus⟩ := messageStatus_other hwf.complete hcollects.message htempo
    hcollects.buffer
  refine ⟨status, s, ?_, ?_, hcollects.message, hfollows', ?_⟩
  · rw [hread, bind_ok hstatus, pure_apply]
  · rw [hpulses]
    exact hinTrack _ _ hfollows'.tempoOk
  · rw [hcollects.index, hnext, h.time, ← hpulses]
    exact hindex.next e

end Event

def readEventCalls : ℕ → Input PUnit
  | 0 => pure ⟨⟩
  | n + 1 => do
    match ← readEvent with
    | none => throw .endOfFile
    | some _ => readEventCalls n

section Calls

variable {mf mf' mf'' : InputStream}

theorem readEventCalls_succ {status : Octet} (h : readEvent mf = .ok (some status) mf') (n : ℕ) :
    readEventCalls (n + 1) mf = readEventCalls n mf' := by
  rw [readEventCalls, bind_ok h]

theorem readEventCalls_add {m n : ℕ} (h : readEventCalls m mf = .ok ⟨⟩ mf') :
    readEventCalls (m + n) mf = readEventCalls n mf' := by
  induction m generalizing mf with
  | zero =>
    rw [Nat.zero_add]
    cases h
    rfl
  | succ m ih =>
    rw [readEventCalls] at h
    obtain ⟨found, s, hread, h⟩ := bind_eq_ok.mp h
    cases found with
    | none => cases h
    | some status =>
      rw [Nat.add_right_comm, readEventCalls_succ hread, ih h]

variable {file : MetricalFile} {track time : ℕ} {lastStatus : Octet} {octets rest : List Octet}

def statusAfter (lastStatus : Octet) (events : List TrackEvent) : Octet :=
  events.foldl (fun _ e => e.message.headD 0) lastStatus

theorem InputStream.InTrack.readEvents_first {events : List TrackEvent} {tempos : List (ℕ × ℕ)}
    {init : List Tempo} {last : Tempo}
    (h : mf.InTrack file track time lastStatus (events.flatMap TrackEvent.octets ++ octets) rest)
    (hrecords : mf.Records tempos init last) (hppqn : 0 < file.ppqn)
    (hwf : EventsWellFormed lastStatus events) (hpos : 0 < octets.length)
    (htime : time + pulses events < fixnumBound) :
    ∃ mf' init' last', readEventCalls events.length mf = .ok ⟨⟩ mf' ∧
      mf'.InTrack file track (time + pulses events) (statusAfter lastStatus events) octets rest ∧
      mf'.Records (tempos ++ tempoEvents time events) init' last' := by
  induction events generalizing mf time lastStatus tempos init last with
  | nil => exact ⟨mf, init, last, rfl, h, by rwa [tempoEvents, List.append_nil]⟩
  | cons e events ih =>
    obtain ⟨he, hevents⟩ := hwf
    rw [pulses_cons] at htime
    rw [List.flatMap_cons, List.append_assoc] at h
    obtain ⟨status, mf₁, init₁, last₁, hread, h₁, -, hrecords₁⟩ :=
      h.readEvent_first hrecords hppqn he (by rw [List.length_append]; omega) (by omega)
    obtain ⟨mf', init', last', hcalls, h', hrecords'⟩ := ih h₁ hrecords₁ hevents (by omega)
    refine ⟨mf', init', last', ?_, ?_, ?_⟩
    · rw [List.length_cons, readEventCalls_succ hread, hcalls]
    · rw [pulses_cons, ← Nat.add_assoc]
      exact h'
    · have hsplit : tempoEvents time (e :: events) =
          tempoEvents time [e] ++ tempoEvents (time + e.delta) events := tempoEvents_append time [e] events
      rw [hsplit, ← List.append_assoc]
      exact hrecords'

theorem InputStream.InTrack.readEvents_later {earlier events : List TrackEvent}
    {tempoMap : List Tempo} {times : List ℕ}
    (h : mf.InTrack file track (pulses earlier) lastStatus
      (events.flatMap TrackEvent.octets ++ octets) rest)
    (hfollows : mf.Follows tempoMap) (hindex : IndexAfter times earlier mf.tempoIndex)
    (htimes : tempoMap.map Tempo.time = 0 :: times) (hsorted : (0 :: times).Pairwise (· < ·))
    (hwf : EventsWellFormed lastStatus events) (htempo : ∀ e ∈ events, ¬ e.IsTempo)
    (hpos : 0 < octets.length) (htime : pulses (earlier ++ events) < fixnumBound) :
    ∃ mf', readEventCalls events.length mf = .ok ⟨⟩ mf' ∧
      mf'.InTrack file track (pulses (earlier ++ events)) (statusAfter lastStatus events) octets
        rest ∧
      mf'.Follows tempoMap ∧ IndexAfter times (earlier ++ events) mf'.tempoIndex := by
  induction events generalizing mf earlier lastStatus with
  | nil =>
    rw [List.append_nil]
    exact ⟨mf, rfl, h, hfollows, hindex⟩
  | cons e events ih =>
    obtain ⟨he, hevents⟩ := hwf
    rw [List.flatMap_cons, List.append_assoc] at h
    rw [List.append_cons] at htime
    have hle : pulses earlier + e.delta ≤ pulses (earlier ++ [e] ++ events) := by
      rw [pulses_append, pulses_append]
      exact Nat.le_add_right _ _
    obtain ⟨status, mf₁, hread, h₁, -, hfollows₁, hindex₁⟩ :=
      h.readEvent_later hfollows hindex htimes hsorted he (htempo e List.mem_cons_self)
        (by rw [List.length_append]; omega) (by omega)
    obtain ⟨mf', hcalls, hafter⟩ :=
      ih h₁ hfollows₁ hindex₁ hevents (fun e' h' => htempo e' (List.mem_cons_of_mem _ h')) htime
    rw [← List.append_cons] at hafter
    exact ⟨mf', by rw [List.length_cons, readEventCalls_succ hread, hcalls], hafter⟩

end Calls

section Chunks

variable {mf : InputStream}

theorem Chunk.WellFormed.header {c : Chunk} (h : c.WellFormed) (rest : List Octet) :
    chunkTypeAndLength (c.octets ++ rest) = .ok (c.type, c.data.length) (c.data ++ rest) := by
  rw [Chunk.octets, List.append_assoc, chunkTypeAndLength_ok h.type h.length]

theorem nextTrackChunk_others {others : List Chunk} (h : ∀ c ∈ others, c.WellFormed) {length : ℕ}
    (hlength : length < 0x100000000) {rest : List Octet} {fuel : ℕ}
    (hfile : mf.fdStream = others.flatMap Chunk.octets ++
      (fourBytes trackType ++ fourBytes length ++ rest))
    (hfuel : mf.fdStream.length < fuel) :
    ∃ position, nextTrackChunk fuel 0 mf = .ok length { mf with
      fdStream := rest
      position := position } := by
  induction others generalizing mf fuel with
  | nil =>
    obtain ⟨fuel, rfl⟩ : ∃ k, fuel = k + 1 := ⟨fuel - 1, by omega⟩
    exact ⟨_, nextTrackChunk_ok fuel hlength hfile⟩
  | cons c others ih =>
    have hc := h c List.mem_cons_self
    rw [List.flatMap_cons, List.append_assoc] at hfile
    have hheader := hc.header
      (others.flatMap Chunk.octets ++ (fourBytes trackType ++ fourBytes length ++ rest))
    have hcount := (chunkTypeAndLength_eq_ok hheader).2
    rw [← hfile, List.length_append] at hcount
    obtain ⟨fuel, rfl⟩ : ∃ k, fuel = k + 2 := ⟨fuel - 2, by omega⟩
    rw [← hfile] at hheader
    rw [nextTrackChunk_header hheader rfl, if_neg hc.other,
      nextTrackChunk_skip (by simp)]
    obtain ⟨position, hnext⟩ := @ih { mf with
        fdStream := others.flatMap Chunk.octets ++
          (fourBytes trackType ++ fourBytes length ++ rest)
        position := mf.position + 8 + c.data.length }
      (fun c' h' => h c' (List.mem_cons_of_mem _ h')) (fuel + 1) rfl (by
        show (others.flatMap Chunk.octets ++ _).length < _
        omega)
    refine ⟨position, ?_⟩
    simp only [List.drop_left]
    exact hnext

theorem nextInputTrack_track {track : Track} {rest : List Octet} (hwf : track.WellFormed)
    (hmore : 0 < mf.format ∧ mf.currentTrack < mf.numberOfTracks - 1)
    (hremain : mf.trackBytesRemain = 0) (hfile : mf.fdStream = track.octets ++ rest) :
    ∃ position, nextInputTrack mf = .ok (some (mf.currentTrack + 1))
      (mf.advanced track.data.length position (track.data ++ rest)) := by
  have hdata : 0 < track.data.length := by
    simp only [Track.data, List.length_append, List.length_cons]
    omega
  have hfile' : mf.fdStream = track.others.flatMap Chunk.octets ++
      (fourBytes trackType ++ fourBytes track.data.length ++ (track.data ++ rest)) := by
    rw [hfile, Track.octets]
    simp only [List.append_assoc]
  obtain ⟨position, hnext⟩ :=
    nextTrackChunk_others hwf.others hwf.length hfile' (Nat.lt_succ_self _)
  exact ⟨position, nextInputTrack_more hmore hremain hdata hnext⟩

end Chunks

theorem TrackEvent.WellFormed.delta_lt {e : TrackEvent} {lastStatus : Octet}
    (h : e.WellFormed lastStatus) : e.delta < 0x80 ^ 4 :=
  (quantity_lt e.deltaTime).trans_le (Nat.pow_le_pow_right (by decide) h.delta)

theorem EventsWellFormed.pulses_le {events : List TrackEvent} {lastStatus : Octet}
    (h : EventsWellFormed lastStatus events) :
    pulses events ≤ events.length * 0x80 ^ 4 ∧
      events.length ≤ (events.flatMap TrackEvent.octets).length := by
  induction events generalizing lastStatus with
  | nil => exact ⟨Nat.zero_le _, Nat.zero_le _⟩
  | cons e events ih =>
    obtain ⟨hpulses, hlength⟩ := ih h.2
    have hdelta := h.1.delta_lt
    have hmessage : 0 < (messageOctets e.running e.message).length :=
      length_messageOctets_pos h.1.complete
    constructor
    · rw [pulses_cons, List.length_cons, Nat.succ_mul]
      omega
    · rw [List.flatMap_cons, List.length_cons, List.length_append, TrackEvent.octets,
        List.length_append]
      omega

theorem Track.WellFormed.time_lt {track : Track} (h : track.WellFormed) :
    pulses track.events + quantity track.endTime < fixnumBound := by
  obtain ⟨hpulses, hcount⟩ := h.events.pulses_le
  have hlength := h.length
  have hend : quantity track.endTime < 0x80 ^ 4 :=
    (quantity_lt track.endTime).trans_le (Nat.pow_le_pow_right (by decide) h.endTime)
  rw [Track.data, List.length_append] at hlength
  have hle : track.events.length * 0x80 ^ 4 ≤ 0x100000000 * 0x80 ^ 4 :=
    Nat.mul_le_mul_right _ (by omega)
  have hbound : 0x100000000 * 0x80 ^ 4 + 0x80 ^ 4 ≤ fixnumBound := by decide
  omega

def MetricalFile.tempos (file : MetricalFile) : List (ℕ × ℕ) :=
  tempoEvents 0 file.first.events

structure MetricalFile.Maps (file : MetricalFile) (tempoMap : List Tempo) : Prop where
  caches : Caches (pulseSeconds file.ppqn file.tempos) (tempoMap.map (Tempo.entry file.ppqn))
  times : tempoMap.map Tempo.time = 0 :: changes file.tempos

def callsOf (tracks : List Track) : ℕ := (tracks.map fun track => track.events.length + 1).sum

section Runs

variable {mf : InputStream} {file : MetricalFile} {number : ℕ} {track next : Track}
  {later : List Track}

theorem InputStream.InTrack.readEvent_end {lastStatus : Octet} {time : ℕ} {rest : List Octet}
    (h : mf.InTrack file number time lastStatus (track.endTime ++ [0xff, 0x2f, 0x00])
      (next.octets ++ rest))
    (hwf : file.WellFormed) (htrack : track.WellFormed) (hnext : next.WellFormed)
    (hcount : number < file.tracks.length)
    (htime : time + quantity track.endTime < fixnumBound) :
    ∃ mf', Midifile.readEvent mf = .ok (some 0xff) mf' ∧
      mf'.InTrack file (number + 1) 0 0xff next.data rest ∧
      (mf.tempoMap ≠ [] → mf'.Follows mf.tempoMap ∧ mf'.tempoIndex = 0) := by
  have hformat : 0 < file.format := by
    apply Nat.pos_of_ne_zero
    intro hzero
    rw [hwf.single hzero] at hcount
    exact Nat.not_lt_zero _ hcount
  have hfile : mf.fdStream = track.endTime ++ (0xff :: 0x2f :: 0x00 :: (next.octets ++ rest)) := by
    rw [h.fdStream, List.append_assoc]
    rfl
  have hremain := h.remain
  rw [List.length_append] at hremain
  have hendTime := htrack.endTime
  obtain ⟨s, hread, hsame, hrest, hleft, ⟨tail, hbuffer, htail⟩, htempo, hmap⟩ :=
    Midifile.readEvent_end h.synced htrack.delimited (by omega) hfile hremain (by rwa [h.time])
  obtain ⟨position, hadvance⟩ := nextInputTrack_track hnext (by
    rw [hsame.format, hsame.numberOfTracks, hsame.currentTrack, h.format, h.numberOfTracks, h.track]
    exact ⟨hformat, by omega⟩) hleft hrest
  have hset : s.buffer.set 0 0xff = 0xff :: 0x2f :: 0x00 :: tail := by
    rw [hbuffer]
    rfl
  refine ⟨_, hread.trans (finishEnd_ok hadvance hset), ?_, ?_⟩
  · exact ⟨s.advanced_synced _ _ _ (by simpa [hbuffer] using htail)
        (Nat.zero_lt_of_lt htempo.index), hsame.format.trans h.format,
      hsame.numberOfTracks.trans h.numberOfTracks,
      congrArg (· + 1) (hsame.currentTrack.trans h.track), hsame.ppqn.trans h.ppqn, rfl, rfl, rfl⟩
  · intro hne
    refine ⟨⟨hmap, List.length_pos_of_ne_nil hne, ?_⟩, rfl⟩
    simp only [InputStream.advanced, InputStream.updateNextTempoTime, hmap]

theorem MetricalFile.Maps.sorted {tempoMap : List Tempo} (h : file.Maps tempoMap) :
    (0 :: changes file.tempos).Pairwise (· < ·) := by
  have hsorted := h.caches.sorted
  rw [List.pairwise_map] at hsorted
  rw [← h.times, List.pairwise_map]
  exact hsorted

theorem MetricalFile.Maps.ne_nil {tempoMap : List Tempo} (h : file.Maps tempoMap) :
    tempoMap ≠ [] := by
  rintro rfl
  cases h.times

theorem InputStream.Records.maps {init : List Tempo} {last : Tempo}
    (h : mf.Records file.tempos init last) (hppqn : mf.ppqn = file.ppqn) :
    file.Maps mf.tempoMap := by
  rw [h.map]
  exact ⟨hppqn ▸ h.caches, h.changes⟩

theorem openInput_starts (hwf : file.WellFormed) (pooled : Option (List Octet)) :
    ∃ mf, openInput file.octets pooled = .ok ⟨⟩ mf ∧
      mf.InTrack file 0 0 0xff file.first.data
        (file.tracks.flatMap Track.octets ++ file.trailing) ∧
      mf.Records [] [] {} := by
  have hfirst := hwf.tracks file.first List.mem_cons_self
  have hformat := hwf.format
  have hdivision := hwf.ppqn_lt
  have hmetrical : file.ppqn.testBit 15 = false := (lt_or_testBit (by omega)).mpr hdivision
  have hheader : readHeader (headerChunk file.format (file.tracks.length + 1) file.ppqn 0 ++
      ((file.first :: file.tracks).flatMap Track.octets ++ file.trailing)) =
        finishHeader file.format (file.tracks.length + 1) file.ppqn
          ((file.first :: file.tracks).flatMap Track.octets ++ file.trailing) :=
    readHeader_headerChunk (by omega) hwf.count (by omega)
      (fun hzero => by rw [hwf.single hzero]; rfl) _
  rw [finishHeader, hmetrical] at hheader
  have hoctets : (file.first :: file.tracks).flatMap Track.octets ++ file.trailing =
      file.first.others.flatMap Chunk.octets ++ (fourBytes trackType ++
        fourBytes file.first.data.length ++ (file.first.data ++
          (file.tracks.flatMap Track.octets ++ file.trailing))) := by
    rw [List.flatMap_cons, Track.octets]
    simp only [List.append_assoc]
  have hbuffer := length_makeBuffer pooled 8
  have hskip (s : InputStream) (hs : s.fdStream = (file.first :: file.tracks).flatMap Track.octets ++
      file.trailing) : ∃ position, nextTrackChunk (s.fdStream.length + 1) 0 s = .ok
        file.first.data.length { s with
          fdStream := file.first.data ++ (file.tracks.flatMap Track.octets ++ file.trailing)
          position := position } :=
    nextTrackChunk_others hfirst.others hfirst.length (hs.trans hoctets) (Nat.lt_succ_self _)
  rw [MetricalFile.octets, openInput, bind_ok (onSource_ok hheader), modify_bind, get_bind]
  obtain ⟨position, hnext⟩ := hskip {
    fdStream := (file.first :: file.tracks).flatMap Track.octets ++ file.trailing
    format := file.format
    numberOfTracks := file.tracks.length + 1
    ppqn := file.ppqn
    smpteFormat := 0
    ticksPerFrame := 0
    buffer := makeBuffer pooled 8
    position := 14 } rfl
  refine ⟨_, (bind_ok hnext _).trans rfl, ⟨⟨hbuffer, ⟨Nat.one_pos, fun h => absurd h (Nat.lt_irrefl 0)⟩, ?_⟩, rfl, rfl, rfl,
    rfl, rfl, rfl, rfl⟩, ⟨rfl, rfl, rfl, Nat.le_refl 0, rfl, ?_, rfl⟩⟩
  · intro _ hchannel
    exact absurd hchannel (by decide)
  · exact Caches.constant (500000 * (1 / 1000000) / file.ppqn : ℚ)

theorem Track.data_append {events rest : List TrackEvent} (h : track.events = events ++ rest) :
    track.data = events.flatMap TrackEvent.octets ++
      (rest.flatMap TrackEvent.octets ++ (track.endTime ++ [0xff, 0x2f, 0x00])) := by
  rw [Track.data, h, List.flatMap_append, List.append_assoc]

theorem Track.end_pos (track : Track) (events : List TrackEvent) :
    0 < (events.flatMap TrackEvent.octets ++ (track.endTime ++ [0xff, 0x2f, 0x00])).length := by
  simp only [List.length_append, List.length_cons]
  omega

theorem reads_before (hwf : file.WellFormed) (pooled : Option (List Octet)) {before : List Track}
    (hsplit : file.tracks = before ++ track :: later) :
    ∃ mf mf' tempoMap, openInput file.octets pooled = .ok ⟨⟩ mf ∧
      readEventCalls (callsOf (file.first :: before)) mf = .ok ⟨⟩ mf' ∧
      mf'.InTrack file (before.length + 1) 0 0xff track.data
        (later.flatMap Track.octets ++ file.trailing) ∧
      file.Maps tempoMap ∧ mf'.Follows tempoMap ∧ mf'.tempoIndex = 0 := by
  induction before using List.reverseRecOn generalizing track later with
  | nil =>
    obtain ⟨mf, hopen, hstart, hrecords⟩ := openInput_starts hwf pooled
    have hfirst := hwf.tracks file.first List.mem_cons_self
    have htrack := hwf.tracks track (by rw [hsplit]; simp)
    have htime := hfirst.time_lt
    rw [Track.data, hsplit, List.nil_append, List.flatMap_cons, List.append_assoc] at hstart
    obtain ⟨mf₁, init, last, hcalls, h₁, hrecords₁⟩ := hstart.readEvents_first hrecords hwf.ppqn_pos
      hfirst.events (file.first.end_pos []) (by omega)
    rw [Nat.zero_add] at h₁
    obtain ⟨mf₂, hread, h₂, hfollows⟩ := h₁.readEvent_end hwf hfirst htrack
      (by rw [hsplit]; simp) htime
    have hmaps : file.Maps mf₁.tempoMap := hrecords₁.maps h₁.ppqn
    obtain ⟨hfollows, hindex⟩ := hfollows hmaps.ne_nil
    refine ⟨mf, mf₂, mf₁.tempoMap, hopen, ?_, h₂, hmaps, hfollows, hindex⟩
    rw [show callsOf [file.first] = file.first.events.length + 1 from rfl,
      readEventCalls_add hcalls, readEventCalls_succ hread]
    rfl
  | append_singleton before previous ih =>
    rw [List.append_assoc, List.singleton_append] at hsplit
    obtain ⟨mf, mf₀, tempoMap, hopen, hcalls₀, hstart, hmaps, hfollows₀, hindex₀⟩ := ih hsplit
    have hprevious := hwf.tracks previous (by rw [hsplit]; simp)
    have htrack := hwf.tracks track (by rw [hsplit]; simp)
    have htempo := hwf.tempo previous (by rw [hsplit]; simp)
    have htime := hprevious.time_lt
    have hzero : IndexAfter (changes file.tempos) [] mf₀.tempoIndex := by
      rw [hindex₀]
      exact ⟨Nat.zero_le _, [], [], rfl, (changesBefore_zero _).symm⟩
    rw [Track.data, List.flatMap_cons, List.append_assoc] at hstart
    obtain ⟨mf₁, hcalls₁, h₁, hfollows₁, -⟩ := InputStream.InTrack.readEvents_later hstart hfollows₀
      hzero hmaps.times hmaps.sorted hprevious.events htempo (previous.end_pos []) (by
        rw [List.nil_append]
        omega)
    obtain ⟨mf₂, hread, h₂, hfollows₂⟩ := h₁.readEvent_end hwf hprevious htrack
      (by rw [hsplit]; simp) htime
    rw [hfollows₁.map] at hfollows₂
    obtain ⟨hfollows₂, hindex₂⟩ := hfollows₂ hmaps.ne_nil
    refine ⟨mf, mf₂, tempoMap, hopen, ?_, by simpa using h₂, hmaps, hfollows₂, hindex₂⟩
    have hcount : callsOf (file.first :: (before ++ [previous])) =
        callsOf (file.first :: before) + (previous.events.length + 1) := by
      simp only [callsOf, List.map_cons, List.map_append, List.map_nil, List.sum_cons,
        List.sum_append, List.sum_nil]
      omega
    rw [hcount, readEventCalls_add hcalls₀, readEventCalls_add hcalls₁, readEventCalls_succ hread]
    rfl

/-- After the call that reads the event `e`, which follows `events` in the track after `before`,
`event-seconds` is the integral of the tempo up to the pulse of the event. -/
def MetricalFile.OnTime (file : MetricalFile) (before : List Track) (events : List TrackEvent)
    (e : TrackEvent) : Prop :=
  ∀ pooled, ∃ mf mf', openInput file.octets pooled = .ok ⟨⟩ mf ∧
    readEventCalls (callsOf before + (events.length + 1)) mf = .ok ⟨⟩ mf' ∧
    mf'.currentTrack = before.length ∧ mf'.buffer.take e.message.length = e.message ∧
    eventSeconds mf' = .ok
      (integral (pulseSeconds file.ppqn file.tempos) (pulses (events ++ [e]))) mf'

theorem EventsWellFormed.append {events rest : List TrackEvent} {lastStatus : Octet}
    (h : EventsWellFormed lastStatus (events ++ rest)) :
    EventsWellFormed lastStatus events ∧ EventsWellFormed (statusAfter lastStatus events) rest := by
  induction events generalizing lastStatus with
  | nil => exact ⟨trivial, h⟩
  | cons e events ih => exact ⟨⟨h.1, (ih h.2).1⟩, (ih h.2).2⟩

theorem MetricalFile.onTime_first (hwf : file.WellFormed) {events rest : List TrackEvent}
    {e : TrackEvent} (hevents : file.first.events = events ++ e :: rest) :
    file.OnTime [] events e := by
  intro pooled
  obtain ⟨mf, hopen, hstart, hrecords⟩ := openInput_starts hwf pooled
  have hfirst := hwf.tracks file.first List.mem_cons_self
  have htime := hfirst.time_lt
  rw [hevents, pulses_append, pulses_cons] at htime
  have hwf' := hfirst.events
  rw [hevents] at hwf'
  obtain ⟨hbefore, he, -⟩ := hwf'.append
  rw [Track.data_append hevents] at hstart
  obtain ⟨mf₁, init, last, hcalls, h₁, hrecords₁⟩ := hstart.readEvents_first hrecords hwf.ppqn_pos
    hbefore (file.first.end_pos (e :: rest)) (by omega)
  rw [List.flatMap_cons, List.append_assoc] at h₁
  obtain ⟨status, mf₂, init₂, last₂, hread, h₂, hmessage, hrecords₂⟩ := h₁.readEvent_first hrecords₁
    hwf.ppqn_pos he (file.first.end_pos rest) (by omega)
  refine ⟨mf, mf₂, hopen, ?_, h₂.track, hmessage, ?_⟩
  · rw [show callsOf [] + (events.length + 1) = events.length + 1 from Nat.zero_add _,
      readEventCalls_add hcalls, readEventCalls_succ hread]
    rfl
  · have htempos : file.tempos = tempoEvents 0 events ++ tempoEvents (pulses events) [e] ++
        tempoEvents (pulses (events ++ [e])) rest := by
      rw [MetricalFile.tempos, hevents, List.append_cons, tempoEvents_append, tempoEvents_append,
        Nat.zero_add, Nat.zero_add]
    have hpulses : mf₂.trackTime = pulses (events ++ [e]) := by
      rw [h₂.time, Nat.zero_add, pulses_append]
      rfl
    rw [hrecords₂.eventSeconds (by rw [h₂.ppqn]; exact hwf.ppqn_pos), hpulses, h₂.ppqn, htempos,
      integral_append _ _ _ fun tempo h => le_of_mem_tempoEvents h]
    rw [List.nil_append, Nat.zero_add]

theorem MetricalFile.onTime_later (hwf : file.WellFormed) {before : List Track}
    (hsplit : file.tracks = before ++ track :: later) {events rest : List TrackEvent}
    {e : TrackEvent} (hevents : track.events = events ++ e :: rest)
    (hcaught : CaughtUp (changes file.tempos) (events ++ [e])) :
    file.OnTime (file.first :: before) events e := by
  intro pooled
  obtain ⟨mf, mf₀, tempoMap, hopen, hcalls₀, hstart, hmaps, hfollows₀, hindex₀⟩ :=
    reads_before hwf pooled hsplit
  have htrack := hwf.tracks track (by rw [hsplit]; simp)
  have htempo := hwf.tempo track (by rw [hsplit]; simp)
  have htime := htrack.time_lt
  rw [hevents, pulses_append, pulses_cons] at htime
  have hwf' := htrack.events
  rw [hevents] at hwf'
  obtain ⟨hbefore, he, -⟩ := hwf'.append
  have hzero : IndexAfter (changes file.tempos) [] mf₀.tempoIndex := by
    rw [hindex₀]
    exact ⟨Nat.zero_le _, [], [], rfl, (changesBefore_zero _).symm⟩
  rw [Track.data_append hevents] at hstart
  obtain ⟨mf₁, hcalls₁, h₁, hfollows₁, hindex₁⟩ := InputStream.InTrack.readEvents_later hstart
    hfollows₀ hzero hmaps.times hmaps.sorted hbefore
    (fun e' h' => htempo e' (by rw [hevents]; exact List.mem_append_left _ h'))
    (track.end_pos (e :: rest)) (by
      rw [List.nil_append]
      omega)
  rw [List.flatMap_cons, List.append_assoc] at h₁
  obtain ⟨status, mf₂, hread, h₂, hmessage, hfollows₂, hindex₂⟩ := h₁.readEvent_later hfollows₁
    hindex₁ hmaps.times hmaps.sorted he (htempo e (by rw [hevents]; simp)) (track.end_pos rest) (by
      rw [List.nil_append]
      omega)
  rw [List.nil_append] at h₂ hindex₂
  refine ⟨mf, mf₂, hopen, ?_, h₂.track, hmessage, ?_⟩
  · rw [readEventCalls_add hcalls₀, readEventCalls_add hcalls₁, readEventCalls_succ hread]
    rfl
  · rw [← h₂.time]
    refine hfollows₂.eventSeconds (by rw [h₂.ppqn]; exact hwf.ppqn_pos) ?_ hmaps.times hmaps.sorted ?_
    · rw [h₂.ppqn]
      exact hmaps.caches
    · rw [h₂.time]
      exact hcaught.index_eq hindex₂

/-- The times of the events follow the tempo, if the tempo index has caught up in the tracks
after the first one. -/
theorem MetricalFile.onTime (hwf : file.WellFormed) {before : List Track}
    (hsplit : file.first :: file.tracks = before ++ track :: later)
    {events rest : List TrackEvent} {e : TrackEvent} (hevents : track.events = events ++ e :: rest)
    (hcaught : before ≠ [] → CaughtUp (changes file.tempos) (events ++ [e])) :
    file.OnTime before events e := by
  cases before with
  | nil =>
    obtain ⟨rfl, -⟩ := List.cons.inj hsplit
    exact file.onTime_first hwf hevents
  | cons first before =>
    obtain ⟨rfl, htracks⟩ := List.cons.inj hsplit
    exact file.onTime_later hwf htracks hevents (hcaught (List.cons_ne_nil _ _))

end Runs

def noteEvent (delay : Octet) : TrackEvent := ⟨[delay], false, [0x90, 0x3c, 0x40]⟩

def tempoEvent (high middle low : Octet) : TrackEvent :=
  ⟨[1], false, [0xff, 0x51, 0x03, high, middle, low]⟩

def noteTrack (delay : Octet) : Track := ⟨[], [noteEvent delay], [0]⟩

def changingTempo (delay : Octet) : MetricalFile where
  format := 1
  ppqn := 1
  first := ⟨[], [tempoEvent 0x0f 0x42 0x40, tempoEvent 0x1e 0x84 0x80], [0]⟩
  tracks := [noteTrack delay]
  trailing := []

theorem delimited_singleton {b : Octet} (h : b < 0x80) : Delimited [b] :=
  UInt8.lt_iff_toNat_lt.mp h

theorem noteEvent_wellFormed {delay : Octet} (h : delay < 0x80) (lastStatus : Octet) :
    (noteEvent delay).WellFormed lastStatus where
  delimited := delimited_singleton h
  delta := Nat.one_le_ofNat
  complete := .threeBytes 0x90 0x3c 0x40 (by decide) (by decide) (by decide)
  short := fun hlong => absurd hlong (show ¬ 0xf0 ≤ (0x90 : Octet).toNat by decide)
  running := fun hrunning => nomatch hrunning
  tempo := fun htempo => absurd htempo.1 (show ¬ some (0x90 : Octet) = some 0xff by decide)

theorem tempoEvent_wellFormed (high middle low lastStatus : Octet) :
    (tempoEvent high middle low).WellFormed lastStatus where
  delimited := delimited_singleton (by decide)
  delta := Nat.one_le_ofNat
  complete := .metaEvent 0x51 [0x03] [high, middle, low] (by decide)
    (delimited_singleton (by decide)) rfl
  short := fun _ => Nat.zero_lt_succ 3
  running := fun hrunning => nomatch hrunning
  tempo := fun _ => rfl

theorem changingTempo_wellFormed {delay : Octet} (h : delay < 0x80) :
    (changingTempo delay).WellFormed where
  format := Nat.le_refl 1
  single := by rintro ⟨⟩
  count := show 2 < 0x10000 by decide
  ppqn_pos := Nat.one_pos
  ppqn_lt := show 1 < 0x8000 by decide
  tracks := by
    have hend : Delimited [0] := delimited_singleton (by decide)
    intro track htrack
    simp only [changingTempo, List.mem_cons, List.not_mem_nil, or_false] at htrack
    rcases htrack with rfl | rfl
    · exact ⟨List.forall_mem_nil _, ⟨tempoEvent_wellFormed _ _ _ _, tempoEvent_wellFormed _ _ _ _,
        trivial⟩, hend, Nat.one_le_ofNat, show 18 < 0x100000000 by decide⟩
    · exact ⟨List.forall_mem_nil _, ⟨noteEvent_wellFormed h _, trivial⟩, hend, Nat.one_le_ofNat,
        show 8 < 0x100000000 by decide⟩
  tempo := by
    intro track htrack e he
    simp only [changingTempo, List.mem_cons, List.not_mem_nil, or_false] at htrack
    rw [htrack] at he
    simp only [noteTrack, List.mem_cons, List.not_mem_nil, or_false] at he
    rw [he]
    exact fun htempo => absurd htempo.1 (show ¬ some (0x90 : Octet) = some 0xff by decide)

theorem onTime_changingTempo : (changingTempo 2).OnTime [(changingTempo 2).first] []
    (noteEvent 2) := by
  have hsplit : (changingTempo 2).first :: (changingTempo 2).tracks =
      [(changingTempo 2).first] ++ noteTrack 2 :: [] := rfl
  have hevents : (noteTrack 2).events = [] ++ noteEvent 2 :: [] := rfl
  refine MetricalFile.onTime (changingTempo_wellFormed (by decide)) hsplit hevents fun _ => ?_
  intro earlier later hsplit
  cases earlier with
  | nil =>
    obtain rfl : later = [noteEvent 2] := hsplit.symm
    decide
  | cons e earlier =>
    obtain ⟨rfl, hnil⟩ := List.cons.inj hsplit
    obtain ⟨rfl, rfl⟩ := List.append_eq_nil_iff.mp hnil.symm
    exact Nat.le_refl _

/-- `event-seconds` after calls of `read-event`. -/
def secondsAfter (file : List Octet) (calls : ℕ) : Option ℚ :=
  match openInput file none with
  | .error _ _ => none
  | .ok _ mf =>
    match readEventCalls calls mf with
    | .error _ _ => none
    | .ok _ mf' =>
      match eventSeconds mf' with
      | .error _ _ => none
      | .ok seconds _ => some seconds

theorem MetricalFile.OnTime.secondsAfter_eq {file : MetricalFile} {before : List Track}
    {events : List TrackEvent} {e : TrackEvent} (h : file.OnTime before events e) :
    secondsAfter file.octets (callsOf before + (events.length + 1)) =
      some (integral (pulseSeconds file.ppqn file.tempos) (pulses (events ++ [e]))) := by
  obtain ⟨mf, mf', hopen, hcalls, -, -, hseconds⟩ := h none
  rw [secondsAfter, hopen]
  simp only [hcalls, hseconds]

/-- The two changes before the note are passed at once, and the tempo is the first of them. -/
theorem not_onTime_changingTempo : (changingTempo 3).WellFormed ∧
    ¬ (changingTempo 3).OnTime [(changingTempo 3).first] [] (noteEvent 3) := by
  refine ⟨changingTempo_wellFormed (by decide), fun h => ?_⟩
  have hseconds := h.secondsAfter_eq
  revert hseconds
  decide +kernel

end Incudine.Midifile

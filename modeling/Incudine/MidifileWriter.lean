import Incudine.Midifile

/-!
# The events of an output stream

What one call of `write-event` or `write-short-event` adds to the buffer, and when it signals an
error instead.
-/

namespace Incudine.Midifile

open Octets Signals

/-- The octets of a message encoded in an integer, the lowest first. -/
def shortOctets (value : ℕ) : ℕ → List Octet
  | 0 => []
  | n + 1 => UInt8.ofNat (value &&& 0xff) :: shortOctets (value >>> 8) n

inductive WriteCall
  | shortEvent (beats : ℚ≥0) (msg : UInt32) (size : ℕ)
  | event (beats : ℚ≥0) (data : List Octet) (start : ℕ) (finish : Option ℕ)
  deriving DecidableEq

def WriteCall.beats : WriteCall → ℚ≥0
  | .shortEvent beats _ _ => beats
  | .event beats _ _ _ => beats

def WriteCall.message : WriteCall → List Octet
  | .shortEvent _ msg size => shortOctets msg.toNat size
  | .event _ data start finish => (data.drop start).take (finish.getD data.length - start)

def WriteCall.status (c : WriteCall) : Octet :=
  c.message.headD 0

def WriteCall.eventSize : WriteCall → ℕ
  | .shortEvent _ _ _ => 8
  | c@(.event _ _ _ _) => 4 + c.message.length

def WriteCall.run (expandSize : ℕ) : WriteCall → Output ℕ
  | .shortEvent beats msg size => writeShortEvent expandSize beats msg size
  | .event beats data start finish => writeEvent expandSize beats data start finish

def WriteCall.InBounds : WriteCall → Prop
  | .shortEvent _ _ size => 1 ≤ size ∧ size ≤ 4
  | .event _ data start finish => start ≤ finish.getD data.length ∧
      finish.getD data.length ≤ data.length

/-- The message is written without its status byte. -/
def WriteCall.running (mf : OutputStream) : WriteCall → Bool
  | c@(.shortEvent _ _ _) => c.status = mf.lastStatus ∧ c.status < 0xf0
  | .event _ _ _ _ => false

def OutputStream.deltaTime (mf : OutputStream) (beats : ℚ≥0) : ℕ :=
  (round (beats * mf.ppqn) - mf.trackTime).toNat

theorem OutputStream.deltaTime_zero (mf : OutputStream) : mf.deltaTime 0 = 0 := by
  have hzero : round 0 = 0 := by simp [round]
  have hbeats : ((0 : ℚ≥0) : ℚ) = 0 := rfl
  rw [OutputStream.deltaTime, hbeats, zero_mul, hzero, zero_sub]
  exact Int.toNat_of_nonpos (Int.neg_nonpos_of_nonneg (Int.natCast_nonneg _))

def WriteCall.octets (mf : OutputStream) (c : WriteCall) : List Octet :=
  encode (mf.deltaTime c.beats) ++ if c.running mf then c.message.tail else c.message

/-- The buffer after `ensure-buffer-space`. -/
def OutputStream.grown (expandSize : ℕ) (mf : OutputStream) (eventSize : ℕ) : List Octet :=
  if mf.bufferIndex + eventSize + 1 > mf.buffer.length then
    mf.buffer ++ List.replicate expandSize 0
  else mf.buffer

def OutputStream.after (expandSize : ℕ) (mf : OutputStream) (c : WriteCall) : OutputStream :=
  { mf with
    buffer := splice (mf.grown expandSize c.eventSize) mf.bufferIndex (c.octets mf)
    bufferIndex := mf.bufferIndex + (c.octets mf).length
    trackTime := mf.trackTime + mf.deltaTime c.beats
    lastStatus := c.status }

def WriteCall.HasEnd : WriteCall → Prop
  | .shortEvent _ _ _ => True
  | .event _ _ start finish => finish = none → start = 0

structure OutputStream.Fits (expandSize : ℕ) (mf : OutputStream) (c : WriteCall) : Prop where
  hasEnd : c.HasEnd
  time : mf.trackTime + mf.deltaTime c.beats < fixnumBound
  room : mf.bufferIndex + (c.octets mf).length ≤ (mf.grown expandSize c.eventSize).length

variable {i : ℕ} {mf mf' : OutputStream}

theorem setOctet_eq_ok {octet : Octet} {u : PUnit} :
    setOctet i octet mf = .ok u mf' ↔
      i < mf.buffer.length ∧ mf' = { mf with buffer := mf.buffer.set i octet } := by
  rw [setOctet, get_bind, bind_eq_ok]
  constructor
  · rintro ⟨_, s, hcheck, hset⟩
    obtain ⟨hi, rfl⟩ := check_eq_ok.mp hcheck
    rw [modify_apply, EStateM.Result.ok.injEq] at hset
    exact ⟨hi, hset.2.symm⟩
  · rintro ⟨hi, rfl⟩
    exact ⟨⟨⟩, mf, check_pos hi _ mf, rfl⟩

def storeAll : List Octet → ℕ → Output PUnit
  | [], _ => pure ⟨⟩
  | octet :: octets, i => do
    setOctet i octet
    storeAll octets (i + 1)

theorem splice_set {l : List Octet} (h : i < l.length) (octet : Octet) (octets : List Octet) :
    splice (l.set i octet) (i + 1) octets = splice l i (octet :: octets) := by
  rw [set_eq_splice h]
  exact splice_splice h.le

theorem storeAll_eq_ok {octets : List Octet} {u : PUnit} (h : i ≤ mf.buffer.length) :
    storeAll octets i mf = .ok u mf' ↔
      i + octets.length ≤ mf.buffer.length ∧
        mf' = { mf with buffer := splice mf.buffer i octets } := by
  induction octets generalizing i mf with
  | nil =>
    rw [storeAll, pure_apply, EStateM.Result.ok.injEq, splice_nil]
    simp [h, eq_comm]
  | cons octet octets ih =>
    have hnext (hi : i < mf.buffer.length) :
        i + 1 ≤ { mf with buffer := mf.buffer.set i octet }.buffer.length := by
      rw [List.length_set]
      exact hi
    rw [storeAll, bind_eq_ok]
    constructor
    · rintro ⟨_, s, hset, hrest⟩
      obtain ⟨hi, rfl⟩ := setOctet_eq_ok.mp hset
      obtain ⟨hroom, rfl⟩ := (ih (hnext hi)).mp hrest
      simp only [List.length_set] at hroom
      simp only [splice_set hi, List.length_cons]
      exact ⟨by omega, trivial⟩
    · rintro ⟨hroom, rfl⟩
      simp only [List.length_cons] at hroom
      have hi : i < mf.buffer.length := by omega
      refine ⟨⟨⟩, _, setOctet_eq_ok.mpr ⟨hi, rfl⟩, (ih (hnext hi)).mpr ⟨?_, ?_⟩⟩
      · rw [List.length_set]
        omega
      · rw [splice_set hi]

theorem storeAll_apply {octets : List Octet} (h : i + octets.length ≤ mf.buffer.length) :
    storeAll octets i mf = .ok ⟨⟩ { mf with buffer := splice mf.buffer i octets } :=
  (storeAll_eq_ok (by omega)).mpr ⟨h, rfl⟩

theorem group_eq (pulses n : ℕ) :
    0x80 ||| (pulses >>> (n * 7) &&& 0x7f) = 0x80 + pulses / 0x80 ^ n % 0x80 := by
  have hpow : (0x80 : ℕ) ^ n = 2 ^ (n * 7) := by
    rw [Nat.mul_comm, pow_mul]
    rfl
  have hlow : pulses / 0x80 ^ n % 0x80 < 2 ^ 7 := Nat.mod_lt _ (by decide)
  rw [Nat.shiftRight_eq_div_pow, ← hpow, Nat.and_two_pow_sub_one_eq_mod _ 7]
  exact (Nat.two_pow_add_eq_or_of_lt hlow 1).symm

theorem writeGroups_eq (pulses n i : ℕ) : writeGroups pulses n i = storeAll (groups pulses n) i := by
  induction n generalizing i with
  | zero => rfl
  | succ n ih =>
    cases n with
    | zero =>
      have hlast : 0x7f &&& pulses = pulses % 0x80 := by
        rw [Nat.and_comm]
        exact Nat.and_two_pow_sub_one_eq_mod pulses 7
      rw [writeGroups, groups, hlast, storeAll, storeAll, bind_pure_unit]
    | succ n => rw [writeGroups, groups, storeAll, ih, group_eq]

theorem shortMessageToOctets_eq (value n j : ℕ) :
    shortMessageToOctets value n j =
      (do storeAll (shortOctets value n) j; pure (j + n)) := by
  induction n generalizing value j with
  | zero => rfl
  | succ n ih =>
    rw [shortMessageToOctets, shortOctets, storeAll, bind_assoc]
    simp only [ih, Nat.add_assoc, Nat.add_comm 1 n]

theorem length_shortOctets (value n : ℕ) : (shortOctets value n).length = n := by
  induction n generalizing value with
  | zero => rfl
  | succ n ih => simp [shortOctets, ih]

variable {data : List Octet}

theorem octetAt_of_lt (h : i < data.length) : octetAt data i = pure data[i] := by
  simp [octetAt, h]

theorem copyOctets_eq {n : ℕ} (h : i + n ≤ data.length) (j : ℕ) :
    copyOctets data n i j = (do storeAll ((data.drop i).take n) j; pure (j + n)) := by
  induction n generalizing i j with
  | zero => rfl
  | succ n ih =>
    have hi : i < data.length := by omega
    rw [copyOctets, octetAt_of_lt hi, List.drop_eq_getElem_cons hi, List.take_succ_cons, storeAll,
      bind_assoc, pure_bind]
    simp only [ih (show i + 1 + n ≤ data.length by omega), Nat.add_assoc, Nat.add_comm 1 n]

theorem copyOctets_ne_ok {n j k : ℕ} (h : data.length < i + n) (hn : i ≤ data.length)
    (mf mf' : OutputStream) : copyOctets data n i j mf ≠ .ok k mf' := by
  induction n generalizing i j mf with
  | zero => omega
  | succ n ih =>
    intro hok
    rw [copyOctets, bind_eq_ok] at hok
    obtain ⟨octet, s, hoctet, hrest⟩ := hok
    by_cases hi : i < data.length
    · obtain ⟨_, s', -, hrest⟩ := bind_eq_ok.mp hrest
      exact ih (by omega) (by omega) s' hrest
    · rw [octetAt, List.getElem?_eq_none (by omega)] at hoctet
      cases hoctet

theorem writeDeltaTime_eq (pulses start : ℕ) :
    writeDeltaTime pulses start =
      (do storeAll (encode pulses) start; pure (start + (encode pulses).length)) := by
  rw [writeDeltaTime, length_encode]
  simp only [writeGroups_eq, variableLengthQuantityBytes, encode]

/-- The event time and the octets after it, then the new buffer index. -/
def addEvent (beats : ℚ≥0) (octets : List Octet) : Output ℕ := do
  let start ← writeEventTime beats
  storeAll octets start
  modify fun mf => { mf with bufferIndex := start + octets.length }
  return start + octets.length

variable {beats : ℚ≥0}

theorem writeEventTime_eq_ok {j : ℕ} (h : mf.bufferIndex ≤ mf.buffer.length) :
    writeEventTime beats mf = .ok j mf' ↔
      mf.trackTime + mf.deltaTime beats < fixnumBound ∧
      mf.bufferIndex + (encode (mf.deltaTime beats)).length ≤ mf.buffer.length ∧
      j = mf.bufferIndex + (encode (mf.deltaTime beats)).length ∧
      mf' = { mf with
        trackTime := mf.trackTime + mf.deltaTime beats
        buffer := splice mf.buffer mf.bufferIndex (encode (mf.deltaTime beats)) } := by
  have hdelta : (round (beats * mf.ppqn) - mf.trackTime).toNat = mf.deltaTime beats := rfl
  rw [writeEventTime, get_bind, hdelta]
  constructor
  · intro hok
    obtain ⟨_, s, hcheck, hok⟩ := bind_eq_ok.mp hok
    obtain ⟨-, rfl⟩ := check_eq_ok.mp hcheck
    obtain ⟨_, s, hcheck, hok⟩ := bind_eq_ok.mp hok
    obtain ⟨htime, rfl⟩ := check_eq_ok.mp hcheck
    rw [modify_bind, writeDeltaTime_eq] at hok
    obtain ⟨_, s', hstore, hpure⟩ := bind_eq_ok.mp hok
    obtain ⟨hroom, rfl⟩ := (storeAll_eq_ok (by exact h)).mp hstore
    rw [pure_apply, EStateM.Result.ok.injEq] at hpure
    exact ⟨htime, hroom, hpure.1.symm, hpure.2.symm⟩
  · rintro ⟨htime, hroom, rfl, rfl⟩
    have hfixnum : mf.deltaTime beats < fixnumBound := by omega
    rw [bind_ok (check_pos hfixnum _ mf), bind_ok (check_pos htime _ mf), modify_bind,
      writeDeltaTime_eq]
    rw [bind_ok (storeAll_apply (by exact hroom)), pure_apply]

theorem addEvent_eq_ok {octets : List Octet} {j : ℕ} (h : mf.bufferIndex ≤ mf.buffer.length) :
    addEvent beats octets mf = .ok j mf' ↔
      mf.trackTime + mf.deltaTime beats < fixnumBound ∧
      mf.bufferIndex + (encode (mf.deltaTime beats) ++ octets).length ≤ mf.buffer.length ∧
      j = mf'.bufferIndex ∧
      mf' = { mf with
        trackTime := mf.trackTime + mf.deltaTime beats
        buffer := splice mf.buffer mf.bufferIndex (encode (mf.deltaTime beats) ++ octets)
        bufferIndex := mf.bufferIndex + (encode (mf.deltaTime beats) ++ octets).length } := by
  rw [addEvent, bind_eq_ok, List.length_append]
  constructor
  · rintro ⟨start, s, hevent, hok⟩
    obtain ⟨htime, hroom, rfl, rfl⟩ := (writeEventTime_eq_ok h).mp hevent
    obtain ⟨_, s', hstore, hok⟩ := bind_eq_ok.mp hok
    have hlen := length_splice hroom
    obtain ⟨hrest, rfl⟩ := (storeAll_eq_ok (by simp only [hlen]; omega)).mp hstore
    simp only [hlen, splice_splice h] at hrest hok
    rw [modify_bind, pure_apply, EStateM.Result.ok.injEq] at hok
    obtain ⟨rfl, rfl⟩ := hok
    exact ⟨htime, by omega, rfl, by simp only [Nat.add_assoc]⟩
  · rintro ⟨htime, hroom, rfl, rfl⟩
    have hstart : mf.bufferIndex + (encode (mf.deltaTime beats)).length ≤ mf.buffer.length := by
      omega
    have hlen := length_splice hstart
    refine ⟨_, _, (writeEventTime_eq_ok h).mpr ⟨htime, hstart, rfl, rfl⟩, ?_⟩
    rw [bind_ok (storeAll_apply (by simp only [hlen]; omega)), modify_bind, pure_apply]
    simp only [splice_splice h, Nat.add_assoc]

theorem ensureBufferSpace_apply (expandSize eventSize : ℕ) (mf : OutputStream) :
    ensureBufferSpace expandSize eventSize mf =
      .ok ⟨⟩ { mf with buffer := mf.grown expandSize eventSize } := by
  rw [ensureBufferSpace, modify_apply, OutputStream.grown]
  by_cases h : mf.bufferIndex + eventSize + 1 > mf.buffer.length
  · simp only [if_pos h]
  · simp only [if_neg h]

theorem OutputStream.le_length_grown (h : mf.bufferIndex ≤ mf.buffer.length)
    (expandSize eventSize : ℕ) : mf.bufferIndex ≤ (mf.grown expandSize eventSize).length := by
  rw [OutputStream.grown]
  split
  · rw [List.length_append]
    omega
  · exact h

def OutputStream.prepared (expandSize : ℕ) (mf : OutputStream) (c : WriteCall) : OutputStream :=
  { mf with
    buffer := mf.grown expandSize c.eventSize
    lastStatus := c.status }

variable {expandSize : ℕ}

theorem writeShortEvent_eq {msg : UInt32} {size : ℕ} (hopen : mf.openP = true)
    (hsize : 2 ≤ size ∧ size ≤ 4) :
    writeShortEvent expandSize beats msg size mf =
      addEvent beats
        (if (WriteCall.shortEvent beats msg size).running mf then
          (WriteCall.shortEvent beats msg size).message.tail
        else (WriteCall.shortEvent beats msg size).message)
        (mf.prepared expandSize (.shortEvent beats msg size)) := by
  obtain ⟨n, rfl⟩ : ∃ n, size = n + 1 := ⟨size - 1, by omega⟩
  have hstatus : UInt8.ofNat (msg.toNat &&& 0xff) =
      (WriteCall.shortEvent beats msg (n + 1)).status := rfl
  rw [writeShortEvent, bind_ok (check_pos (by omega) _ mf), get_bind,
    bind_ok (check_pos hopen _ mf), bind_ok (ensureBufferSpace_apply expandSize 8 mf)]
  simp only [get_bind, hstatus]
  by_cases hrun : (WriteCall.shortEvent beats msg (n + 1)).status = mf.lastStatus ∧
      (WriteCall.shortEvent beats msg (n + 1)).status < 0xf0
  · have hrunning : (WriteCall.shortEvent beats msg (n + 1)).running mf = true := by
      simpa [WriteCall.running] using hrun
    have hprepared : mf.prepared expandSize (.shortEvent beats msg (n + 1)) =
        { mf with buffer := mf.grown expandSize 8 } := by
      rw [OutputStream.prepared, hrun.1]
      rfl
    rw [if_pos hrun, bind_ok (check_pos (by omega) _ _), if_pos hrunning, hprepared, addEvent]
    simp only [shortMessageToOctets_eq, bind_assoc, pure_bind, Nat.add_sub_cancel]
    simp only [WriteCall.message, shortOctets, List.tail_cons, length_shortOctets]
  · have hrunning : (WriteCall.shortEvent beats msg (n + 1)).running mf = false := by
      simpa [WriteCall.running] using hrun
    rw [if_neg hrun, modify_bind, hrunning, addEvent]
    simp only [shortMessageToOctets_eq, bind_assoc, pure_bind]
    simp only [WriteCall.message, length_shortOctets, Bool.false_eq_true, if_false]
    rfl

variable {start : ℕ}

theorem getElem_drop_headD {n : ℕ} (h : start < data.length) (hn : 0 < n) :
    ((data.drop start).take n).headD 0 = data[start] := by
  obtain ⟨k, rfl⟩ : ∃ k, n = k + 1 := ⟨n - 1, by omega⟩
  rw [List.drop_eq_getElem_cons h, List.take_succ_cons, List.headD_cons]

def writeEventData (expandSize : ℕ) (beats : ℚ≥0) (data : List Octet) (start : ℕ)
    (finish : Option ℕ) : Output ℕ := do
  ensureBufferSpace expandSize (4 + eventLength data start finish)
  let j ← copyOctets data (eventLength data start finish) start (← writeEventTime beats)
  modify fun mf => { mf with bufferIndex := j }
  return j

variable {finish : Option ℕ}

theorem event_bounds (hbounds : (WriteCall.event beats data start finish).InBounds)
    (hlen : 0 < (WriteCall.event beats data start finish).message.length) :
    ∃ hstart : start < data.length, 0 < eventLength data start finish ∧
      (WriteCall.event beats data start finish).status = data[start] := by
  obtain ⟨hle, hfinish⟩ := hbounds
  have hmessage : (WriteCall.event beats data start finish).message =
    (data.drop start).take (finish.getD data.length - start) := rfl
  have hpos : 0 < finish.getD data.length - start := by
    rw [hmessage, List.length_take] at hlen
    omega
  have hstart : start < data.length := by omega
  refine ⟨hstart, ?_, ?_⟩
  · cases finish with
    | none => exact Nat.lt_of_le_of_lt (Nat.zero_le start) hstart
    | some k => exact hpos
  · rw [WriteCall.status, hmessage, getElem_drop_headD hstart hpos]

section

variable (hopen : mf.openP = true) (hbounds : (WriteCall.event beats data start finish).InBounds)
  (hlen : 0 < (WriteCall.event beats data start finish).message.length)
include hopen hbounds hlen

theorem writeEvent_apply :
    writeEvent expandSize beats data start finish mf =
      writeEventData expandSize beats data start finish
        { mf with lastStatus := (WriteCall.event beats data start finish).status } := by
  obtain ⟨hstart, hcount, hstatus⟩ := event_bounds hbounds hlen
  have hcheck : ∀ k ∈ finish, start ≤ k := by
    rintro k hk
    rw [Option.mem_def] at hk
    simpa [hk] using hbounds.1
  rw [writeEvent, get_bind, bind_ok (check_pos hopen _ mf), bind_ok (check_pos hcheck _ mf),
    octetAt_of_lt hstart, pure_bind, modify_bind, hstatus]
  exact congrFun (if_pos hcount) _

theorem writeEvent_eq (hend : (WriteCall.event beats data start finish).HasEnd) :
    writeEvent expandSize beats data start finish mf =
      addEvent beats (WriteCall.event beats data start finish).message
        (mf.prepared expandSize (.event beats data start finish)) := by
  have hle := hbounds.1
  have hfinish := hbounds.2
  have hcount : eventLength data start finish = finish.getD data.length - start := by
    cases finish with
    | none =>
      rw [hend rfl]
      rfl
    | some k => rfl
  have hmessage : (data.drop start).take (eventLength data start finish) =
      (WriteCall.event beats data start finish).message := by
    rw [hcount]
    rfl
  have hsize : eventLength data start finish =
      (WriteCall.event beats data start finish).message.length := by
    rw [← hmessage, List.length_take, List.length_drop]
    omega
  have hcopy (j : ℕ) : copyOctets data (eventLength data start finish) start j =
      (do
        storeAll (WriteCall.event beats data start finish).message j
        pure (j + (WriteCall.event beats data start finish).message.length)) := by
    rw [copyOctets_eq (by omega), hmessage, hsize]
  rw [writeEvent_apply hopen hbounds hlen, writeEventData,
    bind_ok (ensureBufferSpace_apply _ _ _), addEvent]
  simp only [hcopy, bind_assoc, pure_bind]
  rw [hsize]
  rfl

theorem writeEvent_ne_ok {j : ℕ} (hend : ¬ (WriteCall.event beats data start finish).HasEnd) :
    writeEvent expandSize beats data start finish mf ≠ .ok j mf' := by
  simp only [WriteCall.HasEnd, Classical.not_imp] at hend
  obtain ⟨rfl, hstart⟩ := hend
  have hle : start ≤ data.length := hbounds.1
  intro hok
  rw [writeEvent_apply hopen hbounds hlen, writeEventData,
    bind_ok (ensureBufferSpace_apply _ _ _)] at hok
  obtain ⟨first, s, -, hok⟩ := bind_eq_ok.mp hok
  obtain ⟨k, s', hcopy, -⟩ := bind_eq_ok.mp hok
  exact copyOctets_ne_ok (by simp only [eventLength]; omega) hle s s' hcopy

end

theorem WriteCall.run_eq_ok {j : ℕ} {c : WriteCall} (hopen : mf.openP = true)
    (hindex : mf.bufferIndex ≤ mf.buffer.length) (hbounds : c.InBounds)
    (hlen : 2 ≤ c.message.length) :
    c.run expandSize mf = .ok j mf' ↔
      mf.Fits expandSize c ∧ mf' = mf.after expandSize c ∧ j = mf'.bufferIndex := by
  have hprepared : (mf.prepared expandSize c).bufferIndex ≤
      (mf.prepared expandSize c).buffer.length :=
    OutputStream.le_length_grown hindex expandSize c.eventSize
  have hadd (message : List Octet)
      (hmessage : c.octets mf = encode (mf.deltaTime c.beats) ++ message) (hend : c.HasEnd) :
      addEvent c.beats message (mf.prepared expandSize c) = .ok j mf' ↔
        mf.Fits expandSize c ∧ mf' = mf.after expandSize c ∧ j = mf'.bufferIndex := by
    have hdelta : (mf.prepared expandSize c).deltaTime c.beats = mf.deltaTime c.beats := rfl
    rw [addEvent_eq_ok hprepared, hdelta, ← hmessage]
    constructor
    · rintro ⟨htime, hroom, rfl, rfl⟩
      exact ⟨⟨hend, htime, hroom⟩, rfl, rfl⟩
    · rintro ⟨⟨-, htime, hroom⟩, rfl, rfl⟩
      exact ⟨htime, hroom, rfl, rfl⟩
  cases c with
  | shortEvent beats msg size =>
    have hsize : 2 ≤ size := by simpa [WriteCall.message, length_shortOctets] using hlen
    rw [WriteCall.run, writeShortEvent_eq hopen ⟨hsize, hbounds.2⟩]
    exact hadd _ rfl trivial
  | event beats data start finish =>
    by_cases hend : (WriteCall.event beats data start finish).HasEnd
    · rw [WriteCall.run, writeEvent_eq hopen hbounds (by omega) hend]
      exact hadd _ rfl hend
    · constructor
      · intro hok
        exact absurd hok (writeEvent_ne_ok hopen hbounds (by omega) hend)
      · rintro ⟨hfits, -, -⟩
        exact absurd hfits.hasEnd hend

end Incudine.Midifile

import Incudine.MidifileWriter

/-!
# Errors of `write-event`

The status and the time of the track change before the octets are copied, therefore an error
during the copy leaves them changed. The copy fails if the message is longer than the room after
one expansion of the buffer, or if the arguments go past the end of the data.
-/

namespace Incudine.Midifile

open Octets Signals

def OutputStream.StoredFrom (mf mf' : OutputStream) (i : ℕ) : Prop :=
  ∃ buffer, mf' = { mf with buffer := buffer } ∧ buffer.length = mf.buffer.length ∧
    buffer.take i = mf.buffer.take i

def OutputStream.Appended (mf mf' : OutputStream) (beats : ℚ≥0) (message : List Octet) : Prop :=
  mf'.buffer.take mf'.bufferIndex =
      mf.buffer.take mf.bufferIndex ++ (encode (mf.deltaTime beats) ++ message) ∧
    mf'.bufferIndex = mf.bufferIndex + (encode (mf.deltaTime beats) ++ message).length

structure OutputStream.Unchanged (mf mf' : OutputStream) : Prop where
  trackTime : mf'.trackTime = mf.trackTime
  lastStatus : mf'.lastStatus = mf.lastStatus
  bufferIndex : mf'.bufferIndex = mf.bufferIndex
  octets : mf'.buffer.take mf.bufferIndex = mf.buffer.take mf.bufferIndex

/-- The octets of the data between `start` and `finish`, or the end. -/
def boundedOctets (data : List Octet) (start : ℕ) (finish : Option ℕ) : List Octet :=
  (data.drop start).take (finish.getD data.length - start)

def StoresOrLeaves (expandSize : ℕ) (mf : OutputStream) (beats : ℚ≥0) (data : List Octet)
    (start : ℕ) (finish : Option ℕ) : Prop :=
  (∃ j mf', writeEvent expandSize beats data start finish mf = .ok j mf' ∧
    mf.Appended mf' beats (boundedOctets data start finish)) ∨
  ∃ e mf', writeEvent expandSize beats data start finish mf = .error e mf' ∧ mf.Unchanged mf'

/-- The call signals an error before it changes the stream. -/
def OutputStream.RefusedAtOnce (mf : OutputStream) (data : List Octet) (start : ℕ)
    (finish : Option ℕ) : Prop :=
  mf.openP = false ∨ (∃ k ∈ finish, k < start) ∨ data.length ≤ start

/-- The time fits and there is room for the delta time and for the octets, which are in the
data. -/
structure OutputStream.Storable (expandSize : ℕ) (mf : OutputStream) (beats : ℚ≥0)
    (data : List Octet) (start len : ℕ) : Prop where
  time : mf.trackTime + mf.deltaTime beats < fixnumBound
  bounds : start + len ≤ data.length
  room : mf.bufferIndex + (encode (mf.deltaTime beats)).length + len ≤
    (mf.grown expandSize (4 + len)).length

section Copy

variable {mf mf' : OutputStream} {octets data : List Octet} {i j n : ℕ} {e : Error} {u : PUnit}

theorem OutputStream.StoredFrom.refl (mf : OutputStream) (i : ℕ) : mf.StoredFrom mf i :=
  ⟨mf.buffer, rfl, rfl, rfl⟩

theorem OutputStream.StoredFrom.trans {mf'' : OutputStream} (h : mf.StoredFrom mf' i)
    (h' : mf'.StoredFrom mf'' i) : mf.StoredFrom mf'' i := by
  obtain ⟨buffer, rfl, hlength, htake⟩ := h
  obtain ⟨buffer', rfl, hlength', htake'⟩ := h'
  exact ⟨buffer', rfl, hlength'.trans hlength, htake'.trans htake⟩

theorem OutputStream.StoredFrom.mono (h : mf.StoredFrom mf' j) (hij : i ≤ j) :
    mf.StoredFrom mf' i := by
  obtain ⟨buffer, rfl, hlength, htake⟩ := h
  refine ⟨buffer, rfl, hlength, ?_⟩
  have htake' := congrArg (List.take i) htake
  rwa [List.take_take, List.take_take, Nat.min_eq_left hij] at htake'

theorem storedFrom_set (mf : OutputStream) (i : ℕ) (octet : Octet) :
    mf.StoredFrom { mf with buffer := mf.buffer.set i octet } i :=
  ⟨_, rfl, List.length_set, by rw [List.take_set_of_le (le_refl i)]⟩

theorem setOctet_error {octet : Octet} (h : setOctet i octet mf = .error e mf') : mf' = mf := by
  rw [setOctet, get_bind] at h
  by_cases hi : i < mf.buffer.length
  · rw [bind_ok (check_pos hi _ mf)] at h
    cases h
  · rw [bind_error (check_neg hi _ mf), EStateM.Result.error.injEq] at h
    exact h.2.symm

theorem bind_eq_error {α β : Type} {x : Output α} {f : α → Output β} {mf' : OutputStream} :
    (x >>= f) mf = .error e mf' ↔
      x mf = .error e mf' ∨ ∃ a s, x mf = .ok a s ∧ f a s = .error e mf' := by
  cases hx : x mf with
  | ok a s =>
    rw [bind_ok hx]
    simp
  | error e' s =>
    rw [bind_error hx]
    simp

theorem storeAll_error (h : storeAll octets i mf = .error e mf') : mf.StoredFrom mf' i := by
  induction octets generalizing i mf with
  | nil => cases h
  | cons octet octets ih =>
    rw [storeAll] at h
    rcases bind_eq_error.mp h with hset | ⟨_, s, hset, hrest⟩
    · rw [setOctet_error hset]
      exact .refl _ i
    · obtain ⟨-, rfl⟩ := setOctet_eq_ok.mp hset
      exact (storedFrom_set _ i octet).trans ((ih hrest).mono (Nat.le_succ i))

theorem copyOctets_error (h : copyOctets data n i j mf = .error e mf') : mf.StoredFrom mf' j := by
  induction n generalizing i j mf with
  | zero => cases h
  | succ n ih =>
    rw [copyOctets] at h
    rcases bind_eq_error.mp h with hoctet | ⟨octet, s, hoctet, hrest⟩
    · rw [octetAt] at hoctet
      cases hi : data[i]? with
      | none =>
        rw [hi] at hoctet
        cases hoctet
        exact .refl _ j
      | some octet =>
        rw [hi] at hoctet
        cases hoctet
    · have hs : s = mf := by
        rw [octetAt] at hoctet
        cases hi : data[i]? with
        | none =>
          rw [hi] at hoctet
          cases hoctet
        | some octet' =>
          rw [hi] at hoctet
          cases hoctet
          rfl
      rw [hs] at hrest
      rcases bind_eq_error.mp hrest with hset | ⟨_, s', hset, hcopy⟩
      · rw [setOctet_error hset]
        exact .refl _ j
      · obtain ⟨-, rfl⟩ := setOctet_eq_ok.mp hset
        exact (storedFrom_set _ j octet).trans ((ih hcopy).mono (Nat.le_succ j))

theorem copyOctets_eq_ok {k : ℕ} (hj : j ≤ mf.buffer.length) (hi : i ≤ data.length) :
    copyOctets data n i j mf = .ok k mf' ↔ i + n ≤ data.length ∧ j + n ≤ mf.buffer.length ∧
      k = j + n ∧ mf' = { mf with buffer := splice mf.buffer j ((data.drop i).take n) } := by
  by_cases hdata : i + n ≤ data.length
  · have hlength : ((data.drop i).take n).length = n := by
      rw [List.length_take, List.length_drop]
      omega
    rw [copyOctets_eq hdata, bind_eq_ok]
    constructor
    · rintro ⟨_, s, hstore, hpure⟩
      obtain ⟨hroom, rfl⟩ := (storeAll_eq_ok hj).mp hstore
      rw [pure_apply, EStateM.Result.ok.injEq] at hpure
      exact ⟨hdata, hlength ▸ hroom, hpure.1.symm, hpure.2.symm⟩
    · rintro ⟨-, hroom, rfl, rfl⟩
      exact ⟨⟨⟩, _, (storeAll_eq_ok hj).mpr ⟨hlength.symm ▸ hroom, rfl⟩, rfl⟩
  · exact ⟨fun h => absurd h (copyOctets_ne_ok (by omega) hi mf mf'), fun h => absurd h.1 hdata⟩

theorem writeEventTime_error {beats : ℚ≥0} (h : writeEventTime beats mf = .error e mf') :
    fixnumBound ≤ mf.trackTime + mf.deltaTime beats ∧ mf' = mf ∨
      mf.trackTime + mf.deltaTime beats < fixnumBound ∧
        OutputStream.StoredFrom { mf with trackTime := mf.trackTime + mf.deltaTime beats } mf'
          mf.bufferIndex := by
  have hdelta : (round (beats * mf.ppqn) - mf.trackTime).toNat = mf.deltaTime beats := rfl
  rw [writeEventTime, get_bind, hdelta] at h
  by_cases htime : mf.trackTime + mf.deltaTime beats < fixnumBound
  · have hfixnum : mf.deltaTime beats < fixnumBound := by omega
    rw [bind_ok (check_pos hfixnum _ mf), bind_ok (check_pos htime _ mf), modify_bind,
      writeDeltaTime_eq] at h
    rcases bind_eq_error.mp h with h | ⟨_, s, -, h⟩
    · exact .inr ⟨htime, storeAll_error h⟩
    · cases h
  · refine .inl ⟨Nat.le_of_not_lt htime, ?_⟩
    by_cases hfixnum : mf.deltaTime beats < fixnumBound
    · rw [bind_ok (check_pos hfixnum _ mf), bind_error (check_neg htime _ mf)] at h
      cases h
      rfl
    · rw [bind_error (check_neg hfixnum _ mf)] at h
      cases h
      rfl

end Copy

section WriteEvent

variable {expandSize : ℕ} {mf : OutputStream} {beats : ℚ≥0} {data : List Octet} {start : ℕ}
  {finish : Option ℕ}

theorem writeEvent_refused (h : mf.RefusedAtOnce data start finish) (expandSize : ℕ) (beats : ℚ≥0) :
    ∃ e, writeEvent expandSize beats data start finish mf = .error e mf := by
  rw [writeEvent, get_bind]
  by_cases hopen : mf.openP = true
  · rw [bind_ok (check_pos hopen _ mf)]
    by_cases hfinish : ∀ k ∈ finish, start ≤ k
    · have hstart : data.length ≤ start := by
        rcases h with h | ⟨k, hk, hlt⟩ | h
        · rw [hopen] at h
          cases h
        · exact absurd (hfinish k hk) (by omega)
        · exact h
      rw [bind_ok (check_pos hfinish _ mf), octetAt, List.getElem?_eq_none hstart]
      exact ⟨_, rfl⟩
    · exact ⟨_, bind_error (check_neg hfinish _ mf) _⟩
  · exact ⟨_, bind_error (check_neg hopen _ mf) _⟩

theorem writeEvent_of_not_refused (h : ¬ mf.RefusedAtOnce data start finish) (expandSize : ℕ)
    (beats : ℚ≥0) :
    ∃ hstart : start < data.length, (∀ k ∈ finish, start ≤ k) ∧
      writeEvent expandSize beats data start finish mf =
        if 0 < eventLength data start finish then
          writeEventData expandSize beats data start finish { mf with lastStatus := data[start] }
        else .ok mf.bufferIndex { mf with lastStatus := data[start] } := by
  rw [OutputStream.RefusedAtOnce, not_or, not_or, Bool.not_eq_false, not_exists, Nat.not_le] at h
  obtain ⟨hopen, hfinish, hstart⟩ := h
  have hcheck : ∀ k ∈ finish, start ≤ k := fun k hk =>
    Nat.le_of_not_lt fun hlt => hfinish k ⟨hk, hlt⟩
  refine ⟨hstart, hcheck, ?_⟩
  rw [writeEvent, get_bind, bind_ok (check_pos hopen _ mf), bind_ok (check_pos hcheck _ mf),
    octetAt_of_lt hstart, pure_bind, modify_bind]
  split
  · rfl
  · rfl

theorem boundedOctets_eq (hfinish : ∀ k ∈ finish, start ≤ k)
    (h : start + eventLength data start finish ≤ data.length) :
    (data.drop start).take (eventLength data start finish) = boundedOctets data start finish := by
  cases finish with
  | none =>
    have hle : start + data.length ≤ data.length := h
    obtain rfl : start = 0 := by omega
    rfl
  | some k => rfl

theorem writeEventData_spec (hindex : mf.bufferIndex ≤ mf.buffer.length)
    (hstart : start ≤ data.length) (hfinish : ∀ k ∈ finish, start ≤ k) (status : Octet) :
    (mf.Storable expandSize beats data start (eventLength data start finish) ∧
      ∃ j mf', writeEventData expandSize beats data start finish
          { mf with lastStatus := status } = .ok j mf' ∧
        mf.Appended mf' beats (boundedOctets data start finish)) ∨
    (¬ mf.Storable expandSize beats data start (eventLength data start finish) ∧
      ∃ e mf', writeEventData expandSize beats data start finish
          { mf with lastStatus := status } = .error e mf' ∧
        mf'.lastStatus = status ∧ mf'.bufferIndex = mf.bufferIndex ∧
        mf'.trackTime = (if mf.trackTime + mf.deltaTime beats < fixnumBound then
          mf.trackTime + mf.deltaTime beats else mf.trackTime) ∧
        mf'.buffer.take mf.bufferIndex = mf.buffer.take mf.bufferIndex) := by
  set len := eventLength data start finish with hlen
  set mf₁ : OutputStream := { mf with
    lastStatus := status
    buffer := mf.grown expandSize (4 + len) } with hmf₁
  have hensure : ensureBufferSpace expandSize (4 + len) { mf with lastStatus := status } =
      .ok ⟨⟩ mf₁ := ensureBufferSpace_apply _ _ _
  have hgrown : (mf.grown expandSize (4 + len)).take mf.bufferIndex =
      mf.buffer.take mf.bufferIndex := by
    rw [OutputStream.grown]
    split
    · exact List.take_append_of_le_length hindex
    · rfl
  have hindex₁ : mf₁.bufferIndex ≤ mf₁.buffer.length :=
    OutputStream.le_length_grown hindex expandSize (4 + len)
  have hdelta : mf₁.deltaTime beats = mf.deltaTime beats := rfl
  rw [writeEventData, bind_ok hensure]
  cases htime : writeEventTime beats mf₁ with
  | error e s =>
    refine .inr ⟨?_, e, s, bind_error htime _, ?_⟩
    · rintro ⟨hfixnum, -, hroom⟩
      have hroom₁ : mf₁.bufferIndex + (encode (mf₁.deltaTime beats)).length ≤
          mf₁.buffer.length := by
        rw [hdelta]
        exact (Nat.le_add_right _ len).trans hroom
      rw [(writeEventTime_eq_ok hindex₁).mpr ⟨hfixnum, hroom₁, rfl, rfl⟩] at htime
      cases htime
    · rcases writeEventTime_error htime with ⟨hle, rfl⟩ | ⟨hlt, buffer, rfl, -, htake⟩
      · have hnot : ¬ mf.trackTime + mf.deltaTime beats < fixnumBound := Nat.not_lt.mpr hle
        rw [if_neg hnot]
        exact ⟨rfl, rfl, rfl, hgrown⟩
      · have hpos : mf.trackTime + mf.deltaTime beats < fixnumBound := hlt
        rw [if_pos hpos]
        exact ⟨rfl, rfl, rfl, htake.trans hgrown⟩
  | ok first s =>
    obtain ⟨hfixnum, hroom, rfl, rfl⟩ := (writeEventTime_eq_ok hindex₁).mp htime
    rw [bind_ok htime]
    set mf₂ : OutputStream := { mf₁ with
      trackTime := mf₁.trackTime + mf₁.deltaTime beats
      buffer := splice mf₁.buffer mf₁.bufferIndex (encode (mf₁.deltaTime beats)) } with hmf₂
    have hlength₂ : mf₂.buffer.length = mf₁.buffer.length := length_splice hroom
    have htake₂ : mf₂.buffer.take (mf.bufferIndex + (encode (mf.deltaTime beats)).length) =
        mf.buffer.take mf.bufferIndex ++ encode (mf.deltaTime beats) := by
      refine (take_splice hindex₁ _).trans ?_
      exact congrArg (· ++ _) hgrown
    have hstore : mf₁.bufferIndex + (encode (mf₁.deltaTime beats)).length ≤ mf₂.buffer.length := by
      rw [hlength₂]
      exact hroom
    cases hcopy : copyOctets data len start
        (mf₁.bufferIndex + (encode (mf₁.deltaTime beats)).length) mf₂ with
    | error e s =>
      refine .inr ⟨?_, e, s, bind_error hcopy _, ?_⟩
      · rintro ⟨-, hbounds, hroom₂⟩
        have hroom₃ : mf₁.bufferIndex + (encode (mf₁.deltaTime beats)).length + len ≤
            mf₂.buffer.length := by
          rw [hlength₂, hdelta]
          exact hroom₂
        rw [(copyOctets_eq_ok hstore hstart).mpr ⟨hbounds, hroom₃, rfl, rfl⟩] at hcopy
        cases hcopy
      · obtain ⟨buffer, rfl, -, htake⟩ :=
          (copyOctets_error hcopy).mono (Nat.le_add_right mf₁.bufferIndex _)
        have hpos : mf.trackTime + mf.deltaTime beats < fixnumBound := hfixnum
        rw [if_pos hpos]
        refine ⟨rfl, rfl, rfl, htake.trans ?_⟩
        exact (take_start_splice hindex₁ _).trans hgrown
    | ok j s =>
      obtain ⟨hbounds, hroom₂, rfl, rfl⟩ := (copyOctets_eq_ok hstore hstart).mp hcopy
      rw [bind_ok hcopy]
      have hmessage := boundedOctets_eq hfinish hbounds
      have hsize : (boundedOctets data start finish).length = len := by
        rw [← hmessage, List.length_take, List.length_drop]
        omega
      refine .inl ⟨⟨hfixnum, hbounds, ?_⟩, _, _, rfl, ?_, ?_⟩
      · rw [hlength₂, hdelta] at hroom₂
        exact hroom₂
      · have hstore' : mf.bufferIndex + (encode (mf.deltaTime beats)).length ≤
            mf₂.buffer.length := hstore
        change (splice mf₂.buffer (mf.bufferIndex + (encode (mf.deltaTime beats)).length)
          ((data.drop start).take len)).take
            (mf.bufferIndex + (encode (mf.deltaTime beats)).length + len) = _
        rw [hmessage, ← hsize, take_splice hstore', htake₂, List.append_assoc]
      · change mf.bufferIndex + (encode (mf.deltaTime beats)).length + len = _
        rw [List.length_append, hsize, Nat.add_assoc]

theorem writeEvent_storesOrLeaves (hindex : mf.bufferIndex ≤ mf.buffer.length) :
    StoresOrLeaves expandSize mf beats data start finish ↔
      mf.RefusedAtOnce data start finish ∨
      0 < eventLength data start finish ∧
        (mf.Storable expandSize beats data start (eventLength data start finish) ∨
          data[start]? = some mf.lastStatus ∧
            (fixnumBound ≤ mf.trackTime + mf.deltaTime beats ∨ mf.deltaTime beats = 0)) := by
  by_cases hrefused : mf.RefusedAtOnce data start finish
  · obtain ⟨e, herror⟩ := writeEvent_refused hrefused expandSize beats
    exact iff_of_true (.inr ⟨e, mf, herror, rfl, rfl, rfl, rfl⟩) (.inl hrefused)
  obtain ⟨hstart, hfinish, heq⟩ := writeEvent_of_not_refused hrefused expandSize beats
  rw [StoresOrLeaves, heq]
  by_cases hlen : 0 < eventLength data start finish
  swap
  · rw [if_neg hlen]
    refine iff_of_false ?_ (by tauto)
    rintro (⟨j, mf', hok, -, hindex'⟩ | ⟨e, mf', herror, -⟩)
    · rw [EStateM.Result.ok.injEq] at hok
      obtain ⟨-, rfl⟩ := hok
      have hpos := (delimited_encode (mf.deltaTime beats)).length_pos
      rw [List.length_append] at hindex'
      change mf.bufferIndex = _ at hindex'
      omega
    · cases herror
  rw [if_pos hlen]
  have hget : data[start]? = some data[start] := List.getElem?_eq_getElem hstart
  rcases writeEventData_spec hindex hstart.le hfinish data[start] with
    ⟨hstorable, j, mf', hok, happended⟩ |
      ⟨hnot, e, mf', herror, hstatus, hindex', htime, htake⟩
  · exact iff_of_true (.inl ⟨j, mf', hok, happended⟩) (.inr ⟨hlen, .inl hstorable⟩)
  · rw [herror, hget]
    constructor
    · rintro (⟨j, s, hok, -⟩ | ⟨e', s, herror', hunchanged⟩)
      · cases hok
      · rw [EStateM.Result.error.injEq] at herror'
        obtain ⟨rfl, rfl⟩ := herror'
        refine .inr ⟨hlen, .inr ⟨?_, ?_⟩⟩
        · rw [← hstatus, hunchanged.lastStatus]
        · rw [hunchanged.trackTime] at htime
          split_ifs at htime with hfixnum
          · exact .inr (by omega)
          · exact .inl (Nat.le_of_not_lt hfixnum)
    · rintro (hrefused' | ⟨-, hstorable | ⟨hlast, hzero⟩⟩)
      · exact absurd hrefused' hrefused
      · exact absurd hstorable hnot
      · refine .inr ⟨e, mf', rfl, ?_, ?_, hindex', htake⟩
        · rw [htime]
          split_ifs with hfixnum
          · rcases hzero with hle | hzero
            · omega
            · rw [hzero, Nat.add_zero]
          · rfl
        · rw [hstatus]
          exact Option.some.inj hlast

end WriteEvent

section Reached

/-- The index of the buffer is in its bounds after the call if it was before. -/
def KeepsIndex (mf mf' : OutputStream) : Prop :=
  mf.bufferIndex ≤ mf.buffer.length → mf'.bufferIndex ≤ mf'.buffer.length

instance : IsPreorder OutputStream KeepsIndex where
  refl _ := id
  trans _ _ _ h h' := h' ∘ h

theorem OutputStream.StoredFrom.index {mf mf' : OutputStream} {i : ℕ} (h : mf.StoredFrom mf' i)
    (hindex : mf.bufferIndex ≤ mf.buffer.length) : mf'.bufferIndex ≤ mf'.buffer.length := by
  obtain ⟨buffer, rfl, hlength, -⟩ := h
  exact hindex.trans hlength.ge

theorem keepsIndex_ensureBufferSpace (expandSize eventSize : ℕ) :
    Respects KeepsIndex (ensureBufferSpace expandSize eventSize) := by
  intro mf hindex
  rw [after_ok (ensureBufferSpace_apply expandSize eventSize mf)]
  exact OutputStream.le_length_grown hindex expandSize eventSize

theorem keepsIndex_shortMessage (beats : ℚ≥0) (value n : ℕ) :
    Respects KeepsIndex (do
      let start ← writeEventTime beats
      let j ← shortMessageToOctets value n start
      modify fun mf => { mf with bufferIndex := j }
      return j : Output ℕ) := by
  intro mf hindex
  cases htime : writeEventTime beats mf with
  | error e s =>
    rw [after_bind_error htime]
    rcases writeEventTime_error htime with ⟨-, rfl⟩ | ⟨-, hstored⟩
    · exact hindex
    · exact hstored.index hindex
  | ok start s =>
    obtain ⟨-, hroom, rfl, rfl⟩ := (writeEventTime_eq_ok hindex).mp htime
    rw [after_bind_ok htime, shortMessageToOctets_eq, bind_assoc]
    have hlength := length_splice hroom
    cases hstore : storeAll (shortOctets value n)
        (mf.bufferIndex + (encode (mf.deltaTime beats)).length) _ with
    | error e s =>
      rw [after_bind_error hstore]
      exact (storeAll_error hstore).index (hindex.trans hlength.ge)
    | ok u s =>
      obtain ⟨hroom', rfl⟩ := (storeAll_eq_ok (hroom.trans hlength.ge)).mp hstore
      rw [after_bind_ok hstore, pure_bind]
      have hindex' := hroom'.trans (length_splice hroom').ge
      rw [length_shortOctets] at hindex'
      exact hindex'

theorem keepsIndex_writeShortEvent (expandSize : ℕ) (beats : ℚ≥0) (msg : UInt32) (size : ℕ) :
    Respects KeepsIndex (writeShortEvent expandSize beats msg size) := by
  refine .bind (respects_check _ _) fun _ => ?_
  refine .bind respects_get fun mf => ?_
  refine .bind (respects_check _ _) fun _ => ?_
  refine .bind (keepsIndex_ensureBufferSpace expandSize 8) fun _ => ?_
  refine .bind respects_get fun mf' => ?_
  split
  · refine .bind (respects_check _ _) fun _ => ?_
    exact keepsIndex_shortMessage beats _ _
  · refine .bind (respects_modify fun _ => id) fun _ => ?_
    exact keepsIndex_shortMessage beats _ _

theorem OutputStream.index_of_take {mf : OutputStream} {octets : List Octet} {i : ℕ}
    (h : mf.buffer.take i = octets) (hlength : octets.length = i) : i ≤ mf.buffer.length := by
  have hmin := congrArg List.length h
  rw [List.length_take, hlength] at hmin
  omega

theorem keepsIndex_writeEvent (expandSize : ℕ) (beats : ℚ≥0) (data : List Octet) (start : ℕ)
    (finish : Option ℕ) : Respects KeepsIndex (writeEvent expandSize beats data start finish) := by
  intro mf hindex
  have hbelow : (mf.buffer.take mf.bufferIndex).length = mf.bufferIndex := by
    rw [List.length_take, Nat.min_eq_left hindex]
  by_cases hrefused : mf.RefusedAtOnce data start finish
  · obtain ⟨e, herror⟩ := writeEvent_refused hrefused expandSize beats
    rw [after_error herror]
    exact hindex
  obtain ⟨hstart, hfinish, heq⟩ := writeEvent_of_not_refused hrefused expandSize beats
  by_cases hlen : 0 < eventLength data start finish
  · rw [if_pos hlen] at heq
    rcases writeEventData_spec hindex hstart.le hfinish data[start] with
      ⟨-, j, mf', hok, htake, hindex'⟩ | ⟨-, e, mf', herror, -, hindex', -, htake⟩
    · rw [after_ok (heq.trans hok)]
      refine OutputStream.index_of_take htake ?_
      rw [List.length_append, hbelow, hindex']
    · rw [after_error (heq.trans herror), hindex']
      exact OutputStream.index_of_take htake hbelow
  · rw [if_neg hlen] at heq
    rw [after_ok heq]
    exact hindex

inductive OutputCall
  | write (c : WriteCall)
  | endOfTrack (beats : ℚ≥0)
  | nextTrack
  | close
  deriving DecidableEq

def OutputCall.run (expandSize : ℕ) : OutputCall → Output PUnit
  | .write c => do
    let _ ← c.run expandSize
  | .endOfTrack beats => do
    let _ ← Midifile.endOfTrack expandSize beats
  | .nextTrack => do
    let _ ← nextOutputTrack expandSize
  | .close => closeOutput expandSize

/-- The streams after `open` and any sequence of calls, also of calls that signal an error. The
value of `*write-buffer-expand-size*` can change between two calls. -/
inductive OutputStream.Reached : OutputStream → Prop
  | opened {format : Option (Fin 3)} {ppqn bufferSize : ℕ} {pooled : Option (List Octet)}
      {u : PUnit} {mf : OutputStream} :
      openOutput format ppqn bufferSize pooled = .ok u mf → Reached mf
  | call {mf : OutputStream} (expandSize : ℕ) (c : OutputCall) :
      Reached mf → Reached (Signals.after (c.run expandSize) mf)

theorem keepsIndex_endOfTrack (expandSize : ℕ) (beats : ℚ≥0) :
    Respects KeepsIndex (endOfTrack expandSize beats) := by
  refine .bind respects_get fun mf => ?_
  split
  · exact respects_pure _
  · exact keepsIndex_writeShortEvent expandSize beats _ _

theorem keepsIndex_writeTrack (expandSize : ℕ) : Respects KeepsIndex (writeTrack expandSize) := by
  refine .bind (keepsIndex_endOfTrack expandSize 0) fun len => ?_
  refine .bind (respects_check _ _) fun _ => ?_
  refine .bind (respects_check _ _) fun _ => ?_
  exact respects_modify fun mf _ => Nat.zero_le mf.buffer.length

theorem keepsIndex_writeHeader : Respects KeepsIndex writeHeader := by
  refine .bind respects_get fun mf => ?_
  refine .bind (respects_check _ _) fun _ => ?_
  exact respects_modify fun _ => id

theorem keepsIndex_nextOutputTrack (expandSize : ℕ) :
    Respects KeepsIndex (nextOutputTrack expandSize) := by
  refine .bind respects_get fun mf => ?_
  split
  · refine .bind (keepsIndex_writeTrack expandSize) fun _ => ?_
    refine .bind (respects_modify fun _ => id) fun _ => ?_
    refine .bind respects_get fun _ => ?_
    exact respects_pure _
  · exact respects_pure _

theorem keepsIndex_closeOutput (expandSize : ℕ) :
    Respects KeepsIndex (closeOutput expandSize) := by
  refine .bind respects_get fun mf => ?_
  split
  · refine .bind (keepsIndex_writeTrack expandSize) fun _ => ?_
    refine .bind respects_get fun mf' => ?_
    split
    · refine .bind (respects_modify fun _ => id) fun _ => ?_
      refine .bind keepsIndex_writeHeader fun _ => ?_
      exact respects_modify fun _ => id
    · exact respects_modify fun _ => id
  · exact respects_pure _

theorem keepsIndex_run (expandSize : ℕ) (c : OutputCall) :
    Respects KeepsIndex (c.run expandSize) := by
  cases c with
  | write c =>
    cases c with
    | shortEvent beats msg size =>
      exact .bind (keepsIndex_writeShortEvent expandSize beats msg size)
        fun _ => respects_pure _
    | event beats data start finish =>
      exact .bind (keepsIndex_writeEvent expandSize beats data start finish)
        fun _ => respects_pure _
  | endOfTrack beats =>
    exact .bind (keepsIndex_endOfTrack expandSize beats)
      fun _ => respects_pure _
  | nextTrack =>
    exact .bind (keepsIndex_nextOutputTrack expandSize)
      fun _ => respects_pure _
  | close => exact keepsIndex_closeOutput expandSize

theorem OutputStream.Reached.index {mf : OutputStream} (h : mf.Reached) :
    mf.bufferIndex ≤ mf.buffer.length := by
  induction h with
  | @opened format ppqn bufferSize pooled u mf hopen =>
    have hkeeps := keepsIndex_writeHeader {
      fdStream := []
      openP := true
      format := (format.getD 0).val
      numberOfTracks := 1
      currentTrack := 0
      trackTime := 0
      ppqn := ppqn
      smpteFormat := 0
      ticksPerFrame := 0
      buffer := makeBuffer pooled (max 16 bufferSize)
      bufferIndex := 0
      lastStatus := 0 } (Nat.zero_le _)
    rwa [after_ok hopen] at hkeeps
  | call expandSize c _ ih => exact keepsIndex_run expandSize c _ ih

/-- In each state of a stream `write-event` stores the message or leaves the stream as it was if
and only if the call is refused at once, or the octets can be stored, or an error with the status
of the last event precedes any change of the time of the track. -/
theorem storesOrLeaves_iff {mf : OutputStream} (h : mf.Reached) {expandSize : ℕ} {beats : ℚ≥0}
    {data : List Octet} {start : ℕ} {finish : Option ℕ} :
    StoresOrLeaves expandSize mf beats data start finish ↔
      mf.RefusedAtOnce data start finish ∨
      0 < eventLength data start finish ∧
        (mf.Storable expandSize beats data start (eventLength data start finish) ∨
          data[start]? = some mf.lastStatus ∧
            (fixnumBound ≤ mf.trackTime + mf.deltaTime beats ∨ mf.deltaTime beats = 0)) :=
  writeEvent_storesOrLeaves h.index

/-- A stream without events, with the smallest buffer. -/
def emptyOutput : OutputStream where
  fdStream := headerChunk 0 1 480 0
  openP := true
  format := 0
  numberOfTracks := 1
  currentTrack := 0
  trackTime := 0
  ppqn := 480
  smpteFormat := 0
  ticksPerFrame := 0
  buffer := List.replicate 16 0
  bufferIndex := 0
  lastStatus := 0

theorem openOutput_emptyOutput : openOutput none 480 0 none = .ok ⟨⟩ emptyOutput := rfl

theorem reached_emptyOutput : emptyOutput.Reached := .opened openOutput_emptyOutput

theorem storesOrLeaves_noteOn :
    StoresOrLeaves 4000 emptyOutput 0 [0x90, 0x3c, 0x40] 0 none := by
  refine (storesOrLeaves_iff reached_emptyOutput).mpr (.inr ⟨by decide, .inl ⟨?_, by decide, ?_⟩⟩)
  · rw [OutputStream.deltaTime_zero]
    decide
  · rw [OutputStream.deltaTime_zero]
    decide

/-- An exclusive message longer than the buffer after an expansion changes the last status. -/
theorem not_storesOrLeaves :
    ¬ ∀ (expandSize : ℕ) (mf : OutputStream), mf.Reached →
      ∀ (beats : ℚ≥0) (data : List Octet) (start : ℕ) (finish : Option ℕ),
        StoresOrLeaves expandSize mf beats data start finish := by
  intro hall
  have h := hall 4 emptyOutput reached_emptyOutput 0 (List.replicate 32 0xf0) 0 none
  rw [writeEvent_storesOrLeaves reached_emptyOutput.index] at h
  rcases h with (h | ⟨k, hk, -⟩ | h) | ⟨-, h | ⟨h, -⟩⟩
  · cases h
  · cases hk
  · exact absurd h (by decide)
  · exact absurd h.room (by decide)
  · exact absurd h (by decide)

end Reached

end Incudine.Midifile

import Incudine.MidiReceiver

/-!
# Runs of a MIDI receiver

The records of the ring buffer follow each other through the calls of `jm_read` and the iterations,
while new ones are stored. The messages are delivered in order if no call meets a case that the
counters or the search of the end of a SysEx do not handle.
-/

namespace Incudine.JackMidi.Receiver

open ByteRing CircularArray Octets

/-- The records of the batch are in the buffer, except what is over its end, and the rest of the
buffer after the header of the next record is clear. -/
structure Filled (bufsize : UInt32) (s : State) (r : Reading) : Prop where
  count : r.count = s.batch.length
  b : r.b = paddedSize s.batch
  cells : s.buffer.Holds 0 ((s.batch.flatMap padded).take bufsize.toNat)
  clear : ∀ x : ℤ, r.b + 12 ≤ x → x < bufsize.toNat → s.buffer x = 0
  remain : r.b ≤ bufsize.toNat → r.remain.toNat = bufsize.toNat - r.b
  aligned : 4 ∣ bufsize.toNat → r.b ≤ bufsize.toNat
  first : s.taken = s.start → s.batch = []

/-- What holds at each point of the receiver. -/
def PhaseInvariant (bufsize : UInt32) (s : State) : Phase → Prop
  | .waiting => s.batch = []
  | .body r => Filled bufsize s r ∧ 12 < r.remain ∧ s.taken < s.written.length
  | .space r => Filled bufsize s r ∧ s.start < s.taken
  | .filled count => count = s.batch.length ∧
      s.buffer.Holds 0 ((s.batch.flatMap padded).take bufsize.toNat) ∧
      (4 ∣ bufsize.toNat → paddedSize s.batch ≤ bufsize.toNat) ∧
      (s.start < s.available → s.start < s.taken)

def fits (bufsize : UInt32) (e : Event) : Bool := e.size ≤ bufsize.toNat

/-- The ring buffer contains the records that are not taken, and the messages of the taken ones
that fit are delivered or in the buffer. The memory out of the buffer is `mem`. -/
structure Kept (bufsize : UInt32) (mem : Cells UInt8) (s : State) : Prop where
  rb : Holds ringbufferSize s.port.rb (records (s.written.drop s.taken))
  taken_le : s.taken ≤ s.written.length
  start_le : s.start ≤ s.taken
  available_le : s.available ≤ s.written.length
  complete : ∀ e ∈ s.written, Complete e.data
  outside : ∀ x : ℤ, x < 0 ∨ bufsize.toNat ≤ x → s.buffer x = mem x
  batch : ∀ e ∈ s.batch, Complete e.data
  delivered : s.delivered ++ s.batch.map delivery =
    ((s.written.take s.taken).filter (fits bufsize)).map delivery

structure Invariant (bufsize : UInt32) (mem : Cells UInt8) (s : State) : Prop
    extends Kept bufsize mem s where
  phase : PhaseInvariant bufsize s s.phase

section Invariant

variable {bufsize : UInt32} {mem : Cells UInt8} {s s' : State} {r : Reading} {e : Event}

theorem step_event {cycleStartTime : ℕ} {e : Event}
    (hstep : step bufsize s (.event cycleStartTime e) = some s') :
    s' = { s with
      port := s.port.storeEvent false cycleStartTime 0 (e.time - cycleStartTime, e.data)
      written := s.written ++ if e.size ≤ s.port.rb.writeSpace.toNat then [e] else [] } ∧
      cycleStartTime ≤ e.time := by
  by_cases h : cycleStartTime ≤ e.time ∧ s.port.portBuffer
  · rw [step, if_pos h] at hstep
    exact ⟨(Option.some.inj hstep).symm, h.1⟩
  · rw [step, if_neg h] at hstep
    cases hstep

theorem Filled.congr (h : Filled bufsize s r) (hbatch : s'.batch = s.batch)
    (hbuffer : s'.buffer = s.buffer) (htaken : s'.taken = s.taken) (hstart : s'.start = s.start) :
    Filled bufsize s' r where
  count := by rw [hbatch]; exact h.count
  b := by rw [hbatch]; exact h.b
  cells := by rw [hbatch, hbuffer]; exact h.cells
  clear := by rw [hbuffer]; exact h.clear
  remain := h.remain
  aligned := h.aligned
  first := by rw [htaken, hstart, hbatch]; exact h.first

theorem Invariant.event (h : Invariant bufsize mem s) {cycleStartTime : ℕ} {e : Event}
    (hcomplete : Complete e.data)
    (hstep : step bufsize s (.event cycleStartTime e) = some s') : Invariant bufsize mem s' := by
  obtain ⟨rfl, htime⟩ := step_event hstep
  have hrb := h.rb
  have hspace := hrb.writeSpace
  have hsize : e.data.length + headerSize = e.size := Nat.add_comm _ _
  by_cases hroom : e.size ≤ s.port.rb.writeSpace.toNat
  · simp only [if_pos hroom]
    have hbytes : (UInt32.ofNat e.size).toNat = e.size := by
      apply toNat_ofNat_of_lt
      rw [hspace] at hroom
      have hpos := size_pos e
      omega
    have hport : (s.port.storeEvent false cycleStartTime 0
        (e.time - cycleStartTime, e.data)).rb =
          (s.port.rb.write e.record (UInt32.ofNat e.size)).1 := by
      simp only [InputData.storeEvent, Bool.false_eq_true, if_false, hsize, if_pos hroom,
        Nat.add_sub_cancel' htime]
      rfl
    have hwrite := (@Holds.write _ _ _ _ hrb e.record (UInt32.ofNat e.size)
      (by rw [hbytes, e.length_record])).1
    rw [List.take_of_length_le (by rw [e.length_record]; omega)] at hwrite
    have hdrop : (s.written ++ [e]).drop s.taken = s.written.drop s.taken ++ [e] :=
      List.drop_append_of_le_length h.taken_le
    refine ⟨⟨?_, ?_, h.start_le, ?_, ?_, h.outside, h.batch, ?_⟩, ?_⟩
    · rw [hport, hdrop, records_append, records_singleton]
      exact hwrite
    · rw [List.length_append]
      exact h.taken_le.trans (Nat.le_add_right _ _)
    · rw [List.length_append]
      exact h.available_le.trans (Nat.le_add_right _ _)
    · intro e' he'
      rcases List.mem_append.mp he' with he' | he'
      · exact h.complete e' he'
      · rw [List.mem_singleton.mp he']
        exact hcomplete
    · rw [List.take_append_of_le_length h.taken_le]
      exact h.delivered
    · have hphase := h.phase
      show PhaseInvariant bufsize _ s.phase
      cases hs : s.phase with
      | waiting | filled =>
        rw [hs] at hphase
        exact hphase
      | space r =>
        rw [hs] at hphase
        exact ⟨hphase.1.congr rfl rfl rfl rfl, hphase.2⟩
      | body r =>
        rw [hs] at hphase
        obtain ⟨hfilled, hremain, hlt⟩ := hphase
        refine ⟨hfilled.congr rfl rfl rfl rfl, hremain, ?_⟩
        rw [List.length_append]
        exact hlt.trans_le (Nat.le_add_right _ _)
  · have hport : s.port.storeEvent false cycleStartTime 0
        (e.time - cycleStartTime, e.data) = s.port := by
      simp only [InputData.storeEvent, Bool.false_eq_true, if_false, hsize, if_neg hroom]
    simp only [if_neg hroom, hport, List.append_nil]
    exact h

theorem Kept.readSpace (h : Kept bufsize mem s) :
    0 < s.port.rb.readSpace ↔ s.taken < s.written.length := by
  have hspace := h.rb.readSpace
  rw [UInt32.lt_iff_toNat_lt, hspace, length_records]
  constructor
  · intro hpos
    by_contra hle
    rw [List.drop_eq_nil_of_le (Nat.le_of_not_lt hle)] at hpos
    exact absurd hpos (Nat.lt_irrefl 0)
  · intro hlt
    rw [List.drop_eq_getElem_cons hlt, totalSize_cons]
    exact Nat.add_pos_left (size_pos _) _

theorem Kept.test (h : Kept bufsize mem s) (hfilled : Filled bufsize s r)
    (hspace : 0 < r.n → s.taken < s.written.length)
    (hprogress : s.start < s.available → s.start < s.taken ∨ 0 < r.n ∧ 12 < r.remain) :
    Invariant bufsize mem (s.test r) := by
  by_cases htest : 0 < r.n ∧ 12 < r.remain
  · rw [State.test, if_pos htest]
    exact ⟨⟨h.rb, h.taken_le, h.start_le, h.available_le, h.complete, h.outside, h.batch,
      h.delivered⟩, hfilled.congr rfl rfl rfl rfl, htest.2, hspace htest.1⟩
  · rw [State.test, if_neg htest]
    refine ⟨⟨h.rb, h.taken_le, h.start_le, h.available_le, h.complete, h.outside, h.batch,
      h.delivered⟩, hfilled.count, hfilled.cells, ?_, ?_⟩
    · rw [← hfilled.b]
      exact hfilled.aligned
    · intro hlt
      rcases hprogress hlt with hlt | htest'
      · exact hlt
      · exact absurd htest' htest

theorem Invariant.read (h : Invariant bufsize mem s)
    (hmeets : Meets bufsize s .read) (hstep : step bufsize s .read = some s') :
    Invariant bufsize mem s' := by
  rw [step] at hstep
  split at hstep
  case h_2 => cases hstep
  case h_1 hs =>
    have hbatch := h.phase
    rw [hs] at hbatch
    obtain rfl := Option.some.inj hstep
    have hdelivered := h.delivered
    by_cases hpending : 0 < s.port.rb.readSpace
    · simp only [if_pos hpending]
      have hlength : (List.replicate bufsize.toNat (0 : UInt8)).length = bufsize.toNat :=
        List.length_replicate
      have houtside : ∀ x : ℤ, x < 0 ∨ bufsize.toNat ≤ x →
          s.buffer.store 0 (List.replicate bufsize.toNat 0) x = mem x := by
        intro x hx
        rw [← h.outside x hx]
        rcases hx with hx | hx
        · exact Cells.store_of_lt _ _ _ hx
        · apply Cells.store_of_le
          rw [hlength]
          omega
      refine Kept.test ⟨h.rb, h.taken_le, le_rfl, le_rfl, h.complete, houtside, h.batch,
        hdelivered⟩ ?_ (fun _ => h.readSpace.mp hpending) fun _ => .inr ⟨hpending, hmeets hpending⟩
      refine ⟨?_, ?_, ?_, ?_, fun _ => rfl, fun _ => Nat.zero_le _, fun _ => hbatch⟩
      · exact (congrArg List.length hbatch).symm
      · exact (congrArg paddedSize hbatch).symm
      · rw [hbatch, List.flatMap_nil, List.take_nil]
        exact Cells.holds_nil
      · intro x hx hlt
        have hcells := s.buffer.holds_store 0 (List.replicate bufsize.toNat 0)
        exact Cells.holds_replicate.mp hcells x (by simp only at hx; omega) (by omega)
    · simp only [State.test, hpending, false_and, if_false]
      refine ⟨⟨h.rb, h.taken_le, le_rfl, le_rfl, h.complete, h.outside, h.batch, hdelivered⟩,
        ?_, ?_, ?_, ?_⟩
      · exact (congrArg List.length hbatch).symm
      · rw [hbatch, List.flatMap_nil, List.take_nil]
        exact Cells.holds_nil
      · intro _
        rw [hbatch]
        exact Nat.zero_le _
      · intro hlt
        exact absurd (h.readSpace.mpr hlt) hpending

theorem Invariant.space (h : Invariant bufsize mem s) (hstep : step bufsize s .space = some s') :
    Invariant bufsize mem s' := by
  rw [step] at hstep
  split at hstep
  case h_2 => cases hstep
  case h_1 r hs =>
    have hphase := h.phase
    rw [hs] at hphase
    obtain ⟨hfilled, htaken⟩ := hphase
    obtain rfl := Option.some.inj hstep
    refine h.toKept.test ?_ h.readSpace.mp fun _ => .inl htaken
    exact ⟨hfilled.count, hfilled.b, hfilled.cells, hfilled.clear, hfilled.remain,
      hfilled.aligned, hfilled.first⟩

theorem toNat_pad (len : UInt32) : ((0 - len) &&& 3).toNat = (4 - len.toNat % 4) % 4 := by
  have hand : (0 - len).toNat &&& 3 = (0 - len).toNat % 4 := Nat.and_two_pow_sub_one_eq_mod _ 2
  have hlt := len.toNat_lt
  rw [UInt32.toNat_and, show (3 : UInt32).toNat = 3 from rfl, hand, UInt32.toNat_sub,
    show (0 : UInt32).toNat = 0 from rfl]
  omega

/-- The timestamp and the number of octets of a record. -/
def header (e : Event) : List UInt8 :=
  littleEndian 8 (Binary64.ofNat e.time) ++ littleEndian 4 e.data.length

theorem record_eq_header (e : Event) : e.record = header e ++ e.data := rfl

theorem length_header (e : Event) : (header e).length = 12 := by
  rw [header, List.length_append, length_littleEndian, length_littleEndian]

theorem Kept.body_eq (h : Kept bufsize mem s) (r : Reading) (hnext : s.written[s.taken]? = some e) :
    s.body bufsize r =
      if e.size < r.remain.toNat then
        { s with
          port := { s.port with rb := (s.port.rb.read (UInt32.ofNat e.size)).2 }
          buffer := (s.buffer.store r.b (header e)).store r.b e.record
          phase := .space
            { r with
              b := r.b + (e.size + padding e)
              remain := r.remain - UInt32.ofNat (e.size + padding e)
              count := r.count + 1 }
          batch := s.batch ++ [e]
          taken := s.taken + 1 }
      else if bufsize.toNat < e.size then
        { s with
          port := { s.port with rb := s.port.rb.readAdvance (UInt32.ofNat e.size) }
          buffer := s.buffer.store r.b (header e)
          phase := .space r
          taken := s.taken + 1 }
      else
        { s with
          buffer := s.buffer.store r.b (header e)
          phase := .filled r.count
          remain := r.n } := by
  obtain ⟨hlt, rfl⟩ := List.getElem?_eq_some_iff.mp hnext
  set e := s.written[s.taken] with he
  have hdrop : s.written.drop s.taken = e :: s.written.drop (s.taken + 1) :=
    List.drop_eq_getElem_cons hlt
  have hrb := h.rb
  have hsize := hrb.lt_size
  have hcomplete := (h.complete e (List.getElem_mem hlt)).length_pos
  rw [hdrop, records, List.flatMap_cons] at hrb
  rw [hdrop, length_records, totalSize_cons] at hsize
  have hheader : s.port.rb.peek 12 = header e := by
    rw [hrb.peek, record_eq_header, List.append_assoc]
    exact List.take_left' (length_header e)
  have hread : s.port.rb.peek (UInt32.ofNat e.size) = e.record := by
    rw [hrb.peek, toNat_ofNat_of_lt (by omega)]
    exact List.take_left' e.length_record
  have hlen : ofLittleEndian ((s.buffer.store r.b (header e)).read (r.b + 8) 4) =
      e.data.length := by
    have hcells := s.buffer.holds_store r.b (header e)
    rw [header, Cells.holds_append] at hcells
    have hcells' := hcells.2.read_eq
    rw [length_littleEndian, length_littleEndian] at hcells'
    rw [header]
    have hoffset : (r.b : ℤ) + (8 : ℕ) = r.b + 8 := rfl
    rw [hoffset] at hcells'
    rw [hcells', ofLittleEndian_littleEndian]
    exact e.length_lt
  have hsize' : e.size = 12 + e.data.length := rfl
  have hword : (UInt32.ofNat e.data.length).toNat = e.data.length :=
    toNat_ofNat_of_lt (by omega)
  have hne : UInt32.ofNat e.data.length ≠ 0 := by
    intro heq
    rw [heq] at hword
    exact hcomplete.ne hword
  have hevSize : UInt32.ofNat e.data.length + 12 = UInt32.ofNat e.size := by
    rw [hsize', Nat.add_comm]
    exact (UInt32.ofNat_add _ _).symm
  have hpad : UInt32.ofNat e.size + ((0 - UInt32.ofNat e.data.length) &&& 3) =
      UInt32.ofNat (e.size + padding e) := by
    rw [UInt32.ofNat_add, ← UInt32.toNat_inj, UInt32.toNat_add, UInt32.toNat_add, toNat_pad, hword]
    congr 2
    rw [padding]
    exact (toNat_ofNat_of_lt ((Nat.mod_lt _ (by decide)).trans (by decide))).symm
  have hpadded : (UInt32.ofNat (e.size + padding e)).toNat = e.size + padding e := by
    rw [UInt32.toNat_ofNat']
    apply Nat.mod_eq_of_lt
    rw [padding]
    have hbound : ringbufferSize = 65536 := rfl
    omega
  have hbytes : (UInt32.ofNat e.size).toNat = e.size := toNat_ofNat_of_lt (by omega)
  have hheaderSize : ¬ ((header e).length ≠ headerSize ∨ UInt32.ofNat e.data.length = 0) := by
    rintro (hlength | hzero)
    · exact hlength (length_header e)
    · exact hne hzero
  simp only [State.body, hheader, hlen, if_neg hheaderSize, hevSize, UInt32.lt_iff_toNat_lt, hbytes,
    RingBuffer.read, hread, hpad, hpadded, hnext, Option.toList_some]

theorem dvd_paddedSize (es : List Event) : 4 ∣ paddedSize es := by
  induction es with
  | nil => exact Nat.dvd_zero 4
  | cons e es ih =>
    have hsize : e.size = 12 + e.data.length := rfl
    have he : 4 ∣ e.size + padding e := by
      rw [padding]
      omega
    exact Nat.dvd_add he ih

section

variable (h : Filled bufsize s r) (hb : r.b ≤ bufsize.toNat)
include h hb

theorem Filled.outside {l : List UInt8} (hl : l.length ≤ r.remain.toNat) {buffer : Cells UInt8}
    (hbuffer : ∀ x : ℤ, x < 0 ∨ bufsize.toNat ≤ x → buffer x = mem x) :
    ∀ x : ℤ, x < 0 ∨ bufsize.toNat ≤ x → buffer.store r.b l x = mem x := by
  have hremain := h.remain hb
  intro x hx
  rw [← hbuffer x hx]
  rcases hx with hx | hx
  · exact Cells.store_of_lt _ _ _ (by omega)
  · exact Cells.store_of_le _ _ _ (by omega)

theorem Filled.whole : s.buffer.Holds 0 (s.batch.flatMap padded) := by
  have hcells := h.cells
  rw [List.take_of_length_le] at hcells
  · exact hcells
  · rw [length_flatMap_padded, ← h.b]
    exact hb

theorem Filled.holds_store (l : List UInt8) :
    (s.buffer.store r.b l).Holds 0 (s.batch.flatMap padded) := by
  apply (h.whole hb).store
  right
  rw [length_flatMap_padded, ← h.b]
  omega

theorem Filled.append (hsize : e.size < r.remain.toNat) (hstart : s'.start < s'.taken)
    (hbatch : s'.batch = s.batch ++ [e])
    (hbuffer : s'.buffer = (s.buffer.store r.b (header e)).store r.b e.record) :
    Filled bufsize s'
      { r with
        b := r.b + (e.size + padding e)
        remain := r.remain - UInt32.ofNat (e.size + padding e)
        count := r.count + 1 } := by
  have hremain := h.remain hb
  have hheader : (header e).length = 12 := length_header e
  have hrecord := e.length_record
  have hsize' : e.size = 12 + e.data.length := rfl
  have hlater : ∀ x : ℤ, r.b + e.size ≤ x → s'.buffer x = s.buffer x := by
    intro x hx
    rw [hbuffer, Cells.store_of_le _ _ _ (by omega), Cells.store_of_le _ _ _ (by omega)]
  refine ⟨?_, ?_, ?_, ?_, ?_, ?_, fun heq => absurd heq hstart.ne'⟩
  · rw [hbatch, List.length_append, List.length_singleton, h.count]
  · rw [hbatch, paddedSize_append, paddedSize_singleton, h.b]
  · have htake : ((s'.batch).flatMap padded).take bufsize.toNat = s.batch.flatMap padded ++
        (e.record ++ List.replicate (min (bufsize.toNat - r.b - e.size) (padding e)) 0) := by
      have hlength : (s.batch.flatMap padded).length = r.b := by
        rw [length_flatMap_padded, h.b]
      rw [hbatch, List.flatMap_append, List.flatMap_singleton, List.take_append, hlength,
        List.take_of_length_le (hlength.trans_le hb), padded, List.take_append, hrecord,
        List.take_of_length_le (by omega), List.take_replicate]
    rw [htake, Cells.holds_append, Cells.holds_append, length_flatMap_padded, ← h.b, hrecord]
    refine ⟨?_, ?_, ?_⟩
    · rw [hbuffer]
      apply (h.holds_store hb (header e)).store
      right
      rw [length_flatMap_padded, ← h.b]
      omega
    · rw [hbuffer, zero_add]
      exact Cells.holds_store _ _ _
    · apply Cells.holds_replicate.mpr
      intro x hx hlt
      rw [hlater x (by omega)]
      exact h.clear x (by omega) (by omega)
  · intro x hx hlt
    simp only at hx
    rw [hlater x (by omega)]
    exact h.clear x (by omega) hlt
  · intro hle
    simp only at hle ⊢
    have hword : (UInt32.ofNat (e.size + padding e)).toNat = e.size + padding e := by
      rw [UInt32.toNat_ofNat']
      have hlt := bufsize.toNat_lt
      exact Nat.mod_eq_of_lt (by omega)
    rw [UInt32.toNat_sub_of_le _ _ (by rw [UInt32.le_iff_toNat_le]; omega), hword]
    omega
  · intro haligned
    have hdvd := dvd_paddedSize s.batch
    have haligned' := h.aligned haligned
    rw [← h.b] at hdvd
    simp only [padding]
    omega

end

theorem Kept.drop_taken (h : Kept bufsize mem s) (hnext : s.written[s.taken]? = some e) :
    Holds ringbufferSize s.port.rb (e.record ++ records (s.written.drop (s.taken + 1))) ∧
      (UInt32.ofNat e.size).toNat = e.size := by
  obtain ⟨hlt, rfl⟩ := List.getElem?_eq_some_iff.mp hnext
  have hrb := h.rb
  have hsize := hrb.lt_size
  rw [List.drop_eq_getElem_cons hlt] at hrb hsize
  rw [length_records, totalSize_cons] at hsize
  exact ⟨hrb, toNat_ofNat_of_lt (by omega)⟩

theorem take_succ_filter {es : List Event} {n : ℕ} (hnext : es[n]? = some e) :
    ((es.take (n + 1)).filter (fits bufsize)).map delivery =
      ((es.take n).filter (fits bufsize)).map delivery ++
        if e.size ≤ bufsize.toNat then [delivery e] else [] := by
  rw [List.take_add_one, hnext, List.filter_append, List.map_append]
  congr 1
  by_cases h : e.size ≤ bufsize.toNat
  · rw [if_pos h]
    simp [fits, h]
  · rw [if_neg h]
    simp [fits, h]

theorem Invariant.body (h : Invariant bufsize mem s) (hmeets : Meets bufsize s .body)
    (hstep : step bufsize s .body = some s') : Invariant bufsize mem s' := by
  rw [step] at hstep
  split at hstep
  case h_2 => cases hstep
  case h_1 r hs =>
    have hphase := h.phase
    rw [hs] at hphase
    obtain ⟨hfilled, hremain, hlt⟩ := hphase
    obtain rfl := Option.some.inj hstep
    obtain ⟨haligned, hfirst⟩ := hmeets
    have hb : r.b ≤ bufsize.toNat := by
      rcases haligned with haligned | hle
      · exact hfilled.aligned haligned
      · rw [hfilled.b]
        exact hle
    obtain ⟨e, hnext⟩ : ∃ e, s.written[s.taken]? = some e := ⟨_, List.getElem?_eq_getElem hlt⟩
    obtain ⟨hrb, hbytes⟩ := h.drop_taken hnext
    have hmem : e ∈ s.written := List.mem_of_getElem? hnext
    have hroom := hfilled.remain hb
    have hheader : (header e).length ≤ r.remain.toNat := by
      rw [length_header]
      rw [UInt32.lt_iff_toNat_lt] at hremain
      exact hremain.le
    have htaken : s.start < s.taken + 1 := Nat.lt_succ_of_le h.start_le
    have houtside := hfilled.outside hb hheader h.outside
    have hcells := hfilled.holds_store hb (header e)
    have htake : (s.batch.flatMap padded).take bufsize.toNat = s.batch.flatMap padded := by
      apply List.take_of_length_le
      rw [length_flatMap_padded, ← hfilled.b]
      exact hb
    rw [h.body_eq r hnext]
    by_cases hfits : e.size < r.remain.toNat
    · have hread := hrb.read (UInt32.ofNat e.size)
      rw [hbytes, List.drop_left' e.length_record] at hread
      have hdelivered : s.delivered ++ (s.batch ++ [e]).map delivery =
          ((s.written.take (s.taken + 1)).filter (fits bufsize)).map delivery := by
        have hle : e.size ≤ bufsize.toNat := by omega
        rw [take_succ_filter hnext, if_pos hle, ← h.delivered, List.map_append, List.append_assoc]
        rfl
      have hbatch : ∀ e' ∈ s.batch ++ [e], Complete e'.data := by
        intro e' he'
        rcases List.mem_append.mp he' with he' | he'
        · exact h.batch e' he'
        · rw [List.mem_singleton.mp he']
          exact h.complete e hmem
      have hrecord : e.record.length ≤ r.remain.toNat := by
        rw [e.length_record]
        exact hfits.le
      rw [if_pos hfits]
      exact ⟨⟨hread, hlt, htaken.le, h.available_le, h.complete,
        hfilled.outside hb hrecord houtside, hbatch, hdelivered⟩,
        hfilled.append hb hfits htaken rfl rfl, htaken⟩
    · rw [if_neg hfits]
      by_cases hlarge : bufsize.toNat < e.size
      · have hadvance := @Holds.readAdvance _ _ _ _ hrb (UInt32.ofNat e.size)
          (by rw [hbytes, List.length_append, e.length_record]; omega)
        rw [hbytes, List.drop_left' e.length_record] at hadvance
        have hdelivered : s.delivered ++ s.batch.map delivery =
            ((s.written.take (s.taken + 1)).filter (fits bufsize)).map delivery := by
          rw [take_succ_filter hnext, if_neg (Nat.not_le.mpr hlarge), ← h.delivered,
            List.append_nil]
        rw [if_pos hlarge]
        refine ⟨⟨hadvance, hlt, htaken.le, h.available_le, h.complete, houtside, h.batch,
          hdelivered⟩, ⟨hfilled.count, hfilled.b, ?_, ?_, hfilled.remain, hfilled.aligned,
          fun heq => absurd heq htaken.ne'⟩, htaken⟩
        · rw [htake]
          exact hcells
        · intro x hx hlt
          rw [← hfilled.clear x hx hlt]
          apply Cells.store_of_le
          rw [length_header]
          exact hx
      · rw [if_neg hlarge]
        refine ⟨⟨h.rb, h.taken_le, h.start_le, h.available_le, h.complete, houtside, h.batch,
          h.delivered⟩, hfilled.count, ?_, ?_, ?_⟩
        · rw [htake]
          exact hcells
        · rw [← hfilled.b]
          exact hfilled.aligned
        · intro _
          by_contra hstart
          have heq : s.taken = s.start := Nat.le_antisymm (Nat.le_of_not_lt hstart) h.start_le
          have hzero : r.b = 0 := by
            rw [hfilled.b, hfilled.first heq]
            rfl
          apply hfirst heq e hnext
          omega

theorem Invariant.doevent (h : Invariant bufsize mem s) (hmeets : Meets bufsize s .doevent)
    (hstep : step bufsize s .doevent = some s') : Invariant bufsize mem s' := by
  rw [step] at hstep
  split at hstep
  case h_2 => cases hstep
  case h_1 count hs =>
    have hphase := h.phase
    rw [hs] at hphase
    obtain ⟨rfl, hcells, haligned, -⟩ := hphase
    obtain rfl := Option.some.inj hstep
    obtain ⟨hchain, hword⟩ := hmeets
    have hevents : Receiver.doevent s.buffer s.batch.length 0 = s.batch.map delivery := by
      rcases List.eq_nil_or_concat' s.batch with hnil | ⟨es, e, hes⟩
      · rw [hnil]
        rfl
      · have he : Complete e.data := h.batch e (by rw [hes]; simp)
        obtain ⟨rest, hrest⟩ := wordRecord_prefix_padded he.length_pos
        have hfits : paddedSize es + (wordRecord e).length ≤ bufsize.toNat := by
          rcases hword with hdvd | hword
          · refine le_trans ?_ (haligned hdvd)
            rw [hes, paddedSize_append, paddedSize_singleton, ← length_padded, ← hrest,
              List.length_append]
            omega
          · exact hword es e hes
        have hstart : es.flatMap padded ++ wordRecord e <+:
            (s.batch.flatMap padded).take bufsize.toNat := by
          rw [List.prefix_take_iff, hes, List.flatMap_append, List.flatMap_singleton, ← hrest,
            ← List.append_assoc, List.length_append, length_flatMap_padded]
          exact ⟨List.prefix_append _ _, hfits⟩
        have hbatch := h.batch
        rw [hes] at hchain hbatch ⊢
        exact doevent_eq (Holds.of_prefix hcells hstart) hbatch hchain
    refine ⟨⟨h.rb, h.taken_le, h.start_le, h.available_le, h.complete, h.outside,
      fun _ he => absurd he List.not_mem_nil, ?_⟩, rfl⟩
    rw [List.map_nil, List.append_nil, hevents]
    exact h.delivered

theorem Invariant.step (h : Invariant bufsize mem s) {action : Action}
    (hmeets : Meets bufsize s action) (hstep : step bufsize s action = some s') :
    Invariant bufsize mem s' := by
  cases action with
  | event cycleStartTime e => exact h.event hmeets hstep
  | read => exact h.read hmeets hstep
  | body => exact h.body hmeets hstep
  | space => exact h.space hstep
  | doevent => exact h.doevent hmeets hstep

theorem Invariant.run (h : Invariant bufsize mem s) {actions : List Action}
    (hmeets : MeetsAll bufsize s actions) (hrun : run bufsize s actions = some s') :
    Invariant bufsize mem s' := by
  induction actions generalizing s with
  | nil =>
    obtain rfl := Option.some.inj hrun
    exact h
  | cons action actions ih =>
    rw [Receiver.run, List.foldlM_cons] at hrun
    obtain ⟨s₁, hstep, hrest⟩ := Option.bind_eq_some_iff.mp hrun
    exact ih (h.step hmeets.1 hstep) (hmeets.2 s₁ hstep) hrest

end Invariant

structure Initial (s : State) : Prop where
  rb : Holds ringbufferSize s.port.rb []
  phase : s.phase = .waiting
  delivered : s.delivered = []
  written : s.written = []
  taken : s.taken = 0
  batch : s.batch = []
  start : s.start = 0
  available : s.available = 0

theorem Initial.invariant {s : State} (h : Initial s) (bufsize : UInt32) :
    Invariant bufsize s.buffer s where
  rb := by
    rw [h.written, List.drop_nil]
    exact h.rb
  taken_le := by
    rw [h.taken]
    exact Nat.zero_le _
  start_le := by
    rw [h.start]
    exact Nat.zero_le _
  available_le := by
    rw [h.available]
    exact Nat.zero_le _
  complete := by
    rw [h.written]
    exact fun _ he => absurd he List.not_mem_nil
  outside := fun _ _ => rfl
  batch := by
    rw [h.batch]
    exact fun _ he => absurd he List.not_mem_nil
  delivered := by
    rw [h.delivered, h.batch, h.written, List.take_nil]
    rfl
  phase := by
    rw [h.phase]
    exact h.batch

/-- The messages of the taken records that fit are delivered in order, except the ones in the
buffer; the other records are pending; nothing is stored out of the buffer; a call of `jm_read`
takes a record if there was one. -/
structure Received (bufsize : UInt32) (mem : Cells UInt8) (s : State) : Prop where
  delivered : s.delivered ++ s.batch.map delivery =
    ((s.written.take s.taken).filter (fits bufsize)).map delivery
  waiting : s.phase = .waiting → s.batch = []
  pending : Holds ringbufferSize s.port.rb (records (s.written.drop s.taken))
  outside : ∀ x : ℤ, x < 0 ∨ bufsize.toNat ≤ x → s.buffer x = mem x
  progress : ∀ count, s.phase = .filled count → s.start < s.available → s.start < s.taken

theorem meetsAll_cons {bufsize : UInt32} {s s' : State} {action : Action} {actions : List Action}
    (hmeets : Meets bufsize s action) (hstep : step bufsize s action = some s')
    (h : MeetsAll bufsize s' actions) : MeetsAll bufsize s (action :: actions) := by
  refine ⟨hmeets, fun s'' hstep' => ?_⟩
  obtain rfl := Option.some.inj (hstep.symm.trans hstep')
  exact h

theorem received_of_run {bufsize : UInt32} {s s' : State} (h : Initial s) {actions : List Action}
    (hmeets : MeetsAll bufsize s actions) (hrun : run bufsize s actions = some s') :
    Received bufsize s.buffer s' := by
  have hinv := (h.invariant bufsize).run hmeets hrun
  have hphase := hinv.phase
  refine ⟨hinv.delivered, ?_, hinv.rb, hinv.outside, ?_⟩
  · intro hs
    rw [hs] at hphase
    exact hphase
  · intro count hs
    rw [hs] at hphase
    exact hphase.2.2.2

def newReceiver : State where
  port := emptyPort
  remain := 0
  buffer := fun _ => 0
  phase := .waiting
  delivered := []
  written := []
  taken := 0
  batch := []
  start := 0
  available := 0

theorem newReceiver_initial : Initial newReceiver := by
  have hcreate : create (fun _ => (0 : UInt8)) 65536 = some ⟨fun _ => 0, 0, 0, 65536, 65535⟩ := rfl
  exact ⟨holds_create hcreate, rfl, rfl, rfl, rfl, rfl, rfl, rfl⟩

theorem length_noteOn_lt : [(0x90 : UInt8), 60, 64].length < 2 ^ 32 := by decide

def noteOn : Event := ⟨64, [0x90, 60, 64], by decide, length_noteOn_lt⟩

def longSysex : Event := ⟨80, [0xF0, 0x7D, 1, 2, 3, 0xF7], by decide, by decide⟩

def shortSysex : Event := ⟨64, [0xF0, 0x7D, 1, 0xF7], by decide, by decide⟩

def readTwo (e : Event) : List Action :=
  [.event 0 e, .event 0 e, .read, .body, .space, .body, .space, .doevent]

theorem received_of_run_longSysex : ∃ s', run 64 newReceiver [.event 0 noteOn, .event 0 longSysex,
      .read, .body, .space, .body, .space, .doevent] = some s' ∧
    s'.delivered = [delivery noteOn, delivery longSysex] ∧ Received 64 newReceiver.buffer s' := by
  have hmeets : MeetsAll 64 newReceiver [.event 0 noteOn, .event 0 longSysex,
      .read, .body, .space, .body, .space, .doevent] := by
    refine meetsAll_cons (.inl (by decide)) rfl ?_
    refine meetsAll_cons (.inr ⟨[0x7D, 1, 2, 3], rfl, by decide⟩) rfl ?_
    refine meetsAll_cons (fun _ => by decide) rfl ?_
    refine meetsAll_cons ⟨.inl (by decide), ?_⟩ rfl ?_
    · intro _ e he
      have he' : e = noteOn := (Option.some.inj he).symm
      rw [he']
      decide
    refine meetsAll_cons trivial rfl ?_
    refine meetsAll_cons ⟨.inl (by decide), nofun⟩ rfl ?_
    refine meetsAll_cons trivial rfl ?_
    refine meetsAll_cons ⟨?_, .inl (by decide)⟩ rfl trivial
    exact .cons_cons (fun h => absurd h (by decide)) (List.isChain_singleton _)
  exact ⟨_, rfl, by decide +kernel, received_of_run newReceiver_initial hmeets rfl⟩

/-- The end of the first SysEx is found in the second one. -/
theorem shortSysex_lost : Complete shortSysex.data ∧
    ∃ s', run 64 newReceiver (readTwo shortSysex) = some s' ∧
      s'.delivered = [delivery shortSysex, ⟨0, [0, 0, 0, 0], []⟩] ∧
      ¬ Received 64 newReceiver.buffer s' := by
  have hrun : (run 64 newReceiver (readTwo shortSysex)).map (fun s => (s.delivered,
      s.delivered ++ s.batch.map delivery,
      ((s.written.take s.taken).filter (fits 64)).map delivery)) =
        some ([delivery shortSysex, ⟨0, [0, 0, 0, 0], []⟩],
          [delivery shortSysex, ⟨0, [0, 0, 0, 0], []⟩],
          [delivery shortSysex, delivery shortSysex]) := by
    decide +kernel
  obtain ⟨s', hs', hlists⟩ := Option.map_eq_some_iff.mp hrun
  obtain ⟨hdelivered, hlists⟩ := Prod.mk.inj hlists
  obtain ⟨hreceived, hwritten⟩ := Prod.mk.inj hlists
  refine ⟨.inr ⟨[0x7D, 1], rfl, by decide⟩, s', hs', hdelivered, fun h => ?_⟩
  have heq := h.delivered
  rw [hreceived, hwritten] at heq
  exact absurd heq (by decide +kernel)
end Incudine.JackMidi.Receiver

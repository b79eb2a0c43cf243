import Incudine.CachedMidiInputs
import Incudine.Cells

/-!
# MIDI receivers

A receiver copies the pending records of an input port to its buffer and iterates over their events.
The server stores the record of a new event at any moment. The memory has the lowest octet first.
-/

namespace Incudine.JackMidi.Receiver

open ByteRing CircularArray Octets

/-- The variables of the body of `doevent`, with the octets of the message and the SysEx message
of the stream. -/
structure Delivery where
  timestamp : ℚ
  message : List UInt8
  sysex : List UInt8
  deriving DecidableEq

section Doevent

variable (mem : Cells UInt8) (ptr : ℤ)

def messageLength : ℕ := ofLittleEndian (mem.read (ptr + 8) 4)

def sysexMessage : Bool := mem (ptr + 12) = 0xF0

def sysexEoxMessage : Bool := decide (0xF7 ∈ mem.read (ptr + 12) 4)

def endOfSysex : ℤ :=
  match (List.range (messageLength mem ptr)).find? fun j : ℕ =>
      sysexEoxMessage mem (ptr + 4 * (j + 1)) with
  | some j => ptr + 4 * (j + 1)
  | none => ptr

def event : Delivery where
  timestamp := Binary64.value (ofLittleEndian (mem.read ptr 8))
  message := mem.read (ptr + 12) 4
  sysex := if sysexMessage mem ptr then mem.read (ptr + 12) (messageLength mem ptr) else []

def nextEvent : ℤ := (if sysexMessage mem ptr then endOfSysex mem ptr else ptr) + 16

/-- The iteration over the events from `ptr` on. -/
def doevent : ℕ → ℤ → List Delivery
  | 0, _ => []
  | n + 1, ptr => event mem ptr :: doevent n (nextEvent mem ptr)

end Doevent

/-- The local variables of `jm_read`; the pointer is the offset in the buffer. The comparisons of
`remain` with the sizes are without sign. -/
structure Reading where
  b : ℕ
  n : UInt32
  count : ℕ
  remain : UInt32

inductive Phase
  | waiting
  /-- The loop of `jm_read` before its body. -/
  | body (r : Reading)
  /-- The loop of `jm_read` before the number of pending bytes is obtained again. -/
  | space (r : Reading)
  | filled (count : ℕ)

/-- The state of the port and of the receiver, with the events whose records are stored in the ring
buffer, how many of them are taken out of it, and the ones in the buffer of the receiver. -/
structure State where
  port : InputData
  /-- The field `remain` of the port. -/
  remain : UInt32
  buffer : Cells UInt8
  phase : Phase
  delivered : List Delivery
  written : List Event
  taken : ℕ
  batch : List Event
  /-- The events that were taken and the ones that were written when `jm_read` was called. -/
  start : ℕ
  available : ℕ

inductive Action
  | event (cycleStartTime : ℕ) (e : Event)
  | read
  | body
  | space
  | doevent

def State.test (s : State) (r : Reading) : State :=
  if 0 < r.n ∧ 12 < r.remain then { s with phase := .body r }
  else { s with phase := .filled r.count, remain := r.n }

def State.body (s : State) (bufsize : UInt32) (r : Reading) : State :=
  let header := s.port.rb.peek 12
  let buffer := s.buffer.store r.b header
  let len := UInt32.ofNat (ofLittleEndian (buffer.read (r.b + 8) 4))
  if header.length ≠ headerSize ∨ len = 0 then
    { s with
      port := { s.port with rb := s.port.rb.reset }
      buffer := buffer
      phase := .filled r.count
      remain := r.n }
  else
    let pad := (0 - len) &&& 3
    let evSize := len + 12
    if evSize < r.remain then
      let (bytes, rb) := s.port.rb.read evSize
      { s with
        port := { s.port with rb := rb }
        buffer := buffer.store r.b bytes
        phase := .space
          { r with
            b := r.b + (evSize + pad).toNat
            remain := r.remain - (evSize + pad)
            count := r.count + 1 }
        batch := s.batch ++ s.written[s.taken]?.toList
        taken := s.taken + 1 }
    else if bufsize < evSize then
      { s with
        port := { s.port with rb := s.port.rb.readAdvance evSize }
        buffer := buffer
        phase := .space r
        taken := s.taken + 1 }
    else
      { s with
        buffer := buffer
        phase := .filled r.count
        remain := r.n }

def step (bufsize : UInt32) (s : State) : Action → Option State
  | .event cycleStartTime e =>
    if cycleStartTime ≤ e.time ∧ s.port.portBuffer then
      some { s with
        port := s.port.storeEvent false cycleStartTime 0 (e.time - cycleStartTime, e.data)
        written := s.written ++ if e.size ≤ s.port.rb.writeSpace.toNat then [e] else [] }
    else none
  | .read =>
    match s.phase with
    | .waiting =>
      let n := s.port.rb.readSpace
      let zeros := List.replicate bufsize.toNat 0
      some (State.test
        { s with
          buffer := if 0 < n then s.buffer.store 0 zeros else s.buffer
          start := s.taken
          available := s.written.length }
        { b := 0, n := n, count := 0, remain := bufsize })
    | _ => none
  | .body =>
    match s.phase with
    | .body r => some (s.body bufsize r)
    | _ => none
  | .space =>
    match s.phase with
    | .space r => some (s.test { r with n := s.port.rb.readSpace })
    | _ => none
  | .doevent =>
    match s.phase with
    | .filled count =>
      some { s with
        phase := .waiting
        delivered := s.delivered ++ doevent s.buffer count 0
        batch := [] }
    | _ => none

def run (bufsize : UInt32) (s : State) (actions : List Action) : Option State :=
  actions.foldlM (step bufsize) s

/-- A short message, or a SysEx message with one end. -/
def Complete (data : List UInt8) : Prop :=
  (0 < data.length ∧ data.length ≤ 4 ∧ data.head? ≠ some 0xF0) ∨
    ∃ body, data = 0xF0 :: (body ++ [0xF7]) ∧ 0xF7 ∉ body

def padding (e : Event) : ℕ := (4 - e.data.length % 4) % 4

def padded (e : Event) : List UInt8 := e.record ++ List.replicate (padding e) 0

def paddedSize (es : List Event) : ℕ := (es.map fun e => e.size + padding e).sum

def wordRecord (e : Event) : List UInt8 := e.record ++ List.replicate (4 - e.data.length) 0

def delivery (e : Event) : Delivery where
  timestamp := e.time
  message := (e.data ++ List.replicate (4 - e.data.length) 0).take 4
  sysex := if e.data.head? = some 0xF0 then e.data else []

/-- The search of the end of a SysEx that fits in the word of the message does not find it in the
next record. -/
def Separate (e e' : Event) : Prop :=
  e.data.head? = some 0xF0 → e.data.length ≤ 4 → 0xF7 ∉ (padded e').take (4 * e.data.length)

/-- The messages are complete; the buffer is larger than a header and the first pending record has
not the size of the buffer; the padded records that precede a record, and the word of the last
message, are inside the buffer; no SysEx is followed by a false end. -/
def Meets (bufsize : UInt32) (s : State) : Action → Prop
  | .event _ e => Complete e.data
  | .read => 0 < s.port.rb.readSpace → 12 < bufsize
  | .body => (4 ∣ bufsize.toNat ∨ paddedSize s.batch ≤ bufsize.toNat) ∧
      (s.taken = s.start → ∀ e, s.written[s.taken]? = some e → e.size ≠ bufsize.toNat)
  | .space => True
  | .doevent => s.batch.IsChain Separate ∧ (4 ∣ bufsize.toNat ∨ ∀ es e, s.batch = es ++ [e] →
      paddedSize es + (wordRecord e).length ≤ bufsize.toNat)

def MeetsAll (bufsize : UInt32) (s : State) : List Action → Prop
  | [] => True
  | action :: actions => Meets bufsize s action ∧
      ∀ s', step bufsize s action = some s' → MeetsAll bufsize s' actions

section Messages

variable {mem : Cells UInt8} {ptr : ℤ} {e e' : Event} {es : List Event}

theorem Complete.length_pos {data : List UInt8} (h : Complete data) : 0 < data.length := by
  rcases h with ⟨hpos, -, -⟩ | ⟨body, rfl, -⟩
  · exact hpos
  · exact Nat.succ_pos _

theorem length_padded (e : Event) : (padded e).length = e.size + padding e := by
  rw [padded, List.length_append, e.length_record, List.length_replicate]

theorem length_flatMap_padded (es : List Event) : (es.flatMap padded).length = paddedSize es := by
  induction es with
  | nil => rfl
  | cons e es ih =>
    rw [List.flatMap_cons, List.length_append, length_padded, ih]
    rfl

theorem paddedSize_append (es es' : List Event) :
    paddedSize (es ++ es') = paddedSize es + paddedSize es' := by
  simp [paddedSize]

theorem paddedSize_singleton (e : Event) : paddedSize [e] = e.size + padding e := Nat.add_zero _

theorem length_wordRecord (e : Event) :
    (wordRecord e).length = e.size + (4 - e.data.length) := by
  rw [wordRecord, List.length_append, e.length_record, List.length_replicate]

theorem padded_eq_wordRecord (h : e.data.length ≤ 4) (hpos : 0 < e.data.length) :
    padded e = wordRecord e := by
  have hpadding : padding e = 4 - e.data.length := by
    rw [padding]
    omega
  rw [padded, hpadding, wordRecord]

theorem wordRecord_prefix_padded (hpos : 0 < e.data.length) : wordRecord e <+: padded e := by
  by_cases h : e.data.length ≤ 4
  · rw [padded_eq_wordRecord h hpos]
  · have hzero : 4 - e.data.length = 0 := by omega
    rw [wordRecord, hzero, List.replicate_zero, List.append_nil]
    exact List.prefix_append _ _

theorem Holds.of_prefix {l l' : List UInt8} (h : mem.Holds ptr l) (hl : l' <+: l) :
    mem.Holds ptr l' := by
  obtain ⟨rest, rfl⟩ := hl
  exact (Cells.holds_append.mp h).1

theorem fields_of_holds (h : mem.Holds ptr e.record) :
    Binary64.value (ofLittleEndian (mem.read ptr 8)) = e.time ∧
      messageLength mem ptr = e.data.length ∧ mem.Holds (ptr + 12) e.data := by
  rw [Event.record, record, Cells.holds_append, Cells.holds_append] at h
  obtain ⟨⟨htime, hlen⟩, hdata⟩ := h
  have htime' := htime.read_eq
  have hlen' := hlen.read_eq
  rw [length_littleEndian] at htime' hlen'
  rw [List.length_append, length_littleEndian, length_littleEndian] at hdata
  rw [length_littleEndian] at hlen'
  refine ⟨?_, ?_, hdata⟩
  · rw [htime', ofLittleEndian_littleEndian, Binary64.value_ofNat e.time_lt]
    exact Binary64.ofNat_lt e.time_lt
  · rw [messageLength]
    have hoffset : ptr + (8 : ℕ) = ptr + 8 := rfl
    rw [hoffset] at hlen'
    rw [hlen', ofLittleEndian_littleEndian]
    exact e.length_lt

theorem sysexMessage_eq (hdata : mem.Holds (ptr + 12) e.data) (hpos : 0 < e.data.length) :
    sysexMessage mem ptr = decide (e.data.head? = some 0xF0) := by
  rw [sysexMessage]
  cases hd : e.data with
  | nil => rw [hd] at hpos; exact absurd hpos (Nat.lt_irrefl 0)
  | cons status data =>
    rw [hd, Cells.holds_cons] at hdata
    rw [hdata.1, List.head?_cons]
    simp only [Option.some.injEq]

theorem event_eq (h : mem.Holds ptr (wordRecord e)) (hpos : 0 < e.data.length) :
    event mem ptr = delivery e := by
  have hrecord : mem.Holds ptr e.record := Holds.of_prefix h (List.prefix_append _ _)
  obtain ⟨htime, hlen, hdata⟩ := fields_of_holds hrecord
  have hword : mem.Holds (ptr + 12) (e.data ++ List.replicate (4 - e.data.length) 0) := by
    rw [wordRecord, Event.record, record, List.append_assoc, Cells.holds_append] at h
    obtain ⟨-, h⟩ := h
    rw [List.length_append, length_littleEndian, length_littleEndian] at h
    exact h
  have hmessage : mem.read (ptr + 12) 4 =
      (e.data ++ List.replicate (4 - e.data.length) 0).take 4 := by
    have hle : 4 ≤ (e.data ++ List.replicate (4 - e.data.length) (0 : UInt8)).length := by
      rw [List.length_append, List.length_replicate]
      omega
    rw [← hword.read_eq, List.length_append, Cells.take_read]
    rw [List.length_append] at hle
    exact hle
  rw [event, delivery, htime, hmessage, hlen, sysexMessage_eq hdata hpos, hdata.read_eq]
  simp only [decide_eq_true_eq]

theorem mem_read {a : UInt8} {n : ℕ} : a ∈ mem.read ptr n ↔ ∃ k < n, mem (ptr + (k : ℕ)) = a := by
  simp only [Cells.read, List.mem_map, List.mem_range]

theorem endOfSysex_of_long {body : List UInt8} (h : mem.Holds ptr e.record)
    (hdata : e.data = 0xF0 :: (body ++ [0xF7])) (hbody : 0xF7 ∉ body) (hlong : 4 < e.data.length) :
    endOfSysex mem ptr + 16 = ptr + (e.size + padding e : ℕ) := by
  obtain ⟨-, hlen, hcells⟩ := fields_of_holds h
  have hlength : e.data.length = body.length + 2 := by
    rw [hdata, List.length_cons, List.length_append, List.length_singleton]
  have hend : mem (ptr + 12 + (body.length + 1 : ℕ)) = 0xF7 := by
    rw [hcells _ (by omega)]
    simp [hdata]
  have hinside : ∀ k, 0 < k → k ≤ body.length → mem (ptr + 12 + (k : ℕ)) ≠ 0xF7 := by
    intro k hpos hk heq
    rw [hcells k (by omega)] at heq
    obtain ⟨i, rfl⟩ := Nat.exists_eq_succ_of_ne_zero hpos.ne'
    have hi : i < body.length := hk
    simp only [hdata, List.getElem_cons_succ, List.getElem_append_left hi] at heq
    exact hbody (heq ▸ List.getElem_mem hi)
  have hfind : (List.range (messageLength mem ptr)).find? (fun j : ℕ =>
      sysexEoxMessage mem (ptr + 4 * (j + 1))) = some ((body.length + 1) / 4 - 1) := by
    rw [List.find?_range_eq_some]
    refine ⟨?_, ?_, ?_⟩
    · rw [sysexEoxMessage, decide_eq_true_eq, mem_read]
      refine ⟨(body.length + 1) % 4, Nat.mod_lt _ (by decide), ?_⟩
      rw [← hend]
      congr 1
      omega
    · rw [List.mem_range]
      omega
    · intro j hj
      rw [sysexEoxMessage, Bool.not_eq_true', decide_eq_false_iff_not, mem_read]
      rintro ⟨i, hi, heq⟩
      apply hinside (4 * (j + 1) + i) (by omega) (by omega)
      rw [← heq]
      congr 1
      push_cast
      ring
  rw [endOfSysex, hfind, padding, Event.size, headerSize]
  push_cast
  omega

theorem endOfSysex_of_short (hlen : messageLength mem ptr = e.data.length)
    (h : mem.Holds (ptr + 16) ((padded e').take (4 * e.data.length)))
    (hlong : 4 * e.data.length ≤ (padded e').length)
    (hfree : 0xF7 ∉ (padded e').take (4 * e.data.length)) : endOfSysex mem ptr = ptr := by
  have hfind : (List.range (messageLength mem ptr)).find? (fun j : ℕ =>
      sysexEoxMessage mem (ptr + 4 * (j + 1))) = none := by
    rw [List.find?_range_eq_none]
    intro j hj
    rw [sysexEoxMessage, Bool.not_eq_true', decide_eq_false_iff_not, mem_read]
    rintro ⟨i, hi, heq⟩
    have hindex : 4 * j + i < ((padded e').take (4 * e.data.length)).length := by
      rw [List.length_take_of_le hlong]
      omega
    have hcell := h _ hindex
    apply hfree
    rw [← heq]
    have haddress : ptr + 4 * ((j : ℤ) + 1) + 12 + (i : ℕ) = ptr + 16 + (4 * j + i : ℕ) := by
      push_cast
      ring
    rw [haddress, hcell]
    exact List.getElem_mem hindex
  rw [endOfSysex, hfind]

theorem nextEvent_eq (h : mem.Holds ptr (padded e ++ wordRecord e')) (he : Complete e.data)
    (he' : Complete e'.data) (hseparate : Separate e e') :
    nextEvent mem ptr = ptr + (e.size + padding e : ℕ) := by
  obtain ⟨hpadded, hnext⟩ := Cells.holds_append.mp h
  have hrecord : mem.Holds ptr e.record := Holds.of_prefix hpadded (List.prefix_append _ _)
  obtain ⟨-, hlen, hdata⟩ := fields_of_holds hrecord
  have hpos := he.length_pos
  rw [length_padded] at hnext
  have hsize : e.size = 12 + e.data.length := rfl
  rw [nextEvent, sysexMessage_eq hdata hpos]
  by_cases hsysex : e.data.head? = some 0xF0
  · simp only [hsysex, decide_true, if_true]
    by_cases hlong : 4 < e.data.length
    · rcases he with ⟨-, hshort, -⟩ | ⟨body, hbody, hfree⟩
      · exact absurd hlong (Nat.not_lt.mpr hshort)
      · exact endOfSysex_of_long hrecord hbody hfree hlong
    · have hshort : e.data.length ≤ 4 := Nat.le_of_not_lt hlong
      have hpadding : e.size + padding e = 16 := by
        rw [padding]
        omega
      have hword := length_wordRecord e'
      have hsize' : e'.size = 12 + e'.data.length := rfl
      have htake : (padded e').take (4 * e.data.length) <+: wordRecord e' := by
        obtain ⟨rest, hrest⟩ := wordRecord_prefix_padded he'.length_pos
        rw [← hrest, List.take_append_of_le_length (by omega)]
        exact List.take_prefix _ _
      have hle := (wordRecord_prefix_padded he'.length_pos).length_le
      rw [hpadding] at hnext ⊢
      have hcells := Holds.of_prefix hnext htake
      rw [endOfSysex_of_short hlen hcells (by omega) (hseparate hsysex hshort)]
      rfl
  · simp only [hsysex, decide_false, Bool.false_eq_true, if_false]
    have hshort : e.data.length ≤ 4 := by
      rcases he with ⟨-, hshort, -⟩ | ⟨body, hbody, -⟩
      · exact hshort
      · rw [hbody] at hsysex
        exact absurd rfl hsysex
    have hpadding : e.size + padding e = 16 := by
      rw [padding]
      omega
    rw [hpadding]
    rfl

theorem doevent_eq (h : mem.Holds ptr (es.flatMap padded ++ wordRecord e))
    (hcomplete : ∀ e' ∈ es ++ [e], Complete e'.data) (hchain : (es ++ [e]).IsChain Separate) :
    doevent mem (es ++ [e]).length ptr = (es ++ [e]).map delivery := by
  induction es generalizing ptr with
  | nil =>
    have hevent := event_eq h (hcomplete e (List.mem_singleton_self e)).length_pos
    rw [List.nil_append, List.length_singleton, doevent, doevent, hevent]
    rfl
  | cons first es ih =>
    rw [List.flatMap_cons, List.append_assoc, Cells.holds_append] at h
    obtain ⟨hfirst, hrest⟩ := h
    have hfirst' := hcomplete first List.mem_cons_self
    have hevent := event_eq (Holds.of_prefix hfirst (wordRecord_prefix_padded hfirst'.length_pos))
      hfirst'.length_pos
    have hcomplete' : ∀ e' ∈ es ++ [e], Complete e'.data :=
      fun e' he' => hcomplete e' (List.mem_cons_of_mem _ he')
    rw [List.cons_append] at hchain ⊢
    obtain ⟨second, rest, hsecond, hword⟩ : ∃ second rest, es ++ [e] = second :: rest ∧
        wordRecord second <+: es.flatMap padded ++ wordRecord e := by
      cases es with
      | nil => exact ⟨e, [], rfl, List.prefix_rfl⟩
      | cons second es =>
        refine ⟨second, es ++ [e], rfl, ?_⟩
        rw [List.flatMap_cons, List.append_assoc]
        exact (wordRecord_prefix_padded (hcomplete' second List.mem_cons_self).length_pos).trans
          (List.prefix_append _ _)
    have hseparate : Separate first second := by
      rw [hsecond, List.isChain_cons_cons] at hchain
      exact hchain.1
    have hboth : mem.Holds ptr (padded first ++ wordRecord second) :=
      Cells.holds_append.mpr ⟨hfirst, Holds.of_prefix hrest hword⟩
    have hsecond' : Complete second.data := by
      apply hcomplete'
      rw [hsecond]
      exact List.mem_cons_self
    have hnext := nextEvent_eq hboth hfirst' hsecond' hseparate
    rw [length_padded] at hrest
    rw [List.length_cons, doevent, hevent, hnext, ih hrest hcomplete' hchain.tail]
    rfl

end Messages

end Incudine.JackMidi.Receiver

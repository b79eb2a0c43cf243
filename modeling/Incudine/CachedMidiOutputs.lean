import Incudine.CachedMidiInputs

/-!
# Cached MIDI outputs

While Lisp is busy, the MIDI messages for an output port are stored in its cache and put in the
port buffer at the end. Otherwise each message is an event of the port buffer.
-/

namespace Incudine.JackMidi

open ByteRing Octets

def dataSizeError : ℤ := -3

structure PortBuffers (B : Type*) where
  /-- `jack_midi_event_reserve` and the octets stored in the reserved memory. -/
  eventReserve : B → ℕ → List UInt8 → Option B
  events : B → List (List UInt8)

/-- What the server documents. The first event can be at the start of the cycle if it can be at a
later time. -/
structure PortBuffers.Documented {B : Type*} (api : PortBuffers B) : Prop where
  reserved : ∀ {b b' : B} {time : ℕ} {data : List UInt8},
    api.eventReserve b time data = some b' → api.events b' = api.events b ++ [data]
  first : ∀ {b : B} (time : ℕ) (data : List UInt8), api.events b = [] →
    (api.eventReserve b time data).isSome → (api.eventReserve b 0 data).isSome

structure OutputData (B : Type*) where
  portBuffer : Option B
  cache : RingBuffer UInt8

section Writers

variable {B : Type*} (api : PortBuffers B) (lispBusy : Bool) (time : ℕ)

/-- The branches of `jm_write_short` and `jm_write` for a port with a buffer. -/
def OutputData.store (p : OutputData B) (b : B) (data : List UInt8) (dataSize : UInt32) :
    OutputData B × ℤ :=
  if lispBusy then
    let (cache, n) := p.cache.write data dataSize
    ({ p with cache := cache }, if n = dataSize then 0 else writeError)
  else
    match api.eventReserve b time (data.take dataSize.toNat) with
    | some b => ({ p with portBuffer := some b }, 0)
    | none => (p, writeError)

def OutputData.writeShort (p : OutputData B) (msg dataSize : UInt32) : OutputData B × ℤ :=
  match p.portBuffer with
  | none => (p, writeError)
  | some b =>
    if 4 < dataSize then (p, dataSizeError)
    else p.store api lispBusy time b (littleEndian 4 msg.toNat) dataSize

def OutputData.write (p : OutputData B) (buffer : List UInt8) (dataSize : UInt32) :
    OutputData B × ℤ :=
  match p.portBuffer with
  | none => (p, writeError)
  | some b => p.store api lispBusy time b buffer dataSize

end Writers

def OutputData.writeCached {B : Type*} (api : PortBuffers B) (p : OutputData B) :
    OutputData B × ℤ :=
  match p.portBuffer with
  | none => (p, writeError)
  | some b =>
    let dataSize := p.cache.readSpace
    if dataSize = 0 then (p, 0)
    else
      match api.eventReserve b 0 (p.cache.peek dataSize) with
      | some b =>
        let (data, cache) := p.cache.read dataSize
        (⟨some b, cache⟩, if data.length = dataSize.toNat then 0 else writeError)
      | none => (p, writeError)

inductive WriteCall
  | short (time : ℕ) (msg dataSize : UInt32)
  | buffer (time : ℕ) (data : List UInt8) (h : data.length < 2 ^ 32)

namespace WriteCall

variable {B : Type*} (api : PortBuffers B) (lispBusy : Bool)

def run (p : OutputData B) : WriteCall → OutputData B
  | short time msg dataSize => (p.writeShort api lispBusy time msg dataSize).1
  | buffer time data _ => (p.write api lispBusy time data (UInt32.ofNat data.length)).1

/-- The message of a call, if its size is not an error, and its time. -/
def message : WriteCall → Option (ℕ × List UInt8)
  | short time msg dataSize =>
    if 4 < dataSize then none else some (time, (littleEndian 4 msg.toNat).take dataSize.toNat)
  | buffer time data _ => some (time, data)

def cycle (p : OutputData B) (calls : List WriteCall) : OutputData B :=
  ((calls.foldl (run api lispBusy) p).writeCached api).1

end WriteCall

def OutputData.events {B : Type*} (api : PortBuffers B) (p : OutputData B) : List (List UInt8) :=
  (p.portBuffer.map api.events).getD []

def PortBuffers.HasRoom {B : Type*} (api : PortBuffers B) : B → List (ℕ × List UInt8) → Prop
  | _, [] => True
  | b, m :: messages => ∃ b', api.eventReserve b m.1 m.2 = some b' ∧ api.HasRoom b' messages

section Cycle

variable {B : Type*} {api : PortBuffers B} {b : B} {p : OutputData B}

theorem take_littleEndian (msg dataSize : UInt32) (h : ¬ 4 < dataSize) :
    ((littleEndian 4 msg.toNat).take dataSize.toNat).length = dataSize.toNat := by
  rw [UInt32.lt_iff_toNat_lt] at h
  rw [List.length_take, length_littleEndian]
  exact Nat.min_eq_left (Nat.le_of_not_lt h)

theorem run_eq (hport : p.portBuffer = some b) (lispBusy : Bool) (call : WriteCall)
    {m : ℕ × List UInt8} (hm : call.message = some m) :
    ∃ data dataSize, call.run api lispBusy p = (p.store api lispBusy m.1 b data dataSize).1 ∧
      data.take dataSize.toNat = m.2 ∧ m.2.length = dataSize.toNat := by
  cases call with
  | short time msg dataSize =>
    by_cases hsize : 4 < dataSize
    · rw [WriteCall.message, if_pos hsize] at hm
      cases hm
    · rw [WriteCall.message, if_neg hsize] at hm
      cases hm
      refine ⟨_, dataSize, ?_, rfl, take_littleEndian msg dataSize hsize⟩
      rw [WriteCall.run, OutputData.writeShort, hport]
      simp only [if_neg hsize]
  | buffer time data h =>
    cases hm
    have hsize : (UInt32.ofNat data.length).toNat = data.length := by
      rw [UInt32.toNat_ofNat']
      exact Nat.mod_eq_of_lt h
    refine ⟨data, _, ?_, ?_, hsize.symm⟩
    · rw [WriteCall.run, OutputData.write, hport]
    · rw [hsize, List.take_length]

theorem run_error (lispBusy : Bool) (call : WriteCall) (hm : call.message = none) :
    call.run api lispBusy p = p := by
  cases call with
  | short time msg dataSize =>
    by_cases hsize : 4 < dataSize
    · rw [WriteCall.run, OutputData.writeShort]
      cases p.portBuffer with
      | none => rfl
      | some b => simp only [if_pos hsize]
    · rw [WriteCall.message, if_neg hsize] at hm
      cases hm
  | buffer => cases hm

def messages (calls : List WriteCall) : List (ℕ × List UInt8) := calls.filterMap WriteCall.message

theorem write_take (rb : RingBuffer UInt8) (src : List UInt8) (bytes : UInt32) :
    rb.write (src.take bytes.toNat) bytes = rb.write src bytes := by
  have htake : (src.take bytes.toNat).take (min bytes rb.writeSpace).toNat =
      src.take (min bytes rb.writeSpace).toNat := by
    rw [List.take_take, toNat_min]
    congr 1
    omega
  simp only [RingBuffer.write, htake]

theorem take_take_append {α : Type*} (a r : List α) (n : ℕ) :
    (a.take n ++ r).take n = (a ++ r).take n := by
  rcases Nat.le_total a.length n with h | h
  · rw [List.take_of_length_le h]
  · have hlength : (a.take n).length = n := List.length_take_of_le h
    rw [List.take_append_of_le_length h, List.take_left' hlength]

theorem take_append_take {α : Type*} {l : List α} {n : ℕ} (h : l.length ≤ n) (m r : List α) :
    ((l ++ m.take (n - l.length)) ++ r).take n = (l ++ (m ++ r)).take n := by
  have hcut : (l ++ m).take n = l ++ m.take (n - l.length) := by
    rw [List.take_append, List.take_of_length_le h]
  rw [← hcut, take_take_append, List.append_assoc]

theorem busy_eq {size : ℕ} {l : List UInt8} (hport : p.portBuffer = some b)
    (hcache : Holds size p.cache l) (calls : List WriteCall) :
    (calls.foldl (WriteCall.run api true) p).portBuffer = some b ∧
      Holds size (calls.foldl (WriteCall.run api true) p).cache
        ((l ++ (messages calls).flatMap Prod.snd).take (size - 1)) := by
  induction calls generalizing p l with
  | nil =>
    have hlt := hcache.lt_size
    refine ⟨hport, ?_⟩
    rw [messages, List.filterMap_nil, List.flatMap_nil, List.append_nil,
      List.take_of_length_le (by omega)]
    exact hcache
  | cons call calls ih =>
    rw [List.foldl_cons]
    cases hm : call.message with
    | none =>
      rw [run_error true call hm, messages, List.filterMap_cons_none hm]
      exact ih hport hcache
    | some m =>
      obtain ⟨data, dataSize, hrun, hdata, hsize⟩ :=
        @run_eq B api b p hport true call m hm
      have hwrite := (hcache.write hsize).1
      rw [← hdata, write_take, hdata] at hwrite
      have hport' : (call.run api true p).portBuffer = some b := by
        rw [hrun, OutputData.store, if_pos rfl]
        exact hport
      have hcache' : Holds size (call.run api true p).cache
          (l ++ m.2.take (size - 1 - l.length)) := by
        rw [hrun, OutputData.store, if_pos rfl]
        exact hwrite
      obtain ⟨hport'', hcache''⟩ := ih hport' hcache'
      refine ⟨hport'', ?_⟩
      have hlt := hcache.lt_size
      have htake : ((l ++ m.2.take (size - 1 - l.length)) ++
          (messages calls).flatMap Prod.snd).take (size - 1) =
            (l ++ (messages (call :: calls)).flatMap Prod.snd).take (size - 1) := by
        have hcons : messages (call :: calls) = m :: messages calls := List.filterMap_cons_some hm
        rw [hcons, List.flatMap_cons]
        exact take_append_take (by omega) _ _
      rw [htake] at hcache''
      exact hcache''

theorem direct_eq (hdoc : api.Documented) (hport : p.portBuffer = some b) (calls : List WriteCall)
    (hroom : api.HasRoom b (messages calls)) :
    ∃ b', calls.foldl (WriteCall.run api false) p = { p with portBuffer := some b' } ∧
      api.events b' = api.events b ++ (messages calls).map Prod.snd := by
  induction calls generalizing p b with
  | nil =>
    refine ⟨b, ?_, (List.append_nil _).symm⟩
    rw [List.foldl_nil, ← hport]
  | cons call calls ih =>
    rw [List.foldl_cons]
    cases hm : call.message with
    | none =>
      have hcons : messages (call :: calls) = messages calls := List.filterMap_cons_none hm
      rw [hcons] at hroom ⊢
      rw [run_error false call hm]
      exact ih hport hroom
    | some m =>
      have hcons : messages (call :: calls) = m :: messages calls := List.filterMap_cons_some hm
      rw [hcons] at hroom ⊢
      obtain ⟨b', hreserve, hroom'⟩ := hroom
      obtain ⟨data, dataSize, hrun, hdata, -⟩ :=
        @run_eq B api b p hport false call m hm
      have hstore : call.run api false p = { p with portBuffer := some b' } := by
        rw [hrun, OutputData.store, if_neg Bool.false_ne_true, hdata, hreserve]
      rw [hstore]
      obtain ⟨b'', hrest, hevents⟩ := @ih b' { p with portBuffer := some b' } rfl hroom'
      refine ⟨b'', hrest, ?_⟩
      rw [hevents, hdoc.reserved hreserve, List.map_cons, List.append_assoc,
        List.singleton_append]

theorem writeCached_eq {size : ℕ} {l : List UInt8} (hport : p.portBuffer = some b)
    (hcache : Holds size p.cache l) : p.writeCached api =
      if l = [] then (p, 0)
      else match api.eventReserve b 0 l with
        | some b => (⟨some b, (p.cache.read p.cache.readSpace).2⟩, 0)
        | none => (p, writeError) := by
  have hspace := hcache.readSpace
  have hpeek : p.cache.peek p.cache.readSpace = l := by
    rw [hcache.peek, hspace, List.take_length]
  have hzero : p.cache.readSpace = 0 ↔ l = [] := by
    rw [← List.length_eq_zero_iff, ← hspace, ← UInt32.toNat_inj]
    rfl
  rw [OutputData.writeCached, hport]
  by_cases hl : l = []
  · simp only [if_pos hl, if_pos (hzero.mpr hl)]
  · simp only [if_neg hl, if_neg (mt hzero.mp hl), hpeek]
    cases api.eventReserve b 0 l with
    | none => rfl
    | some b' => simp only [RingBuffer.read, hpeek, hspace, if_true]

end Cycle

section SameEvents

variable {B : Type*} {api : PortBuffers B} {b : B} {p : OutputData B} {calls : List WriteCall}

section

variable (hdoc : api.Documented) (hport : p.portBuffer = some b) (hempty : api.events b = [])
  (hcache : Holds ringbufferSize p.cache [])
include hdoc hport hempty hcache

theorem events_direct (hroom : api.HasRoom b (messages calls)) :
    (WriteCall.cycle api false p calls).events api = (messages calls).map Prod.snd := by
  obtain ⟨b', hrun, hevents⟩ := direct_eq hdoc hport calls hroom
  have hflush := @writeCached_eq B api b' ⟨some b', p.cache⟩ _ _ rfl hcache
  rw [if_pos rfl] at hflush
  rw [WriteCall.cycle, hrun, hflush, OutputData.events]
  rw [hempty, List.nil_append] at hevents
  exact hevents

theorem events_busy {l : List UInt8}
    (hl : ((messages calls).flatMap Prod.snd).take (ringbufferSize - 1) = l) :
    (WriteCall.cycle api true p calls).events api =
      if l = [] then [] else if (api.eventReserve b 0 l).isSome then [l] else [] := by
  obtain ⟨hport', hcache'⟩ := @busy_eq B api b p _ _ hport hcache calls
  rw [List.nil_append, hl] at hcache'
  rw [WriteCall.cycle, writeCached_eq hport' hcache']
  by_cases hnil : l = []
  · rw [if_pos hnil, if_pos hnil, OutputData.events, hport']
    exact hempty
  · rw [if_neg hnil, if_neg hnil]
    cases hreserve : api.eventReserve b 0 l with
    | none =>
      rw [OutputData.events, hport']
      exact hempty
    | some b' =>
      rw [OutputData.events]
      show api.events b' = [l]
      rw [hdoc.reserved hreserve, hempty, List.nil_append]

end

/-- The events are the same, whether Lisp is busy or not, if and only if there is at most one
message, that is not empty and fits in the cache. -/
theorem sameEvents_iff (hdoc : api.Documented) (hport : p.portBuffer = some b)
    (hempty : api.events b = []) (hcache : Holds ringbufferSize p.cache [])
    (hroom : api.HasRoom b (messages calls)) :
    (WriteCall.cycle api true p calls).events api =
        (WriteCall.cycle api false p calls).events api ↔
      (messages calls).length ≤ 1 ∧
        ∀ m ∈ messages calls, m.2 ≠ [] ∧ m.2.length < ringbufferSize := by
  rw [events_direct hdoc hport hempty hcache hroom, events_busy hdoc hport hempty hcache rfl]
  cases hcalls : messages calls with
  | nil => simp
  | cons m rest =>
    rw [hcalls] at hroom
    obtain ⟨b', hreserve, -⟩ := hroom
    cases rest with
    | nil =>
      have hflat : [m].flatMap Prod.snd = m.2 := List.flatMap_singleton _ _
      have hone : (∀ m' ∈ [m], m'.2 ≠ [] ∧ m'.2.length < ringbufferSize) ↔
          m.2 ≠ [] ∧ m.2.length < ringbufferSize := List.forall_mem_singleton
      rw [hflat, hone, List.map_singleton]
      constructor
      · intro h
        split_ifs at h with hnil hsome
        have hcut := List.singleton_inj.mp h
        refine ⟨le_rfl, ?_, ?_⟩
        · rw [← hcut]
          exact hnil
        · have hlength := congrArg List.length hcut
          rw [List.length_take] at hlength
          have hsize : 0 < ringbufferSize := by decide
          omega
      · rintro ⟨-, hnil, hlt⟩
        have hcut : m.2.take (ringbufferSize - 1) = m.2 := List.take_of_length_le (by omega)
        have hsome := hdoc.first m.1 m.2 hempty (by rw [hreserve]; rfl)
        rw [hcut, if_neg hnil, if_pos hsome]
    | cons m' rest =>
      constructor
      · intro h
        have hlength := congrArg List.length h
        split_ifs at hlength <;> simp at hlength
      · rintro ⟨hlength, -⟩
        simp at hlength

def listPortBuffers : PortBuffers (List (List UInt8)) := ⟨fun b _ data => some (b ++ [data]), id⟩

theorem listPortBuffers_documented : listPortBuffers.Documented where
  reserved := by
    intro b b' time data h
    cases h
    rfl
  first := fun _ _ _ _ => rfl

theorem listPortBuffers_hasRoom (b : List (List UInt8)) (messages : List (ℕ × List UInt8)) :
    listPortBuffers.HasRoom b messages := by
  induction messages generalizing b with
  | nil => trivial
  | cons m messages ih => exact ⟨_, rfl, ih _⟩

def emptyOutput : OutputData (List (List UInt8)) := ⟨some [], emptyPort.cache⟩

theorem sameEvents_noteOn :
    (WriteCall.cycle listPortBuffers true emptyOutput [.short 5 0x403c90 3]).events
        listPortBuffers =
      (WriteCall.cycle listPortBuffers false emptyOutput [.short 5 0x403c90 3]).events
        listPortBuffers :=
  (sameEvents_iff (p := emptyOutput) listPortBuffers_documented rfl rfl holding_emptyPort.cache
    (listPortBuffers_hasRoom _ _)).mpr
    ⟨by decide, by decide⟩

/-- A note on and a note off are joined in the cache. -/
theorem noteOn_noteOff_joined :
    (WriteCall.cycle listPortBuffers true emptyOutput
        [.short 0 0x403c90 3, .short 0 0x003c80 3]).events listPortBuffers =
      [[0x90, 0x3c, 0x40, 0x80, 0x3c, 0x00]] ∧
    (WriteCall.cycle listPortBuffers false emptyOutput
        [.short 0 0x403c90 3, .short 0 0x003c80 3]).events listPortBuffers =
      [[0x90, 0x3c, 0x40], [0x80, 0x3c, 0x00]] := by
  constructor
  · rw [events_busy (p := emptyOutput) listPortBuffers_documented rfl rfl holding_emptyPort.cache
      (l := [0x90, 0x3c, 0x40, 0x80, 0x3c, 0x00]) (by decide)]
    rfl
  · rw [events_direct (p := emptyOutput) listPortBuffers_documented rfl rfl
      holding_emptyPort.cache (listPortBuffers_hasRoom _ _)]
    decide

end SameEvents

end Incudine.JackMidi

import Incudine.Binary64
import Incudine.Octets
import Incudine.RingBufferCalls

/-!
# Cached MIDI inputs

During the suspended cycles the MIDI events are stored in the cache of the input port. When the
cycles are recovered, the events of each window are moved to the buffer of the receiver. The memory
has the lowest octet first.
-/

namespace Incudine.JackMidi

open ByteRing CircularArray Octets

def headerSize : ℕ := 12

def writeError : ℤ := -2

structure Event where
  time : ℕ
  data : List UInt8
  time_lt : time < 2 ^ 53
  length_lt : data.length < 2 ^ 32

def record (time : ℕ) (data : List UInt8) : List UInt8 :=
  littleEndian 8 (Binary64.ofNat time) ++ littleEndian 4 data.length ++ data

def Event.record (e : Event) : List UInt8 := JackMidi.record e.time e.data

def Event.size (e : Event) : ℕ := headerSize + e.data.length

def records (es : List Event) : List UInt8 := es.flatMap Event.record

def totalSize (es : List Event) : ℕ := (es.map Event.size).sum

/-- The input port. There is no port buffer if the server does not give it. -/
structure InputData where
  portBuffer : Bool
  rb : RingBuffer UInt8
  cache : RingBuffer UInt8

/-- The body of the loop over the events of a port in `jm_process2`. -/
def InputData.storeEvent (hasCachedInputs : Bool) (cycleStartTime timeOffset : ℕ) (p : InputData)
    (ev : ℕ × List UInt8) : InputData :=
  let rb := if hasCachedInputs then p.cache else p.rb
  let time := cycleStartTime + ev.1
  let time := if hasCachedInputs then time + timeOffset else time
  let size := ev.2.length + headerSize
  if size ≤ rb.writeSpace.toNat then
    let rb := (rb.write (record time ev.2) (UInt32.ofNat size)).1
    if hasCachedInputs then { p with cache := rb } else { p with rb := rb }
  else p

def InputData.process2 (hasCachedInputs : Bool) (cycleStartTime timeOffset : ℕ)
    (events : List (ℕ × List UInt8)) (p : InputData) : InputData :=
  if p.portBuffer then events.foldl (storeEvent hasCachedInputs cycleStartTime timeOffset) p else p

def nextMidiEventPosition (buffer : ℕ → UInt8) (b bufsize : ℕ) : ℕ :=
  let len := ofLittleEndian (copyFrom buffer (b + 8) 4)
  if bufsize ≤ len then 0 else headerSize + len

def readSpaceLoop (buffer : ℕ → UInt8) (sampleCounter frames n bufsize b : ℕ) : ℕ :=
  if n < bufsize then
    let time : ℚ := Binary64.value (ofLittleEndian (copyFrom buffer b 8)) - sampleCounter
    if (frames : ℚ) ≤ time then n
    else
      let size := nextMidiEventPosition buffer b bufsize
      if _hsize : size = 0 then n
      else if _hbufsize : bufsize ≤ size then n
      else readSpaceLoop buffer sampleCounter frames (n + size) (bufsize - size) (b + size)
  else n
termination_by bufsize

/-- The memory of `jm_pad_buffer` is changed too. -/
def cachedMidiInputsReadSpace (padBuffer : ℕ → UInt8) (sampleCounter frames : ℕ)
    (rb : RingBuffer UInt8) : (ℕ → UInt8) × ℕ :=
  let n := rb.readSpace
  if n = 0 then (padBuffer, 0)
  else
    let bytes := rb.peek n
    let padBuffer := copyTo padBuffer 0 bytes
    if bytes.length ≠ n.toNat then (padBuffer, 0)
    else (padBuffer, readSpaceLoop padBuffer sampleCounter frames 0 bytes.length 0)

def readCachedMidiInput (sampleCounter frames : ℕ) (padBuffer : ℕ → UInt8) (res : ℤ)
    (p : InputData) : (ℕ → UInt8) × ℤ × InputData :=
  if p.portBuffer then
    let (padBuffer, n) := cachedMidiInputsReadSpace padBuffer sampleCounter frames p.cache
    if 0 < n ∧ n ≤ p.rb.writeSpace.toNat then
      let (bytes, cache) := p.cache.read (UInt32.ofNat n)
      let padBuffer := copyTo padBuffer 0 bytes
      let (rb, written) := p.rb.write (copyFrom padBuffer 0 n) (UInt32.ofNat n)
      (padBuffer, if written.toNat ≠ bytes.length then writeError else res,
        { p with rb := rb, cache := cache })
    else (padBuffer, res, p)
  else (padBuffer, res, p)

def readCachedMidiInputsLoop (sampleCounter frames : ℕ) :
    List InputData → (ℕ → UInt8) → ℤ → (ℕ → UInt8) × ℤ × List InputData
  | [], padBuffer, res => (padBuffer, res, [])
  | p :: inputs, padBuffer, res =>
    let (padBuffer, res, p) := readCachedMidiInput sampleCounter frames padBuffer res p
    let (padBuffer, res, inputs) :=
      readCachedMidiInputsLoop sampleCounter frames inputs padBuffer res
    (padBuffer, res, p :: inputs)

structure State where
  inputs : List InputData
  padBuffer : ℕ → UInt8
  sampleCounter : ℕ

def State.readCachedMidiInputs (s : State) (frames : ℕ) : State :=
  let (padBuffer, _, inputs) :=
    readCachedMidiInputsLoop s.sampleCounter frames s.inputs s.padBuffer 0
  { inputs := inputs, padBuffer := padBuffer, sampleCounter := s.sampleCounter + frames }

/-- The receivers have taken some bytes from the buffers of the ports. -/
def State.receive (s : State) (received : ℕ → UInt32) : State :=
  { s with inputs := s.inputs.mapIdx fun i p => { p with rb := (p.rb.read (received i)).2 } }

section Records

theorem length_record (time : ℕ) (data : List UInt8) :
    (record time data).length = headerSize + data.length := by
  simp only [record, headerSize, List.length_append, length_littleEndian]

theorem Event.length_record (e : Event) : e.record.length = e.size :=
  JackMidi.length_record e.time e.data

theorem length_records (es : List Event) : (records es).length = totalSize es := by
  induction es with
  | nil => rfl
  | cons e es ih =>
    rw [records, List.flatMap_cons, List.length_append, e.length_record]
    exact congrArg (e.size + ·) ih

theorem totalSize_cons (e : Event) (es : List Event) :
    totalSize (e :: es) = e.size + totalSize es := rfl

theorem totalSize_append (es es' : List Event) :
    totalSize (es ++ es') = totalSize es + totalSize es' := by
  simp [totalSize]

theorem size_pos (e : Event) : 0 < e.size :=
  Nat.add_pos_left (by decide) _

theorem copyFrom_add (slots : ℕ → UInt8) (offset m n : ℕ) :
    copyFrom slots offset (m + n) = copyFrom slots offset m ++ copyFrom slots (offset + m) n := by
  simp only [copyFrom, List.range_add, List.map_append, List.map_map, Function.comp_def,
    Nat.add_assoc]

theorem records_append (es es' : List Event) : records (es ++ es') = records es ++ records es' :=
  List.flatMap_append

theorem records_singleton (e : Event) : records [e] = e.record :=
  List.flatMap_singleton ..

theorem copyFrom_record {buffer : ℕ → UInt8} {b : ℕ} {e : Event}
    (h : copyFrom buffer b e.size = e.record) :
    Binary64.value (ofLittleEndian (copyFrom buffer b 8)) = e.time ∧
      ofLittleEndian (copyFrom buffer (b + 8) 4) = e.data.length := by
  have hsplit : copyFrom buffer b e.size = copyFrom buffer b 8 ++ copyFrom buffer (b + 8) 4 ++
      copyFrom buffer (b + 12) e.data.length := by
    rw [← copyFrom_add, show b + 12 = b + (8 + 4) by rfl, ← copyFrom_add]
    rfl
  rw [hsplit] at h
  obtain ⟨hheader, -⟩ := List.append_inj h (by simp)
  obtain ⟨htime, hlen⟩ := List.append_inj hheader (by simp)
  constructor
  · rw [htime, ofLittleEndian_littleEndian, Binary64.value_ofNat e.time_lt]
    exact Binary64.ofNat_lt e.time_lt
  · rw [hlen, ofLittleEndian_littleEndian]
    exact e.length_lt

end Records

section ReadSpace

variable {buffer : ℕ → UInt8} {sampleCounter frames : ℕ}

/-- The events that precede the end of the window. -/
def due (limit : ℕ) (es : List Event) : List Event := es.takeWhile fun e => e.time < limit

/-- The events that the loop skips: they are due, they are not the last of the cache, and the
offset `n` is less than the remaining size. -/
def skipped (limit : ℕ) : ℕ → List Event → List Event
  | _, [] => []
  | n, e :: es =>
    if n < totalSize (e :: es) ∧ e.time < limit ∧ es ≠ [] then
      e :: skipped limit (n + e.size) es
    else []

theorem skipped_prefix_due (limit n : ℕ) (es : List Event) : skipped limit n es <+: due limit es := by
  induction es generalizing n with
  | nil => exact List.prefix_refl _
  | cons e es ih =>
    rw [skipped]
    split_ifs with h
    · rw [due, List.takeWhile_cons_of_pos (by simpa using h.2.1)]
      exact List.cons_prefix_cons.mpr ⟨rfl, ih _⟩
    · exact List.nil_prefix

theorem readSpaceLoop_eq {n b : ℕ} {es : List Event}
    (h : copyFrom buffer b (totalSize es) = records es) :
    readSpaceLoop buffer sampleCounter frames n (totalSize es) b =
      n + totalSize (skipped (sampleCounter + frames) n es) := by
  induction es generalizing n b with
  | nil =>
    rw [readSpaceLoop, if_neg (show ¬ n < totalSize [] from Nat.not_lt_zero n)]
    rfl
  | cons e es ih =>
    have hsplit : copyFrom buffer b e.size ++ copyFrom buffer (b + e.size) (totalSize es) =
        e.record ++ records es := by
      rw [← copyFrom_add, ← totalSize_cons, h]
      rfl
    obtain ⟨hrecord, hrest⟩ := List.append_inj hsplit (by rw [length_copyFrom, e.length_record])
    obtain ⟨htime, hlen⟩ := copyFrom_record hrecord
    have hpos : nextMidiEventPosition buffer b (totalSize (e :: es)) = e.size := by
      rw [nextMidiEventPosition, hlen, totalSize_cons, Event.size, headerSize]
      exact if_neg (by omega)
    have hdue : (frames : ℚ) ≤ e.time - sampleCounter ↔ ¬ e.time < sampleCounter + frames := by
      rw [le_sub_iff_add_le', Nat.not_lt]
      exact_mod_cast Iff.rfl
    rw [readSpaceLoop, htime, hpos, skipped]
    by_cases hn : n < totalSize (e :: es)
    swap
    · rw [if_neg hn, if_neg fun h => hn h.1]
      rfl
    by_cases hlimit : e.time < sampleCounter + frames
    swap
    · rw [if_pos hn, if_pos (hdue.mpr hlimit), if_neg fun h => hlimit h.2.1]
      rfl
    rw [if_pos hn, if_neg fun h => hdue.mp h hlimit, dif_neg (size_pos e).ne']
    cases es with
    | nil =>
      rw [dif_pos (show totalSize [e] ≤ e.size from Nat.le_refl _), if_neg fun h => h.2.2 rfl]
      rfl
    | cons e' es =>
      have hrest' := size_pos e'
      rw [dif_neg (by rw [totalSize_cons, totalSize_cons]; omega), totalSize_cons,
        Nat.add_sub_cancel_left, ih hrest, if_pos ⟨hn, hlimit, List.cons_ne_nil _ _⟩,
        totalSize_cons, Nat.add_assoc]

theorem due_cons_of_lt {limit : ℕ} {e : Event} (h : e.time < limit) (es : List Event) :
    due limit (e :: es) = e :: due limit es :=
  List.takeWhile_cons_of_pos (by simpa using h)

theorem due_cons_of_not_lt {limit : ℕ} {e : Event} (h : ¬ e.time < limit) (es : List Event) :
    due limit (e :: es) = [] :=
  List.takeWhile_cons_of_neg (by simpa using h)

theorem skipped_eq_due_iff {limit n : ℕ} {es : List Event} :
    skipped limit n es = due limit es ↔ due limit es = [] ∨ due limit es ≠ es ∧
      n + 2 * totalSize (due limit es).dropLast < totalSize es := by
  induction es generalizing n with
  | nil => exact iff_of_true rfl (.inl rfl)
  | cons e es ih =>
    rw [skipped]
    by_cases hlimit : e.time < limit
    swap
    · rw [if_neg fun h => hlimit h.2.1, due_cons_of_not_lt hlimit]
      exact iff_of_true rfl (.inl rfl)
    rw [due_cons_of_lt hlimit, totalSize_cons]
    by_cases hnext : due limit es = []
    · have hskipped : skipped limit (n + e.size) es = [] :=
        List.prefix_nil.mp (hnext ▸ skipped_prefix_due limit (n + e.size) es)
      rw [hnext, hskipped]
      by_cases h : n < e.size + totalSize es ∧ e.time < limit ∧ es ≠ []
      · rw [if_pos h]
        refine iff_of_true rfl (.inr ⟨fun heq => h.2.2 (List.cons.inj heq).2.symm, h.1⟩)
      · rw [if_neg h]
        refine iff_of_false (List.cons_ne_nil _ _).symm ?_
        rintro (hnil | ⟨hne, hlt⟩)
        · exact List.cons_ne_nil _ _ hnil
        · exact h ⟨hlt, hlimit, fun heq => hne (by rw [heq])⟩
    · rw [List.dropLast_cons_of_ne_nil hnext, totalSize_cons]
      have hes : es ≠ [] := fun heq => hnext (by rw [heq]; rfl)
      by_cases hn : n < e.size + totalSize es
      · rw [if_pos ⟨hn, hlimit, hes⟩, List.cons_eq_cons, and_iff_right rfl, ih]
        simp only [hnext, false_or, List.cons_ne_nil, ne_eq, List.cons.injEq, true_and]
        have hpos := size_pos e
        constructor
        · rintro ⟨hne, hlt⟩
          exact ⟨hne, by omega⟩
        · rintro ⟨hne, hlt⟩
          exact ⟨hne, by omega⟩
      · rw [if_neg fun h => hn h.1]
        refine iff_of_false (List.cons_ne_nil _ _).symm ?_
        rintro (hnil | ⟨hne, hlt⟩)
        · exact List.cons_ne_nil _ _ hnil
        · omega

theorem skipped_of_totalSize_eq {limit n : ℕ} {es : List Event}
    (h : totalSize (skipped limit n es) = totalSize (due limit es)) :
    skipped limit n es = due limit es := by
  obtain ⟨rest, hrest⟩ := skipped_prefix_due limit n es
  rw [← hrest, totalSize_append] at h
  cases rest with
  | nil => rw [← hrest, List.append_nil]
  | cons e rest =>
    have hpos := size_pos e
    rw [totalSize_cons] at h
    omega

theorem copyFrom_copyTo (slots : ℕ → UInt8) (offset : ℕ) (l : List UInt8) :
    copyFrom (copyTo slots offset l) offset l.length = l := by
  refine List.ext_getElem (length_copyFrom _ _) fun i hi hi' => ?_
  simp only [copyFrom, List.getElem_map, List.getElem_range]
  exact copyTo_self hi'

theorem cachedMidiInputsReadSpace_eq {size : ℕ} {cache : RingBuffer UInt8} {es : List Event}
    (h : Holds size cache (records es)) (padBuffer : ℕ → UInt8) (sampleCounter frames : ℕ) :
    (cachedMidiInputsReadSpace padBuffer sampleCounter frames cache).2 =
      totalSize (skipped (sampleCounter + frames) 0 es) := by
  have hspace := h.readSpace
  have hpeek : cache.peek cache.readSpace = records es := by
    rw [h.peek, hspace, List.take_length]
  rw [cachedMidiInputsReadSpace]
  by_cases hzero : cache.readSpace = 0
  · rw [if_pos hzero]
    cases es with
    | nil => rfl
    | cons e es =>
      have hpos := size_pos e
      rw [hzero, length_records, totalSize_cons] at hspace
      exact absurd hspace (by simp; omega)
  · simp only [if_neg hzero, hpeek, ← hspace, ne_eq, not_true_eq_false, if_false]
    rw [hspace, length_records, readSpaceLoop_eq, Nat.zero_add]
    rw [← length_records, copyFrom_copyTo]

end ReadSpace

/-- The bytes that the receiver has not read. -/
def unread (rb : RingBuffer UInt8) : List UInt8 := rb.peek rb.readSpace

def ringbufferSize : ℕ := 65536

theorem unread_eq {size : ℕ} {rb : RingBuffer UInt8} {l : List UInt8} (h : Holds size rb l) :
    unread rb = l := by
  rw [unread, h.peek, h.readSpace, List.take_length]

/-- A port of the server whose cache contains the records of some events. -/
structure Holding (p : InputData) (es : List Event) : Prop where
  portBuffer : p.portBuffer = true
  rb : ∃ l, Holds ringbufferSize p.rb l
  cache : Holds ringbufferSize p.cache (records es)

section Calls

variable {p : InputData} {es : List Event} {sampleCounter frames : ℕ}

theorem toNat_ofNat_of_lt {n : ℕ} (h : n < ringbufferSize) : (UInt32.ofNat n).toNat = n := by
  rw [UInt32.toNat_ofNat']
  exact Nat.mod_eq_of_lt (h.trans (by decide))

theorem Holding.storeEvent (h : Holding p es) (e : Event) (cycleStartTime timeOffset time : ℕ)
    (htime : e.time = cycleStartTime + time + timeOffset)
    (hroom : totalSize (es ++ [e]) < ringbufferSize) :
    Holding (p.storeEvent true cycleStartTime timeOffset (time, e.data)) (es ++ [e]) := by
  have hspace := h.cache.writeSpace
  have hsize : e.data.length + headerSize = e.size := Nat.add_comm _ _
  rw [totalSize_append, totalSize_cons, show totalSize [] = 0 from rfl] at hroom
  rw [length_records] at hspace
  have hlen : (record e.time e.data).length = (UInt32.ofNat e.size).toNat := by
    rw [toNat_ofNat_of_lt (by omega)]
    exact e.length_record
  obtain ⟨hcache, -⟩ := h.cache.write hlen
  rw [List.take_of_length_le (by rw [length_records]; exact e.length_record.trans_le (by omega))]
    at hcache
  simp only [InputData.storeEvent, if_true, hsize, ← htime]
  rw [if_pos (by omega)]
  refine ⟨h.portBuffer, h.rb, ?_⟩
  rw [records_append, records_singleton]
  exact hcache

theorem Holding.readCachedMidiInput (h : Holding p es) (padBuffer : ℕ → UInt8) (res : ℤ)
    (hroom : totalSize (skipped (sampleCounter + frames) 0 es) ≤ p.rb.writeSpace.toNat) :
    Holding (readCachedMidiInput sampleCounter frames padBuffer res p).2.2
        (es.drop (skipped (sampleCounter + frames) 0 es).length) ∧
      unread (JackMidi.readCachedMidiInput sampleCounter frames padBuffer res p).2.2.rb =
        unread p.rb ++ records (skipped (sampleCounter + frames) 0 es) := by
  have hn := cachedMidiInputsReadSpace_eq h.cache padBuffer sampleCounter frames
  obtain ⟨l, hrb⟩ := h.rb
  obtain ⟨rest, hrest⟩ := (skipped_prefix_due (sampleCounter + frames) 0 es).trans
    (List.takeWhile_prefix _)
  set moved := skipped (sampleCounter + frames) 0 es
  have hdrop : es.drop moved.length = rest := by rw [← hrest, List.drop_left]
  have hcache := h.cache
  rw [← hrest, records_append] at hcache
  have hlt := hcache.lt_size
  rw [List.length_append, length_records] at hlt
  rcases hspace : cachedMidiInputsReadSpace padBuffer sampleCounter frames p.cache with
    ⟨padBuffer, n⟩
  rw [hspace] at hn
  rw [JackMidi.readCachedMidiInput, if_pos h.portBuffer, hspace, hdrop]
  obtain rfl : n = totalSize moved := hn
  by_cases hzero : totalSize moved = 0
  · have hnil : moved = [] := by
      cases hmoved : moved with
      | nil => rfl
      | cons e es' =>
        have hpos := size_pos e
        rw [hmoved, totalSize_cons] at hzero
        omega
    rw [hnil] at hcache ⊢
    simp only [show totalSize [] = 0 from rfl, Nat.lt_irrefl, false_and, if_false]
    refine ⟨⟨h.portBuffer, ⟨l, hrb⟩, hcache⟩, (List.append_nil _).symm⟩
  · have hbytes := toNat_ofNat_of_lt (show totalSize moved < ringbufferSize by omega)
    have hpeek : p.cache.peek (UInt32.ofNat (totalSize moved)) = records moved := by
      rw [hcache.peek, hbytes, ← length_records, List.take_left]
    have hread := hcache.read (UInt32.ofNat (totalSize moved))
    have hdropCache : (records moved ++ records rest).drop (totalSize moved) = records rest := by
      rw [← length_records, List.drop_left]
    rw [hbytes, hdropCache] at hread
    have hlen : (records moved).length = (UInt32.ofNat (totalSize moved)).toNat := by
      rw [hbytes, length_records]
    have hroom' := hroom
    rw [hrb.writeSpace] at hroom'
    obtain ⟨hwrite, -⟩ := hrb.write hlen
    rw [List.take_of_length_le (by rw [length_records]; exact hroom')] at hwrite
    simp only [RingBuffer.read] at hread ⊢
    rw [if_pos ⟨Nat.pos_of_ne_zero hzero, hroom⟩]
    have hcopy : copyFrom (copyTo padBuffer 0 (records moved)) 0 (totalSize moved) =
        records moved := by rw [← length_records, copyFrom_copyTo]
    simp only [hpeek, hcopy]
    refine ⟨⟨h.portBuffer, ⟨_, hwrite⟩, hread⟩, ?_⟩
    rw [unread_eq hwrite, unread_eq hrb]

end Calls

theorem readCachedMidiInputsLoop_getElem? (sampleCounter frames : ℕ) {i : ℕ}
    {inputs : List InputData} {p : InputData} (hp : inputs[i]? = some p) (padBuffer : ℕ → UInt8)
    (res : ℤ) :
    ∃ padBuffer' res', (readCachedMidiInputsLoop sampleCounter frames inputs padBuffer res).2.2[i]? =
      some (readCachedMidiInput sampleCounter frames padBuffer' res' p).2.2 := by
  induction inputs generalizing i padBuffer res with
  | nil => cases hp
  | cons q inputs ih =>
    cases i with
    | zero =>
      obtain rfl : q = p := Option.some.inj hp
      exact ⟨padBuffer, res, rfl⟩
    | succ i => exact ih hp _ _

/-- The bytes taken from each port by its receiver since the previous call, and the frames of the
recovered cycle. -/
structure Call where
  received : ℕ → UInt32
  frames : ℕ

def State.call (s : State) (c : Call) : State :=
  (s.receive c.received).readCachedMidiInputs c.frames

/-- The events before the end of the window, and the others. -/
def before (limit : ℕ) (es : List Event) : List Event := es.filter fun e => e.time < limit

def after (limit : ℕ) (es : List Event) : List Event := es.filter fun e => limit ≤ e.time

/-- The events `es` of the port `i` are not moved yet. Each call adds to the unread bytes the
records of the events before the end of its window. -/
def Recovered (i : ℕ) : List Event → State → List Call → Prop
  | _, _, [] => True
  | es, s, c :: calls =>
    ((s.call c).inputs[i]?.map fun p => unread p.rb) =
      ((s.receive c.received).inputs[i]?.map fun p =>
        unread p.rb ++ records (before (s.sampleCounter + c.frames) es)) ∧
      Recovered i (after (s.sampleCounter + c.frames) es) (s.call c) calls

/-- The buffer of the receiver of the port `i` has room for the events of each window. -/
def HasRoom (i : ℕ) : List Event → State → List Call → Prop
  | _, _, [] => True
  | es, s, c :: calls =>
    (∀ p, (s.receive c.received).inputs[i]? = some p →
      totalSize (before (s.sampleCounter + c.frames) es) ≤ p.rb.writeSpace.toNat) ∧
      HasRoom i (after (s.sampleCounter + c.frames) es) (s.call c) calls

/-- In each window there is no event, or the cache contains later events and the last event of the
window starts in the first half of the cache. -/
def Separated : ℕ → List Event → List Call → Prop
  | _, _, [] => True
  | sampleCounter, es, c :: calls =>
    let limit := sampleCounter + c.frames
    (before limit es = [] ∨ after limit es ≠ [] ∧
      2 * totalSize (before limit es).dropLast < totalSize es) ∧
      Separated limit (after limit es) calls

section Runs

variable {es : List Event} {s : State} {i limit : ℕ}

theorem due_eq_before (h : es.Pairwise fun e e' => e.time ≤ e'.time) (limit : ℕ) :
    due limit es = before limit es ∧ es = before limit es ++ after limit es := by
  induction es with
  | nil => exact ⟨rfl, rfl⟩
  | cons e es ih =>
    obtain ⟨hle, hes⟩ := List.pairwise_cons.mp h
    obtain ⟨hdue, hsplit⟩ := ih hes
    by_cases hlimit : e.time < limit
    · have hnot : ¬ limit ≤ e.time := by omega
      simp only [before, after, due, hlimit, hnot, decide_true, decide_false, List.filter_cons_of_pos,
        List.takeWhile_cons_of_pos, Bool.false_eq_true, not_false_eq_true,
        List.filter_cons_of_neg, List.cons_append, List.cons.injEq, true_and] at hdue hsplit ⊢
      exact ⟨hdue, hsplit⟩
    · have hnone : before limit (e :: es) = [] := by
        refine List.filter_eq_nil_iff.mpr fun e' he' => ?_
        rcases List.mem_cons.mp he' with rfl | he'
        · simpa using hlimit
        · have := hle e' he'
          simp
          omega
      have hall : after limit (e :: es) = e :: es := by
        refine List.filter_eq_self.mpr fun e' he' => ?_
        rcases List.mem_cons.mp he' with rfl | he'
        · simpa using hlimit
        · have := hle e' he'
          simp
          omega
      rw [hnone, hall, due_cons_of_not_lt hlimit]
      exact ⟨rfl, rfl⟩

theorem skipped_eq_before_iff (h : es.Pairwise fun e e' => e.time ≤ e'.time) (limit : ℕ) :
    skipped limit 0 es = before limit es ↔ before limit es = [] ∨ after limit es ≠ [] ∧
      2 * totalSize (before limit es).dropLast < totalSize es := by
  obtain ⟨hdue, hsplit⟩ := due_eq_before h limit
  have hafter : before limit es ≠ es ↔ after limit es ≠ [] := by
    refine not_congr ⟨fun heq => ?_, fun hnil => ?_⟩
    · have hlen := congrArg List.length hsplit
      rw [List.length_append, heq, Nat.left_eq_add] at hlen
      exact List.length_eq_zero_iff.mp hlen
    · rw [hnil, List.append_nil] at hsplit
      exact hsplit.symm
  rw [← hafter, ← hdue, skipped_eq_due_iff, Nat.zero_add]

theorem receive_getElem? {p : InputData} (hp : s.inputs[i]? = some p) (received : ℕ → UInt32) :
    (s.receive received).inputs[i]? = some { p with rb := (p.rb.read (received i)).2 } := by
  simp [State.receive, hp]

theorem Holding.receive {p : InputData} (h : Holding p es) (bytes : UInt32) :
    Holding { p with rb := (p.rb.read bytes).2 } es := by
  obtain ⟨l, hrb⟩ := h.rb
  exact ⟨h.portBuffer, ⟨_, hrb.read bytes⟩, h.cache⟩

theorem call_port {p : InputData} {c : Call} (hsorted : es.Pairwise fun e e' => e.time ≤ e'.time)
    (hp : s.inputs[i]? = some p) (h : Holding p es)
    (hroom : ∀ p, (s.receive c.received).inputs[i]? = some p →
      totalSize (before (s.sampleCounter + c.frames) es) ≤ p.rb.writeSpace.toNat) :
    ∃ p', (s.call c).inputs[i]? = some p' ∧
      Holding p' (es.drop (skipped (s.sampleCounter + c.frames) 0 es).length) ∧
      (((s.call c).inputs[i]?.map fun p => unread p.rb) =
        ((s.receive c.received).inputs[i]?.map fun p =>
          unread p.rb ++ records (before (s.sampleCounter + c.frames) es)) ↔
        skipped (s.sampleCounter + c.frames) 0 es = before (s.sampleCounter + c.frames) es) := by
  have hq := receive_getElem? hp c.received
  have hroom' := hroom _ hq
  obtain ⟨hdue, -⟩ := due_eq_before hsorted (s.sampleCounter + c.frames)
  have hstart := skipped_prefix_due (s.sampleCounter + c.frames) 0 es
  have hle : totalSize (skipped (s.sampleCounter + c.frames) 0 es) ≤
      totalSize (before (s.sampleCounter + c.frames) es) := by
    rw [← hdue]
    obtain ⟨rest, hrest⟩ := hstart
    rw [← hrest, totalSize_append]
    exact Nat.le_add_right _ _
  obtain ⟨padBuffer, res, hget⟩ :=
    readCachedMidiInputsLoop_getElem? s.sampleCounter c.frames hq s.padBuffer 0
  obtain ⟨hholding, hunread⟩ :=
    (h.receive (c.received i)).readCachedMidiInput padBuffer res (hle.trans hroom')
  refine ⟨_, hget, hholding, ?_⟩
  rw [show (s.call c).inputs[i]? = _ from hget, hq, Option.map_some, Option.map_some,
    Option.some.injEq, hunread, List.append_cancel_left_eq]
  constructor
  · intro heq
    rw [← hdue]
    apply skipped_of_totalSize_eq
    rw [hdue, ← length_records, heq, length_records]
  · exact congrArg records

theorem drop_before (h : es.Pairwise fun e e' => e.time ≤ e'.time) (limit : ℕ) :
    es.drop (before limit es).length = after limit es := by
  have hlater := congrArg (List.drop (before limit es).length) (due_eq_before h limit).2
  rwa [List.drop_left] at hlater

end Runs

/-- Each event of the cache is moved once, whole and in order, in the call whose window contains
its timestamp, if and only if the events of each window are followed by other events in the cache
and the last of them starts in the first half of the cache. -/
theorem recovered_iff {i : ℕ} {es : List Event} {s : State} {p : InputData} {calls : List Call}
    (hsorted : es.Pairwise fun e e' => e.time ≤ e'.time) (hp : s.inputs[i]? = some p)
    (h : Holding p es) (hroom : HasRoom i es s calls) :
    Recovered i es s calls ↔ Separated s.sampleCounter es calls := by
  induction calls generalizing es s p with
  | nil => exact Iff.rfl
  | cons c calls ih =>
    obtain ⟨hroom, hrooms⟩ := hroom
    obtain ⟨p', hp', hholding, hiff⟩ := call_port hsorted hp h hroom
    rw [Recovered, Separated, hiff, skipped_eq_before_iff hsorted]
    refine and_congr_right fun hwindow => ?_
    have hskipped := (skipped_eq_before_iff hsorted _).mpr hwindow
    rw [hskipped, drop_before hsorted] at hholding
    exact ih (hsorted.filter _) hp' hholding hrooms

def emptyPort : InputData :=
  ⟨true, ⟨fun _ => 0, 0, 0, 65536, 65535⟩, ⟨fun _ => 0, 0, 0, 65536, 65535⟩⟩

theorem holding_emptyPort : Holding emptyPort [] := by
  have hcreate : create (fun _ => (0 : UInt8)) 65536 = some ⟨fun _ => 0, 0, 0, 65536, 65535⟩ := rfl
  exact ⟨rfl, ⟨[], holds_create hcreate⟩, holds_create hcreate⟩

def note (time : ℕ) (h : time < 2 ^ 53 := by decide) : Event :=
  ⟨time, [0x90, 60, 64], h, by decide⟩

/-- Three notes are stored in a suspended cycle and the first two are recovered in two cycles. -/
def threeNotes : InputData :=
  emptyPort.process2 true 0 0 [(0, [0x90, 60, 64]), (100, [0x90, 60, 64]), (200, [0x90, 60, 64])]

theorem recovered_threeNotes :
    Recovered 0 [note 0, note 100, note 200]
      ⟨[threeNotes], fun _ => 0, 0⟩ [⟨fun _ => 0, 64⟩, ⟨fun _ => 0, 64⟩] := by
  have hstored : threeNotes = ((emptyPort.storeEvent true 0 0 (0, [0x90, 60, 64])).storeEvent
      true 0 0 (100, [0x90, 60, 64])).storeEvent true 0 0 (200, [0x90, 60, 64]) := rfl
  have hholding : Holding threeNotes [note 0, note 100, note 200] := by
    have h := holding_emptyPort.storeEvent (note 0) 0 0 0 rfl (by decide)
    have h := h.storeEvent (note 100) 0 0 100 rfl (by decide)
    have h := h.storeEvent (note 200) 0 0 200 rfl (by decide)
    rw [hstored]
    exact h
  refine (recovered_iff (by decide) rfl hholding ?_).mpr ?_
  · refine ⟨fun p hp => ?_, fun p hp => ?_, trivial⟩
    · obtain rfl := Option.some.inj hp
      decide +kernel
    · obtain rfl := Option.some.inj hp
      decide +kernel
  · exact ⟨.inr (by decide), .inr (by decide), trivial⟩

/-- A note alone in the cache is not moved. -/
theorem note_not_recovered : ∃ p, Holding p [note 0] ∧
    ¬ Recovered 0 [note 0] ⟨[p], fun _ => 0, 0⟩ [⟨fun _ => 0, 64⟩] := by
  have hholding : Holding (emptyPort.storeEvent true 0 0 (0, [0x90, 60, 64])) [note 0] :=
    holding_emptyPort.storeEvent (note 0) 0 0 0 rfl (by decide)
  refine ⟨_, hholding, fun hrecovered => ?_⟩
  have hroom : HasRoom 0 [note 0]
      ⟨[emptyPort.storeEvent true 0 0 (0, [0x90, 60, 64])], fun _ => 0, 0⟩ [⟨fun _ => 0, 64⟩] :=
    ⟨fun p hp => by obtain rfl := Option.some.inj hp; decide +kernel, trivial⟩
  obtain ⟨p', -, -, hiff⟩ := call_port (List.pairwise_singleton _ _) rfl hholding hroom.1
  have hwindow := (skipped_eq_before_iff (List.pairwise_singleton _ _) 64).mp (hiff.mp hrecovered.1)
  revert hwindow
  decide

end Incudine.JackMidi

import Incudine.OscMessage

/-!
# The buffer of an OSC stream

Messages and bundles are written in place. The addresses are relative to the message pointer: the
length of the first message is at -4, the bundle starts at -20 and the count prefix of a bundle is
at -24. The machine is little-endian.
-/

namespace Incudine.Osc

open Octets

/-- `htonl(*((uint32_t *) a))`. -/
def Memory.word (mem : Memory) (a : ℤ) : ℕ := ofBigEndian (mem.read a 4)

/-- The string at an address. The first argument bounds the length by the size of the buffer. -/
def Memory.cString (mem : Memory) : ℕ → ℤ → List Octet
  | 0, _ => []
  | n + 1, a => if mem a = 0 then [] else mem a :: Memory.cString mem n (a + 1)

def charToInt (b : Octet) : ℤ := if b.toNat < 0x80 then b.toNat else (b.toNat : ℤ) - 0x100

/-- The pointers to the values (`ibuf`) and their types (`typebuf`). -/
structure Index where
  slots : Cells ℤ
  tbuf : Cells Octet

def typeWords (mem : Memory) (size : ℕ) (a : ℤ) (t : Octet) : Option ℕ :=
  if t = ascii 'f' ∨ t = ascii 'i' ∨ t = ascii 'c' then some 1
  else if t = ascii 'd' ∨ t = ascii 'h' then some 2
  else if t = ascii 's' ∨ t = ascii 'S' then some ((mem.cString size a).length / 4 + 1)
  else if t = ascii 'b' then
    some (fixSize ((ofLittleEndian (mem.read a 4) + 3) % 0x100000000) % 0x100000000 / 4)
  else if t = ascii 't' then some 2
  else if t = ascii 'm' then some 1
  else none

/-- The loop of `index_osc_values` over the types. `data` is the address of the next value. -/
def indexLoop (mem : Memory) (size : ℕ) :
    List Octet → ℤ → ℤ → ℤ → Index → Index × ℤ × ℤ
  | [], res, _, data, x => (x, res, data)
  | t :: types, res, tbuf, data, x =>
    let x := { slots := x.slots.store res [data], tbuf := x.tbuf.store tbuf [t] }
    match typeWords mem size data t with
    | some n => indexLoop mem size types (res + 1) (tbuf + 1) (data + 4 * n) x
    | none => indexLoop mem size types res tbuf data x

def indexOscValues (mem : Memory) (size : ℕ) (x : Index) (typesStart dataStart : ℤ) : Index :=
  let requiredValues := charToInt (x.tbuf 0)
  -- The second slot is reserved for the pointer to the free memory.
  let values := 2 + requiredValues
  let loop := indexLoop mem size (mem.cString size typesStart) values (1 + requiredValues)
    dataStart { x with slots := x.slots.store 0 [typesStart] }
  let x := loop.1
  let res := loop.2.1
  let free := loop.2.2
  { slots := (x.slots.store res [free]).store 1 [free]
    tbuf := x.tbuf.store 0 [UInt8.ofNat (res - values).toNat] }

def oscStartMessage (mem : Memory) (maxlen : ℕ) (x : Index) (address types : List Octet) :
    Memory × Index × ℕ :=
  let mem := (mem.store 0 (zeros maxlen)).store 0 address
  let i := fixSize address.length
  let mem := mem.store i (ascii ',' :: types)
  let x := indexOscValues mem maxlen { x with tbuf := x.tbuf.store 0 [0] } (i + 1 : ℕ)
    (fixSize (i + 1 + types.length) : ℕ)
  let bytes := (x.slots 1).toNat
  (mem.store (-4) (bigEndian 4 bytes), x, bytes)

def oscBundleAppendMessage (mem : Memory) (size : ℕ) (x : Index) (address types : List Octet)
    (offset : ℕ) : Memory × Index × ℕ :=
  let msg := offset + 4
  let mem := mem.store msg address
  let i := fixSize address.length
  let mem := mem.store (msg + i : ℕ) (ascii ',' :: types)
  let requiredValues := x.tbuf 0
  let x := indexOscValues mem size x (msg + (i + 1) : ℕ) (msg + fixSize (i + 1 + types.length) : ℕ)
  let x := { x with tbuf := x.tbuf.store 0 [x.tbuf 0 + requiredValues] }
  let bytes := (x.slots 1 - (msg : ℤ)).toNat
  (mem.store offset (bigEndian 4 bytes), x, bytes + 4)

def oscMoveDataLeft (mem : Memory) (start stop : ℤ) (n : ℕ) : Memory :=
  mem.moveLeft 4 (4 * n) start ((stop - start + 3) / 4).toNat

def oscMoveDataRight (mem : Memory) (start stop : ℤ) (n : ℕ) : Memory :=
  mem.moveRight 4 (4 * n) start ((stop - start + 3) / 4).toNat

def oscFixLength (value stop diff : ℤ) : ℕ → ℤ → Memory → Memory
  | 0, _, mem => mem
  | fuel + 1, len, mem =>
    let n := toInt (mem.word len)
    let p := len + n + 4
    if value < p then mem.store len (bigEndian 4 ((n + diff) % 0x100000000).toNat)
    else if p < stop then oscFixLength value stop diff fuel p mem
    else mem

/-- The loop that moves the pointers to the values; it returns the last index. -/
def shiftPointers (free shift : ℤ) : ℕ → ℤ → Cells ℤ → Cells ℤ × ℤ
  | 0, i, data => (data, i)
  | fuel + 1, i, data =>
    if data i < free then shiftPointers free shift fuel (i + 1) (data.store i [data i + 4 * shift])
    else (data, i)

/-- The size of the old value. If there are two or more messages, the difference between the
addresses of two adjacent values is not the length of the value. -/
def oldSize (size : ℕ) (mem : Memory) (data : Cells ℤ) (index : ℤ) (single last blob : Bool) : ℤ :=
  if single || last then data (index + 1) - data index
  else if blob then (fixSize ((mem.word (data index) + 3) % 0x100000000) % 0x100000000 : ℕ)
  else (fixSize (mem.cString size (data index)).length : ℕ)

/-- The values from the address `next` on are moved by `shift` words. -/
def moveValues (maxValues : ℕ) (mem : Memory) (data : Cells ℤ) (index next shift : ℤ) :
    Memory × Cells ℤ :=
  let free := data 1
  let mem := if shift < 0 then oscMoveDataLeft mem next free (-shift).toNat
    else oscMoveDataRight mem next free shift.toNat
  let pointers := shiftPointers free shift (maxValues + 3) (index + 1) data
  let i := pointers.2
  let last := pointers.1 i + 4 * shift
  (mem, (pointers.1.store i [last]).store 1 [last])

/-- `osc_maybe_reserve_space`; `maxValues` and `size` are the limits of the vector of the values
and of the buffer. -/
def oscMaybeReserveSpace (maxValues size : ℕ) (mem : Memory) (data : Cells ℤ) (index : ℤ)
    (dataSize : ℕ) (single last blob : Bool) : Memory × Cells ℤ :=
  let next := data index + oldSize size mem data index single last blob
  let diff := dataSize - oldSize size mem data index single last blob
  let shift := diff.tdiv 4
  let moved := if shift = 0 then (mem, data) else moveValues maxValues mem data index next shift
  let data := moved.2
  let mem := moved.1.store (next + 4 * shift - 4) (zeros 4)
  if !single && shift != 0 then (oscFixLength (data index) (data 1) diff (size + 1) (-4) mem, data)
  else (mem, data)

inductive Protocol
  | udp
  | tcp
  deriving Repr, DecidableEq

structure Stream where
  protocol : Protocol
  slip : Bool
  output : Bool
  bufferSize : ℕ
  maxValues : ℕ
  buffer : Memory
  index : Index
  messageLength : ℕ
  messageOffset : ℕ
  bundleLength : ℕ
  singleMessage : Bool
  bufferToIndex : Bool

namespace Stream

def requiredValues (s : Stream) : ℕ := (s.index.tbuf 0).toNat

def setBundleLength (s : Stream) : Stream :=
  let s := { s with bundleLength := s.messageLength + 20 }
  if s.protocol = .tcp ∧ !s.slip then
    { s with buffer := s.buffer.store (-24) (bigEndian 4 s.bundleLength) }
  else s

def setBundleFirstElementLength (s : Stream) : Stream :=
  { s with buffer := s.buffer.store (-4) (bigEndian 4 s.messageLength) }

def maybeReserveSpace (s : Stream) (index : ℤ) (dataSize : ℕ) (lastMessage blob : Bool) : Stream :=
  let r := oscMaybeReserveSpace s.maxValues s.bufferSize s.buffer s.index.slots index dataSize
    s.singleMessage lastMessage blob
  let s' := { s with buffer := r.1, index := { s.index with slots := r.2 } }
  let newLength := (s'.index.slots 1).toNat
  if s.messageLength = newLength then s'
  else
    let s' := { s' with messageLength := newLength }
    if !lastMessage && s.output then
      let s' := s'.setBundleLength
      if s.singleMessage then s'.setBundleFirstElementLength else s'
    else s'

def setString (s : Stream) (index : ℤ) (string : List Octet) (lastMessage : Bool) : Stream :=
  let s := s.maybeReserveSpace index (fixSize string.length) lastMessage false
  { s with buffer := s.buffer.store (s.index.slots index) string }

def setBlob (s : Stream) (index : ℤ) (buffer : List Octet) (lastMessage : Bool) : Stream :=
  let s := s.maybeReserveSpace index (fixSize (buffer.length + 3)) lastMessage true
  let ptr := s.index.slots index
  { s with buffer := (s.buffer.store ptr (bigEndian 4 buffer.length)).store (ptr + 4) buffer }

def storeValue (s : Stream) (index : ℕ) (octets : List Octet) : Stream :=
  { s with buffer := s.buffer.store (s.index.slots (index + 2)) octets }

def setValue (s : Stream) (index : ℕ) (value : Arg) (lastMessage : Bool) : Option Stream :=
  if s.index.tbuf (1 + index) = value.tag then
    match value with
    | .int32 n => some (s.storeValue index (bigEndian 4 n.toNat))
    | .float bits => some (s.storeValue index (bigEndian 4 bits.toNat))
    | .int64 n => some (s.storeValue index (bigEndian 8 n.toNat))
    | .double bits => some (s.storeValue index (bigEndian 8 bits.toNat))
    | .string string => some (s.setString (index + 2) string lastMessage)
    | .symbol string => some (s.setString (index + 2) string lastMessage)
    | .timetag time => some (s.storeValue index (littleEndian 8 time.toNat))
    | .timetagDouble bits => some (s.storeValue index (bigEndian 8 bits.toNat))
    | .blob buffer => some (s.setBlob (index + 2) buffer lastMessage)
    | .midi message => some (s.storeValue index (littleEndian 4 message.toNat))
    | .char c => some (s.storeValue index (bigEndian 4 c.toNat))
    | _ => none
  else none

def setValues (lastMessage : Bool) : List Arg → ℕ → Stream → Option Stream
  | [], _, s => some s
  | value :: values, i, s =>
    (s.setValue i value lastMessage).bind (setValues lastMessage values (i + 1))

def startMessage (s : Stream) (address types : List Octet) : Option Stream :=
  if s.maxValues < types.length then none
  else
    let r := oscStartMessage s.buffer s.bufferSize s.index address types
    some { s with singleMessage := true, buffer := r.1, index := r.2.1, messageLength := r.2.2 }

def writeMessage (s : Stream) (m : Message) : Option Stream :=
  (s.startMessage m.address m.types).bind (setValues false m.values 0)

def simpleBundle (s : Stream) (m : Message) : Option Stream :=
  (s.writeMessage m).map fun s => s.setBundleLength.setBundleFirstElementLength

def appendMessage (s : Stream) (m : Message) (firstValueIndex : ℕ) : Option Stream :=
  if s.maxValues < m.types.length + firstValueIndex then none
  else
    let offset := s.messageLength
    let r := oscBundleAppendMessage s.buffer s.bufferSize s.index m.address m.types offset
    (setValues true m.values firstValueIndex { s with buffer := r.1, index := r.2.1 }).map fun s =>
      if s.messageLength = offset then { s with messageLength := offset + r.2.2 }
      else { s with buffer := s.buffer.store offset (bigEndian 4 (s.messageLength - offset - 4)) }

def appendMessages : List Message → Stream → Option Stream
  | [], s => some s
  | m :: more, s => (s.appendMessage m s.requiredValues).bind (appendMessages more)

def bundle (s : Stream) (m : Message) (more : List Message) : Option Stream :=
  (((s.startMessage m.address m.types).bind fun s =>
    setValues true m.values 0 { s with singleMessage := more.isEmpty }).bind
      (appendMessages more)).map setBundleLength

def setBundleTime (s : Stream) (sec frac : BitVec 32) : Stream :=
  let buffer := s.buffer.store (-12) (bigEndian 4 sec.toNat)
  { s with buffer := buffer.store (-8) (bigEndian 4 frac.toNat) }

/-- The octets before the messages, with the count prefix of the packets if there is one. -/
def reservedBufferSize (protocol : Protocol) (slip : Bool) : ℕ :=
  20 + if protocol = .tcp ∧ !slip then 4 else 0

/-- `open` and `init-stream` with the result of `encode-timestamp`; `slots` is the content of the
new vector of the values. -/
def openStream (protocol : Protocol) (slip output : Bool) (bufferSize maxValues : ℕ)
    (slots : Cells ℤ) (sec frac : BitVec 32) : Stream :=
  let bufferSize := max 1500 bufferSize
  let buffer : Memory := fun _ => 0
  let s : Stream :=
    { protocol := protocol
      slip := slip
      output := output
      bufferSize := bufferSize - reservedBufferSize protocol slip
      maxValues := maxValues
      buffer := buffer.store (-20) bundleMagic
      index := ⟨slots, fun _ => 0⟩
      messageLength := 0
      messageOffset := 0
      bundleLength := 0
      singleMessage := true
      bufferToIndex := false }
  s.setBundleTime sec frac

def messageOctets (s : Stream) : List Octet := s.buffer.read 0 s.messageLength

def bundleOctets (s : Stream) : List Octet := s.buffer.read (-20) s.bundleLength

end Stream

end Incudine.Osc

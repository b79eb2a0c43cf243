import Incudine.OscReceiver
import Incudine.OscValue

/-!
# Input streams

A stream receives a packet in its buffer and indexes the values of a message. On little endian
machines the numbers are swapped in place.
-/

namespace Incudine.Osc

open Octets

def swapValue (mem : Memory) (a : ℤ) (t : Octet) : Memory :=
  if t = ascii 'f' ∨ t = ascii 'i' ∨ t = ascii 'c' ∨ t = ascii 'b' then
    mem.store a (mem.read a 4).reverse
  else if t = ascii 'd' ∨ t = ascii 'h' then mem.store a (mem.read a 8).reverse
  else mem

def indexLoopLe (size : ℕ) : List Octet → ℤ → ℤ → ℤ → Memory → Index → Memory × Index × ℤ × ℤ × ℤ
  | [], res, tbuf, data, mem, x => (mem, x, res, tbuf, data)
  | t :: types, res, tbuf, data, mem, x =>
    let x := { slots := x.slots.store res [data], tbuf := x.tbuf.store tbuf [t] }
    let mem := swapValue mem data t
    match typeWords mem size data t with
    | some n => indexLoopLe size types (res + 1) (tbuf + 1) (data + 4 * n) mem x
    | none => indexLoopLe size types res tbuf data mem x

def indexOscValuesLe (mem : Memory) (size : ℕ) (x : Index) (typesStart dataStart : ℤ) :
    Memory × Index :=
  let (mem, x, res, tbuf, free) := indexLoopLe size (mem.cString size typesStart) 2 1 dataStart mem
    { x with slots := x.slots.store 0 [typesStart] }
  (mem, { slots := (x.slots.store res [free]).store 1 [free]
          tbuf := (x.tbuf.store 0 [UInt8.ofNat (res - 2).toNat]).store tbuf [0] })

namespace Stream

/-- The loop of `stream-buffer-strlen`; the first argument bounds the number of the steps. -/
def strlenLoop (mem : Memory) : ℕ → ℕ → ℕ
  | 0, i => i + 1
  | n + 1, i => if mem i = 0 then i + 1 else strlenLoop mem n (i + 4)

def streamBufferStrlen (s : Stream) (offset : ℕ) : ℕ :=
  strlenLoop s.buffer (s.bufferSize + 1) (offset + 3)

def indexValues (s : Stream) (force swap : Bool) (messageOffset : ℕ) : Stream :=
  if force || s.bufferToIndex then
    let typesStart := s.streamBufferStrlen messageOffset
    let dataStart := s.streamBufferStrlen typesStart
    let x := { s.index with tbuf := s.index.tbuf.store 0 [0] }
    let r := if swap then
        indexOscValuesLe s.buffer s.bufferSize x (typesStart + 1 : ℕ) dataStart
      else (s.buffer, indexOscValues s.buffer s.bufferSize x (typesStart + 1 : ℕ) dataStart)
    { s with buffer := r.1, index := r.2, bufferToIndex := false }
  else s

def messageFromBundle (s : Stream) : Bool := s.buffer.read 0 8 = bundleMagic

/-- The part of `%receive` after the system call, that returns `res`. -/
def received (s : Stream) (res : ℤ) : Stream × ℤ :=
  if res ≤ 0 then ({ s with messageLength := 0 }, res)
  else if s.messageFromBundle then
    let s := { s with buffer := s.buffer.store (-4) (littleEndian 4 res.toNat) }
    let s := { s with messageLength := s.buffer.word 16, messageOffset := 20 }
    let s := { s.indexValues true true 20 with singleMessage := true }
    (s, s.messageLength)
  else
    ({ s with bufferToIndex := true, singleMessage := true, messageLength := res.toNat }, res)

def slipDecode (s : Stream) : Stream :=
  let octets := oscSlipDecode (s.buffer.octets s.messageLength) (s.buffer s.messageLength)
  { s with buffer := s.buffer.store 0 octets, messageLength := octets.length }

def receiveDatagram (s : Stream) (datagram : List Octet) : Stream × ℤ :=
  let octets := datagram.take s.bufferSize
  let r := { s with buffer := s.buffer.store 0 octets }.received octets.length
  (if s.slip then r.1.slipDecode else r.1, r.2)

def inputStream : Stream := openStream .udp false false 1500 10 (fun _ => 0) 0 1

def swappedIntegers : Stream :=
  (inputStream.receiveDatagram
    [47, 97, 0, 0, 44, 105, 105, 0, 0, 0, 0, 1, 0, 0, 0, 2]).1.indexValues false true 0

/-- The new value is in network byte order, the other one is not. -/
theorem swappedIntegers_setValue :
    (swappedIntegers.setValue 0 (.int32 5) false).map messageOctets =
      some [47, 97, 0, 0, 44, 105, 105, 0, 0, 0, 0, 5, 2, 0, 0, 0] ∧
    (swappedIntegers.build [⟨⟨"/a".toList.map ascii, by decide⟩, [.int32 5, .int32 2]⟩]).map
        messageOctets =
      some [47, 97, 0, 0, 44, 105, 105, 0, 0, 0, 0, 5, 0, 0, 0, 2] := by
  decide +kernel

end Stream

end Incudine.Osc

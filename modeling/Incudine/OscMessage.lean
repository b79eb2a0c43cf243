import Incudine.Cells
import Incudine.Octets

/-!
# OSC messages

The encoding of the messages and bundles of Open Sound Control: strings and blobs are padded with
zeros to a multiple of four octets, the numbers have the highest octet first.
-/

namespace Incudine.Osc

open Octets

abbrev Octet := UInt8

def ascii (c : Char) : Octet := UInt8.ofNat c.toNat

/-- The buffer of a stream. -/
abbrev Memory := Cells Octet

/-- The octets of a string without the zero at the end. -/
abbrev CString := {s : List Octet // 0 ∉ s}

def toInt (n : ℕ) : ℤ := if n < 0x80000000 then n else (n : ℤ) - 0x100000000

def zeros (n : ℕ) : List Octet := List.replicate n 0

def fixSize (n : ℕ) : ℕ := n + 4 - n % 4

def oscString (s : List Octet) : List Octet := s ++ zeros (fixSize s.length - s.length)

def oscBlob (b : List Octet) : List Octet :=
  bigEndian 4 b.length ++ b ++ zeros (fixSize (b.length + 3) - (4 + b.length))

/-- A type tag with the value, if it needs one. A float is the integer with the same bits. The
value of a time tag is a double float, or an integer in the byte order of the network: the memory
of the integer is the time tag. -/
inductive Arg
  | int32 (n : BitVec 32)
  | float (bits : BitVec 32)
  | int64 (n : BitVec 64)
  | double (bits : BitVec 64)
  | string (s : CString)
  | symbol (s : CString)
  | blob (b : List Octet)
  | char (c : Octet)
  | midi (message : BitVec 32)
  | timetag (time : BitVec 64)
  | timetagDouble (bits : BitVec 64)
  | trueValue
  | falseValue
  | nilValue
  | infinitum

namespace Arg

def tag : Arg → Octet
  | int32 _ => ascii 'i'
  | float _ => ascii 'f'
  | int64 _ => ascii 'h'
  | double _ => ascii 'd'
  | string _ => ascii 's'
  | symbol _ => ascii 'S'
  | blob _ => ascii 'b'
  | char _ => ascii 'c'
  | midi _ => ascii 'm'
  | timetag _ => ascii 't'
  | timetagDouble _ => ascii 't'
  | trueValue => ascii 'T'
  | falseValue => ascii 'F'
  | nilValue => ascii 'N'
  | infinitum => ascii 'I'

def required (a : Arg) : Bool := a.tag ∈ ['b', 'c', 'd', 'f', 'h', 'i', 'm', 's', 'S', 't'].map ascii

def encode : Arg → List Octet
  | int32 n => bigEndian 4 n.toNat
  | float bits => bigEndian 4 bits.toNat
  | int64 n => bigEndian 8 n.toNat
  | double bits => bigEndian 8 bits.toNat
  | string s => oscString s
  | symbol s => oscString s
  | blob b => oscBlob b
  | char c => bigEndian 4 c.toNat
  | midi message => littleEndian 4 message.toNat
  | timetag time => littleEndian 8 time.toNat
  | timetagDouble bits => bigEndian 8 bits.toNat
  | _ => []

def networkEncode : Arg → List Octet
  | timetag time => bigEndian 8 time.toNat
  | a => a.encode

/-- The value of a new message: zero, or an empty string or blob. -/
def initial : Arg → Arg
  | int32 _ => int32 0
  | float _ => float 0
  | int64 _ => int64 0
  | double _ => double 0
  | string _ => string ⟨[], List.not_mem_nil⟩
  | symbol _ => symbol ⟨[], List.not_mem_nil⟩
  | blob _ => blob []
  | char _ => char 0
  | midi _ => midi 0
  | timetag _ => timetag 0
  | timetagDouble _ => timetag 0
  | a => a

end Arg

/-- An OSC message. The type tag string is the one of the arguments. -/
structure Message where
  address : CString
  args : List Arg

namespace Message

def types (m : Message) : List Octet := m.args.map Arg.tag

def values (m : Message) : List Arg := m.args.filter Arg.required

/-- The address pattern and the type tag string. -/
def head (m : Message) : List Octet := oscString m.address ++ oscString (ascii ',' :: m.types)

def encode (m : Message) : List Octet := m.head ++ m.args.flatMap Arg.encode

end Message

def element (m : Message) : List Octet := bigEndian 4 m.encode.length ++ m.encode

/-- The octets of the messages with their sizes. -/
def elements (messages : List Message) : List Octet := messages.flatMap element

def bundleMagic : List Octet := "#bundle".toList.map ascii ++ [0]

/-- An OSC bundle with the two halves of the time tag. -/
def encodeBundle (sec frac : BitVec 32) (messages : List Message) : List Octet :=
  bundleMagic ++ bigEndian 4 sec.toNat ++ bigEndian 4 frac.toNat ++ elements messages

section Sizes

theorem fixSize_mod (n : ℕ) : fixSize n % 4 = 0 := by
  rw [fixSize]
  omega

theorem lt_fixSize (n : ℕ) : n < fixSize n := by
  rw [fixSize]
  omega

theorem fixSize_le (n : ℕ) : fixSize n ≤ n + 4 := by
  rw [fixSize]
  omega

@[simp] theorem length_zeros (n : ℕ) : (zeros n).length = n := List.length_replicate

theorem length_oscString (s : List Octet) : (oscString s).length = fixSize s.length := by
  have hlt := lt_fixSize s.length
  rw [oscString, List.length_append, length_zeros]
  omega

theorem length_oscBlob (b : List Octet) : (oscBlob b).length = fixSize (b.length + 3) := by
  have hlt := lt_fixSize (b.length + 3)
  rw [oscBlob, List.length_append, List.length_append, length_bigEndian, length_zeros]
  omega

theorem Arg.length_encode (a : Arg) :
    a.encode.length % 4 = 0 ∧ (a.required = true → 4 ≤ a.encode.length) := by
  cases a with
  | string s | symbol s =>
    rw [encode, length_oscString]
    exact ⟨fixSize_mod _, fun _ => by rw [fixSize]; omega⟩
  | blob b =>
    rw [encode, length_oscBlob]
    exact ⟨fixSize_mod _, fun _ => by rw [fixSize]; omega⟩
  | int32 | float | int64 | double | char | midi | timetag | timetagDouble =>
    simp [encode]
  | trueValue | falseValue | nilValue | infinitum =>
    exact ⟨rfl, fun h => absurd h (by decide)⟩

theorem Arg.encode_of_not_required {a : Arg} (h : ¬ a.required) : a.encode = [] := by
  cases a with
  | trueValue | falseValue | nilValue | infinitum => rfl
  | _ => exact absurd rfl h

theorem Message.length_head_mod (m : Message) : m.head.length % 4 = 0 := by
  rw [head, List.length_append, length_oscString, length_oscString, Nat.add_mod, fixSize_mod,
    fixSize_mod]

theorem length_flatMap_encode_mod (args : List Arg) :
    (args.flatMap Arg.encode).length % 4 = 0 := by
  induction args with
  | nil => rfl
  | cons a args ih =>
    rw [List.flatMap_cons, List.length_append, Nat.add_mod, ih, a.length_encode.1]

theorem Message.length_encode_mod (m : Message) : m.encode.length % 4 = 0 := by
  rw [encode, List.length_append, Nat.add_mod, m.length_head_mod, length_flatMap_encode_mod]

theorem length_element (m : Message) : (element m).length = 4 + m.encode.length := by
  rw [element, List.length_append, length_bigEndian]

@[simp] theorem elements_nil : elements [] = [] := rfl

theorem elements_cons (m : Message) (messages : List Message) :
    elements (m :: messages) = element m ++ elements messages := rfl

theorem elements_append (messages messages' : List Message) :
    elements (messages ++ messages') = elements messages ++ elements messages' :=
  List.flatMap_append

theorem length_elements_mod (messages : List Message) : (elements messages).length % 4 = 0 := by
  induction messages with
  | nil => rfl
  | cons m messages ih =>
    have hmod := m.length_encode_mod
    rw [elements_cons, List.length_append, length_element]
    omega

theorem length_le_elements (messages : List Message) :
    4 * messages.length ≤ (elements messages).length := by
  induction messages with
  | nil => simp
  | cons m messages ih =>
    rw [elements_cons, List.length_append, length_element, List.length_cons]
    omega

end Sizes

end Incudine.Osc

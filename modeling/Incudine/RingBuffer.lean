import Incudine.CircularArray

/-!
# Byte ring buffer

The ring buffer of a writer and a reader. The heads are unsigned integers of 32 bits, masked modulo
the size. The load of the other head, the copies and the store of the own head are separate steps.
The accepted and the obtained bytes are the history of a run.
-/

namespace Incudine.ByteRing

open CircularArray

variable {α : Type*}

structure RingBuffer (α : Type*) where
  buf : ℕ → α
  writeHead : UInt32
  readHead : UInt32
  size : UInt32
  mask : UInt32

def nextPowOfTwoLoop (n : UInt32) : ℕ → UInt32 → Option UInt32
  | 0, _ => none
  | fuel + 1, i => if i < n then nextPowOfTwoLoop n fuel (i * 2) else some i

/-- There is no value if the loop does not end: after 32 steps the product is zero. -/
def nextPowOfTwo (n : UInt32) : Option UInt32 := nextPowOfTwoLoop n 33 1

def create (memory : ℕ → α) (size : UInt32) : Option (RingBuffer α) :=
  (nextPowOfTwo size).map fun size =>
    { buf := memory, readHead := 0, writeHead := 0, size := size, mask := size - 1 }

namespace RingBuffer

variable (rb : RingBuffer α)

def writeSpace : UInt32 := (rb.readHead - rb.writeHead - 1) &&& rb.mask

def readSpace : UInt32 := (rb.writeHead - rb.readHead) &&& rb.mask

def headEnd (head bytes : UInt32) : UInt32 := (head + bytes - rb.size) &&& rb.mask

def setBuf (buf : ℕ → α) : RingBuffer α := { rb with buf := buf }

def setWriteHead (head : UInt32) : RingBuffer α := { rb with writeHead := head }

def setReadHead (head : UInt32) : RingBuffer α := { rb with readHead := head }

def contents (head bytes : UInt32) : List α :=
  (List.range bytes.toNat).map fun i => rb.buf ((head.toNat + i) % rb.size.toNat)

end RingBuffer

/-- The steps of `incudine_ringbuffer_write` after the load of the read head: the end of the
write and the bytes to write are known. -/
inductive Writer (α : Type*) where
  | idle
  | copy (writeEnd : UInt32) (src : List α)
  | copyRest (writeEnd : UInt32) (src : List α)
  | publish (writeEnd : UInt32) (src : List α)

/-- The steps of `incudine_ringbuffer_read` and `incudine_ringbuffer_peek` after the load of the
write head. -/
inductive Reader (α : Type*) where
  | idle
  | copy (readEnd bytes : UInt32) (peek : Bool)
  | copyRest (readEnd bytes : UInt32) (dest : List α) (peek : Bool)
  | publish (readEnd : UInt32) (dest : List α) (peek : Bool)

structure State (α : Type*) where
  rb : RingBuffer α
  writer : Writer α
  reader : Reader α
  accepted : List α
  obtained : List α

def State.unread (s : State α) : List α := s.accepted.drop s.obtained.length

def initial (rb : RingBuffer α) : State α := ⟨rb, .idle, .idle, [], []⟩

inductive Action (α : Type*) where
  | write (src : List α) (bytes : UInt32)
  | copyIn
  | copyInEnd
  | copyInRest
  | written (bytes : ℕ)
  | fill (offset : ℕ) (byte : α)
  | writeAdvance (bytes : UInt32)
  | read (bytes : UInt32) (peek : Bool)
  | copyOut
  | copyOutEnd
  | copyOutRest
  | obtained (dest : List α)
  | peeked (dest : List α)
  | readAdvance (bytes : UInt32)

/-- One step of a party. The writer may also store bytes in the free part of the buffer, before
`incudine_ringbuffer_write_advance`. -/
inductive Step : State α → Action α → State α → Prop
  | write {s : State α} (src : List α) (bytes : UInt32) (hsrc : src.length = bytes.toNat)
      (hwriter : s.writer = .idle) :
      Step s (.write src bytes) { s with
        writer := .copy (s.rb.headEnd s.rb.writeHead (min bytes s.rb.writeSpace))
          (src.take (min bytes s.rb.writeSpace).toNat) }
  | copyIn {s : State α} {writeEnd : UInt32} {src : List α}
      (hwriter : s.writer = .copy writeEnd src) (hend : ¬ writeEnd < s.rb.writeHead) :
      Step s .copyIn { s with
        rb := s.rb.setBuf (copyTo s.rb.buf s.rb.writeHead.toNat src)
        writer := .publish writeEnd src }
  | copyInEnd {s : State α} {writeEnd : UInt32} {src : List α}
      (hwriter : s.writer = .copy writeEnd src) (hend : writeEnd < s.rb.writeHead) :
      Step s .copyInEnd { s with
        rb := s.rb.setBuf (copyTo s.rb.buf s.rb.writeHead.toNat
          (src.take (s.rb.size - s.rb.writeHead).toNat))
        writer := .copyRest writeEnd src }
  | copyInRest {s : State α} {writeEnd : UInt32} {src : List α}
      (hwriter : s.writer = .copyRest writeEnd src) :
      Step s .copyInRest { s with
        rb := s.rb.setBuf (copyTo s.rb.buf 0
          ((src.drop (s.rb.size - s.rb.writeHead).toNat).take writeEnd.toNat))
        writer := .publish writeEnd src }
  | written {s : State α} {writeEnd : UInt32} {src : List α}
      (hwriter : s.writer = .publish writeEnd src) :
      Step s (.written src.length) { s with
        rb := s.rb.setWriteHead writeEnd
        writer := .idle
        accepted := s.accepted ++ src }
  | fill {s : State α} (offset : ℕ) (byte : α) (hwriter : s.writer = .idle)
      (hoffset : offset < s.rb.writeSpace.toNat) :
      Step s (.fill offset byte) { s with
        rb := s.rb.setBuf (Function.update s.rb.buf
          ((s.rb.writeHead.toNat + offset) % s.rb.size.toNat) byte) }
  | writeAdvance {s : State α} (bytes : UInt32) (hwriter : s.writer = .idle)
      (hbytes : bytes ≤ s.rb.writeSpace) :
      Step s (.writeAdvance bytes) { s with
        rb := s.rb.setWriteHead (s.rb.headEnd s.rb.writeHead bytes)
        accepted := s.accepted ++ s.rb.contents s.rb.writeHead bytes }
  | read {s : State α} (bytes : UInt32) (peek : Bool) (hreader : s.reader = .idle) :
      Step s (.read bytes peek) { s with
        reader := .copy (s.rb.headEnd s.rb.readHead (min bytes s.rb.readSpace))
          (min bytes s.rb.readSpace) peek }
  | copyOut {s : State α} {readEnd bytes : UInt32} {peek : Bool}
      (hreader : s.reader = .copy readEnd bytes peek) (hend : ¬ readEnd < s.rb.readHead) :
      Step s .copyOut { s with
        reader := .publish readEnd (copyFrom s.rb.buf s.rb.readHead.toNat bytes.toNat) peek }
  | copyOutEnd {s : State α} {readEnd bytes : UInt32} {peek : Bool}
      (hreader : s.reader = .copy readEnd bytes peek) (hend : readEnd < s.rb.readHead) :
      Step s .copyOutEnd { s with
        reader := .copyRest readEnd bytes (copyFrom s.rb.buf s.rb.readHead.toNat
          (s.rb.size - s.rb.readHead).toNat) peek }
  | copyOutRest {s : State α} {readEnd bytes : UInt32} {dest : List α} {peek : Bool}
      (hreader : s.reader = .copyRest readEnd bytes dest peek) :
      Step s .copyOutRest { s with
        reader := .publish readEnd (dest ++ copyFrom s.rb.buf 0 readEnd.toNat) peek }
  | obtained {s : State α} {readEnd : UInt32} {dest : List α}
      (hreader : s.reader = .publish readEnd dest false) :
      Step s (.obtained dest) { s with
        rb := s.rb.setReadHead readEnd
        reader := .idle
        obtained := s.obtained ++ dest }
  | peeked {s : State α} {readEnd : UInt32} {dest : List α}
      (hreader : s.reader = .publish readEnd dest true) :
      Step s (.peeked dest) { s with reader := .idle }
  | readAdvance {s : State α} (bytes : UInt32) (hreader : s.reader = .idle)
      (hbytes : bytes ≤ s.rb.readSpace) :
      Step s (.readAdvance bytes) { s with
        rb := s.rb.setReadHead (s.rb.headEnd s.rb.readHead bytes)
        obtained := s.obtained ++ s.rb.contents s.rb.readHead bytes }

def Steps (s s' : State α) : Prop := Relation.ReflTransGen (fun s s' => ∃ a, Step s a s') s s'

/-- The size is a power of two and the heads are two positions modulo the size. -/
structure Heads (rb : RingBuffer α) (size taken total : ℕ) : Prop where
  pow : ∃ k ≤ 31, size = 2 ^ k
  sizeEq : rb.size.toNat = size
  mask : rb.mask = rb.size - 1
  readHead : rb.readHead.toNat = taken % size
  writeHead : rb.writeHead.toNat = total % size
  le : taken ≤ total
  lt : total - taken < size

variable {head : UInt32}

section Heads

variable {rb : RingBuffer α} {size taken total : ℕ}

section

variable (h : Heads rb size taken total)
include h

theorem Heads.dvd : size ∣ 2 ^ 32 := by
  obtain ⟨k, hk, rfl⟩ := h.pow
  exact Nat.pow_dvd_pow 2 (by omega)

theorem Heads.and_mask (x : UInt32) : (x &&& rb.mask).toNat = x.toNat % size := by
  obtain ⟨k, hk, hsize⟩ := h.pow
  have hpos : 0 < size := hsize ▸ Nat.two_pow_pos k
  have hone : (1 : UInt32) ≤ rb.size := by
    rw [UInt32.le_iff_toNat_le, h.sizeEq]
    exact hpos
  rw [UInt32.toNat_and, h.mask, UInt32.toNat_sub_of_le _ _ hone, h.sizeEq]
  exact CircularArray.and_mask hsize _

theorem Heads.headEnd (head bytes : UInt32) :
    (rb.headEnd head bytes).toNat = (head.toNat + bytes.toNat) % size := by
  have hdvd := h.dvd
  have hle : size ≤ 2 ^ 32 := Nat.le_of_dvd (by decide) hdvd
  obtain ⟨m, hm⟩ := Nat.dvd_sub hdvd (dvd_refl size)
  rw [RingBuffer.headEnd, h.and_mask, UInt32.toNat_sub, UInt32.toNat_add, h.sizeEq,
    Nat.mod_mod_of_dvd _ hdvd, hm, Nat.mul_add_mod, Nat.mod_mod_of_dvd _ hdvd]

theorem Heads.readSpace : rb.readSpace.toNat = total - taken := by
  have hlt := h.lt
  have hmod := Nat.mod_lt taken (show 0 < size by omega)
  have hslot := slot_add (i := taken) hlt
  obtain ⟨m, hm⟩ := h.dvd
  have hle : size ≤ 2 ^ 32 := Nat.le_of_dvd (by decide) h.dvd
  rw [Nat.add_sub_cancel' h.le] at hslot
  rw [RingBuffer.readSpace, h.and_mask, UInt32.toNat_sub, Nat.mod_mod_of_dvd _ h.dvd, h.readHead,
    h.writeHead]
  rcases hslot with ⟨hslot, -⟩ | hslot
  · rw [hslot, show 2 ^ 32 - taken % size + (taken % size + (total - taken)) =
      size * m + (total - taken) by omega, Nat.mul_add_mod, Nat.mod_eq_of_lt hlt]
  · have hdvd : 2 ^ 32 - taken % size + total % size + size = size * m + (total - taken) := by
      omega
    rw [← Nat.add_mod_right, hdvd, Nat.mul_add_mod, Nat.mod_eq_of_lt hlt]

theorem Heads.writeSpace : rb.writeSpace.toNat = size - 1 - (total - taken) := by
  have hlt := h.lt
  have hmod := Nat.mod_lt taken (show 0 < size by omega)
  have hslot := slot_add (i := taken) hlt
  obtain ⟨m, hm⟩ := h.dvd
  have hle : size ≤ 2 ^ 32 := Nat.le_of_dvd (by decide) h.dvd
  have hspace : size - 1 - (total - taken) < size := by omega
  rw [Nat.add_sub_cancel' h.le] at hslot
  have hone : (1 : UInt32).toNat = 1 := rfl
  have hmod' := Nat.mod_lt total (show 0 < size by omega)
  rw [RingBuffer.writeSpace, h.and_mask, UInt32.toNat_sub, UInt32.toNat_sub, hone,
    Nat.mod_mod_of_dvd _ h.dvd, Nat.add_mod, Nat.mod_mod_of_dvd _ h.dvd, ← Nat.add_mod, h.readHead,
    h.writeHead]
  rcases hslot with ⟨hslot, -⟩ | hslot
  · have hdvd : 2 ^ 32 - 1 + (2 ^ 32 - total % size + taken % size) + size =
        size * (m + m) + (size - 1 - (total - taken)) := by
      rw [Nat.mul_add]
      omega
    rw [← Nat.add_mod_right, hdvd, Nat.mul_add_mod, Nat.mod_eq_of_lt hspace]
  · have hdvd : 2 ^ 32 - 1 + (2 ^ 32 - total % size + taken % size) =
        size * (m + m) + (size - 1 - (total - taken)) := by
      rw [Nat.mul_add]
      omega
    rw [hdvd, Nat.mul_add_mod, Nat.mod_eq_of_lt hspace]

theorem Heads.setBuf (buf : ℕ → α) : Heads (rb.setBuf buf) size taken total :=
  ⟨h.pow, h.sizeEq, h.mask, h.readHead, h.writeHead, h.le, h.lt⟩

theorem Heads.setWriteHead {n : ℕ} (hhead : head.toNat = (total + n) % size)
    (hlt : total - taken + n < size) : Heads (rb.setWriteHead head) size taken (total + n) :=
  ⟨h.pow, h.sizeEq, h.mask, h.readHead, hhead, by have := h.le; omega, by have := h.le; omega⟩

theorem Heads.setReadHead {n : ℕ} (hhead : head.toNat = (taken + n) % size)
    (hle : n ≤ total - taken) : Heads (rb.setReadHead head) size (taken + n) total :=
  ⟨h.pow, h.sizeEq, h.mask, hhead, h.writeHead, by have := h.le; omega, by have := h.lt; omega⟩

theorem Heads.space_add_space : rb.readSpace.toNat + rb.writeSpace.toNat = size - 1 := by
  have := h.lt
  rw [h.readSpace, h.writeSpace]
  omega

end

end Heads

/-- The bytes to write go in the free part of the buffer. -/
def Writer.Ready (size : ℕ) (s : State α) : Writer α → Prop
  | idle => True
  | copy writeEnd src => s.unread.length + src.length < size ∧
      writeEnd.toNat = (s.accepted.length + src.length) % size
  | copyRest writeEnd src => (s.unread.length + src.length < size ∧
      writeEnd.toNat = (s.accepted.length + src.length) % size) ∧ writeEnd < s.rb.writeHead ∧
      Stores s.rb.buf size s.accepted.length (src.take (s.rb.size - s.rb.writeHead).toNat)
  | publish writeEnd src => (s.unread.length + src.length < size ∧
      writeEnd.toNat = (s.accepted.length + src.length) % size) ∧
      Stores s.rb.buf size s.accepted.length src

/-- The bytes to read are the first unread ones. -/
def Reader.Ready (size : ℕ) (s : State α) : Reader α → Prop
  | idle => True
  | copy readEnd bytes _ => bytes.toNat ≤ s.unread.length ∧
      readEnd.toNat = (s.obtained.length + bytes.toNat) % size
  | copyRest readEnd bytes dest _ => (bytes.toNat ≤ s.unread.length ∧
      readEnd.toNat = (s.obtained.length + bytes.toNat) % size) ∧ dest <+: s.unread ∧
      dest.length + readEnd.toNat = bytes.toNat ∧ (s.obtained.length + dest.length) % size = 0
  | publish readEnd dest _ => dest <+: s.unread ∧
      readEnd.toNat = (s.obtained.length + dest.length) % size

structure Invariant (size : ℕ) (s : State α) : Prop where
  heads : Heads s.rb size s.obtained.length s.accepted.length
  history : s.obtained ++ s.unread = s.accepted
  stores : Stores s.rb.buf size s.obtained.length s.unread
  writer : s.writer.Ready size s
  reader : s.reader.Ready size s

variable {src : List α} {writeEnd readEnd : UInt32}

section Invariant

variable {size : ℕ} {s s' : State α} {a : Action α}

theorem Invariant.length_unread (_ : Invariant size s) :
    s.unread.length = s.accepted.length - s.obtained.length := List.length_drop

theorem Invariant.length_accepted (h : Invariant size s) :
    s.accepted.length = s.obtained.length + s.unread.length := by
  rw [← h.history, List.length_append]

theorem Invariant.lt_size (h : Invariant size s) : s.unread.length < size :=
  h.length_unread ▸ h.heads.lt

theorem Reader.Ready.congr {r : Reader α} (h : r.Ready size s)
    (hobtained : s'.obtained = s.obtained) (hunread : s.unread <+: s'.unread) :
    r.Ready size s' := by
  have hlen := hunread.length_le
  cases r with
  | idle => trivial
  | copy readEnd bytes peek => exact ⟨h.1.trans hlen, hobtained ▸ h.2⟩
  | copyRest readEnd bytes dest peek =>
    obtain ⟨⟨hbytes, hend⟩, hdest, hrest, hslot⟩ := h
    exact ⟨⟨hbytes.trans hlen, hobtained ▸ hend⟩, hdest.trans hunread, hrest, hobtained ▸ hslot⟩
  | publish readEnd dest peek => exact ⟨h.1.trans hunread, hobtained ▸ h.2⟩

theorem Writer.Ready.congr {w : Writer α} (h : w.Ready size s)
    (haccepted : s'.accepted = s.accepted) (hunread : s'.unread.length ≤ s.unread.length)
    (hbuf : s'.rb.buf = s.rb.buf) (hhead : s'.rb.writeHead = s.rb.writeHead)
    (hsize : s'.rb.size = s.rb.size) : w.Ready size s' := by
  cases w with
  | idle => trivial
  | copy writeEnd src => exact ⟨by have := h.1; omega, haccepted ▸ h.2⟩
  | copyRest writeEnd src =>
    obtain ⟨⟨hlt, hend⟩, hwrap, hstores⟩ := h
    refine ⟨⟨by omega, haccepted ▸ hend⟩, hhead ▸ hwrap, ?_⟩
    rw [hbuf, haccepted, hhead, hsize]
    exact hstores
  | publish writeEnd src =>
    obtain ⟨⟨hlt, hend⟩, hstores⟩ := h
    refine ⟨⟨by omega, haccepted ▸ hend⟩, ?_⟩
    rw [hbuf, haccepted]
    exact hstores

theorem wrap_of_lt {rb : RingBuffer α} {headEnd : UInt32} {position n : ℕ}
    (hsize : rb.size.toNat = size) (hhead : head.toNat = position % size)
    (hend : headEnd.toNat = (position + n) % size) (hn : n < size) :
    (headEnd < head → position % size + (rb.size - head).toNat = size ∧
      (rb.size - head).toNat + headEnd.toNat = n ∧
      (position + (rb.size - head).toNat) % size = 0) ∧
    (¬ headEnd < head → position % size + n ≤ size) := by
  have hmod := Nat.mod_lt position (show 0 < size by omega)
  have hsub : (rb.size - head).toNat = size - position % size := by
    rw [UInt32.toNat_sub_of_le _ _ (by rw [UInt32.le_iff_toNat_le]; omega), hsize, hhead]
  have hslot := slot_add (i := position) hn
  rw [UInt32.lt_iff_toNat_lt, hend, hhead, hsub]
  refine ⟨fun hlt => ⟨by omega, by omega, ?_⟩, fun hlt => by omega⟩
  have hzero : position + (size - position % size) = size * (position / size + 1) := by
    have := Nat.div_add_mod position size
    rw [Nat.mul_add, Nat.mul_one]
    omega
  rw [hzero, Nat.mul_mod_right]

theorem Invariant.stores_copyTo (h : Invariant size s) {j : ℕ} {block : List α}
    (hj : s.accepted.length ≤ j) (hspace : j + block.length ≤ s.obtained.length + size)
    (hblock : j % size + block.length ≤ size) :
    Stores (copyTo s.rb.buf (j % size) block) size s.obtained.length s.unread := by
  have hlen := h.length_accepted
  exact h.stores.copyTo (by omega) hspace hblock

theorem Invariant.setBuf (h : Invariant size s) {buf : ℕ → α} {w : Writer α}
    (hstores : Stores buf size s.obtained.length s.unread)
    (hready : w.Ready size { s with rb := s.rb.setBuf buf, writer := w }) :
    Invariant size { s with rb := s.rb.setBuf buf, writer := w } where
  heads := h.heads.setBuf buf
  history := h.history
  stores := hstores
  writer := hready
  reader := h.reader.congr rfl (List.prefix_refl _)

theorem toNat_min (a b : UInt32) : (min a b).toNat = min a.toNat b.toNat := by
  show (if a ≤ b then a else b).toNat = _
  split_ifs with hle
  · rw [UInt32.le_iff_toNat_le] at hle
    omega
  · rw [UInt32.le_iff_toNat_le] at hle
    omega

section

variable (h : Invariant size s)
include h

theorem Invariant.headEnd_writeHead (bytes : UInt32) :
    (s.rb.headEnd s.rb.writeHead bytes).toNat = (s.accepted.length + bytes.toNat) % size := by
  rw [h.heads.headEnd, h.heads.writeHead, Nat.mod_add_mod]

theorem Invariant.headEnd_readHead (bytes : UInt32) :
    (s.rb.headEnd s.rb.readHead bytes).toNat = (s.obtained.length + bytes.toNat) % size := by
  rw [h.heads.headEnd, h.heads.readHead, Nat.mod_add_mod]

theorem Invariant.length_take {bytes : UInt32} (hsrc : src.length = bytes.toNat) :
    (src.take (min bytes s.rb.writeSpace).toNat).length =
      min src.length (size - 1 - s.unread.length) := by
  rw [List.length_take, toNat_min, h.heads.writeSpace, ← h.length_unread, ← hsrc]
  omega

theorem Invariant.write {src : List α} {bytes : UInt32} (hsrc : src.length = bytes.toNat) :
    Invariant size { s with
      writer := .copy (s.rb.headEnd s.rb.writeHead (min bytes s.rb.writeSpace))
        (src.take (min bytes s.rb.writeSpace).toNat) } where
  heads := h.heads
  history := h.history
  stores := h.stores
  writer := by
    have hlen := h.length_take hsrc
    have hlt := h.lt_size
    refine ⟨?_, ?_⟩
    · show s.unread.length + _ < size
      omega
    · rw [h.headEnd_writeHead, hlen, toNat_min, h.heads.writeSpace, ← h.length_unread, hsrc]
  reader := h.reader.congr rfl (List.prefix_refl _)

theorem Invariant.copyIn (hwriter : s.writer = .copy writeEnd src)
    (hend : ¬ writeEnd < s.rb.writeHead) :
    Invariant size { s with
      rb := s.rb.setBuf (copyTo s.rb.buf s.rb.writeHead.toNat src)
      writer := .publish writeEnd src } := by
  have hready := h.writer
  rw [hwriter] at hready
  obtain ⟨hlt, hwriteEnd⟩ := hready
  have hblock := (wrap_of_lt h.heads.sizeEq h.heads.writeHead hwriteEnd (by omega)).2 hend
  have hacc := h.length_accepted
  rw [h.heads.writeHead]
  refine h.setBuf (h.stores_copyTo (Nat.le_refl _) (by omega) hblock) ⟨⟨hlt, hwriteEnd⟩, ?_⟩
  exact CircularArray.stores_copyTo hblock

theorem Invariant.copyInEnd (hwriter : s.writer = .copy writeEnd src)
    (hend : writeEnd < s.rb.writeHead) :
    Invariant size { s with
      rb := s.rb.setBuf (copyTo s.rb.buf s.rb.writeHead.toNat
        (src.take (s.rb.size - s.rb.writeHead).toNat))
      writer := .copyRest writeEnd src } := by
  have hready := h.writer
  rw [hwriter] at hready
  obtain ⟨hlt, hwriteEnd⟩ := hready
  obtain ⟨hn, hrest, -⟩ :=
    (wrap_of_lt h.heads.sizeEq h.heads.writeHead hwriteEnd (by omega)).1 hend
  have hlen : (src.take (s.rb.size - s.rb.writeHead).toNat).length =
      (s.rb.size - s.rb.writeHead).toNat := List.length_take_of_le (by omega)
  have hacc := h.length_accepted
  rw [h.heads.writeHead]
  refine h.setBuf (h.stores_copyTo (Nat.le_refl _) (by omega) (by omega))
    ⟨⟨hlt, hwriteEnd⟩, hend, ?_⟩
  exact CircularArray.stores_copyTo (by omega)

theorem Invariant.copyInRest (hwriter : s.writer = .copyRest writeEnd src) :
    Invariant size { s with
      rb := s.rb.setBuf (copyTo s.rb.buf 0
        ((src.drop (s.rb.size - s.rb.writeHead).toNat).take writeEnd.toNat))
      writer := .publish writeEnd src } := by
  have hready := h.writer
  rw [hwriter] at hready
  obtain ⟨⟨hlt, hwriteEnd⟩, hend, hfirst⟩ := hready
  obtain ⟨hn, hrest, hzero⟩ :=
    (wrap_of_lt h.heads.sizeEq h.heads.writeHead hwriteEnd (by omega)).1 hend
  set n := (s.rb.size - s.rb.writeHead).toNat with hnDef
  have htake : (src.drop n).take writeEnd.toNat = src.drop n := by
    apply List.take_of_length_le
    rw [List.length_drop]
    omega
  have hlen : (src.drop n).length = writeEnd.toNat := by
    rw [List.length_drop]
    omega
  have hend' : writeEnd.toNat < size := hwriteEnd ▸ Nat.mod_lt _ (by omega)
  have hlenTake : (src.take n).length = n := List.length_take_of_le (by omega)
  rw [htake, ← hzero]
  have hacc := h.length_accepted
  refine h.setBuf (h.stores_copyTo (by omega) (by omega) (by omega)) ⟨⟨hlt, hwriteEnd⟩, ?_⟩
  have hrest' : Stores (copyTo s.rb.buf ((s.accepted.length + n) % size) (src.drop n)) size
      (s.accepted.length + n) (src.drop n) := CircularArray.stores_copyTo (by omega)
  have hfirst' : Stores (copyTo s.rb.buf ((s.accepted.length + n) % size) (src.drop n)) size
      s.accepted.length (src.take n) := hfirst.copyTo (by omega) (by omega) (by omega)
  have hboth : Stores (copyTo s.rb.buf ((s.accepted.length + n) % size) (src.drop n)) size
      s.accepted.length (src.take n ++ src.drop n) := by
    refine stores_append.mpr ⟨hfirst', ?_⟩
    rw [hlenTake]
    exact hrest'
  rw [List.take_append_drop] at hboth
  exact hboth

theorem Invariant.publish {head : UInt32} {src : List α}
    (hhead : head.toNat = (s.accepted.length + src.length) % size)
    (hlt : s.unread.length + src.length < size)
    (hstores : Stores s.rb.buf size s.accepted.length src) :
    Invariant size { s with
      rb := s.rb.setWriteHead head
      writer := .idle
      accepted := s.accepted ++ src } := by
  have hacc := h.length_accepted
  set s' : State α := { s with
    rb := s.rb.setWriteHead head
    writer := .idle
    accepted := s.accepted ++ src }
  have hunread : s'.unread = s.unread ++ src := 
    List.drop_append_of_le_length (show s.obtained.length ≤ s.accepted.length by omega)
  exact
    { heads := by
        have hheads := h.heads.setWriteHead hhead (by rw [← h.length_unread]; exact hlt)
        rw [← List.length_append] at hheads
        exact hheads
      history := by
        rw [hunread, ← List.append_assoc]
        exact congrArg (· ++ src) h.history
      stores := by
        rw [hunread]
        exact stores_append.mpr ⟨h.stores, hacc ▸ hstores⟩
      writer := trivial
      reader := h.reader.congr rfl (hunread ▸ List.prefix_append _ _) }

theorem Invariant.written (hwriter : s.writer = .publish writeEnd src) :
    Invariant size { s with
      rb := s.rb.setWriteHead writeEnd
      writer := .idle
      accepted := s.accepted ++ src } := by
  have hready := h.writer
  rw [hwriter] at hready
  obtain ⟨⟨hlt, hwriteEnd⟩, hstores⟩ := hready
  exact h.publish hwriteEnd hlt hstores

theorem Invariant.fill {offset : ℕ} {byte : α} (hwriter : s.writer = .idle)
    (hoffset : offset < s.rb.writeSpace.toNat) :
    Invariant size { s with
      rb := s.rb.setBuf (Function.update s.rb.buf
        ((s.rb.writeHead.toNat + offset) % s.rb.size.toNat) byte) } := by
  have hacc := h.length_accepted
  rw [h.heads.writeSpace] at hoffset
  rw [h.heads.writeHead, h.heads.sizeEq, Nat.mod_add_mod]
  have hj : s.obtained.length + s.unread.length ≤ s.accepted.length + offset := by omega
  have hset := h.setBuf (w := .idle) (h.stores.update hj (by omega) byte) trivial
  rw [← hwriter] at hset
  exact hset

theorem Invariant.stores_contents {bytes : UInt32} {position : ℕ}
    (hhead : head.toNat = position % size) :
    Stores s.rb.buf size position (s.rb.contents head bytes) := by
  refine stores_of_get fun i hi => ?_
  simp only [RingBuffer.contents, List.getElem_map, List.getElem_range, hhead, h.heads.sizeEq,
    Nat.mod_add_mod]

end

theorem length_contents (rb : RingBuffer α) (head bytes : UInt32) :
    (rb.contents head bytes).length = bytes.toNat := by
  simp [RingBuffer.contents]

section

variable (h : Invariant size s)
include h

theorem Invariant.writeAdvance {bytes : UInt32} (hwriter : s.writer = .idle)
    (hbytes : bytes ≤ s.rb.writeSpace) :
    Invariant size { s with
      rb := s.rb.setWriteHead (s.rb.headEnd s.rb.writeHead bytes)
      accepted := s.accepted ++ s.rb.contents s.rb.writeHead bytes } := by
  have hlt := h.lt_size
  rw [UInt32.le_iff_toNat_le, h.heads.writeSpace, ← h.length_unread] at hbytes
  have hlen := length_contents s.rb s.rb.writeHead bytes
  have hhead := h.headEnd_writeHead bytes
  rw [← hlen] at hhead
  have hpublish := h.publish hhead (by omega) (h.stores_contents h.heads.writeHead)
  rw [← hwriter] at hpublish
  exact hpublish

theorem Invariant.setReader {r : Reader α} (hready : r.Ready size s) :
    Invariant size { s with reader := r } where
  heads := h.heads
  history := h.history
  stores := h.stores
  writer := h.writer.congr rfl (Nat.le_refl _) rfl rfl rfl
  reader := hready.congr rfl (List.prefix_refl _)

theorem Invariant.read (bytes : UInt32) (peek : Bool) :
    Invariant size { s with
      reader := .copy (s.rb.headEnd s.rb.readHead (min bytes s.rb.readSpace))
        (min bytes s.rb.readSpace) peek } := by
  refine h.setReader ⟨?_, h.headEnd_readHead _⟩
  rw [toNat_min, h.heads.readSpace, h.length_unread]
  omega

theorem Invariant.copyOut {bytes : UInt32} {peek : Bool}
    (hreader : s.reader = .copy readEnd bytes peek) (hend : ¬ readEnd < s.rb.readHead) :
    Invariant size { s with
      reader := .publish readEnd (copyFrom s.rb.buf s.rb.readHead.toNat bytes.toNat) peek } := by
  have hlt := h.lt_size
  have hready := h.reader
  rw [hreader] at hready
  obtain ⟨hbytes, hreadEnd⟩ := hready
  have hblock := (wrap_of_lt h.heads.sizeEq h.heads.readHead hreadEnd (by omega)).2 hend
  rw [h.heads.readHead, h.stores.copyFrom_eq hbytes hblock]
  refine h.setReader ⟨List.take_prefix _ _, ?_⟩
  rw [List.length_take_of_le hbytes]
  exact hreadEnd

theorem Invariant.copyOutEnd {bytes : UInt32} {peek : Bool}
    (hreader : s.reader = .copy readEnd bytes peek) (hend : readEnd < s.rb.readHead) :
    Invariant size { s with
      reader := .copyRest readEnd bytes (copyFrom s.rb.buf s.rb.readHead.toNat
        (s.rb.size - s.rb.readHead).toNat) peek } := by
  have hlt := h.lt_size
  have hready := h.reader
  rw [hreader] at hready
  obtain ⟨hbytes, hreadEnd⟩ := hready
  obtain ⟨hn, hrest, hzero⟩ :=
    (wrap_of_lt h.heads.sizeEq h.heads.readHead hreadEnd (by omega)).1 hend
  rw [h.heads.readHead, h.stores.copyFrom_eq (by omega) (by omega)]
  refine h.setReader ⟨⟨hbytes, hreadEnd⟩, List.take_prefix _ _, ?_⟩
  rw [List.length_take_of_le (by omega)]
  exact ⟨hrest, hzero⟩

theorem Invariant.copyOutRest {bytes : UInt32} {dest : List α} {peek : Bool}
    (hreader : s.reader = .copyRest readEnd bytes dest peek) :
    Invariant size { s with
      reader := .publish readEnd (dest ++ copyFrom s.rb.buf 0 readEnd.toNat) peek } := by
  have hlt := h.lt_size
  have hready := h.reader
  rw [hreader] at hready
  obtain ⟨⟨hbytes, hreadEnd⟩, ⟨rest, hdest⟩, hrest, hzero⟩ := hready
  have hlen := congrArg List.length hdest
  rw [List.length_append] at hlen
  have hstores := h.stores
  rw [← hdest] at hstores
  have hstores' := (stores_append.mp hstores).2
  have hreadEnd' : readEnd.toNat < size := hreadEnd ▸ Nat.mod_lt _ (by omega)
  rw [← hzero, hstores'.copyFrom_eq (by omega) (by omega)]
  refine h.setReader ⟨?_, ?_⟩
  · rw [← hdest]
    exact (List.prefix_append_right_inj dest).mpr (List.take_prefix _ _)
  · rw [List.length_append, List.length_take_of_le (by omega), hrest]
    exact hreadEnd

theorem Invariant.free {head : UInt32} {dest : List α}
    (hhead : head.toNat = (s.obtained.length + dest.length) % size) (hdest : dest <+: s.unread) :
    Invariant size { s with
      rb := s.rb.setReadHead head
      reader := .idle
      obtained := s.obtained ++ dest } := by
  obtain ⟨rest, hrest⟩ := hdest
  have hlen := congrArg List.length hrest
  rw [List.length_append] at hlen
  set s' : State α := { s with
    rb := s.rb.setReadHead head
    reader := .idle
    obtained := s.obtained ++ dest }
  have hunread : s'.unread = rest := by
    show s.accepted.drop (s.obtained ++ dest).length = rest
    rw [List.length_append, ← List.drop_drop]
    show s.unread.drop dest.length = rest
    rw [← hrest, List.drop_left]
  have hstores := h.stores
  rw [← hrest] at hstores
  exact
    { heads := by
        have hheads := h.heads.setReadHead hhead (by rw [← h.length_unread]; omega)
        rw [← List.length_append] at hheads
        exact hheads
      history := by
        rw [hunread]
        show s.obtained ++ dest ++ rest = s.accepted
        rw [List.append_assoc, hrest, h.history]
      stores := by
        rw [hunread]
        show Stores s.rb.buf size (s.obtained ++ dest).length rest
        rw [List.length_append]
        exact (stores_append.mp hstores).2
      writer := h.writer.congr rfl (by rw [hunread]; omega) rfl rfl rfl
      reader := trivial }

theorem Invariant.obtained {dest : List α} (hreader : s.reader = .publish readEnd dest false) :
    Invariant size { s with
      rb := s.rb.setReadHead readEnd
      reader := .idle
      obtained := s.obtained ++ dest } := by
  have hready := h.reader
  rw [hreader] at hready
  exact h.free hready.2 hready.1

theorem Invariant.contents_prefix {bytes : UInt32} (hbytes : bytes ≤ s.rb.readSpace) :
    s.rb.contents s.rb.readHead bytes <+: s.unread := by
  rw [UInt32.le_iff_toNat_le, h.heads.readSpace, ← h.length_unread] at hbytes
  have hlen := length_contents s.rb s.rb.readHead bytes
  have htake : s.rb.contents s.rb.readHead bytes = s.unread.take bytes.toNat := by
    apply List.ext_getElem
    · rw [hlen, List.length_take_of_le hbytes]
    · intro i hi _
      rw [hlen] at hi
      rw [List.getElem_take, ← (h.stores_contents h.heads.readHead).get (by omega),
        h.stores.get (by omega)]
  rw [htake]
  exact List.take_prefix _ _

theorem Invariant.readAdvance {bytes : UInt32} (hreader : s.reader = .idle)
    (hbytes : bytes ≤ s.rb.readSpace) :
    Invariant size { s with
      rb := s.rb.setReadHead (s.rb.headEnd s.rb.readHead bytes)
      obtained := s.obtained ++ s.rb.contents s.rb.readHead bytes } := by
  have hhead := h.headEnd_readHead bytes
  rw [← length_contents s.rb s.rb.readHead bytes] at hhead
  have hfree := h.free hhead (h.contents_prefix hbytes)
  rw [← hreader] at hfree
  exact hfree

theorem Invariant.step (hstep : Step s a s') : Invariant size s' := by
  cases hstep with
  | write src bytes hsrc _ => exact h.write hsrc
  | copyIn hwriter hend => exact h.copyIn hwriter hend
  | copyInEnd hwriter hend => exact h.copyInEnd hwriter hend
  | copyInRest hwriter => exact h.copyInRest hwriter
  | written hwriter => exact h.written hwriter
  | fill offset byte hwriter hoffset => exact h.fill hwriter hoffset
  | writeAdvance bytes hwriter hbytes => exact h.writeAdvance hwriter hbytes
  | read bytes peek _ => exact h.read bytes peek
  | copyOut hreader hend => exact h.copyOut hreader hend
  | copyOutEnd hreader hend => exact h.copyOutEnd hreader hend
  | copyOutRest hreader => exact h.copyOutRest hreader
  | obtained hreader => exact h.obtained hreader
  | peeked _ => exact h.setReader trivial
  | readAdvance bytes hreader hbytes => exact h.readAdvance hreader hbytes

theorem Invariant.steps (hsteps : Steps s s') : Invariant size s' := by
  induction hsteps with
  | refl => exact h
  | tail _ hstep ih =>
    obtain ⟨a, hstep⟩ := hstep
    exact ih.step hstep

theorem Invariant.stores_step (hstep : Step s a s') :
    Stores s'.rb.buf size s.obtained.length s.unread := by
  have h' := h.step hstep
  cases hstep with
  | copyIn | copyInEnd | copyInRest | fill => exact h'.stores
  | write | written | writeAdvance | read | copyOut | copyOutEnd | copyOutRest | obtained | peeked
  | readAdvance => exact h.stores

end

end Invariant

def Writer.bytes : Writer α → ℕ
  | idle => 0
  | copy _ src | copyRest _ src | publish _ src => src.length

def Reader.bytes : Reader α → ℕ
  | idle => 0
  | copy _ bytes _ | copyRest _ bytes _ _ => bytes.toNat
  | publish _ dest _ => dest.length

section Returned

variable {size : ℕ} {s s' : State α} {a : Action α}

theorem Step.writer_bytes (hstep : Step s a s') (hs : s.writer ≠ .idle) (hs' : s'.writer ≠ .idle) :
    s'.writer.bytes = s.writer.bytes := by
  cases hstep with
  | write _ _ _ hwriter | fill _ _ hwriter | writeAdvance _ hwriter => exact absurd hwriter hs
  | written hwriter => exact absurd rfl hs'
  | copyIn hwriter | copyInEnd hwriter | copyInRest hwriter =>
    rw [hwriter]
    rfl
  | read | copyOut | copyOutEnd | copyOutRest | obtained | peeked | readAdvance => rfl

theorem Invariant.reader_bytes (h : Invariant size s) (hstep : Step s a s')
    (hs : s.reader ≠ .idle) (hs' : s'.reader ≠ .idle) : s'.reader.bytes = s.reader.bytes := by
  have hready := h.reader
  cases hstep with
  | read _ _ hreader | readAdvance _ hreader => exact absurd hreader hs
  | obtained | peeked => exact absurd rfl hs'
  | copyOut hreader | copyOutEnd hreader =>
    rw [hreader]
    simp [Reader.bytes]
  | copyOutRest hreader =>
    rw [hreader] at hready ⊢
    obtain ⟨-, -, hrest, -⟩ := hready
    simpa [Reader.bytes] using hrest
  | write | copyIn | copyInEnd | copyInRest | written | fill | writeAdvance => rfl

end Returned

theorem toNat_mul_two {i : UInt32} {j : ℕ} (hi : i.toNat = 2 ^ j) (hj : j < 31) :
    (i * 2).toNat = 2 ^ (j + 1) := by
  have hle : 2 ^ (j + 1) ≤ 2 ^ 31 := Nat.pow_le_pow_right (by decide) hj
  rw [UInt32.toNat_mul, hi, Nat.pow_succ]
  exact Nat.mod_eq_of_lt (by rw [Nat.pow_succ] at hle; exact hle.trans_lt (by decide))

theorem nextPowOfTwoLoop_eq {n i p : UInt32} {fuel j : ℕ} (hi : i.toNat = 2 ^ j) (hj : j ≤ 31)
    (hfuel : fuel + j = 33) (hbelow : ∀ k < j, 2 ^ k < n.toNat)
    (h : nextPowOfTwoLoop n fuel i = some p) :
    ∃ k ≤ 31, p.toNat = 2 ^ k ∧ n ≤ p ∧ ∀ k' < k, 2 ^ k' < n.toNat := by
  induction fuel generalizing i j with
  | zero => omega
  | succ fuel ih =>
    rw [nextPowOfTwoLoop] at h
    split_ifs at h with hlt
    · rw [UInt32.lt_iff_toNat_lt, hi] at hlt
      rcases Nat.lt_or_ge j 31 with hj' | hj'
      · refine ih (toNat_mul_two hi hj') (by omega) (by omega) (fun k hk => ?_) h
        rcases Nat.lt_succ_iff_lt_or_eq.mp hk with hk' | rfl
        · exact hbelow k hk'
        · exact hlt
      · obtain rfl : j = 31 := by omega
        obtain rfl : fuel = 1 := by omega
        have hzero : i * 2 = 0 := by
          rw [← UInt32.toNat_inj, UInt32.toNat_mul, hi]
          rfl
        have hpos : (0 : UInt32) < n := by
          rw [UInt32.lt_iff_toNat_lt]
          exact (Nat.zero_le _).trans_lt hlt
        rw [hzero, nextPowOfTwoLoop, if_pos hpos, nextPowOfTwoLoop] at h
        cases h
    · cases h
      exact ⟨j, hj, hi, UInt32.not_lt.mp hlt, hbelow⟩

theorem nextPowOfTwoLoop_isSome {n i : UInt32} {fuel j : ℕ} (hn : n.toNat ≤ 2 ^ 31)
    (hi : i.toNat = 2 ^ j) (hj : j ≤ 31) (hfuel : fuel + j = 33) :
    (nextPowOfTwoLoop n fuel i).isSome := by
  induction fuel generalizing i j with
  | zero => omega
  | succ fuel ih =>
    rw [nextPowOfTwoLoop]
    split_ifs with hlt
    · rw [UInt32.lt_iff_toNat_lt, hi] at hlt
      have hj' : j < 31 := (Nat.pow_lt_pow_iff_right (by decide)).mp (hlt.trans_le hn)
      exact ih (toNat_mul_two hi hj') (by omega) (by omega)
    · rfl

/-- The size is the least power of two that is not less than the required size. -/
theorem create_spec {memory : ℕ → α} {n : UInt32} {rb : RingBuffer α}
    (h : create memory n = some rb) :
    ∃ k ≤ 31, rb.size.toNat = 2 ^ k ∧ IsLeast {p | n.toNat ≤ p ∧ ∃ k, p = 2 ^ k} (2 ^ k) := by
  obtain ⟨p, hp, rfl⟩ := Option.map_eq_some_iff.mp h
  obtain ⟨k, hk, hsize, hle, hbelow⟩ := @nextPowOfTwoLoop_eq n 1 p 33 0 rfl (by decide) rfl nofun hp
  rw [UInt32.le_iff_toNat_le, hsize] at hle
  refine ⟨k, hk, hsize, ⟨hle, k, rfl⟩, ?_⟩
  rintro _ ⟨hn, k', rfl⟩
  apply Nat.pow_le_pow_right Nat.two_pos
  by_contra hlt
  exact absurd (hbelow k' (Nat.lt_of_not_le hlt)) (Nat.not_lt_of_le hn)

theorem create_isSome (memory : ℕ → α) {n : UInt32} (hn : n.toNat ≤ 2 ^ 31) :
    (create memory n).isSome := by
  rw [create, Option.isSome_map]
  exact @nextPowOfTwoLoop_isSome n 1 33 0 hn rfl (by decide) rfl

theorem invariant_initial {memory : ℕ → α} {n : UInt32} {rb : RingBuffer α}
    (h : create memory n = some rb) : Invariant rb.size.toNat (initial rb) := by
  obtain ⟨k, hk, hsize, -⟩ := create_spec h
  obtain ⟨p, hp, rfl⟩ := Option.map_eq_some_iff.mp h
  have hpos : 0 < p.toNat := hsize ▸ Nat.two_pow_pos k
  exact ⟨⟨⟨k, hk, hsize⟩, rfl, rfl, (Nat.zero_mod _).symm, (Nat.zero_mod _).symm, le_rfl, hpos⟩,
    rfl, trivial, trivial, trivial⟩

/-- The values returned to the two parties: the number of bytes is limited by the space at the
time of the load, and it does not change until the end. -/
structure Returns (s : State α) : Prop where
  write : ∀ src bytes s', Step s (.write src bytes) s' →
    s'.writer.bytes = min bytes.toNat s.rb.writeSpace.toNat
  read : ∀ bytes peek s', Step s (.read bytes peek) s' →
    s'.reader.bytes = min bytes.toNat s.rb.readSpace.toNat
  writer_bytes : ∀ a s', Step s a s' → s.writer ≠ .idle → s'.writer ≠ .idle →
    s'.writer.bytes = s.writer.bytes
  reader_bytes : ∀ a s', Step s a s' → s.reader ≠ .idle → s'.reader ≠ .idle →
    s'.reader.bytes = s.reader.bytes
  written : ∀ n s', Step s (.written n) s' →
    n = s.writer.bytes ∧ s'.accepted.length = s.accepted.length + n
  obtained : ∀ dest s', Step s (.obtained dest) s' →
    dest.length = s.reader.bytes ∧ s'.obtained = s.obtained ++ dest
  peeked : ∀ dest s', Step s (.peeked dest) s' → dest.length = s.reader.bytes ∧ dest <+: s.unread

theorem Invariant.returns {size : ℕ} {s : State α} (h : Invariant size s) : Returns s where
  write src bytes s' hstep := by
    cases hstep with
    | write _ _ hsrc =>
      rw [Writer.bytes, h.length_take hsrc, h.heads.writeSpace, ← h.length_unread, hsrc]
  read bytes peek s' hstep := by
    cases hstep with
    | read => rw [Reader.bytes, toNat_min]
  writer_bytes a s' hstep := hstep.writer_bytes
  reader_bytes a s' hstep := h.reader_bytes hstep
  written n s' hstep := by
    cases hstep with
    | written hwriter =>
      rw [hwriter]
      exact ⟨rfl, List.length_append⟩
  obtained dest s' hstep := by
    cases hstep with
    | obtained hreader =>
      rw [hreader]
      exact ⟨rfl, rfl⟩
  peeked dest s' hstep := by
    have hready := h.reader
    cases hstep with
    | peeked hreader =>
      rw [hreader] at hready ⊢
      exact ⟨rfl, hready.1⟩

/-- There is no room for a byte if the required size is less than two. -/
theorem not_two_le_size :
    ¬ ∀ (n : UInt32) (rb : RingBuffer ℕ), create (fun _ => 0) n = some rb → 2 ≤ rb.size.toNat := by
  intro h
  have hzero := h 0 ⟨fun _ => 0, 0, 0, 1, 0⟩ rfl
  exact absurd hzero (by decide)

/-- A buffer is created if the required size is at most 2^31, with the least power of two as size.
The bytes obtained by the reader are a prefix of the bytes accepted from the writer, the unread bytes
are not overwritten, the number of bytes is limited by the space, and the spaces of the two parties
fill the buffer but for one byte. -/
theorem obtained_prefix_accepted (memory : ℕ → α) (n : UInt32) :
    (n.toNat ≤ 2 ^ 31 → (create memory n).isSome) ∧
      ∀ rb s, create memory n = some rb → Steps (initial rb) s →
        IsLeast {p | n.toNat ≤ p ∧ ∃ k, p = 2 ^ k} rb.size.toNat ∧
          s.obtained ++ s.unread = s.accepted ∧
          (∀ a s', Step s a s' →
            Stores s'.rb.buf rb.size.toNat s.obtained.length s.unread) ∧
          Returns s ∧
          s.rb.readSpace.toNat = s.unread.length ∧
          s.rb.readSpace.toNat + s.rb.writeSpace.toNat = rb.size.toNat - 1 := by
  refine ⟨create_isSome memory, fun rb s hrb h => ?_⟩
  obtain ⟨k, -, hsize, hleast⟩ := create_spec hrb
  have hinv := (invariant_initial hrb).steps h
  refine ⟨hsize ▸ hleast, hinv.history, fun a s' hstep => hinv.stores_step hstep, hinv.returns, ?_,
    hinv.heads.space_add_space⟩
  rw [hinv.heads.readSpace, hinv.length_unread]

theorem obtained_prefix_accepted_three : ∃ s : State ℕ,
    Steps (initial ⟨fun _ => 0, 0, 0, 4, 3⟩) s ∧ s.accepted = [5, 6, 7] ∧ s.obtained = [5, 6] ∧
      s.obtained ++ s.unread = s.accepted ∧ s.rb.readSpace.toNat = s.unread.length ∧
      IsLeast {p | 3 ≤ p ∧ ∃ k, p = 2 ^ k} 4 := by
  have hsteps : Steps (initial (⟨fun _ => 0, 0, 0, 4, 3⟩ : RingBuffer ℕ)) _ :=
    (((((Relation.ReflTransGen.refl.tail ⟨_, .write [5, 6, 7, 8] 4 rfl rfl⟩).tail
      ⟨_, .copyIn rfl (by decide)⟩).tail ⟨_, .written rfl⟩).tail ⟨_, .read 2 false rfl⟩).tail
      ⟨_, .copyOut rfl (by decide)⟩).tail ⟨_, .obtained rfl⟩
  obtain ⟨hleast, hhistory, -, -, hspace, -⟩ :=
    (obtained_prefix_accepted (fun _ => 0) 3).2 ⟨fun _ => 0, 0, 0, 4, 3⟩ _ rfl hsteps
  exact ⟨_, hsteps, rfl, rfl, hhistory, hspace, hleast⟩

end Incudine.ByteRing

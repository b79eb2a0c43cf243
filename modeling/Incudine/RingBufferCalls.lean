import Incudine.RingBuffer

/-!
# Whole calls on the ring buffer

A call that no other party interrupts runs all its steps. The memory and the heads after the call
are a function of the ring buffer, and the unread bytes are a queue.
-/

namespace Incudine.ByteRing

open CircularArray

variable {α : Type*}

namespace RingBuffer

variable (rb : RingBuffer α)

def write (src : List α) (bytes : UInt32) : RingBuffer α × UInt32 :=
  let bytes := min bytes rb.writeSpace
  let src := src.take bytes.toNat
  let writeEnd := rb.headEnd rb.writeHead bytes
  let buf :=
    if writeEnd < rb.writeHead then
      let n := (rb.size - rb.writeHead).toNat
      copyTo (copyTo rb.buf rb.writeHead.toNat (src.take n)) 0 ((src.drop n).take writeEnd.toNat)
    else copyTo rb.buf rb.writeHead.toNat src
  ((rb.setBuf buf).setWriteHead writeEnd, bytes)

def peek (bytes : UInt32) : List α :=
  let bytes := min bytes rb.readSpace
  let readEnd := rb.headEnd rb.readHead bytes
  if readEnd < rb.readHead then
    copyFrom rb.buf rb.readHead.toNat (rb.size - rb.readHead).toNat ++
      copyFrom rb.buf 0 readEnd.toNat
  else copyFrom rb.buf rb.readHead.toNat bytes.toNat

def read (bytes : UInt32) : List α × RingBuffer α :=
  (rb.peek bytes, rb.setReadHead (rb.headEnd rb.readHead (min bytes rb.readSpace)))

def readAdvance (bytes : UInt32) : RingBuffer α := rb.setReadHead (rb.headEnd rb.readHead bytes)

def reset : RingBuffer α := (rb.setWriteHead 0).setReadHead 0

end RingBuffer

section Steps

variable {rb : RingBuffer α} {accepted obtained : List α}

theorem steps_write {src : List α} {bytes : UInt32} (hsrc : src.length = bytes.toNat) :
    Steps ⟨rb, .idle, .idle, accepted, obtained⟩
      ⟨(rb.write src bytes).1, .idle, .idle,
        accepted ++ src.take (min bytes rb.writeSpace).toNat, obtained⟩ := by
  have hstart : Steps (⟨rb, .idle, .idle, accepted, obtained⟩ : State α) _ :=
    Relation.ReflTransGen.refl.tail ⟨_, .write src bytes hsrc rfl⟩
  by_cases hend : rb.headEnd rb.writeHead (min bytes rb.writeSpace) < rb.writeHead
  · have hcopy := ((hstart.tail ⟨_, .copyInEnd rfl hend⟩).tail ⟨_, .copyInRest rfl⟩).tail
      ⟨_, .written rfl⟩
    simp only [RingBuffer.write, if_pos hend]
    exact hcopy
  · have hcopy := (hstart.tail ⟨_, .copyIn rfl hend⟩).tail ⟨_, .written rfl⟩
    simp only [RingBuffer.write, if_neg hend]
    exact hcopy

theorem steps_read (bytes : UInt32) :
    Steps ⟨rb, .idle, .idle, accepted, obtained⟩
      ⟨(rb.read bytes).2, .idle, .idle, accepted, obtained ++ rb.peek bytes⟩ := by
  have hstart : Steps (⟨rb, .idle, .idle, accepted, obtained⟩ : State α) _ :=
    Relation.ReflTransGen.refl.tail ⟨_, .read bytes false rfl⟩
  by_cases hend : rb.headEnd rb.readHead (min bytes rb.readSpace) < rb.readHead
  · have hcopy := ((hstart.tail ⟨_, .copyOutEnd rfl hend⟩).tail ⟨_, .copyOutRest rfl⟩).tail
      ⟨_, .obtained rfl⟩
    simp only [RingBuffer.read, RingBuffer.peek, if_pos hend]
    exact hcopy
  · have hcopy := (hstart.tail ⟨_, .copyOut rfl hend⟩).tail ⟨_, .obtained rfl⟩
    simp only [RingBuffer.read, RingBuffer.peek, if_neg hend]
    exact hcopy

end Steps

/-- The unread bytes of a ring buffer between two calls. -/
def Holds (size : ℕ) (rb : RingBuffer α) (l : List α) : Prop :=
  ∃ accepted obtained : List α, Invariant size ⟨rb, .idle, .idle, accepted, obtained⟩ ∧
    accepted.drop obtained.length = l

section Holds

variable {size : ℕ} {rb : RingBuffer α} {l : List α}

theorem holds_create {memory : ℕ → α} {n : UInt32} (h : create memory n = some rb) :
    Holds rb.size.toNat rb [] :=
  ⟨[], [], invariant_initial h, rfl⟩

section

variable (h : Holds size rb l)
include h

theorem Holds.readSpace : rb.readSpace.toNat = l.length := by
  obtain ⟨accepted, obtained, hinv, rfl⟩ := h
  rw [hinv.heads.readSpace, List.length_drop]

theorem Holds.lt_size : l.length < size := by
  obtain ⟨accepted, obtained, hinv, rfl⟩ := h
  exact hinv.lt_size

theorem Holds.writeSpace : rb.writeSpace.toNat = size - 1 - l.length := by
  obtain ⟨accepted, obtained, hinv, rfl⟩ := h
  rw [hinv.heads.writeSpace, List.length_drop]

theorem Holds.peek (bytes : UInt32) : rb.peek bytes = l.take bytes.toNat := by
  have hspace := h.readSpace
  obtain ⟨accepted, obtained, hinv, rfl⟩ := h
  set l := accepted.drop obtained.length
  have hstart := hinv.read bytes true
  have hbytes : (min bytes rb.readSpace).toNat = min bytes.toNat l.length := by
    rw [toNat_min, hspace]
  have htake : ∀ dest : List α, dest <+: l → dest.length = min bytes.toNat l.length →
      dest = l.take bytes.toNat := by
    intro dest hdest hlen
    rw [List.prefix_iff_eq_take.mp hdest, hlen, ← List.take_eq_take_min]
  apply htake
  · by_cases hend : rb.headEnd rb.readHead (min bytes rb.readSpace) < rb.readHead
    · have hcopy := ((hstart.copyOutEnd rfl hend).copyOutRest rfl).reader.1
      simp only [RingBuffer.peek, if_pos hend]
      exact hcopy
    · have hcopy := (hstart.copyOut rfl hend).reader.1
      simp only [RingBuffer.peek, if_neg hend]
      exact hcopy
  · rw [← hbytes]
    by_cases hend : rb.headEnd rb.readHead (min bytes rb.readSpace) < rb.readHead
    · have hcopy := (hstart.copyOutEnd rfl hend).reader.2.2.1
      simp only [RingBuffer.peek, if_pos hend, List.length_append, length_copyFrom]
      rw [length_copyFrom] at hcopy
      exact hcopy
    · simp only [RingBuffer.peek, if_neg hend, length_copyFrom]

theorem Holds.read (bytes : UInt32) : Holds size (rb.read bytes).2 (l.drop bytes.toNat) := by
  have hpeek := h.peek bytes
  obtain ⟨accepted, obtained, hinv, rfl⟩ := h
  refine ⟨accepted, obtained ++ rb.peek bytes, hinv.steps (steps_read bytes), ?_⟩
  rw [hpeek, List.length_append, List.length_take, ← List.drop_drop, ← List.drop_eq_drop_min]

theorem Holds.readAdvance {bytes : UInt32} (hbytes : bytes.toNat ≤ l.length) :
    Holds size (rb.readAdvance bytes) (l.drop bytes.toNat) := by
  have hspace := h.readSpace
  obtain ⟨accepted, obtained, hinv, rfl⟩ := h
  have hle : bytes ≤ rb.readSpace := by
    rw [UInt32.le_iff_toNat_le, hspace]
    exact hbytes
  refine ⟨accepted, _, hinv.readAdvance rfl hle, ?_⟩
  rw [List.length_append, length_contents, List.drop_drop]

theorem Holds.write {src : List α} {bytes : UInt32} (hsrc : src.length = bytes.toNat) :
    Holds size (rb.write src bytes).1 (l ++ src.take (size - 1 - l.length)) ∧
      (rb.write src bytes).2.toNat = min src.length (size - 1 - l.length) := by
  have hspace := h.writeSpace
  obtain ⟨accepted, obtained, hinv, rfl⟩ := h
  have hbytes : (min bytes rb.writeSpace).toNat =
      min src.length (size - 1 - (accepted.drop obtained.length).length) := by
    rw [toNat_min, hspace, hsrc]
  refine ⟨⟨_, obtained, hinv.steps (steps_write hsrc), ?_⟩, hbytes⟩
  have hle := hinv.heads.le
  rw [List.drop_append_of_le_length hle, hbytes, Nat.min_comm, ← List.take_eq_take_min]

end

end Holds

end Incudine.ByteRing

import Incudine.Octets
import Mathlib.Data.Finset.Basic
import Mathlib.Data.Int.Bitwise
import Mathlib.Order.Bounds.Basic

/-!
# Lowest and highest note priority

The flags of the held keys are packed in a few fixnums. The highest key comes from the
`integer-length` of the last fixnum with a flag, the lowest key from the number of the trailing
zeros of the first one.
-/

namespace Incudine.NotePriority

open Octets

section Bits

theorem testBit_bits {f : ℕ} (h : 0 < f) : f.testBit (bits f - 1) = true := by
  rw [bits, if_neg h.ne', Nat.add_sub_cancel]
  exact Nat.testBit_log2 h.ne'

theorem lt_bits_of_testBit {f b : ℕ} (h : f.testBit b = true) : b < bits f := by
  by_contra hlt
  have hsmall : f < 2 ^ b := bits_le_iff.mp (Nat.le_of_not_lt hlt)
  rw [Nat.testBit_lt_two_pow hsmall] at h
  cases h

theorem exists_trailing {f : ℕ} (h : 0 < f) : ∃ t m, f = 2 ^ (t + 1) * m + 2 ^ t := by
  induction f using Nat.strongRecOn with
  | ind f ih =>
    rcases Nat.even_or_odd' f with ⟨k, rfl | rfl⟩
    · obtain ⟨t, m, hk⟩ := ih k (by omega) (by omega)
      refine ⟨t + 1, m, ?_⟩
      calc 2 * k = 2 * (2 ^ (t + 1) * m + 2 ^ t) := by rw [← hk]
        _ = 2 ^ (t + 1 + 1) * m + 2 ^ (t + 1) := by ring
    · exact ⟨0, k, by ring⟩

theorem land_lnot_pred (t m : ℕ) :
    Int.land (Int.lnot ((2 ^ (t + 1) * m + 2 ^ t : ℕ) : ℤ))
      (((2 ^ (t + 1) * m + 2 ^ t : ℕ) : ℤ) - 1) = ((2 ^ t - 1 : ℕ) : ℤ) := by
  have hpos : 0 < 2 ^ t := Nat.two_pow_pos t
  have hpred : (((2 ^ (t + 1) * m + 2 ^ t : ℕ) : ℤ) - 1) =
      ((2 ^ (t + 1) * m + (2 ^ t - 1) : ℕ) : ℤ) := by
    omega
  rw [hpred]
  refine congrArg Int.ofNat ?_
  refine Nat.eq_of_testBit_eq fun b => ?_
  have hlow : 2 ^ t < 2 ^ (t + 1) := Nat.pow_lt_pow_right Nat.one_lt_two (Nat.lt_succ_self t)
  have hlow' : 2 ^ t - 1 < 2 ^ (t + 1) := by omega
  rw [Nat.testBit_ldiff, Nat.testBit_two_pow_mul_add m hlow', Nat.testBit_two_pow_mul_add m hlow,
    Nat.testBit_two_pow_sub_one, Nat.testBit_two_pow]
  by_cases hb : b < t + 1
  · simp only [if_pos hb]
    by_cases hbt : b < t
    · simp [hbt, hbt.ne']
    · simp [hbt]
  · have hbt : ¬ b < t := by omega
    simp [hb, hbt]

theorem lowest_bit {f : ℕ} (h : 0 < f) :
    f.testBit (bits (Int.land (Int.lnot f) ((f : ℤ) - 1)).toNat) = true ∧
      ∀ b, f.testBit b = true → bits (Int.land (Int.lnot f) ((f : ℤ) - 1)).toNat ≤ b := by
  obtain ⟨t, m, rfl⟩ := exists_trailing h
  have hlow : 2 ^ t < 2 ^ (t + 1) := Nat.pow_lt_pow_right Nat.one_lt_two (Nat.lt_succ_self t)
  have hbits : bits (2 ^ t - 1) = t := by
    refine le_antisymm (bits_le_iff.mpr (Nat.sub_lt (Nat.two_pow_pos t) Nat.one_pos)) ?_
    by_contra hlt
    have hpow : 2 ^ t - 1 < 2 ^ (t - 1) := bits_le_iff.mp (by omega)
    have hdouble : 2 ^ t = 2 * 2 ^ (t - 1) := by
      rw [← pow_succ']
      congr 1
      omega
    have hpos : 0 < 2 ^ (t - 1) := Nat.two_pow_pos _
    omega
  rw [land_lnot_pred, Int.toNat_natCast, hbits]
  constructor
  · rw [Nat.testBit_two_pow_mul_add m hlow, if_pos (Nat.lt_succ_self t), Nat.testBit_two_pow_self]
  · intro b hb
    by_contra hlt
    rw [Nat.testBit_two_pow_mul_add m hlow, if_pos (by omega), Nat.testBit_two_pow] at hb
    have heq := of_decide_eq_true hb
    omega

end Bits

section Tables

inductive Arch
  | bits32
  | bits64
  deriving DecidableEq

def Arch.fixnumLength : Arch → ℕ
  | .bits32 => 29
  | .bits64 => 62

def numberOfNotes : ℕ := 128

def slotMaxSize (arch : Arch) : ℕ :=
  24 * (min 64 arch.fixnumLength / 24)

/-- The fixnums that store the flags, 6 or 3. -/
def integers (arch : Arch) : ℕ :=
  (numberOfNotes + slotMaxSize arch - 1) / slotMaxSize arch

/-- The two slots at the end are the last note-off and the last note-on. -/
def vectorSize (arch : Arch) : ℕ :=
  integers arch + 2

def slotIndexMask : ℕ := 7

def slotOffsetMask : ℕ := 0x78

def svref (v : List ℕ) (i : ℕ) : ℕ :=
  v.getD i 0

def offsetVector (arch : Arch) : List ℕ :=
  List.range' 0 (integers arch) (slotMaxSize arch)

def flagVector (arch : Arch) : List ℕ :=
  (List.range (slotMaxSize arch)).map fun i => 1 <<< i

def slotLoop (size : ℕ) : ℕ → ℕ → ℕ → ℕ → List ℕ
  | 0, _, _, _ => []
  | left + 1, j, k, offset =>
    if j = size then (k + 1 + (offset + j)) :: slotLoop size left 1 (k + 1) (offset + j)
    else (k + offset) :: slotLoop size left (j + 1) k offset

def slotVector (arch : Arch) : List ℕ :=
  slotLoop (slotMaxSize arch) numberOfNotes 0 0 0

theorem index_lt (arch : Arch) (keynum : Fin 128) : keynum / slotMaxSize arch < integers arch :=
  Nat.div_lt_of_lt_mul (keynum.isLt.trans_le (by cases arch <;> decide))

theorem slot_spec (arch : Arch) (keynum : Fin 128) :
    svref (slotVector arch) keynum &&& slotIndexMask = keynum / slotMaxSize arch ∧
      svref (slotVector arch) keynum &&& slotOffsetMask =
        slotMaxSize arch * (keynum / slotMaxSize arch) := by
  have hvector : slotVector arch =
      (List.range 128).map fun i => (slotMaxSize arch + 1) * (i / slotMaxSize arch) := by
    cases arch <;> decide +kernel
  have hmasks : ∀ q < integers arch,
      (slotMaxSize arch + 1) * q &&& slotIndexMask = q ∧
        (slotMaxSize arch + 1) * q &&& slotOffsetMask = slotMaxSize arch * q := by
    cases arch <;> decide
  rw [svref, hvector, List.getD_eq_getElem _ _ (by simp), List.getElem_map, List.getElem_range]
  exact hmasks _ (index_lt arch keynum)

theorem svref_offsetVector {arch : Arch} {i : ℕ} (h : i < integers arch) :
    svref (offsetVector arch) i = slotMaxSize arch * i := by
  have hlength : i < (offsetVector arch).length := by
    rw [offsetVector, List.length_range']
    exact h
  rw [svref, List.getD_eq_getElem _ _ hlength]
  simp [offsetVector]

theorem svref_flagVector {arch : Arch} {i : ℕ} (h : i < slotMaxSize arch) :
    svref (flagVector arch) i = 2 ^ i := by
  have hlength : i < (flagVector arch).length := by
    rw [flagVector, List.length_map, List.length_range]
    exact h
  rw [svref, List.getD_eq_getElem _ _ hlength]
  simp [flagVector, Nat.shiftLeft_eq]

theorem slotMaxSize_pos (arch : Arch) : 0 < slotMaxSize arch := by
  cases arch with
  | bits32 => decide
  | bits64 => decide

end Tables

section Operations

variable {arch : Arch}

structure Vectors (arch : Arch) where
  priority : List ℕ
  velocity : List UInt8
  priority_length : priority.length = vectorSize arch
  velocity_length : velocity.length = numberOfNotes

def makeVectors (arch : Arch) : Vectors arch where
  priority := List.replicate (vectorSize arch) 0
  velocity := List.replicate numberOfNotes 0
  priority_length := List.length_replicate
  velocity_length := List.length_replicate

namespace Vectors

def lastNoteOff (v : Vectors arch) : ℕ :=
  svref v.priority (integers arch)

def lastNoteOn (v : Vectors arch) : ℕ :=
  svref v.priority (integers arch + 1)

def add (v : Vectors arch) (keynum : Fin 128) (velocity : UInt8) : Vectors arch :=
  let slot := svref (slotVector arch) keynum
  let index := slot &&& slotIndexMask
  let flag := svref (flagVector arch) (keynum - (slot &&& slotOffsetMask))
  { priority := (v.priority.set index (flag ||| svref v.priority index)).set
      (integers arch + 1) keynum
    velocity := v.velocity.set keynum velocity
    priority_length := by rw [List.length_set, List.length_set, v.priority_length]
    velocity_length := by rw [List.length_set, v.velocity_length] }

def remove (v : Vectors arch) (keynum : Fin 128) : Vectors arch :=
  let slot := svref (slotVector arch) keynum
  let index := slot &&& slotIndexMask
  let flag := svref (flagVector arch) (keynum - (slot &&& slotOffsetMask))
  { priority := (v.priority.set index (flag ^^^ (flag ||| svref v.priority index))).set
      (integers arch) keynum
    velocity := v.velocity.set keynum 0
    priority_length := by rw [List.length_set, List.length_set, v.priority_length]
    velocity_length := by rw [List.length_set, v.velocity_length] }

/-- The loop of `highest-note-priority`, from the index below `n` down to zero. -/
def highestLoop (v : Vectors arch) : ℕ → ℕ
  | 0 => v.lastNoteOff
  | index + 1 =>
    let flags := svref v.priority index
    if 0 < flags then bits flags - 1 + svref (offsetVector arch) index
    else highestLoop v index

def highest (v : Vectors arch) : ℕ :=
  v.highestLoop (integers arch)

def lowestLoop (v : Vectors arch) : ℕ → ℕ
  | 0 => v.lastNoteOff
  | left + 1 =>
    let index := integers arch - (left + 1)
    let flags := svref v.priority index
    if 0 < flags then
      bits (Int.land (Int.lnot flags) ((flags : ℤ) - 1)).toNat + svref (offsetVector arch) index
    else lowestLoop v left

def lowest (v : Vectors arch) : ℕ :=
  v.lowestLoop (integers arch)

def reset (v : Vectors arch) : Vectors arch where
  priority := v.priority.map fun _ => 0
  velocity := v.velocity.map fun _ => 0
  priority_length := by rw [List.length_map, v.priority_length]
  velocity_length := by rw [List.length_map, v.velocity_length]

end Vectors

inductive Op
  | add (keynum : Fin 128) (velocity : UInt8)
  | remove (keynum : Fin 128)
  | reset
  deriving DecidableEq

def Vectors.apply (v : Vectors arch) : Op → Vectors arch
  | .add keynum velocity => v.add keynum velocity
  | .remove keynum => v.remove keynum
  | .reset => v.reset

structure Keys where
  held : Finset (Fin 128) := ∅
  velocity : Fin 128 → UInt8 := fun _ => 0
  lastOff : Fin 128 := 0

def Keys.apply (k : Keys) : Op → Keys
  | .add keynum velocity =>
    { k with
      held := insert keynum k.held
      velocity := Function.update k.velocity keynum velocity }
  | .remove keynum =>
    { k with
      held := k.held.erase keynum
      lastOff := keynum }
  | .reset => {}

/-- The flags are those of the held keys. -/
structure Represents (v : Vectors arch) (k : Keys) : Prop where
  flags : ∀ index < integers arch, ∀ b, (svref v.priority index).testBit b = true ↔
    b < slotMaxSize arch ∧ ∃ key ∈ k.held, (key : ℕ) = slotMaxSize arch * index + b
  lastOff : v.lastNoteOff = k.lastOff
  velocity : ∀ key : Fin 128, v.velocity[key.val]? =
    some (if key ∈ k.held then k.velocity key else 0)

theorem svref_set (v : List ℕ) (i x j : ℕ) :
    svref (v.set i x) j = if i = j ∧ i < v.length then x else svref v j := by
  rw [svref, svref, List.getD_eq_getElem?_getD, List.getD_eq_getElem?_getD, List.getElem?_set]
  by_cases hij : i = j
  · subst hij
    by_cases hi : i < v.length
    · simp [hi]
    · simp [hi]
  · simp [hij]

theorem flag_spec (arch : Arch) (keynum : Fin 128) :
    svref (flagVector arch) (keynum - (svref (slotVector arch) keynum &&& slotOffsetMask)) =
      2 ^ (keynum % slotMaxSize arch) := by
  have hmod : keynum.val - slotMaxSize arch * (keynum / slotMaxSize arch) =
      keynum % slotMaxSize arch := by
    have hdiv := Nat.div_add_mod keynum.val (slotMaxSize arch)
    omega
  rw [(slot_spec arch keynum).2, hmod, svref_flagVector (Nat.mod_lt _ (slotMaxSize_pos arch))]

theorem Vectors.priority_add (v : Vectors arch) (keynum : Fin 128) (velocity : UInt8) :
    (v.add keynum velocity).priority =
      (v.priority.set (keynum / slotMaxSize arch) (2 ^ (keynum % slotMaxSize arch) |||
        svref v.priority (keynum / slotMaxSize arch))).set (integers arch + 1) keynum := by
  rw [← flag_spec, ← (slot_spec arch keynum).1]
  rfl

theorem Vectors.priority_remove (v : Vectors arch) (keynum : Fin 128) :
    (v.remove keynum).priority =
      (v.priority.set (keynum / slotMaxSize arch) (2 ^ (keynum % slotMaxSize arch) ^^^
        (2 ^ (keynum % slotMaxSize arch) |||
          svref v.priority (keynum / slotMaxSize arch)))).set (integers arch) keynum := by
  rw [← flag_spec, ← (slot_spec arch keynum).1]
  rfl

theorem key_eq_iff {keynum : Fin 128} {index b : ℕ} (hb : b < slotMaxSize arch) :
    (keynum : ℕ) = slotMaxSize arch * index + b ↔
      keynum / slotMaxSize arch = index ∧ keynum % slotMaxSize arch = b := by
  have hdiv := Nat.div_add_mod keynum.val (slotMaxSize arch)
  constructor
  · intro hkey
    rw [hkey, Nat.mul_add_div (slotMaxSize_pos arch), Nat.div_eq_of_lt hb, Nat.add_zero,
      Nat.mul_add_mod, Nat.mod_eq_of_lt hb]
    exact ⟨rfl, rfl⟩
  · rintro ⟨rfl, rfl⟩
    exact hdiv.symm

end Operations

section Refinement

variable {arch : Arch} {v : Vectors arch} {k : Keys}

theorem svref_update (v : Vectors arch) (keynum : Fin 128) {index slot : ℕ} (flags value : ℕ)
    (hindex : index < integers arch) (hslot : integers arch ≤ slot) :
    svref ((v.priority.set (keynum / slotMaxSize arch) flags).set slot value) index =
      if keynum / slotMaxSize arch = index then flags else svref v.priority index := by
  have hlt := index_lt arch keynum
  have hne : ¬ (slot = index ∧
      slot < (v.priority.set (keynum / slotMaxSize arch) flags).length) := by
    omega
  have hlength : keynum / slotMaxSize arch < v.priority.length := by
    rw [v.priority_length, vectorSize]
    omega
  rw [svref_set, if_neg hne, svref_set]
  simp only [hlength, and_true]

theorem svref_last (v : Vectors arch) (keynum : Fin 128) {slot i : ℕ} (flags value : ℕ)
    (hi : integers arch ≤ i) (hslot : slot < vectorSize arch) :
    svref ((v.priority.set (keynum / slotMaxSize arch) flags).set slot value) i =
      if slot = i then value else svref v.priority i := by
  have hlt := index_lt arch keynum
  have hne : ¬ (keynum / slotMaxSize arch = i ∧
      keynum / slotMaxSize arch < v.priority.length) := by
    omega
  have hlength : slot < (v.priority.set (keynum / slotMaxSize arch) flags).length := by
    rw [List.length_set, v.priority_length]
    exact hslot
  rw [svref_set, svref_set, if_neg hne]
  simp only [hlength, and_true]

theorem svref_zero {l : List ℕ} (h : ∀ x ∈ l, x = 0) (i : ℕ) : svref l i = 0 := by
  rw [svref, List.getD_eq_getElem?_getD]
  cases hi : l[i]? with
  | none => rfl
  | some x => exact h x (List.mem_of_getElem? hi)

theorem represents_zeros (hpriority : ∀ x ∈ v.priority, x = 0)
    (hvelocity : ∀ x ∈ v.velocity, x = 0) : Represents v {} where
  flags := by
    intro index _ b
    rw [svref_zero hpriority, Nat.zero_testBit]
    simp
  lastOff := svref_zero hpriority _
  velocity := by
    intro key
    have hlength : key.val < v.velocity.length := by
      rw [v.velocity_length]
      exact key.isLt
    rw [List.getElem?_eq_getElem hlength, hvelocity _ (List.getElem_mem hlength)]
    simp

theorem represents_make (arch : Arch) : Represents (makeVectors arch) {} :=
  represents_zeros (fun _ => List.eq_of_mem_replicate) fun _ => List.eq_of_mem_replicate

theorem Vectors.highestLoop_spec (v : Vectors arch) {n : ℕ} (hn : n ≤ integers arch) :
    (∀ index < n, svref v.priority index = 0) ∧ v.highestLoop n = v.lastNoteOff ∨
      ∃ index < n, 0 < svref v.priority index ∧
        (∀ i < n, index < i → svref v.priority i = 0) ∧
        v.highestLoop n =
          slotMaxSize arch * index + (bits (svref v.priority index) - 1) := by
  induction n with
  | zero => exact .inl ⟨fun index hindex => absurd hindex (Nat.not_lt_zero index), rfl⟩
  | succ n ih =>
    rw [Vectors.highestLoop]
    by_cases hflags : 0 < svref v.priority n
    · rw [if_pos hflags, svref_offsetVector hn]
      exact .inr ⟨n, Nat.lt_succ_self n, hflags, fun i hi hlt => by omega, Nat.add_comm _ _⟩
    · have hzero : svref v.priority n = 0 := Nat.eq_zero_of_not_pos hflags
      rw [if_neg hflags]
      rcases ih (by omega) with ⟨hall, hloop⟩ | ⟨index, hindex, hpos, hall, hloop⟩
      · refine .inl ⟨fun i hi => ?_, hloop⟩
        rcases Nat.lt_succ_iff_lt_or_eq.mp hi with hi | rfl
        · exact hall i hi
        · exact hzero
      · refine .inr ⟨index, by omega, hpos, fun i hi hlt => ?_, hloop⟩
        rcases Nat.lt_succ_iff_lt_or_eq.mp hi with hi | rfl
        · exact hall i hi hlt
        · exact hzero

theorem Vectors.lowestLoop_spec (v : Vectors arch) {n : ℕ} (hn : n ≤ integers arch) :
    (∀ index < integers arch, integers arch - n ≤ index → svref v.priority index = 0) ∧
        v.lowestLoop n = v.lastNoteOff ∨
      ∃ index < integers arch, 0 < svref v.priority index ∧
        (∀ i < index, integers arch - n ≤ i → svref v.priority i = 0) ∧
        v.lowestLoop n = slotMaxSize arch * index +
          bits (Int.land (Int.lnot (svref v.priority index))
            ((svref v.priority index : ℤ) - 1)).toNat := by
  induction n with
  | zero => exact .inl ⟨fun index hindex hle => by omega, rfl⟩
  | succ n ih =>
    rw [Vectors.lowestLoop]
    have hlt : integers arch - (n + 1) < integers arch := by omega
    by_cases hflags : 0 < svref v.priority (integers arch - (n + 1))
    · simp only [if_pos hflags, svref_offsetVector hlt]
      exact .inr ⟨_, hlt, hflags, fun i hi hle => by omega, Nat.add_comm _ _⟩
    · have hzero : svref v.priority (integers arch - (n + 1)) = 0 :=
        Nat.eq_zero_of_not_pos hflags
      simp only [if_neg hflags]
      have hstep {i : ℕ} (hle : integers arch - (n + 1) ≤ i)
          (hall : integers arch - n ≤ i → svref v.priority i = 0) : svref v.priority i = 0 := by
        rcases hle.eq_or_lt with rfl | hlt'
        · exact hzero
        · exact hall (by omega)
      rcases ih (by omega) with ⟨hall, hloop⟩ | ⟨index, hindex, hpos, hall, hloop⟩
      · exact .inl ⟨fun i hi hle => hstep hle (hall i hi), hloop⟩
      · exact .inr ⟨index, hindex, hpos, fun i hi hle => hstep hle (hall i hi), hloop⟩

theorem pos_of_testBit {f b : ℕ} (h : f.testBit b = true) : 0 < f := by
  refine Nat.pos_of_ne_zero ?_
  rintro rfl
  rw [Nat.zero_testBit] at h
  cases h

section

variable (h : Represents v k)
include h

theorem Represents.getElem?_set (keynum key : Fin 128) (velocity : UInt8) :
    (v.velocity.set keynum velocity)[key.val]? =
      some (if key = keynum then velocity else if key ∈ k.held then k.velocity key else 0) := by
  rw [List.getElem?_set, v.velocity_length]
  by_cases hkey : key = keynum
  · subst hkey
    rw [if_pos rfl, if_pos rfl, if_pos (show key.val < numberOfNotes from key.isLt)]
  · have hval : ¬ keynum.val = key.val := fun heq => hkey (Fin.ext heq.symm)
    rw [if_neg hval, if_neg hkey, h.velocity key]

theorem Represents.add (keynum : Fin 128) (velocity : UInt8) :
    Represents (v.add keynum velocity) (k.apply (.add keynum velocity)) where
  flags := by
    intro index hindex b
    rw [Vectors.priority_add, svref_update v keynum _ _ hindex (Nat.le_succ _)]
    have hmem : (∃ key ∈ (k.apply (.add keynum velocity)).held,
        (key : ℕ) = slotMaxSize arch * index + b) ↔
          (keynum : ℕ) = slotMaxSize arch * index + b ∨
            ∃ key ∈ k.held, (key : ℕ) = slotMaxSize arch * index + b := by
      simp [Keys.apply]
    have hmod := Nat.mod_lt keynum.val (slotMaxSize_pos arch)
    rw [hmem]
    by_cases hsame : keynum / slotMaxSize arch = index
    · subst hsame
      rw [if_pos rfl, Nat.testBit_or, Nat.testBit_two_pow, Bool.or_eq_true,
        h.flags _ hindex, decide_eq_true_eq]
      constructor
      · rintro (rfl | ⟨hb, hkey⟩)
        · exact ⟨hmod, .inl ((key_eq_iff hmod).mpr ⟨rfl, rfl⟩)⟩
        · exact ⟨hb, .inr hkey⟩
      · rintro ⟨hb, hkey | hkey⟩
        · exact .inl ((key_eq_iff hb).mp hkey).2
        · exact .inr ⟨hb, hkey⟩
    · rw [if_neg hsame, h.flags _ hindex]
      constructor
      · rintro ⟨hb, hkey⟩
        exact ⟨hb, .inr hkey⟩
      · rintro ⟨hb, hkey | hkey⟩
        · exact absurd ((key_eq_iff hb).mp hkey).1 hsame
        · exact ⟨hb, hkey⟩
  lastOff := by
    have hne : ¬ integers arch + 1 = integers arch := by omega
    rw [Vectors.lastNoteOff, Vectors.priority_add,
      svref_last v keynum _ _ le_rfl (Nat.lt_succ_self _), if_neg hne]
    exact h.lastOff
  velocity := by
    intro key
    rw [Vectors.add, h.getElem?_set, Keys.apply]
    by_cases hkey : key = keynum <;> simp [hkey]

theorem Represents.remove (keynum : Fin 128) :
    Represents (v.remove keynum) (k.apply (.remove keynum)) where
  flags := by
    intro index hindex b
    rw [Vectors.priority_remove, svref_update v keynum _ _ hindex le_rfl]
    have hmod := Nat.mod_lt keynum.val (slotMaxSize_pos arch)
    have hmem : (∃ key ∈ (k.apply (.remove keynum)).held,
        (key : ℕ) = slotMaxSize arch * index + b) ↔
          (keynum : ℕ) ≠ slotMaxSize arch * index + b ∧
            ∃ key ∈ k.held, (key : ℕ) = slotMaxSize arch * index + b := by
      simp only [Keys.apply, Finset.mem_erase]
      constructor
      · rintro ⟨key, ⟨hne, hheld⟩, hkey⟩
        exact ⟨fun heq => hne (Fin.ext (hkey.trans heq.symm)), key, hheld, hkey⟩
      · rintro ⟨hne, key, hheld, hkey⟩
        refine ⟨key, ⟨?_, hheld⟩, hkey⟩
        rintro rfl
        exact hne hkey
    rw [hmem]
    by_cases hsame : keynum / slotMaxSize arch = index
    · subst hsame
      rw [if_pos rfl, Nat.testBit_xor, Nat.testBit_or, Nat.testBit_two_pow]
      have hflags := h.flags _ hindex b
      by_cases hbit : keynum % slotMaxSize arch = b
      · subst hbit
        refine iff_of_false (by simp) ?_
        rintro ⟨-, hne, -⟩
        exact hne ((key_eq_iff hmod).mpr ⟨rfl, rfl⟩)
      · have hne (hb : b < slotMaxSize arch) :
            (keynum : ℕ) ≠ slotMaxSize arch * (keynum / slotMaxSize arch) + b :=
          fun heq => hbit ((key_eq_iff hb).mp heq).2
        simp only [hbit, decide_false, Bool.false_or, Bool.false_bne, hflags]
        constructor
        · rintro ⟨hb, hkey⟩
          exact ⟨hb, hne hb, hkey⟩
        · rintro ⟨hb, -, hkey⟩
          exact ⟨hb, hkey⟩
    · rw [if_neg hsame, h.flags _ hindex]
      constructor
      · rintro ⟨hb, hkey⟩
        exact ⟨hb, fun heq => hsame ((key_eq_iff hb).mp heq).1, hkey⟩
      · rintro ⟨hb, -, hkey⟩
        exact ⟨hb, hkey⟩
  lastOff := by
    rw [Vectors.lastNoteOff, Vectors.priority_remove,
      svref_last v keynum _ _ le_rfl (by rw [vectorSize]; omega), if_pos rfl]
    rfl
  velocity := by
    intro key
    rw [Vectors.remove, h.getElem?_set, Keys.apply]
    by_cases hkey : key = keynum <;> simp [hkey]

theorem Represents.apply (op : Op) : Represents (v.apply op) (k.apply op) := by
  cases op with
  | add keynum velocity => exact h.add keynum velocity
  | remove keynum => exact h.remove keynum
  | reset =>
    refine represents_zeros (fun x hx => ?_) fun x hx => ?_
    · obtain ⟨y, -, rfl⟩ := List.mem_map.mp hx
      rfl
    · obtain ⟨y, -, rfl⟩ := List.mem_map.mp hx
      rfl

theorem Represents.foldl (ops : List Op) :
    Represents (ops.foldl Vectors.apply v) (ops.foldl Keys.apply k) := by
  induction ops generalizing v k with
  | nil => exact h
  | cons op ops ih => exact ih (h.apply op)

theorem Represents.testBit_of_held {key : Fin 128} (hkey : key ∈ k.held) :
    (svref v.priority (key / slotMaxSize arch)).testBit (key % slotMaxSize arch) = true := by
  have hmod := Nat.mod_lt key.val (slotMaxSize_pos arch)
  exact (h.flags _ (index_lt arch key) _).mpr
    ⟨hmod, key, hkey, (key_eq_iff hmod).mpr ⟨rfl, rfl⟩⟩

theorem Represents.flags_eq_zero (hheld : k.held = ∅) {index : ℕ} (hindex : index < integers arch) :
    svref v.priority index = 0 := by
  refine Nat.eq_of_testBit_eq fun b => ?_
  rw [Nat.zero_testBit, ← Bool.not_eq_true, h.flags index hindex, hheld]
  simp

theorem Represents.highest (hheld : k.held.Nonempty) :
    IsGreatest (Set.image Fin.val (k.held : Set (Fin 128))) v.highest := by
  rcases v.highestLoop_spec le_rfl with ⟨hall, -⟩ | ⟨index, hindex, hpos, hall, hloop⟩
  · obtain ⟨key, hkey⟩ := hheld
    have hflag := pos_of_testBit (h.testBit_of_held hkey)
    exact absurd (hall _ (index_lt arch key)) hflag.ne'
  · rw [Vectors.highest, hloop]
    constructor
    · obtain ⟨-, key, hkey, heq⟩ := (h.flags index hindex _).mp (testBit_bits hpos)
      exact ⟨key, hkey, heq⟩
    · rintro _ ⟨key, hkey, rfl⟩
      have hflag := h.testBit_of_held hkey
      have hle : key / slotMaxSize arch ≤ index := by
        by_contra hlt
        have hzero := hall _ (index_lt arch key) (Nat.lt_of_not_le hlt)
        exact (pos_of_testBit hflag).ne' hzero
      have hdiv := Nat.div_add_mod key.val (slotMaxSize arch)
      rcases hle.eq_or_lt with rfl | hlt
      · have hbit := lt_bits_of_testBit hflag
        omega
      · have hkey := (Nat.div_lt_iff_lt_mul (slotMaxSize_pos arch)).mp hlt
        rw [Nat.mul_comm] at hkey
        omega

theorem Represents.lowest (hheld : k.held.Nonempty) :
    IsLeast (Set.image Fin.val (k.held : Set (Fin 128))) v.lowest := by
  have hfirst {i : ℕ} : integers arch - integers arch ≤ i := by omega
  rcases v.lowestLoop_spec le_rfl with ⟨hall, -⟩ | ⟨index, hindex, hpos, hall, hloop⟩
  · obtain ⟨key, hkey⟩ := hheld
    have hflag := pos_of_testBit (h.testBit_of_held hkey)
    exact absurd (hall _ (index_lt arch key) hfirst) hflag.ne'
  · obtain ⟨hbit, hleast⟩ := lowest_bit hpos
    rw [Vectors.lowest, hloop]
    constructor
    · obtain ⟨-, key, hkey, heq⟩ := (h.flags index hindex _).mp hbit
      exact ⟨key, hkey, heq⟩
    · rintro _ ⟨key, hkey, rfl⟩
      have hflag := h.testBit_of_held hkey
      have hle : index ≤ key / slotMaxSize arch := by
        by_contra hlt
        have hzero := hall _ (Nat.lt_of_not_le hlt) hfirst
        exact (pos_of_testBit hflag).ne' hzero
      have hdiv := Nat.div_add_mod key.val (slotMaxSize arch)
      rcases hle.eq_or_lt with rfl | hlt
      · have hbits := hleast _ hflag
        omega
      · obtain ⟨hsize, -⟩ := (h.flags index hindex _).mp hbit
        have hkey := (Nat.le_div_iff_mul_le (slotMaxSize_pos arch)).mp hlt
        rw [Nat.mul_comm, Nat.mul_succ] at hkey
        omega

theorem Represents.none_held (hheld : k.held = ∅) :
    v.highest = k.lastOff ∧ v.lowest = k.lastOff := by
  constructor
  · rcases v.highestLoop_spec le_rfl with ⟨-, hloop⟩ | ⟨index, hindex, hpos, -⟩
    · exact hloop.trans h.lastOff
    · exact absurd (h.flags_eq_zero hheld hindex) hpos.ne'
  · rcases v.lowestLoop_spec le_rfl with ⟨-, hloop⟩ | ⟨index, hindex, hpos, -⟩
    · exact hloop.trans h.lastOff
    · exact absurd (h.flags_eq_zero hheld hindex) hpos.ne'

end

/-- What the functions return for the held keys. -/
structure Agrees (v : Vectors arch) (k : Keys) : Prop where
  highest : k.held.Nonempty → IsGreatest (Set.image Fin.val (k.held : Set (Fin 128))) v.highest
  lowest : k.held.Nonempty → IsLeast (Set.image Fin.val (k.held : Set (Fin 128))) v.lowest
  lastOff : k.held = ∅ → v.highest = k.lastOff ∧ v.lowest = k.lastOff
  velocity : ∀ key : Fin 128, v.velocity[key.val]? =
    some (if key ∈ k.held then k.velocity key else 0)

/-- After any operations on a new vector, resets included, the highest and the lowest note are
those of the held keys, or the last note-off. -/
theorem notePriority_agrees (arch : Arch) (ops : List Op) :
    Agrees (ops.foldl Vectors.apply (makeVectors arch)) (ops.foldl Keys.apply {}) := by
  have h := (represents_make arch).foldl ops
  exact ⟨h.highest, h.lowest, h.none_held, h.velocity⟩

example : ((makeVectors .bits32).add 60 100 |>.add 47 90 |>.add 72 80 |>.remove 72).highest = 60 := by
  decide +kernel

end Refinement

end Incudine.NotePriority

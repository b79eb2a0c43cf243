import Incudine.Literals
import Incudine.NotePriority
import Mathlib.Data.Finset.Sort

/-!
# Played MIDI notes

The held keys are enumerated from the flags of the note-priority vector: the number of the flags of
each fixnum is subtracted from the rank, then the lowest flags are cleared one by one.
-/

namespace Incudine.NotePriority

open Octets

section Ones

/-- The positions of the ones of a number, the lowest first. -/
def ones (x : ℕ) : List ℕ := (List.range (bits x)).filter fun b => x.testBit b

def logcount (x : ℕ) : ℕ := (List.range (bits x)).countP fun b => x.testBit b

theorem logcount_eq (x : ℕ) : logcount x = (ones x).length := List.countP_eq_length_filter

theorem mem_ones {x b : ℕ} : b ∈ ones x ↔ x.testBit b = true := by
  rw [ones, List.mem_filter, List.mem_range, and_iff_right_iff_imp]
  exact lt_bits_of_testBit

theorem sortedLT_ones (x : ℕ) : (ones x).SortedLT :=
  (List.Pairwise.filter _ List.pairwise_lt_range).sortedLT

theorem pos_of_ones {x : ℕ} (h : ones x ≠ []) : 0 < x := by
  obtain ⟨b, hb⟩ := List.exists_mem_of_ne_nil _ h
  exact pos_of_testBit (mem_ones.mp hb)

/-- `(integer-length (logand (lognot x) (1- x)))`. -/
def lowestOne (x : ℕ) : ℕ := bits (Int.land (Int.lnot x) ((x : ℤ) - 1)).toNat

theorem ones_clear {x : ℕ} (h : 0 < x) :
    ones x = lowestOne x :: ones ((1 <<< lowestOne x) ^^^ x) := by
  obtain ⟨hbit, hleast⟩ := lowest_bit h
  have hclear (b : ℕ) : ((1 <<< lowestOne x) ^^^ x).testBit b = true ↔
      x.testBit b = true ∧ b ≠ lowestOne x := by
    rw [Nat.shiftLeft_eq, one_mul, Nat.testBit_xor, Nat.testBit_two_pow]
    by_cases hb : lowestOne x = b
    · subst hb
      have hone : x.testBit (lowestOne x) = true := hbit
      simp [hone]
    · simp [hb, Ne.symm hb]
  refine (sortedLT_ones x).eq_of_mem_iff ?_ fun b => ?_
  · refine (List.pairwise_cons.mpr ⟨fun b hb => ?_, (sortedLT_ones _).pairwise⟩).sortedLT
    obtain ⟨hx, hne⟩ := (hclear b).mp (mem_ones.mp hb)
    exact lt_of_le_of_ne (hleast b hx) hne.symm
  · rw [List.mem_cons, mem_ones, mem_ones, hclear]
    constructor
    · intro hx
      exact (eq_or_ne b (lowestOne x)).imp_right fun hne => ⟨hx, hne⟩
    · rintro (rfl | ⟨hx, -⟩)
      · exact hbit
      · exact hx

end Ones

section Source

variable {arch : Arch}

/-- The key, its velocity and whether the velocity is positive. -/
abbrev Played := ℕ × UInt8 × Bool

def played (x : ℕ) : ℕ → ℕ → List UInt8 → Played
  | 0, offset, velocVec =>
    let y := bits (Int.land (Int.lnot x) ((x : ℤ) - 1)).toNat
    let knum := y + offset
    let vel := velocVec.getD knum 0
    (knum, vel, 0 < vel)
  | i + 1, offset, velocVec =>
    let y := bits (Int.land (Int.lnot x) ((x : ℤ) - 1)).toNat
    played ((1 <<< y) ^^^ x) i offset velocVec

def findNote (arch : Arch) (prioVec : List ℕ) (velocVec : List UInt8) : ℕ → ℕ → Played
  | 0, _ => (0, 0, false)
  | left + 1, n =>
    let i := integers arch - (left + 1)
    let x := svref prioVec i
    let size := logcount x
    if size > n then played x n (svref (offsetVector arch) i) velocVec
    else findNote arch prioVec velocVec left (n - size)

/-- The vectors of the sixteen channels. -/
abbrev MidiTable (arch : Arch) := Fin 16 → Vectors arch

def playedMidiNote (table : MidiTable arch) (noteNumber : ℕ) (channel : Fin 16) : Played :=
  let mtab := table channel
  findNote arch mtab.priority mtab.velocity (integers arch) noteNumber

def MidiTable.apply (table : MidiTable arch) (message : Fin 16 × Op) : MidiTable arch :=
  Function.update table message.1 ((table message.1).apply message.2)

end Source

def Op.HasVelocity : Op → Prop
  | .add _ velocity => 1 ≤ velocity
  | .remove _ => True
  | .reset => True

instance : DecidablePred Op.HasVelocity
  | .add _ velocity => inferInstanceAs (Decidable (1 ≤ velocity))
  | .remove _ => .isTrue trivial
  | .reset => .isTrue trivial

def applyKeys (k : Fin 16 → Keys) (message : Fin 16 × Op) : Fin 16 → Keys :=
  Function.update k message.1 ((k message.1).apply message.2)

/-- The held key of the given rank, from the lowest one. -/
def Keys.nth (k : Keys) (n : ℕ) : Played :=
  match (k.held.sort (· ≤ ·))[n]? with
  | some key => (key, k.velocity key, true)
  | none => (0, 0, false)

section Enumeration

variable {arch : Arch} {v : Vectors arch} {k : Keys}

theorem played_eq {x offset i : ℕ} (velocVec : List UInt8) {b : ℕ} (h : (ones x)[i]? = some b) :
    played x i offset velocVec =
      (b + offset, velocVec.getD (b + offset) 0, decide (0 < velocVec.getD (b + offset) 0)) := by
  induction i generalizing x with
  | zero =>
    have hpos : 0 < x := pos_of_ones (by rintro heq; simp [heq] at h)
    rw [ones_clear hpos, List.getElem?_cons_zero, Option.some_inj] at h
    subst h
    rfl
  | succ i ih =>
    have hpos : 0 < x := pos_of_ones (by rintro heq; simp [heq] at h)
    rw [ones_clear hpos, List.getElem?_cons_succ] at h
    exact ih h

/-- The keys of the flags in the last fixnums, in order. -/
def flagged (arch : Arch) (prioVec : List ℕ) : ℕ → List ℕ
  | 0 => []
  | left + 1 =>
    let i := integers arch - (left + 1)
    (ones (svref prioVec i)).map (· + svref (offsetVector arch) i) ++ flagged arch prioVec left

theorem findNote_eq (prioVec : List ℕ) (velocVec : List UInt8) (left n : ℕ) :
    findNote arch prioVec velocVec left n =
      match (flagged arch prioVec left)[n]? with
      | some key => (key, velocVec.getD key 0, decide (0 < velocVec.getD key 0))
      | none => (0, 0, false) := by
  induction left generalizing n with
  | zero => rfl
  | succ left ih =>
    simp only [findNote, flagged, logcount_eq]
    split_ifs with hlt
    · obtain ⟨b, hb⟩ : ∃ b, (ones (svref prioVec (integers arch - (left + 1))))[n]? = some b :=
        ⟨_, List.getElem?_eq_getElem hlt⟩
      rw [List.getElem?_append_left (by rwa [List.length_map]), List.getElem?_map, hb,
        played_eq velocVec hb]
      rfl
    · have hle := Nat.le_of_not_lt hlt
      rw [ih, List.getElem?_append_right (by rwa [List.length_map]), List.length_map]

theorem mem_flagged {prioVec : List ℕ} {left key : ℕ} (hleft : left ≤ integers arch) :
    key ∈ flagged arch prioVec left ↔ ∃ index < integers arch, integers arch - left ≤ index ∧
      ∃ b, (svref prioVec index).testBit b = true ∧ key = slotMaxSize arch * index + b := by
  induction left with
  | zero =>
    simp only [flagged, List.not_mem_nil, false_iff, not_exists, not_and]
    intro index hlt hle
    omega
  | succ left ih =>
    have hi : integers arch - (left + 1) < integers arch := by omega
    simp only [flagged, List.mem_append, List.mem_map, mem_ones, ih (Nat.le_of_succ_le hleft),
      svref_offsetVector hi]
    constructor
    · rintro (⟨b, hb, rfl⟩ | ⟨index, hlt, hle, hkey⟩)
      · exact ⟨_, hi, le_rfl, b, hb, Nat.add_comm _ _⟩
      · exact ⟨index, hlt, by omega, hkey⟩
    · rintro ⟨index, hlt, hle, b, hb, rfl⟩
      rcases hle.eq_or_lt with rfl | hlt'
      · exact .inl ⟨b, hb, Nat.add_comm _ _⟩
      · exact .inr ⟨index, hlt, by omega, b, hb, rfl⟩

theorem Represents.sortedLT_flagged (h : Represents v k) {left : ℕ} (hleft : left ≤ integers arch) :
    (flagged arch v.priority left).SortedLT := by
  induction left with
  | zero => exact List.Pairwise.nil.sortedLT
  | succ left ih =>
    have hi : integers arch - (left + 1) < integers arch := by omega
    refine (List.pairwise_append.mpr ⟨?_, (ih (Nat.le_of_succ_le hleft)).pairwise, ?_⟩).sortedLT
    · refine (sortedLT_ones _).pairwise.map _ fun a b hab => ?_
      exact Nat.add_lt_add_right hab _
    · intro key hkey key' hkey'
      obtain ⟨b, hb, rfl⟩ := List.mem_map.mp hkey
      obtain ⟨index, -, hle, b', -, rfl⟩ := (mem_flagged (Nat.le_of_succ_le hleft)).mp hkey'
      obtain ⟨hlt, -⟩ := (h.flags _ hi b).mp (mem_ones.mp hb)
      have hmul : slotMaxSize arch * (integers arch - (left + 1) + 1) ≤
          slotMaxSize arch * index := Nat.mul_le_mul_left _ (by omega)
      rw [Nat.mul_succ] at hmul
      rw [svref_offsetVector hi]
      omega

theorem Represents.flagged_eq (h : Represents v k) :
    flagged arch v.priority (integers arch) = (k.held.sort (· ≤ ·)).map Fin.val := by
  refine (h.sortedLT_flagged le_rfl).eq_of_mem_iff ?_ fun key => ?_
  · exact ((Finset.sortedLT_sort k.held).pairwise.map Fin.val fun a b hab => hab).sortedLT
  · rw [mem_flagged le_rfl, List.mem_map]
    simp only [Finset.mem_sort]
    constructor
    · rintro ⟨index, hlt, -, b, hb, rfl⟩
      obtain ⟨-, key, hheld, heq⟩ := (h.flags index hlt b).mp hb
      exact ⟨key, hheld, heq⟩
    · rintro ⟨key, hheld, rfl⟩
      have hfirst : integers arch - integers arch ≤ key / slotMaxSize arch :=
        (Nat.sub_self _).le.trans (Nat.zero_le _)
      exact ⟨_, index_lt arch key, hfirst, _, h.testBit_of_held hheld,
        (Nat.div_add_mod key.val _).symm⟩

theorem Represents.findNote (h : Represents v k) (hpos : ∀ key ∈ k.held, 0 < k.velocity key)
    (n : ℕ) : findNote arch v.priority v.velocity (integers arch) n = k.nth n := by
  rw [findNote_eq, h.flagged_eq, Keys.nth, List.getElem?_map]
  cases hkey : (k.held.sort (· ≤ ·))[n]? with
  | none => rfl
  | some key =>
    have hheld : key ∈ k.held := (Finset.mem_sort _).mp (List.mem_of_getElem? hkey)
    have hvelocity : v.velocity.getD key.val 0 = k.velocity key := by
      rw [List.getD_eq_getElem?_getD, h.velocity key, if_pos hheld, Option.getD_some]
    simp only [Option.map_some, hvelocity, hpos key hheld, decide_true]

end Enumeration

section Runs

variable {arch : Arch} {table : MidiTable arch} {k : Fin 16 → Keys}

/-- The table of each channel represents its keys, and the held keys have a velocity. -/
structure Tracks (table : MidiTable arch) (k : Fin 16 → Keys) : Prop where
  represents : ∀ channel, Represents (table channel) (k channel)
  velocity_pos : ∀ channel, ∀ key ∈ (k channel).held, 0 < (k channel).velocity key

theorem tracks_make (arch : Arch) : Tracks (fun _ => makeVectors arch) fun _ => {} where
  represents := fun _ => represents_make arch
  velocity_pos := fun _ key hkey => absurd hkey (Finset.notMem_empty key)

theorem Tracks.apply (h : Tracks table k) (message : Fin 16 × Op) (hpos : message.2.HasVelocity) :
    Tracks (table.apply message) (applyKeys k message) where
  represents := by
    intro channel
    by_cases hchannel : channel = message.1
    · subst hchannel
      rw [MidiTable.apply, applyKeys, Function.update_self, Function.update_self]
      exact (h.represents _).apply message.2
    · rw [MidiTable.apply, applyKeys, Function.update_of_ne hchannel, Function.update_of_ne hchannel]
      exact h.represents channel
  velocity_pos := by
    intro channel key
    by_cases hchannel : channel = message.1
    · subst hchannel
      rw [applyKeys, Function.update_self]
      have hbefore := h.velocity_pos message.1 key
      cases hop : message.2 with
      | add keynum velocity =>
        rw [hop] at hpos
        have hvelocity : 0 < velocity := UInt8.lt_of_lt_of_le UInt8.zero_lt_one hpos
        intro hkey
        by_cases heq : key = keynum
        · subst heq
          simp only [Keys.apply, Function.update_self]
          exact hvelocity
        · have hkey := (Finset.mem_insert.mp hkey).resolve_left heq
          simp only [Keys.apply, Function.update_of_ne heq]
          exact hbefore hkey
      | remove keynum => exact fun hkey => hbefore (Finset.mem_of_mem_erase hkey)
      | reset => exact fun hkey => absurd hkey (Finset.notMem_empty key)
    · rw [applyKeys, Function.update_of_ne hchannel]
      exact h.velocity_pos channel key

theorem Tracks.foldl (h : Tracks table k) (messages : List (Fin 16 × Op))
    (hpos : ∀ message ∈ messages, message.2.HasVelocity) :
    Tracks (messages.foldl MidiTable.apply table) (messages.foldl applyKeys k) := by
  induction messages generalizing table k with
  | nil => exact h
  | cons message messages ih =>
    obtain ⟨hfirst, hrest⟩ := List.forall_mem_cons.mp hpos
    exact ih (h.apply message hfirst) hrest

/-- After any messages on the new tables, the note of a channel is its held key of that rank with
the last velocity, or there is none. -/
theorem playedMidiNote_nth (arch : Arch) (messages : List (Fin 16 × Op))
    (hpos : ∀ message ∈ messages, message.2.HasVelocity) (noteNumber : ℕ) (channel : Fin 16) :
    playedMidiNote (messages.foldl MidiTable.apply fun _ => makeVectors arch) noteNumber channel =
      (messages.foldl applyKeys (fun _ => {}) channel).nth noteNumber := by
  have h := (tracks_make arch).foldl messages hpos
  exact (h.represents channel).findNote (h.velocity_pos channel) noteNumber

open scoped Literals in
def chord : List (Fin 16 × Op) := [(0, .add 72 89), (0, .add 65 96), (1, .add 60 64), (0, .add 69 90)]

theorem playedMidiNote_nth_chord : playedMidiNote
    (chord.foldl MidiTable.apply fun _ => makeVectors .bits64) 1 0 =
      (chord.foldl applyKeys (fun _ => {}) 0).nth 1 :=
  playedMidiNote_nth .bits64 chord (by decide) 1 0

example : playedMidiNote (chord.foldl MidiTable.apply fun _ => makeVectors .bits32) 1 0 =
    (69, 90, true) := by
  decide +kernel

end Runs

end Incudine.NotePriority

import Incudine.MidifileReader

/-!
# The quantities of a MIDI file

The delta times and the lengths have one encoder and two decoders. The decoder of the delta times
looks at the fifth octet before it tests the number of octets, the other one does the test first.
-/

namespace Incudine.Midifile

open Octets Signals

/-- Octets with the high bit set: the quantity goes on after them. -/
def Continued (octets : List Octet) : Prop := ∀ b ∈ octets, 0x80 ≤ b.toNat

/-- Both decoders return the value and the number of octets. The second one returns the index of
the data in the buffer and the index of their end. -/
def Decoded (mf : InputStream) (bufferStart value bytes : ℕ) : Prop :=
  (∃ mf', readVariableLengthQuantity mf = .ok (value, bytes) mf' ∧
    mf'.fdStream = mf.fdStream.drop bytes) ∧
  ∃ mf', metaOrSysexEnd bufferStart mf = .ok (bufferStart + bytes, bufferStart + bytes + value) mf' ∧
    mf'.fdStream = mf.fdStream.drop bytes

def TooLong {α : Type} (x : Input α) (mf : InputStream) : Prop :=
  ∃ e mf', x mf = .error (.invalidVariableLengthQuantity e) mf'

/-- The file starts with a quantity of at most four octets. -/
def StartsShort (file : List Octet) : Prop :=
  ∃ octets rest, file = octets ++ rest ∧ Delimited octets ∧ octets.length ≤ 4

/-- The decoders accept the quantities of at most four octets, and refuse the longer ones. -/
structure ExactQuantities (mf : InputStream) (bufferStart : ℕ) : Prop where
  decoded : ∀ octets rest, mf.fdStream = octets ++ rest → Delimited octets → octets.length ≤ 4 →
    Decoded mf bufferStart (quantity octets) octets.length
  refused : ∀ octets b rest, mf.fdStream = octets ++ b :: rest → Continued octets →
    octets.length = 4 →
      TooLong readVariableLengthQuantity mf ∧ TooLong (metaOrSysexEnd bufferStart) mf
  deltaTime : ∀ p mf', readVariableLengthQuantity mf = .ok p mf' → StartsShort mf.fdStream
  length : ∀ p mf', metaOrSysexEnd bufferStart mf = .ok p mf' → StartsShort mf.fdStream

def ReadsWritten (bufferStart : ℕ) : Prop :=
  ∀ (n start j : ℕ) (out out' : OutputStream), n < 2 ^ 28 →
    writeDeltaTime n start out = .ok j out' →
      ∀ (mf : InputStream) (rest : List Octet), bufferStart + 4 ≤ mf.buffer.length →
        mf.fdStream = (out'.buffer.drop start).take (j - start) ++ rest →
          Decoded mf bufferStart n (j - start)

def FifthEnds (file : List Octet) : Prop :=
  ∃ octets b rest, file = octets ++ b :: rest ∧ Continued octets ∧ octets.length = 4 ∧
    b.toNat < 0x80

section Decoders

variable {mf mf' : InputStream} {octets rest : List Octet} {left bytes v bufferStart i len : ℕ}
  {p : ℕ × ℕ}

theorem tooLong_quantityError {α : Type} (bytes : ℕ) (mf : InputStream) :
    TooLong (quantityError bytes : Input α) mf := by
  rw [TooLong, quantityError, get_bind]
  split
  · rename_i hle
    rw [updateByteCounters, bind_assoc]
    simp only [get_bind, bind_assoc, modify_bind]
    rw [bind_ok (check_pos hle _ _)]
    exact ⟨_, _, rfl⟩
  · exact ⟨_, _, rfl⟩

theorem TooLong.bind_of_ok {α β : Type} {x : Input α} {a : α} (h : x mf = .ok a mf')
    {f : α → Input β} (hf : TooLong (f a) mf') : TooLong (x >>= f) mf := by
  obtain ⟨e, s, hf⟩ := hf
  exact ⟨e, s, by rw [bind_ok h, hf]⟩

theorem Continued.delimited {b : Octet} (h : Continued octets) (hb : b.toNat < 0x80) :
    Delimited (octets ++ [b]) := by
  induction octets with
  | nil => exact hb
  | cons c cs ih =>
    have hrest := ih fun d hd => h d (List.mem_cons_of_mem c hd)
    cases cs with
    | nil => exact ⟨h c List.mem_cons_self, hrest⟩
    | cons d ds => exact ⟨h c List.mem_cons_self, hrest⟩

theorem Delimited.exists_last (h : Delimited octets) :
    ∃ init b, octets = init ++ [b] ∧ Continued init ∧ b.toNat < 0x80 := by
  induction octets with
  | nil => exact h.elim
  | cons b bs ih =>
    cases bs with
    | nil => exact ⟨[], b, rfl, nofun, h⟩
    | cons c cs =>
      obtain ⟨init, last, heq, hinit, hlast⟩ := ih h.2
      refine ⟨b :: init, last, by rw [heq, List.cons_append], fun d hd => ?_, hlast⟩
      rcases List.mem_cons.mp hd with rfl | hd
      · exact h.1
      · exact hinit d hd

theorem quantityLoop_tooLong (h : Continued octets) (hleft : octets.length = left + 1)
    (mf : InputStream) (hfile : mf.fdStream = octets ++ rest) :
    TooLong (quantityLoop left bytes v) mf := by
  induction octets generalizing left bytes v mf with
  | nil => simp at hleft
  | cons b bs ih =>
    have hmore : ¬ b < 0x80 := not_lt_octet (h b List.mem_cons_self)
    rw [quantityLoop.eq_def]
    refine TooLong.bind_of_ok (readByte_cons mf hfile) ?_
    simp only [if_neg hmore]
    cases left with
    | zero => exact tooLong_quantityError bytes _
    | succ left =>
      exact ih (fun c hc => h c (List.mem_cons_of_mem b hc)) (by simpa using hleft) _ rfl

theorem metaOrSysexLoop_tooLong {b : Octet} (h : Continued octets) (hleft : octets.length = left)
    (mf : InputStream) (hbuffer : i + left ≤ mf.buffer.length)
    (hfile : mf.fdStream = octets ++ b :: rest) :
    TooLong (metaOrSysexLoop bufferStart left i len) mf := by
  induction octets generalizing left i len mf with
  | nil =>
    obtain rfl : left = 0 := hleft.symm
    rw [metaOrSysexLoop.eq_def]
    exact TooLong.bind_of_ok (readByte_cons mf hfile) (tooLong_quantityError _ _)
  | cons c cs ih =>
    obtain ⟨left, rfl⟩ : ∃ k, left = k + 1 := ⟨left - 1, by
      simp only [List.length_cons] at hleft
      omega⟩
    have hi : i < mf.buffer.length := by omega
    have hmore : ¬ c < 0x80 := not_lt_octet (h c List.mem_cons_self)
    rw [metaOrSysexLoop.eq_def]
    refine TooLong.bind_of_ok (readByte_cons mf hfile) ?_
    refine TooLong.bind_of_ok (storeOctet_ok (by exact hi) c) ?_
    rw [if_neg hmore]
    exact ih (fun d hd => h d (List.mem_cons_of_mem c hd)) (by simpa using hleft) _
      (by simp only [List.length_set]; omega) rfl

theorem onSource_readByte_eq_ok {b : Octet} (h : onSource readByte mf = .ok b mf') :
    ∃ rest, mf.fdStream = b :: rest ∧ mf' = { mf with fdStream := rest } := by
  cases hfile : mf.fdStream with
  | nil =>
    rw [onSource, hfile] at h
    cases h
  | cons c rest =>
    rw [readByte_cons mf hfile, EStateM.Result.ok.injEq] at h
    obtain ⟨rfl, rfl⟩ := h
    exact ⟨rest, rfl, rfl⟩

theorem delimited_of_quantityLoop (h : quantityLoop left bytes v mf = .ok p mf') :
    ∃ octets rest, mf.fdStream = octets ++ rest ∧ Delimited octets ∧ octets.length ≤ left + 1 := by
  induction left generalizing bytes v mf with
  | zero =>
    rw [quantityLoop, bind_eq_ok] at h
    obtain ⟨b, s, hread, h⟩ := h
    obtain ⟨rest, hfile, rfl⟩ := onSource_readByte_eq_ok hread
    by_cases hb : b < 0x80
    · exact ⟨[b], rest, hfile, UInt8.lt_iff_toNat_lt.mp hb, le_rfl⟩
    · simp only [if_neg hb] at h
      obtain ⟨e, s, herror⟩ := tooLong_quantityError (α := ℕ × ℕ) bytes { mf with fdStream := rest }
      rw [herror] at h
      cases h
  | succ left ih =>
    rw [quantityLoop, bind_eq_ok] at h
    obtain ⟨b, s, hread, h⟩ := h
    obtain ⟨rest, hfile, rfl⟩ := onSource_readByte_eq_ok hread
    by_cases hb : b < 0x80
    · exact ⟨[b], rest, hfile, UInt8.lt_iff_toNat_lt.mp hb, Nat.succ_le_succ (Nat.zero_le _)⟩
    · simp only [if_neg hb] at h
      obtain ⟨octets, rest', hrest, hdelimited, hlength⟩ := ih h
      refine ⟨b :: octets, rest', ?_, hdelimited.cons hb, by simpa using hlength⟩
      rw [hfile, List.cons_append]
      exact congrArg _ hrest

theorem delimited_of_metaOrSysexLoop
    (h : metaOrSysexLoop bufferStart left i len mf = .ok p mf') :
    ∃ octets rest, mf.fdStream = octets ++ rest ∧ Delimited octets ∧ octets.length ≤ left := by
  induction left generalizing i len mf with
  | zero =>
    rw [metaOrSysexLoop, bind_eq_ok] at h
    obtain ⟨b, s, -, h⟩ := h
    obtain ⟨e, s', herror⟩ := tooLong_quantityError (α := ℕ × ℕ) (i - bufferStart) s
    simp only [herror] at h
    cases h
  | succ left ih =>
    rw [metaOrSysexLoop, bind_eq_ok] at h
    obtain ⟨b, s, hread, h⟩ := h
    obtain ⟨rest, hfile, rfl⟩ := onSource_readByte_eq_ok hread
    obtain ⟨u, s, hstore, h⟩ := bind_eq_ok.mp h
    have hs : s.fdStream = rest := by
      rw [storeOctet, get_bind] at hstore
      obtain ⟨_, s', hcheck, hstore⟩ := bind_eq_ok.mp hstore
      obtain ⟨-, rfl⟩ := check_eq_ok.mp hcheck
      rw [modify_apply, EStateM.Result.ok.injEq] at hstore
      rw [← hstore.2]
    by_cases hb : b < 0x80
    · exact ⟨[b], rest, hfile, UInt8.lt_iff_toNat_lt.mp hb, Nat.succ_le_succ (Nat.zero_le _)⟩
    · rw [if_neg hb] at h
      obtain ⟨octets, rest', hrest, hdelimited, hlength⟩ := ih h
      refine ⟨b :: octets, rest', ?_, hdelimited.cons hb, by simpa using hlength⟩
      rw [hfile, List.cons_append, ← hs, hrest]

theorem decoded_of_delimited (h : Delimited octets) (hfour : octets.length ≤ 4)
    (hbuffer : bufferStart + 4 ≤ mf.buffer.length) (hfile : mf.fdStream = octets ++ rest) :
    Decoded mf bufferStart (quantity octets) octets.length := by
  have hdrop : mf.fdStream.drop octets.length = rest := by rw [hfile, List.drop_left]
  have hcount : 1 + octets.length - 1 = octets.length := by omega
  have hquantity : quantityLoop 4 1 0 mf =
      .ok (quantity octets, octets.length) { mf with fdStream := rest } := by
    rw [quantityLoop_ok h (by omega) mf hfile, hcount]
    rfl
  exact ⟨⟨_, hquantity, hdrop.symm⟩, _, metaOrSysexLoop_ok h hfour mf (by omega) hfile, hdrop.symm⟩

end Decoders

theorem readsWritten (bufferStart : ℕ) : ReadsWritten bufferStart := by
  intro n start j out out' hn hwrite mf rest hbuffer hfile
  rw [writeDeltaTime_eq] at hwrite
  obtain ⟨_, s, hstore, hpure⟩ := bind_eq_ok.mp hwrite
  rw [pure_apply, EStateM.Result.ok.injEq] at hpure
  obtain ⟨rfl, rfl⟩ := hpure
  have hstart : start ≤ out.buffer.length := by
    by_contra hlt
    obtain ⟨b, bs, hencode⟩ := List.exists_cons_of_length_pos (delimited_encode n).length_pos
    rw [hencode, storeAll, bind_eq_ok] at hstore
    obtain ⟨_, s', hset, -⟩ := hstore
    exact absurd (setOctet_eq_ok.mp hset).1 (by omega)
  obtain ⟨hroom, rfl⟩ := (storeAll_eq_ok hstart).mp hstore
  have hwritten : ((splice out.buffer start (encode n)).drop start).take
      (start + (encode n).length - start) = encode n := by
    have hlength : (out.buffer.take start).length = start := by
      rw [List.length_take, Nat.min_eq_left hstart]
    have hdrop : (splice out.buffer start (encode n)).drop (out.buffer.take start).length =
        encode n ++ out.buffer.drop (start + (encode n).length) := by
      rw [splice, List.append_assoc, List.drop_left]
    rw [hlength] at hdrop
    rw [hdrop, Nat.add_sub_cancel_left, List.take_left]
  have hfour : (encode n).length ≤ 4 := by
    rw [length_encode, octetCount_le_iff (by decide)]
    exact hn
  simp only [hwritten] at hfile
  have hdecoded := decoded_of_delimited (delimited_encode n) hfour hbuffer hfile
  rwa [quantity_encode, show (encode n).length = start + (encode n).length - start by omega]
    at hdecoded

/-- The written quantities are read again. The decoders accept exactly the quantities of at most
four octets if and only if the fifth octet of the file does not end its first quantity. -/
theorem exactQuantities_iff {mf : InputStream} {bufferStart : ℕ}
    (hbuffer : bufferStart + 4 ≤ mf.buffer.length) :
    ReadsWritten bufferStart ∧ ExactQuantities mf bufferStart ↔ ¬ FifthEnds mf.fdStream := by
  constructor
  · rintro ⟨-, hexact⟩ ⟨octets, b, rest, hfile, hcontinued, hlength, hb⟩
    obtain ⟨e, s, herror⟩ := (hexact.refused octets b rest hfile hcontinued hlength).1
    have hfile' : mf.fdStream = (octets ++ [b]) ++ rest := by simpa using hfile
    have hok : quantityLoop 4 1 0 mf = _ :=
      quantityLoop_ok (hcontinued.delimited hb) (by simp [hlength]) mf hfile'
    rw [readVariableLengthQuantity, hok] at herror
    cases herror
  · intro hfifth
    refine ⟨readsWritten bufferStart, fun octets rest hfile h hfour =>
      decoded_of_delimited h hfour hbuffer hfile, fun octets b rest hfile h hlength => ⟨?_, ?_⟩,
      fun p mf' hok => ?_, fun p mf' hok => delimited_of_metaOrSysexLoop hok⟩
    · have hb : 0x80 ≤ b.toNat := by
        by_contra hb
        exact hfifth ⟨octets, b, rest, hfile, h, hlength, Nat.lt_of_not_le hb⟩
      have hcontinued : Continued (octets ++ [b]) := by
        intro c hc
        rcases List.mem_append.mp hc with hc | hc
        · exact h c hc
        · rwa [List.mem_singleton.mp hc]
      exact quantityLoop_tooLong hcontinued (by simp [hlength]) mf (by simpa using hfile)
    · exact metaOrSysexLoop_tooLong h hlength mf hbuffer hfile
    · obtain ⟨octets, rest, hfile, h, hfive⟩ := delimited_of_quantityLoop hok
      refine ⟨octets, rest, hfile, h, ?_⟩
      by_contra hlength
      obtain ⟨init, b, rfl, hinit, hb⟩ := Delimited.exists_last h
      rw [List.length_append, List.length_singleton] at hlength hfive
      exact hfifth ⟨init, b, rest, by simpa using hfile, hinit, by omega, hb⟩

def unread (file : List Octet) : InputStream where
  fdStream := file
  format := 0
  numberOfTracks := 1
  ppqn := 480
  smpteFormat := 0
  ticksPerFrame := 0
  buffer := makeBuffer none 8

theorem exactQuantities_unread :
    ReadsWritten 2 ∧ ExactQuantities (unread [0x81, 0x80, 0x80, 0x00]) 2 := by
  refine (exactQuantities_iff (by decide)).mpr ?_
  rintro ⟨octets, b, rest, hfile, -, hlength, -⟩
  have hle := congrArg List.length hfile
  rw [List.length_append, List.length_cons, hlength] at hle
  have hfour : (unread [0x81, 0x80, 0x80, 0x00]).fdStream.length = 4 := rfl
  omega

/-- A delta time of five octets is accepted. -/
theorem not_exactQuantities :
    ¬ ∀ (mf : InputStream) (bufferStart : ℕ), bufferStart + 4 ≤ mf.buffer.length →
      ReadsWritten bufferStart ∧ ExactQuantities mf bufferStart := by
  intro hall
  have h := (hall (unread [0x81, 0x80, 0x80, 0x80, 0x00, 0x90]) 2 (by decide)).2
  have hcontinued : Continued [0x81, 0x80, 0x80, 0x80] := by
    intro c hc
    simp only [List.mem_cons, List.not_mem_nil, or_false] at hc
    rcases hc with rfl | rfl | rfl | rfl <;> decide
  obtain ⟨e, s, herror⟩ := (h.refused [0x81, 0x80, 0x80, 0x80] 0x00 [0x90] rfl hcontinued rfl).1
  have hread : (readVariableLengthQuantity.run'
      (unread [0x81, 0x80, 0x80, 0x80, 0x00, 0x90])).isSome := by decide +kernel
  delta EStateM.run' EStateM.run at hread
  rw [herror] at hread
  cases hread

end Incudine.Midifile

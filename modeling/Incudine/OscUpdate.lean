import Incudine.OscLayout

/-!
# A new value for an argument

The setters of the values keep the layout of the messages in the buffer, so a message with a new
value is the one that is written from scratch with that value.
-/

namespace Incudine.Osc

open Octets

/-- The type has values of different sizes: a string, a symbol or a blob. -/
def Arg.Resizable (blob : Bool) : Arg → Prop
  | .string _ => blob = false
  | .symbol _ => blob = false
  | .blob _ => blob = true
  | _ => False

def fixedSize (tag : Octet) : ℕ :=
  if tag ∈ ['h', 'd', 't'].map ascii then 8
  else if tag ∈ ['i', 'f', 'c', 'm'].map ascii then 4
  else 0

theorem Arg.resizable_iff {a : Arg} {blob : Bool} : a.Resizable blob ↔
    blob = false ∧ (a.tag = ascii 's' ∨ a.tag = ascii 'S') ∨ blob = true ∧ a.tag = ascii 'b' := by
  cases a with
  | string | symbol | blob => simp [Resizable, tag, ascii]
  | int32 | float | int64 | double | char | midi | timetag | timetagDouble | trueValue
  | falseValue | nilValue | infinitum =>
    simp [Resizable, tag, ascii]

theorem Arg.length_encode_eq {a : Arg} (h : ∀ blob, ¬ a.Resizable blob) :
    a.encode.length = fixedSize a.tag := by
  cases a with
  | string | symbol => exact absurd rfl (h false)
  | blob => exact absurd rfl (h true)
  | int32 | float | int64 | double | char | midi | timetag | timetagDouble =>
    simp [encode, tag, fixedSize, ascii]
  | trueValue | falseValue | nilValue | infinitum => rfl

theorem Arg.length_encode_congr {a a' : Arg} (h : a'.tag = a.tag)
    (hfixed : ∀ blob, ¬ a'.Resizable blob) : a'.encode.length = a.encode.length := by
  have hfixed' : ∀ blob, ¬ a.Resizable blob := by
    intro blob hresizable
    rw [resizable_iff, ← h, ← resizable_iff] at hresizable
    exact hfixed blob hresizable
  rw [length_encode_eq hfixed, length_encode_eq hfixed', h]

namespace Stream

/-- The buffer holds messages that fit in it. -/
structure Represents (s : Stream) (messages : List Message) : Prop where
  layout : Layout s.buffer s.index messages
  sizes : s.singleMessage = false → s.buffer.Holds (-4) (elements messages)
  single : s.singleMessage = true → messages.length = 1
  values : (messages.flatMap Message.values).length ≤ s.maxValues
  fits : (elements messages).length ≤ s.bufferSize + 4
  bound : s.bufferSize + 4 < 0x80000000

variable {s : Stream} {F : Focus} {a a' : Arg} {last blob : Bool}

structure Room (s : Stream) (F : Focus) (a a' : Arg) (mem : Memory) : Prop where
  sizes : mem.Holds 0 ((elements F.before ++ bigEndian 4 (F.message a').encode.length).drop 4)
  whole : s.singleMessage = false →
    mem.Holds (-4) (elements F.before ++ bigEndian 4 (F.message a').encode.length)
  front : mem.Holds (elements F.before).length (F.front a)
  tail : mem.Holds (F.pos a + a'.encode.length) F.tail
  after : ∀ x, stop (F.messages a) ≤ x → F.pos a + a'.encode.length + F.tail.length ≤ x →
    mem x = s.buffer x

theorem length_message_encode : (F.message a).encode.length =
    (F.front a).length + (a.encode.length + (F.args'.flatMap Arg.encode).length) := by
  have helement := congrArg List.length (Focus.element_eq (F := F) (a := a))
  rw [length_element] at helement
  simp only [List.length_append, length_bigEndian] at helement
  omega

theorem pos_nonneg : 0 ≤ F.pos a := by
  rw [Focus.pos]
  omega

structure Kept (s s' : Stream) (F : Focus) (a a' : Arg) (last : Bool) : Prop where
  same : s' = { s with
    buffer := s'.buffer
    index := { s.index with slots := s'.index.slots }
    messageLength := s'.messageLength
    bundleLength := s'.bundleLength }
  header : ∀ x, -20 ≤ x → x < -4 → s'.buffer x = s.buffer x
  after : ∀ x, stop (F.messages a) ≤ x → stop (F.messages a') ≤ x → s'.buffer x = s.buffer x
  below : s.singleMessage = true → last = true → ∀ x, x < 0 → s'.buffer x = s.buffer x
  length : (s'.messageLength : ℤ) = stop (F.messages a') ∨
    s'.messageLength = s.messageLength ∧ stop (F.messages a') = stop (F.messages a)
  /-- The size of a single message in an output stream. -/
  sized : s.output = true → last = false → (s.messageLength : ℤ) = stop (F.messages a) →
    s.buffer.Holds (-4) (elements (F.messages a)) →
    s'.buffer.Holds (-4) (elements (F.messages a'))

theorem setBundleLength_eq (s : Stream) : ∃ buffer : Memory,
    s.setBundleLength = { s with buffer := buffer, bundleLength := s.messageLength + 20 } ∧
      ∀ x, -20 ≤ x → buffer x = s.buffer x := by
  by_cases htcp : s.protocol = .tcp ∧ (!s.slip) = true
  · refine ⟨s.buffer.store (-24) (bigEndian 4 (s.messageLength + 20)), ?_, ?_⟩
    · rw [setBundleLength]
      simp only [if_pos htcp]
    · intro x hx
      exact Cells.store_of_le _ _ _ (by rw [length_bigEndian]; omega)
  · refine ⟨s.buffer, ?_, fun _ _ => rfl⟩
    rw [setBundleLength]
    simp only [if_neg htcp]

theorem maybeReserveSpace_eq (s : Stream) (index : ℤ) (n : ℕ) (last blob : Bool) {mem : Memory}
    {data : Cells ℤ} (hreserve : oscMaybeReserveSpace s.maxValues s.bufferSize s.buffer
      s.index.slots index n s.singleMessage last blob = (mem, data)) :
    ∃ (buffer : Memory) (bundleLength : ℕ), s.maybeReserveSpace index n last blob =
        { s with
          buffer := buffer
          index := { s.index with slots := data }
          messageLength := (data 1).toNat
          bundleLength := bundleLength } ∧
      (∀ x, 0 ≤ x ∨ -20 ≤ x ∧ (x < -4 ∨ s.singleMessage = false) ∨ last = true →
        buffer x = mem x) ∧
      (s.output = true → last = false → s.singleMessage = true →
        s.messageLength = (data 1).toNat ∧ buffer = mem ∨
          buffer.Holds (-4) (bigEndian 4 (data 1).toNat)) := by
  rw [maybeReserveSpace]
  simp only [hreserve]
  by_cases hlength : s.messageLength = (data 1).toNat
  · rw [if_pos hlength]
    refine ⟨mem, s.bundleLength, ?_, fun _ _ => rfl, fun _ _ _ => Or.inl ⟨hlength, rfl⟩⟩
    rw [← hlength]
  · rw [if_neg hlength]
    by_cases houtput : (!last && s.output) = true
    · rw [if_pos houtput]
      obtain ⟨buffer, heq, hsame⟩ := setBundleLength_eq { s with
        buffer := mem
        index := { s.index with slots := data }
        messageLength := (data 1).toNat }
      rw [heq]
      by_cases hsingle : s.singleMessage = true
      · rw [if_pos hsingle]
        refine ⟨buffer.store (-4) (bigEndian 4 (data 1).toNat), _, rfl, ?_, ?_⟩
        · intro x hx
          rcases hx with hx | ⟨hx, hx' | hx'⟩ | hx
          · rw [Cells.store_of_le _ _ _ (by rw [length_bigEndian]; omega)]
            exact hsame x (by omega)
          · rw [Cells.store_of_lt _ _ _ hx']
            exact hsame x hx
          · rw [hsingle] at hx'
            cases hx'
          · rw [hx] at houtput
            cases houtput
        · exact fun _ _ _ => Or.inr (Cells.holds_store _ _ _)
      · rw [if_neg hsingle]
        refine ⟨buffer, _, rfl, ?_, fun _ _ h => absurd h hsingle⟩
        intro x hx
        rcases hx with hx | ⟨hx, -⟩ | hx
        · exact hsame x (by omega)
        · exact hsame x hx
        · rw [hx] at houtput
          cases houtput
    · rw [if_neg houtput]
      refine ⟨mem, _, rfl, fun _ _ => rfl, ?_⟩
      intro hout hlast
      rw [hout, hlast] at houtput
      exact absurd rfl houtput

theorem stop_alone (hbefore : F.before = []) (hafter : F.after = []) :
    stop (F.messages a) = (F.message a).encode.length := by
  rw [Focus.stop_eq, length_message_encode, Focus.pos, Focus.tail, hbefore, hafter]
  simp only [elements_nil, List.length_nil, List.append_nil]
  push_cast
  ring

section

variable (h : s.Represents (F.messages a))
include h

theorem Represents.length_le :
    (elements F.before).length + (4 + ((F.front a).length + (a.encode.length + F.tail.length))) ≤
      s.bufferSize + 4 := by
  have hfits := h.fits
  rw [Focus.elements_eq] at hfits
  simpa only [List.length_append, length_bigEndian] using hfits

theorem Represents.oldSize_eq (ha : a.required) (hresizable : a.Resizable blob)
    (hlast : (s.singleMessage || last) = true → F.after = []) :
    oldSize s.bufferSize s.buffer s.index.slots (2 + F.index) s.singleMessage last blob =
      a.encode.length := by
  have hplaced := h.layout.placed ha
  have hle := h.length_le
  have hbound := h.bound
  have hvalue := (Focus.holds_body.mp h.layout.body).2.2.1
  rw [oldSize, hplaced.pos_eq]
  split
  · rename_i hadjacent
    have hpointers := hplaced.pointers
    obtain ⟨rest, hrest⟩ : ∃ rest, argPointers (F.pos a + a.encode.length) F.args' ++
        [F.pos a + a.encode.length + (F.args'.flatMap Arg.encode).length] =
          (F.pos a + a.encode.length) :: rest := exists_argPointers_append
    have hnext : F.later (F.pos a + a.encode.length) ++
        [F.pos a + a.encode.length + F.tail.length] = (F.pos a + a.encode.length) :: rest := by
      rw [Focus.later, Focus.tail, hlast hadjacent, ← hrest]
      simp [pointers]
    rw [hnext, Cells.holds_cons] at hpointers
    rw [hpointers.1]
    ring
  · cases a with
    | string str | symbol str =>
      obtain rfl : blob = false := hresizable
      have hsize := length_oscString str.val
      have hlt := lt_fixSize str.val.length
      simp only [Arg.encode, hsize] at hle
      rw [if_neg (by decide), cString_oscString hvalue (by omega), Arg.encode, hsize]
    | blob b =>
      obtain rfl : blob = true := hresizable
      have hsize := length_oscBlob b
      have hlt := lt_fixSize (b.length + 3)
      have hfix := fixSize_le (b.length + 3)
      simp only [Arg.encode, hsize] at hle
      have hword : s.buffer.word (F.pos (.blob b)) = b.length := by
        rw [Arg.encode, oscBlob, List.append_assoc, Cells.holds_append] at hvalue
        exact word_eq hvalue.1 (by omega)
      have hmod : (b.length + 3) % 0x100000000 = b.length + 3 := Nat.mod_eq_of_lt (by omega)
      rw [if_pos rfl, hword, hmod, Arg.encode, hsize, Nat.mod_eq_of_lt (by omega)]
    | int32 | float | int64 | double | char | midi | timetag | timetagDouble | trueValue
    | falseValue | nilValue | infinitum => exact hresizable.elim

theorem Represents.alone (hsingle : s.singleMessage = true) : F.before = [] ∧ F.after = [] := by
  have hone := h.single hsingle
  rw [Focus.messages, List.length_append, List.length_cons] at hone
  exact ⟨List.eq_nil_of_length_eq_zero (by omega), List.eq_nil_of_length_eq_zero (by omega)⟩

theorem Represents.fixLength {mem : Memory} (ha : a.required) (htag : a'.tag = a.tag)
    (hfits : (elements (F.messages a')).length ≤ s.bufferSize + 4)
    (hold : mem.Holds (-4) (elements F.before ++ bigEndian 4 (F.message a).encode.length)) :
    ∃ mem' : Memory, (if a.encode.length ≠ a'.encode.length
        then oscFixLength (F.pos a) (F.pos a + a'.encode.length + F.tail.length)
          ((a'.encode.length : ℤ) - a.encode.length) (s.bufferSize + 1) (-4) mem
        else mem) = mem' ∧
      (∀ x : ℤ, x < -4 ∨ (elements F.before).length ≤ x → mem' x = mem x) ∧
      mem'.Holds (-4) (elements F.before ++ bigEndian 4 (F.message a').encode.length) := by
  have hlength := @length_message_encode F a
  have hlength' := @length_message_encode F a'
  rw [Focus.front_congr htag] at hlength'
  by_cases hsize' : a.encode.length ≠ a'.encode.length
  · rw [if_pos hsize']
    have hdiff : ((F.message a).encode.length : ℤ) + ((a'.encode.length : ℤ) - a.encode.length) =
        (F.message a').encode.length := by omega
    have htail : F.tail.length = (F.args'.flatMap Arg.encode).length + (elements F.after).length := by
      rw [Focus.tail, List.length_append]
    have hbound := h.bound
    have hle := h.length_le
    rw [Focus.elements_eq, Focus.front_congr htag] at hfits
    simp only [List.length_append, length_bigEndian] at hfits
    have hnew : (((F.message a').encode.length : ℤ) % 0x100000000).toNat =
        (F.message a').encode.length := by
      clear hdiff hlength hle
      omega
    have hE : F.pos a = (elements F.before).length + (F.front a).length := rfl
    have hsize := a'.length_encode.2 (by rw [Arg.required, htag]; exact ha)
    have hsize₀ := a.length_encode.2 ha
    have hcount := length_le_elements F.before
    clear hlength'
    rw [oscFixLength_eq hold (by omega) (by omega) (by omega) (by omega) (by omega) (by omega),
      hdiff, hnew]
    refine ⟨_, rfl, ?_, ?_⟩
    · intro x hx
      rcases hx with hx | hx
      · exact Cells.store_of_lt _ _ _ (by omega)
      · exact Cells.store_of_le _ _ _ (by rw [length_bigEndian]; omega)
    · rw [Cells.holds_append] at hold ⊢
      exact ⟨hold.1.store (Or.inr le_rfl), Cells.holds_store _ _ _⟩
  · rw [if_neg hsize']
    have hsame : (F.message a').encode.length = (F.message a).encode.length := by omega
    rw [hsame]
    exact ⟨mem, rfl, fun _ _ => rfl, hold⟩

theorem Represents.reserve (ha : a.required) (htag : a'.tag = a.tag) (hresizable : a.Resizable blob)
    (hlast : (s.singleMessage || last) = true → F.after = [])
    (hfits : (elements (F.messages a')).length ≤ s.bufferSize + 4) :
    ∃ mem mem' data', oscMaybeReserveSpace s.maxValues s.bufferSize s.buffer s.index.slots
        (2 + F.index) a'.encode.length s.singleMessage last blob = (mem', data') ∧
      Resized s.buffer mem s.index.slots data' (2 + F.index) (F.pos a) a.encode.length
        a'.encode.length F.tail (F.later (F.pos a + a.encode.length)) ∧
      Room s F a a' mem' ∧ mem'.Holds (F.pos a + a'.encode.length - 4) (zeros 4) ∧
      (∀ x, x < -4 → mem' x = s.buffer x) ∧
      (s.singleMessage = true → ∀ x, x < 0 → mem' x = s.buffer x) := by
  have hrequired : a'.required := by rw [Arg.required, htag]; exact ha
  have hplaced := h.layout.placed ha
  have hlater : (F.later (F.pos a + a.encode.length)).length < s.maxValues + 3 := by
    have hvalues := h.values
    rw [← @length_pointers (-4), Focus.pointers_eq ha, List.length_append, List.length_cons] at hvalues
    omega
  obtain ⟨mem, data', hresized, heq⟩ := hplaced.reserve (h.oldSize_eq ha hresizable hlast)
    (a'.length_encode.2 hrequired) a'.length_encode.1 hlater
  clear hlater
  have hpos := @pos_nonneg F a
  have hsize := a'.length_encode.2 hrequired
  have hstop : stop (F.messages a) = F.pos a + a.encode.length + F.tail.length := Focus.stop_eq
  have hE : F.pos a = (elements F.before).length + (F.front a).length := rfl
  have hfront : mem.Holds (elements F.before).length (F.front a) := by
    apply (Focus.holds_body.mp h.layout.body).2.1.congr
    intro x _ hx
    exact hresized.before x (by omega)
  have hroom (mem' : Memory) (hsame : ∀ x : ℤ, (elements F.before).length ≤ x → mem' x = mem x)
      (hsizes : mem'.Holds 0
        ((elements F.before ++ bigEndian 4 (F.message a').encode.length).drop 4))
      (hwhole : s.singleMessage = false → mem'.Holds (-4)
        (elements F.before ++ bigEndian 4 (F.message a').encode.length)) :
      Room s F a a' mem' ∧ mem'.Holds (F.pos a + a'.encode.length - 4) (zeros 4) := by
    clear hfits
    refine ⟨⟨hsizes, hwhole, ?_, ?_, ?_⟩, ?_⟩
    · exact hfront.congr fun x hx _ => hsame x hx
    · exact hresized.tail_holds.congr fun x hx _ => hsame x (by omega)
    · intro x hx hx'
      rw [hsame x (by omega)]
      exact hresized.after x (by omega) hx'
    · exact hresized.zero.congr fun x hx _ => hsame x (by omega)
  cases hsingle : s.singleMessage with
  | true =>
    rw [hsingle] at heq
    have hbefore := (h.alone hsingle).1
    obtain ⟨hroom, hzero⟩ := hroom mem (fun _ _ => rfl)
      (by rw [hbefore]; exact Cells.holds_nil)
      (fun hfalse => by rw [hsingle] at hfalse; cases hfalse)
    refine ⟨mem, mem, data', heq, hresized, hroom, hzero, ?_, ?_⟩
    · exact fun x hx => hresized.before x (by omega)
    · exact fun _ x hx => hresized.before x (by omega)
  | false =>
    rw [hsingle] at heq
    have hold : mem.Holds (-4) (elements F.before ++ bigEndian 4 (F.message a).encode.length) := by
      apply (Focus.holds_elements.mp (h.sizes hsingle)).1.congr
      intro x _ hx
      rw [List.length_append, length_bigEndian] at hx
      exact hresized.before x (by omega)
    obtain ⟨mem', hmem', hsame, hwhole⟩ := h.fixLength ha htag hfits hold
    have hcond : (false = false ∧ a.encode.length ≠ a'.encode.length) ↔
        a.encode.length ≠ a'.encode.length := and_iff_right rfl
    have hle4 : 4 ≤ (elements F.before ++ bigEndian 4 (F.message a').encode.length).length := by
      rw [List.length_append, length_bigEndian]
      omega
    obtain ⟨hroom, hzero⟩ := hroom mem' (fun x hx => hsame x (Or.inr hx)) (hwhole.drop hle4)
      (fun _ => hwhole)
    refine ⟨mem, mem', data', ?_, hresized, hroom, hzero, ?_, fun htrue => by cases htrue⟩
    · rw [heq, ← hmem']
      by_cases hsize' : a.encode.length ≠ a'.encode.length
      · rw [if_pos (hcond.mpr hsize'), if_pos hsize']
      · rw [if_neg (fun hc => hsize' hc.2), if_neg hsize']
    · intro x hx
      rw [hsame x (Or.inl hx)]
      exact hresized.before x (by omega)

theorem Represents.replace (ha : a.required) (htag : a'.tag = a.tag) {s' : Stream}
    (hkept : Kept s s' F a a' last) (hfits : (elements (F.messages a')).length ≤ s.bufferSize + 4)
    (hdata : Repointed s.index.slots s'.index.slots (2 + F.index) (F.pos a) a.encode.length
      a'.encode.length F.tail (F.later (F.pos a + a.encode.length)))
    (hroom : Room s F a a' s'.buffer) (hvalue : s'.buffer.Holds (F.pos a) a'.encode) :
    s'.Represents (F.messages a') := by
  have hsingle : s'.singleMessage = s.singleMessage := by rw [hkept.same]
  have hindex : s'.index = { s.index with slots := s'.index.slots } := by
    rw [hkept.same]
  have hsize : s'.bufferSize = s.bufferSize := by rw [hkept.same]
  have hlayout := h.layout.update ha htag hdata hroom.sizes hroom.front hvalue hroom.tail
  rw [← hindex] at hlayout
  constructor
  · exact hlayout
  · intro hfalse
    rw [Focus.holds_elements, Focus.front_congr htag, Focus.pos_congr htag]
    exact ⟨hroom.whole (hsingle.symm.trans hfalse), hroom.front, hvalue, hroom.tail⟩
  · intro htrue
    have hone := h.single (hsingle.symm.trans htrue)
    rw [Focus.messages, List.length_append, List.length_cons] at hone ⊢
    exact hone
  · have htags := congrArg List.length (Focus.tags_congr (F := F) htag)
    have hmax : s'.maxValues = s.maxValues := by rw [hkept.same]
    rw [List.length_map, List.length_map] at htags
    rw [htags, hmax]
    exact h.values
  · rw [hsize]
    exact hfits
  · rw [hsize]
    exact h.bound

theorem Represents.storeValue (ha : a.required) (htag : a'.tag = a.tag)
    (hsize : a'.encode.length = a.encode.length) (last : Bool) :
    (s.storeValue F.index a'.encode).Represents (F.messages a') ∧
      Kept s (s.storeValue F.index a'.encode) F a a' last := by
  have hplaced := h.layout.placed ha
  have hpos := @pos_nonneg F a
  have hE : F.pos a = (elements F.before).length + (F.front a).length := rfl
  have hslot : s.index.slots (F.index + 2) = F.pos a := by
    rw [add_comm]
    exact hplaced.pos_eq
  have hmessage : (F.message a').encode.length = (F.message a).encode.length := by
    rw [length_message_encode, length_message_encode, Focus.front_congr htag, hsize]
  have hlength : (elements (F.messages a')).length = (elements (F.messages a)).length := by
    simp only [Focus.elements_eq, List.length_append, length_bigEndian, Focus.front_congr htag,
      hsize]
  have hstop : stop (F.messages a') = stop (F.messages a) := by rw [stop, stop, hlength]
  have hbuffer : (s.storeValue F.index a'.encode).buffer = s.buffer.store (F.pos a) a'.encode := by
    rw [Stream.storeValue, hslot]
  obtain ⟨hsizes, hfront, -, htail⟩ := Focus.holds_body.mp h.layout.body
  have hdrop : ((elements F.before ++ bigEndian 4 (F.message a).encode.length).drop 4).length =
      (elements F.before).length := by
    rw [List.length_drop, List.length_append, length_bigEndian, Nat.add_sub_cancel]
  have hwhole (hold : s.buffer.Holds (-4) (elements (F.messages a))) :
      (s.buffer.store (F.pos a) a'.encode).Holds (-4)
        (elements F.before ++ bigEndian 4 (F.message a').encode.length) := by
    rw [hmessage]
    apply (Focus.holds_elements.mp hold).1.store (Or.inr _)
    rw [List.length_append, length_bigEndian]
    omega
  have hfront' : (s.buffer.store (F.pos a) a'.encode).Holds (elements F.before).length
      (F.front a) := hfront.store (Or.inr (by omega))
  have htail' : (s.buffer.store (F.pos a) a'.encode).Holds (F.pos a + a'.encode.length) F.tail := by
    rw [hsize]
    exact htail.store (Or.inl (by rw [hsize]))
  have hvalue := s.buffer.holds_store (F.pos a) a'.encode
  have hroom : Room s F a a' (s.storeValue F.index a'.encode).buffer := by
    rw [hbuffer]
    refine ⟨?_, fun hsingle => hwhole (h.sizes hsingle), hfront', htail', ?_⟩
    · rw [hmessage]
      exact hsizes.store (Or.inr (by rw [hdrop]; omega))
    · intro x hx hx'
      exact Cells.store_of_le _ _ _ (by omega)
  have hkept : Kept s (s.storeValue F.index a'.encode) F a a' last := by
    refine ⟨rfl, ?_, ?_, ?_, Or.inr ⟨rfl, hstop⟩, ?_⟩
    · intro x _ hx
      rw [hbuffer]
      exact Cells.store_of_lt _ _ _ (by omega)
    · intro x hx _
      rw [hbuffer]
      rw [Focus.stop_eq] at hx
      exact Cells.store_of_le _ _ _ (by omega)
    · intro _ _ x hx
      rw [hbuffer]
      exact Cells.store_of_lt _ _ _ (by omega)
    · intro _ _ _ hold
      rw [hbuffer, Focus.holds_elements, Focus.front_congr htag, Focus.pos_congr htag]
      exact ⟨hwhole hold, hfront', hvalue, htail'⟩
  refine ⟨h.replace ha htag hkept ?_ ?_ hroom ?_, hkept⟩
  · rw [hlength]
    exact h.fits
  · rw [hsize]
    exact hplaced.repointed
  · rw [hbuffer]
    exact hvalue

theorem Represents.resize (ha : a.required) (htag : a'.tag = a.tag) (hresizable : a.Resizable blob)
    (hlast : (s.singleMessage || last) = true → F.after = [])
    (hfits : (elements (F.messages a')).length ≤ s.bufferSize + 4) {octets : List Octet} {k : ℕ}
    (hencode : a'.encode = octets ++ zeros k) (hk : k ≤ 4) {s₁ s' : Stream}
    (hs₁ : s₁ = s.maybeReserveSpace (F.index + 2) a'.encode.length last blob)
    (hs' : s' = { s₁ with buffer := s₁.buffer.store (s₁.index.slots (F.index + 2)) octets }) :
    s'.Represents (F.messages a') ∧ Kept s s' F a a' last := by
  obtain ⟨mem, mem', data', hreserve, hresized, hroom, hzero, hheader, hbelow⟩ :=
    h.reserve ha htag hresizable hlast hfits
  have hindex : (2 : ℤ) + F.index = F.index + 2 := add_comm _ _
  have hpos := @pos_nonneg F a
  have hE : F.pos a = (elements F.before).length + (F.front a).length := rfl
  have hslot : data' (F.index + 2) = F.pos a := by
    rw [← hindex, hresized.same _ (by omega) le_rfl]
    exact (h.layout.placed ha).pos_eq
  have hlength : a'.encode.length = octets.length + k := by
    rw [hencode, List.length_append, length_zeros]
  rw [hindex] at hreserve
  obtain ⟨buffer, bundleLength, heq, hsame, hsized⟩ :=
    s.maybeReserveSpace_eq (F.index + 2) a'.encode.length last blob hreserve
  have hstream : s' = { s with
      buffer := buffer.store (F.pos a) octets
      index := { s.index with slots := data' }
      messageLength := (data' 1).toNat
      bundleLength := bundleLength } := by
    rw [hs', hs₁, heq]
    simp only [hslot]
  clear hslot hindex
  have hstop : stop (F.messages a') = F.pos a + a'.encode.length + F.tail.length := by
    rw [Focus.stop_eq, Focus.pos_congr htag]
  have hfree : ((data' 1).toNat : ℤ) = stop (F.messages a') := by
    rw [hstop, hresized.free]
    omega
  have hbuffer : s'.buffer = buffer.store (F.pos a) octets := by rw [hstream]
  have hdrop : ((elements F.before ++ bigEndian 4 (F.message a').encode.length).drop 4).length =
      (elements F.before).length := by
    rw [List.length_drop, List.length_append, length_bigEndian, Nat.add_sub_cancel]
  have hnonneg {x : ℤ} (hx : 0 ≤ x) : buffer x = mem' x := hsame x (Or.inl hx)
  have hnew : Room s F a a' s'.buffer := by
    clear hfits hfree
    rw [hbuffer]
    refine ⟨?_, ?_, ?_, ?_, ?_⟩
    · apply Cells.Holds.store _ (Or.inr (by rw [hdrop]; omega))
      exact hroom.sizes.congr fun x hx _ => hnonneg hx
    · intro hsingle
      apply Cells.Holds.store _ (Or.inr (by rw [List.length_append, length_bigEndian]; omega))
      exact (hroom.whole hsingle).congr fun x hx _ =>
        hsame x (Or.inr (Or.inl ⟨by omega, Or.inr hsingle⟩))
    · apply Cells.Holds.store _ (Or.inr (by omega))
      exact hroom.front.congr fun x hx _ => hnonneg (by omega)
    · apply Cells.Holds.store _ (Or.inl (by omega))
      exact hroom.tail.congr fun x hx _ => hnonneg (by omega)
    · intro x hx hx'
      rw [Cells.store_of_le _ _ _ (by omega), hnonneg (by omega)]
      exact hroom.after x hx hx'
  have hvalue : s'.buffer.Holds (F.pos a) a'.encode := by
    have hzeros : buffer.Holds (F.pos a + octets.length) (zeros k) := by
      clear hfits hfree
      rw [zeros, Cells.holds_replicate] at hzero ⊢
      intro x hx hx'
      rw [hnonneg (by omega)]
      exact hzero x (by omega) (by push_cast; omega)
    rw [hbuffer, hencode, Cells.holds_append]
    exact ⟨Cells.holds_store _ _ _, hzeros.store (Or.inl le_rfl)⟩
  have hdata : Repointed s.index.slots s'.index.slots (2 + F.index) (F.pos a) a.encode.length
      a'.encode.length F.tail (F.later (F.pos a + a.encode.length)) := by
    rw [hstream]
    exact hresized.toRepointed
  have hkept : Kept s s' F a a' last := by
    clear hfits hlength
    refine ⟨by rw [hstream], ?_, ?_, ?_, Or.inl (by rw [hstream]; exact hfree), ?_⟩
    · intro x hx hx'
      rw [hbuffer, Cells.store_of_lt _ _ _ (by omega),
        hsame x (Or.inr (Or.inl ⟨hx, Or.inl hx'⟩))]
      exact hheader x hx'
    · intro x hx hx'
      exact hnew.after x hx (by omega)
    · intro hsingle hlast x hx
      rw [hbuffer, Cells.store_of_lt _ _ _ (by omega), hsame x (Or.inr (Or.inr hlast))]
      exact hbelow hsingle x hx
    · intro hout hnotlast hrecorded hold
      rw [Focus.holds_elements, Focus.front_congr htag, Focus.pos_congr htag]
      refine ⟨?_, hnew.front, hvalue, hnew.tail⟩
      cases hsingle : s.singleMessage with
      | false => exact hnew.whole hsingle
      | true =>
        obtain ⟨hbefore, hafter⟩ := h.alone hsingle
        have hold' := (Focus.holds_elements.mp hold).1
        rw [stop_alone hbefore hafter] at hfree hrecorded
        rw [hbuffer, hbefore]
        rw [hbefore] at hold'
        apply Cells.Holds.store _ (Or.inr (by simp; omega))
        rcases hsized hout hnotlast hsingle with ⟨hsamelength, hmem⟩ | hword
        · have hequal : (F.message a').encode.length = (F.message a).encode.length := by omega
          rw [hequal, hmem]
          apply hold'.congr
          intro x _ hx
          simp only [elements_nil, List.nil_append, length_bigEndian] at hx
          exact hbelow hsingle x (by omega)
        · have hequal : (data' 1).toNat = (F.message a').encode.length := by omega
          rw [hequal] at hword
          exact hword
  exact ⟨h.replace ha htag hkept hfits hdata hnew hvalue, hkept⟩

theorem Represents.tag_eq (ha : a.required) : s.index.tbuf (1 + F.index) = a.tag := by
  have htypes := h.layout.types
  rw [Focus.values_eq, List.filter_cons, if_pos ha, List.map_append, Cells.holds_append,
    List.length_map, List.length_append, List.cons_append, List.map_cons, Cells.holds_cons] at htypes
  exact htypes.2.1

theorem Represents.setValue (ha : a.required) (htag : a'.tag = a.tag)
    (hlast : (s.singleMessage || last) = true → F.after = [])
    (hfits : (elements (F.messages a')).length ≤ s.bufferSize + 4) :
    ∃ s', s.setValue F.index a' last = some s' ∧ s'.Represents (F.messages a') ∧
      Kept s s' F a a' last := by
  have htype : s.index.tbuf (1 + F.index) = a'.tag := (h.tag_eq ha).trans htag.symm
  have hrequired : a'.required := by rw [Arg.required, htag]; exact ha
  have hfixed (hnot : ∀ blob, ¬ a'.Resizable blob) :=
    h.storeValue ha htag (Arg.length_encode_congr htag hnot) last
  have hresizable {blob : Bool} (hb : a'.Resizable blob) : a.Resizable blob := by
    rw [Arg.resizable_iff, htag, ← Arg.resizable_iff] at hb
    exact hb
  cases a' with
  | int32 n => exact ⟨_, if_pos htype, hfixed fun _ hb => hb⟩
  | float n => exact ⟨_, if_pos htype, hfixed fun _ hb => hb⟩
  | int64 n => exact ⟨_, if_pos htype, hfixed fun _ hb => hb⟩
  | double n => exact ⟨_, if_pos htype, hfixed fun _ hb => hb⟩
  | char n => exact ⟨_, if_pos htype, hfixed fun _ hb => hb⟩
  | midi n => exact ⟨_, if_pos htype, hfixed fun _ hb => hb⟩
  | timetag n => exact ⟨_, if_pos htype, hfixed fun _ hb => hb⟩
  | timetagDouble n => exact ⟨_, if_pos htype, hfixed fun _ hb => hb⟩
  | string str | symbol str =>
    have hle := fixSize_le str.val.length
    have hencode : oscString str = str ++ zeros (fixSize str.val.length - str.val.length) := rfl
    have hresize : a.Resizable false := hresizable rfl
    refine ⟨_, if_pos htype, h.resize ha htag hresize hlast hfits hencode (by omega) rfl ?_⟩
    rw [Arg.encode, length_oscString]
    rfl
  | blob b =>
    have hle := fixSize_le (b.length + 3)
    have hencode : oscBlob b = (bigEndian 4 b.length ++ b) ++
      zeros (fixSize (b.length + 3) - (4 + b.length)) := rfl
    have hresize : a.Resizable true := hresizable rfl
    refine ⟨_, if_pos htype, h.resize ha htag hresize hlast hfits hencode (by omega) rfl ?_⟩
    rw [Arg.encode, length_oscBlob, ← Cells.store_store, length_bigEndian]
    rfl
  | trueValue | falseValue | nilValue | infinitum => exact absurd hrequired (by decide)

end

end Stream

end Incudine.Osc

import Incudine.OscUpdate

/-!
# New messages and bundles

A message starts with zeros, empty strings and empty blobs. The setters of the values and the
messages that are appended to a bundle lead to the encoding of the whole packet.
-/

namespace Incudine.Osc

open Octets

def Message.initial (m : Message) : Message := ⟨m.address, m.args.map Arg.initial⟩

section Initial

theorem Arg.tag_initial (a : Arg) : a.initial.tag = a.tag := by
  cases a <;> rfl

theorem Arg.required_initial (a : Arg) : a.initial.required = a.required := by
  rw [required, required, tag_initial]

theorem Arg.tag_ne_zero (a : Arg) : a.tag ≠ 0 := by
  cases a <;> simp [tag, ascii]

theorem Arg.length_encode_initial_le (a : Arg) : a.initial.encode.length ≤ a.encode.length := by
  cases a with
  | string s | symbol s =>
    have hlt := lt_fixSize s.val.length
    have hmod := fixSize_mod s.val.length
    simp only [initial, encode, length_oscString, List.length_nil]
    show 4 ≤ fixSize s.val.length
    omega
  | blob b =>
    have hlt := lt_fixSize (b.length + 3)
    simp only [initial, encode, length_oscBlob, List.length_nil]
    show 4 ≤ fixSize (b.length + 3)
    omega
  | _ => simp [initial, encode]

theorem Arg.encode_initial (a : Arg) : a.initial.encode = zeros a.initial.encode.length := by
  cases a with
  | string | symbol | blob => rfl
  | _ => simp [initial, encode]; rfl

theorem encode_initial (args : List Arg) : (args.map Arg.initial).flatMap Arg.encode =
    zeros ((args.map Arg.initial).flatMap Arg.encode).length := by
  induction args with
  | nil => rfl
  | cons a args ih =>
    rw [List.map_cons, List.flatMap_cons, List.length_append, zeros, List.replicate_add]
    exact congrArg₂ _ a.encode_initial ih

theorem length_initial_le (args : List Arg) :
    ((args.map Arg.initial).flatMap Arg.encode).length ≤ (args.flatMap Arg.encode).length := by
  induction args with
  | nil => exact le_rfl
  | cons a args ih =>
    rw [List.map_cons, List.flatMap_cons, List.flatMap_cons, List.length_append,
      List.length_append]
    exact Nat.add_le_add a.length_encode_initial_le ih

theorem Message.types_initial (m : Message) : m.initial.types = m.types := by
  simp only [types, initial, List.map_map]
  exact List.map_congr_left fun a _ => a.tag_initial

theorem Message.head_initial (m : Message) : m.initial.head = m.head := by
  rw [head, head, types_initial]
  rfl

theorem Message.length_encode_initial_le (m : Message) :
    m.initial.encode.length ≤ m.encode.length := by
  rw [encode, encode, head_initial, List.length_append, List.length_append]
  exact Nat.add_le_add_left (length_initial_le m.args) _

theorem Message.values_initial (m : Message) : m.initial.values = m.values.map Arg.initial := by
  rw [values, initial, List.filter_map, values]
  congr 2
  funext a
  exact a.required_initial

theorem Message.tags_initial (m : Message) :
    m.initial.values.map Arg.tag = m.values.map Arg.tag := by
  rw [values_initial, List.map_map]
  exact List.map_congr_left fun a _ => a.tag_initial

theorem Message.length_values_le (m : Message) : m.values.length ≤ m.types.length := by
  rw [values, types, List.length_map]
  exact List.length_filter_le _ _

end Initial

section Index

variable {mem : Memory} {size : ℕ}

theorem typeWords_initial (a : Arg) {data : ℤ} (h : mem.Holds data a.initial.encode)
    (hsize : 0 < size) : typeWords mem size data a.tag =
      if a.required then some (a.initial.encode.length / 4) else none := by
  obtain ⟨size, rfl⟩ := Nat.exists_eq_succ_of_ne_zero hsize.ne'
  cases a with
  | string | symbol =>
    have hzero : mem data = 0 := (Cells.holds_cons.mp h).1
    have hempty : Memory.cString mem (size + 1) data = [] := by
      rw [Memory.cString, if_pos hzero]
    simp [Arg.initial, Arg.encode, Arg.tag, Arg.required, typeWords, ascii, hempty,
      length_oscString, fixSize]
  | blob =>
    have hread : mem.read data 4 = [0, 0, 0, 0] := h.read_eq
    have hzero : ofLittleEndian [0, 0, 0, 0] = 0 := rfl
    simp [Arg.initial, Arg.encode, Arg.tag, Arg.required, typeWords, ascii, hread, hzero,
      length_oscBlob, fixSize]
  | int32 | float | int64 | double | char | midi | timetag | timetagDouble =>
    simp [Arg.initial, Arg.encode, Arg.tag, Arg.required, typeWords, ascii]
  | trueValue | falseValue | nilValue | infinitum => rfl

theorem indexLoop_eq (args : List Arg) {res tbuf data : ℤ} {x : Index}
    (h : mem.Holds data ((args.map Arg.initial).flatMap Arg.encode)) (hsize : 0 < size) :
    ∃ x', indexLoop mem size (args.map Arg.tag) res tbuf data x =
        (x', res + (args.filter Arg.required).length,
          data + ((args.map Arg.initial).flatMap Arg.encode).length) ∧
      x'.slots.Holds res (argPointers data (args.map Arg.initial)) ∧
      x'.tbuf.Holds tbuf ((args.filter Arg.required).map Arg.tag) ∧
      (∀ k, k < res → x'.slots k = x.slots k) ∧ ∀ k, k < tbuf → x'.tbuf k = x.tbuf k := by
  induction args generalizing res tbuf data x with
  | nil =>
    exact ⟨x, by simp [indexLoop], Cells.holds_nil, Cells.holds_nil, fun _ _ => rfl,
      fun _ _ => rfl⟩
  | cons a args ih =>
    rw [List.map_cons, List.flatMap_cons, Cells.holds_append] at h
    have hwords := typeWords_initial a h.1 hsize
    have hmod := a.initial.length_encode.1
    let y : Index := { slots := x.slots.store res [data], tbuf := x.tbuf.store tbuf [a.tag] }
    by_cases hrequired : a.required
    · rw [if_pos hrequired] at hwords
      have hnext : data + 4 * ((a.initial.encode.length / 4 : ℕ) : ℤ) =
          data + a.initial.encode.length := by omega
      obtain ⟨x', heq, hslots, htbuf, hslots', htbuf'⟩ :=
        @ih (res + 1) (tbuf + 1) (data + a.initial.encode.length) y h.2
      refine ⟨x', ?_, ?_, ?_, ?_, ?_⟩
      · rw [List.map_cons, indexLoop]
        simp only [hwords, hnext]
        rw [heq, List.filter_cons, if_pos hrequired, List.length_cons, List.map_cons,
          List.flatMap_cons, List.length_append]
        push_cast
        simp only [Prod.mk.injEq, true_and]
        omega
      · rw [List.map_cons, argPointers, a.required_initial, if_pos hrequired, List.singleton_append,
          Cells.holds_cons]
        refine ⟨?_, hslots⟩
        rw [hslots' res (by omega)]
        exact Cells.store_self x.slots res data
      · rw [List.filter_cons, if_pos hrequired, List.map_cons, Cells.holds_cons]
        refine ⟨?_, htbuf⟩
        rw [htbuf' tbuf (by omega)]
        exact Cells.store_self x.tbuf tbuf a.tag
      · intro k hk
        rw [hslots' k (by omega)]
        exact Cells.store_of_lt _ _ _ hk
      · intro k hk
        rw [htbuf' k (by omega)]
        exact Cells.store_of_lt _ _ _ hk
    · rw [if_neg hrequired] at hwords
      have hrequired' : ¬ a.initial.required := by
        rw [a.required_initial]
        exact hrequired
      have hempty := Arg.encode_of_not_required hrequired'
      rw [hempty, List.length_nil, Nat.cast_zero, add_zero] at h
      obtain ⟨x', heq, hslots, htbuf, hslots', htbuf'⟩ := @ih res tbuf data y h.2
      refine ⟨x', ?_, ?_, ?_, ?_, ?_⟩
      · rw [List.map_cons, indexLoop]
        simp only [hwords]
        rw [heq, List.filter_cons, if_neg hrequired, List.map_cons, List.flatMap_cons, hempty,
          List.nil_append]
      · rw [List.map_cons, argPointers, if_neg hrequired', List.nil_append, hempty, List.length_nil,
          Nat.cast_zero, add_zero]
        exact hslots
      · rw [List.filter_cons, if_neg hrequired]
        exact htbuf
      · intro k hk
        rw [hslots' k hk]
        exact Cells.store_of_lt _ _ _ hk
      · intro k hk
        rw [htbuf' k hk]
        exact Cells.store_of_lt _ _ _ hk

theorem fixSize_add {a : ℕ} (h : a % 4 = 0) (b : ℕ) : fixSize (a + b) = a + fixSize b := by
  rw [fixSize, fixSize]
  omega

theorem length_head (m : Message) :
    m.head.length = fixSize (fixSize m.address.val.length + 1 + m.types.length) := by
  rw [Message.head, List.length_append, length_oscString, length_oscString, List.length_cons,
    Nat.add_assoc, fixSize_add (fixSize_mod _), Nat.add_comm 1]

theorem length_types_lt {m : Message} {size : ℕ} (h : m.encode.length ≤ size) :
    m.types.length < size := by
  have hhead := length_head m
  have hlt := lt_fixSize (fixSize m.address.val.length + 1 + m.types.length)
  rw [Message.encode, List.length_append] at h
  omega

theorem cString_types {m : Message} {base : ℤ} (h : mem.Holds base m.head)
    (hsize : m.types.length < size) :
    Memory.cString mem size (base + fixSize m.address.val.length + 1) = m.types := by
  have hzero : (0 : Octet) ∉ m.types := by
    intro hmem
    obtain ⟨a, -, ha⟩ := List.mem_map.mp hmem
    exact a.tag_ne_zero ha
  have hlt := lt_fixSize (ascii ',' :: m.types).length
  obtain ⟨n, hn⟩ := Nat.exists_eq_add_of_lt hlt
  have htypes : oscString (ascii ',' :: m.types) = ascii ',' :: ((m.types ++ [0]) ++ zeros n) := by
    have hcount : fixSize (ascii ',' :: m.types).length - (ascii ',' :: m.types).length = 1 + n := by
      omega
    rw [oscString, hcount, zeros, List.replicate_add]
    simp [zeros]
  rw [Message.head, Cells.holds_append, length_oscString, htypes, Cells.holds_cons,
    Cells.holds_append] at h
  exact cString_eq h.2.2.1 hzero hsize

theorem indexOscValues_eq (m : Message) {base : ℤ} {x : Index} {n : ℕ}
    (hmem : mem.Holds base m.initial.encode) (hcount : charToInt (x.tbuf 0) = n)
    (hsize : m.types.length < size) {x' : Index}
    (hx' : x' = indexOscValues mem size x (base + fixSize m.address.val.length + 1)
      (base + m.head.length)) :
    x'.slots.Holds (2 + n) (argPointers (base + m.head.length) m.initial.args ++
        [base + m.initial.encode.length]) ∧
      x'.slots 1 = base + m.initial.encode.length ∧
      x'.tbuf 0 = UInt8.ofNat m.values.length ∧
      x'.tbuf.Holds (1 + n) (m.values.map Arg.tag) ∧
      (∀ k : ℤ, 2 ≤ k → k < 2 + n → x'.slots k = x.slots k) ∧
      ∀ k : ℤ, 1 ≤ k → k < 1 + n → x'.tbuf k = x.tbuf k := by
  rw [Message.encode, Message.head_initial, Cells.holds_append] at hmem
  obtain ⟨y, heq, hslots, htbuf, hslots', htbuf'⟩ := @indexLoop_eq mem size m.args (2 + n) (1 + n)
    (base + m.head.length)
    { x with slots := x.slots.store 0 [base + fixSize m.address.val.length + 1] } hmem.2 (by omega)
  have hfree : base + (m.head.length : ℤ) + ((m.args.map Arg.initial).flatMap Arg.encode).length =
      base + m.initial.encode.length := by
    rw [Message.encode, Message.head_initial, List.length_append]
    push_cast
    exact add_assoc _ _ _
  have hlength : (argPointers (base + (m.head.length : ℤ)) (m.args.map Arg.initial)).length =
      (m.args.filter Arg.required).length := by
    rw [length_argPointers, List.filter_map, List.length_map]
    congr 2
    funext a
    exact a.required_initial
  rw [hfree] at heq
  rw [indexOscValues, cString_types hmem.1 hsize, hcount] at hx'
  simp only [Message.types, heq] at hx'
  rw [hx']
  refine ⟨?_, ?_, ?_, ?_, ?_, ?_⟩
  · apply Cells.Holds.store _ (Or.inl (by rw [List.length_singleton]; omega))
    rw [Message.initial, Cells.holds_append, hlength]
    exact ⟨hslots.store (Or.inr (by rw [hlength])), Cells.holds_store _ _ _⟩
  · simp only [Cells.store_self]
  · have hvalues : ((2 : ℤ) + n + (m.args.filter Arg.required).length - (2 + n)).toNat =
        m.values.length := by
      rw [Message.values]
      omega
    rw [hvalues]
    simp only [Cells.store_self]
  · exact htbuf.store (Or.inl (by rw [List.length_singleton]; omega))
  · intro k hk hk'
    have hone : (1 : ℤ) + [base + (m.initial.encode.length : ℤ)].length ≤ k := hk
    have hzero : (0 : ℤ) + [base + (fixSize m.address.val.length : ℤ) + 1].length ≤ k := by
      rw [List.length_singleton]
      omega
    exact (Cells.store_of_le _ _ _ hone).trans ((Cells.store_of_lt _ _ _ (by omega)).trans
      ((hslots' k hk').trans (Cells.store_of_le _ _ _ hzero)))
  · intro k hk hk'
    exact (Cells.store_of_le _ _ _ hk).trans (htbuf' k hk')

end Index

namespace Stream

/-- What the setters of the values leave as it is while the messages grow. -/
structure Progress (s s' : Stream) (messages messages' : List Message) (last : Bool) : Prop where
  same : s' = { s with
    buffer := s'.buffer
    index := { s.index with slots := s'.index.slots }
    messageLength := s'.messageLength
    bundleLength := s'.bundleLength }
  stop_le : stop messages ≤ stop messages'
  header : ∀ x, -20 ≤ x → x < -4 → s'.buffer x = s.buffer x
  after : ∀ x, stop messages' ≤ x → s'.buffer x = s.buffer x
  below : s.singleMessage = true → last = true → ∀ x, x < 0 → s'.buffer x = s.buffer x
  length : (s'.messageLength : ℤ) = stop messages' ∨
    s'.messageLength = s.messageLength ∧ stop messages' = stop messages

section Progress

variable {s s' s'' : Stream} {messages messages' messages'' : List Message} {last : Bool}

theorem Progress.refl (s : Stream) (messages : List Message) (last : Bool) :
    Progress s s messages messages last :=
  ⟨rfl, le_rfl, fun _ _ _ => rfl, fun _ _ => rfl, fun _ _ _ _ => rfl, Or.inr ⟨rfl, rfl⟩⟩

theorem Progress.trans (h : Progress s s' messages messages' last)
    (h' : Progress s' s'' messages' messages'' last) :
    Progress s s'' messages messages'' last := by
  have hsingle : s'.singleMessage = s.singleMessage := by rw [h.same]
  refine ⟨?_, h.stop_le.trans h'.stop_le, ?_, ?_, ?_, ?_⟩
  · have hsame := h'.same
    rw [h.same] at hsame
    exact hsame
  · exact fun x hx hx' => (h'.header x hx hx').trans (h.header x hx hx')
  · exact fun x hx => (h'.after x hx).trans (h.after x (h'.stop_le.trans hx))
  · exact fun hs hl x hx =>
      (h'.below (hsingle.trans hs) hl x hx).trans (h.below hs hl x hx)
  · rcases h'.length with hlength' | ⟨hlength', hstop'⟩
    · exact Or.inl hlength'
    · rcases h.length with hlength | ⟨hlength, hstop⟩
      · rw [hlength', hstop']
        exact Or.inl hlength
      · exact Or.inr ⟨hlength'.trans hlength, hstop'.trans hstop⟩

theorem Kept.progress {F : Focus} {a a' : Arg} (h : Kept s s' F a a' last)
    (hstop : stop (F.messages a) ≤ stop (F.messages a')) :
    Progress s s' (F.messages a) (F.messages a') last :=
  ⟨h.same, hstop, h.header, fun x hx => h.after x (hstop.trans hx) hx, h.below, h.length⟩

end Progress

section SetValues

variable {s : Stream} {last : Bool}

theorem initial_of_not_required {a : Arg} (h : ¬ a.required) : a.initial = a := by
  cases a with
  | trueValue | falseValue | nilValue | infinitum => rfl
  | _ => exact absurd rfl h

theorem length_elements_le (F : Focus) {a a' : Arg} (htag : a'.tag = a.tag)
    (h : a.encode.length ≤ a'.encode.length) :
    (elements (F.messages a)).length ≤ (elements (F.messages a')).length := by
  simp only [Focus.elements_eq, List.length_append, length_bigEndian, Focus.front_congr htag]
  omega

theorem Represents.setValues {before : List Message} {address : CString} (todo : List Arg)
    {done : List Arg} {i : ℕ}
    (h : s.Represents (before ++ [⟨address, done ++ todo.map Arg.initial⟩]))
    (hi : i = (before.flatMap Message.values).length + (done.filter Arg.required).length)
    (hfits : (elements (before ++ [⟨address, done ++ todo⟩])).length ≤ s.bufferSize + 4) :
    ∃ s', Stream.setValues last (todo.filter Arg.required) i s = some s' ∧
      s'.Represents (before ++ [⟨address, done ++ todo⟩]) ∧
      Progress s s' (before ++ [⟨address, done ++ todo.map Arg.initial⟩])
        (before ++ [⟨address, done ++ todo⟩]) last := by
  induction todo generalizing s done i with
  | nil => exact ⟨s, rfl, h, Progress.refl s _ last⟩
  | cons a todo ih =>
    have hdone : done ++ a :: todo = (done ++ [a]) ++ todo := by
      rw [List.append_assoc, List.singleton_append]
    have hdone' : done ++ a :: todo.map Arg.initial = (done ++ [a]) ++ todo.map Arg.initial := by
      rw [List.append_assoc, List.singleton_append]
    by_cases ha : a.required
    · let F : Focus := ⟨before, address, done, todo.map Arg.initial, []⟩
      have hcount : ((done ++ [a]).filter Arg.required).length =
          (done.filter Arg.required).length + 1 := by
        rw [List.filter_append, List.length_append, List.filter_cons, if_pos ha]
        rfl
      have hle : (elements (F.messages a)).length ≤
          (elements (before ++ [⟨address, done ++ a :: todo⟩])).length := by
        have hargs := length_initial_le todo
        have htypes : (todo.map Arg.initial).map Arg.tag = todo.map Arg.tag := by
          rw [List.map_map]
          exact List.map_congr_left fun b _ => b.tag_initial
        simp only [F, Focus.messages, Focus.message, elements_append, elements_cons, element,
          Message.encode, Message.head, Message.types, List.map_append, List.map_cons,
          List.flatMap_append, List.flatMap_cons, List.length_append, length_bigEndian, htypes]
        omega
      have hrequired : a.initial.required := by
        rw [a.required_initial]
        exact ha
      obtain ⟨s₁, hset, hrep, hkept⟩ := @Represents.setValue s F a.initial a last h hrequired
        a.tag_initial.symm (fun _ => rfl) (hle.trans hfits)
      have hsize : s₁.bufferSize = s.bufferSize := by rw [hkept.same]
      have hrep' : s₁.Represents (before ++ [⟨address, (done ++ [a]) ++ todo.map Arg.initial⟩]) := by
        rw [← hdone']
        exact hrep
      have hi' : i + 1 = (before.flatMap Message.values).length +
          ((done ++ [a]).filter Arg.required).length := by
        rw [hcount, hi, Nat.add_assoc]
      rw [hdone, ← hsize] at hfits
      rw [hdone]
      obtain ⟨s', hsets, hfinal, hprogress⟩ := ih hrep' hi' hfits
      have hindex : F.index = i := hi.symm
      have hgrow : stop (F.messages a.initial) ≤ stop (F.messages a) := by
        have hlength := length_elements_le F a.tag_initial.symm a.length_encode_initial_le
        rw [stop, stop]
        omega
      rw [← hdone'] at hprogress
      refine ⟨s', ?_, hfinal, (hkept.progress hgrow).trans hprogress⟩
      rw [List.filter_cons, if_pos ha, Stream.setValues, ← hindex, hset, hindex]
      exact hsets
    · have hinitial := initial_of_not_required ha
      have hcount : (done ++ [a]).filter Arg.required = done.filter Arg.required := by
        rw [List.filter_append, List.filter_cons, if_neg ha, List.filter_nil, List.append_nil]
      rw [List.map_cons, hinitial, hdone'] at h ⊢
      rw [hdone] at hfits ⊢
      rw [List.filter_cons, if_neg ha]
      exact ih h (by rw [hcount]; exact hi) hfits

end SetValues

section NewMessage

variable {mem : Memory} {base stop' : ℤ}

theorem holds_head (m : Message) (hzero : ∀ x, base ≤ x → x < stop' → mem x = 0)
    (hle : base + m.head.length ≤ stop') {mem' : Memory}
    (hmem' : mem' = (mem.store base m.address.val).store (base + fixSize m.address.val.length)
      (ascii ',' :: m.types)) :
    mem'.Holds base m.head ∧ (∀ x, x < base → mem' x = mem x) ∧
      ∀ x, base + m.head.length ≤ x → mem' x = mem x := by
  have haddress := lt_fixSize m.address.val.length
  have htypes := lt_fixSize (ascii ',' :: m.types).length
  have hhead : m.head.length = fixSize m.address.val.length +
      fixSize (ascii ',' :: m.types).length := by
    rw [Message.head, List.length_append, length_oscString, length_oscString]
  have hzeros : ∀ x, base ≤ x → x < stop' →
      (x < base + fixSize m.address.val.length → base + m.address.val.length ≤ x) →
      (base + fixSize m.address.val.length ≤ x →
        base + fixSize m.address.val.length + (ascii ',' :: m.types).length ≤ x) →
      mem' x = 0 := by
    intro x hx hx' hpad hpad'
    rw [hmem']
    by_cases hfirst : x < base + fixSize m.address.val.length
    · rw [Cells.store_of_lt _ _ _ hfirst, Cells.store_of_le _ _ _ (hpad hfirst)]
      exact hzero x hx hx'
    · rw [Cells.store_of_le _ _ _ (hpad' (by omega)), Cells.store_of_le _ _ _ (by omega)]
      exact hzero x hx hx'
  refine ⟨?_, ?_, ?_⟩
  · rw [Message.head, oscString, oscString, Cells.holds_append, Cells.holds_append,
      Cells.holds_append, List.length_append, length_zeros]
    have hlength : m.address.val.length + (fixSize m.address.val.length - m.address.val.length) =
        fixSize m.address.val.length := by omega
    rw [hlength]
    refine ⟨⟨?_, ?_⟩, ?_, ?_⟩
    · rw [hmem']
      exact (Cells.holds_store _ _ _).store (Or.inr (by omega))
    · rw [zeros, Cells.holds_replicate]
      exact fun x hx hx' => hzeros x (by omega) (by omega) (fun _ => hx) (fun _ => by omega)
    · rw [hmem']
      exact Cells.holds_store _ _ _
    · rw [zeros, Cells.holds_replicate]
      exact fun x hx hx' => hzeros x (by omega) (by omega) (fun _ => by omega) (fun _ => hx)
  · intro x hx
    rw [hmem', Cells.store_of_lt _ _ _ (by omega), Cells.store_of_lt _ _ _ hx]
  · intro x hx
    rw [hmem', Cells.store_of_le _ _ _ (by omega), Cells.store_of_le _ _ _ (by omega)]

theorem holds_initial (m : Message) (hzero : ∀ x, base ≤ x → x < stop' → mem x = 0)
    (hle : base + m.initial.encode.length ≤ stop') {mem' : Memory}
    (hmem' : mem' = (mem.store base m.address.val).store (base + fixSize m.address.val.length)
      (ascii ',' :: m.types)) :
    mem'.Holds base m.initial.encode ∧ (∀ x, x < base → mem' x = mem x) ∧
      ∀ x, base + m.initial.encode.length ≤ x → mem' x = mem x := by
  have hlength : m.initial.encode.length = m.head.length +
      ((m.args.map Arg.initial).flatMap Arg.encode).length := by
    rw [Message.encode, Message.head_initial, List.length_append, Message.initial]
  obtain ⟨hhead, hbelow, habove⟩ := holds_head m hzero (by omega) hmem'
  refine ⟨?_, hbelow, fun x hx => habove x (by omega)⟩
  rw [Message.encode, Message.head_initial, Cells.holds_append]
  refine ⟨hhead, ?_⟩
  rw [Message.initial, encode_initial, zeros, Cells.holds_replicate]
  intro x hx hx'
  rw [habove x hx]
  exact hzero x (by omega) (by omega)

end NewMessage

/-- The buffer after the messages is zero. -/
structure Fresh (s : Stream) (messages : List Message) : Prop extends s.Represents messages where
  zero : ∀ x : ℤ, stop messages ≤ x → x < s.bufferSize → s.buffer x = 0
  count : s.index.tbuf 0 = UInt8.ofNat (messages.flatMap Message.values).length

theorem stop_singleton (m : Message) : stop [m] = m.encode.length := by
  rw [stop, elements_cons, elements_nil, List.append_nil, length_element]
  push_cast
  ring

theorem oscStartMessage_eq (mem : Memory) {maxlen : ℕ} (x : Index) {m : Message}
    (hfits : m.encode.length ≤ maxlen) :
    ∃ mem' x', oscStartMessage mem maxlen x m.address m.types =
        (mem', x', m.initial.encode.length) ∧
      Layout mem' x' [m.initial] ∧ mem'.Holds (-4) (elements [m.initial]) ∧
      (∀ a, a < -4 → mem' a = mem a) ∧
      (∀ a : ℤ, m.initial.encode.length ≤ a → a < maxlen → mem' a = 0) ∧
      x'.tbuf 0 = UInt8.ofNat m.values.length := by
  have hle := m.length_encode_initial_le
  have helements : elements [m.initial] =
      bigEndian 4 m.initial.encode.length ++ m.initial.encode := by
    rw [elements_cons, elements_nil, List.append_nil, element]
  have hzero : ∀ a : ℤ, 0 ≤ a → a < maxlen → mem.store 0 (zeros maxlen) a = 0 := by
    have hzeros := mem.holds_store 0 (zeros maxlen)
    rw [zeros, Cells.holds_replicate] at hzeros
    exact fun a ha ha' => hzeros a ha (by omega)
  have hzero' : ∀ a : ℤ, a < 0 → mem.store 0 (zeros maxlen) a = mem a :=
    fun a ha => Cells.store_of_lt _ _ _ ha
  obtain ⟨mem₁, hmem₁⟩ : ∃ mem₁ : Memory, mem₁ = ((mem.store 0 (zeros maxlen)).store 0
    m.address.val).store (fixSize m.address.val.length) (ascii ',' :: m.types) := ⟨_, rfl⟩
  obtain ⟨hinitial, hbelow, habove⟩ := @holds_initial _ 0 maxlen m hzero (by omega) mem₁
    (by rw [zero_add]; exact hmem₁)
  obtain ⟨x', hx'⟩ : ∃ x' : Index, x' = indexOscValues mem₁ maxlen
      ⟨x.slots, x.tbuf.store 0 [0]⟩ (0 + fixSize m.address.val.length + 1) (0 + m.head.length) :=
    ⟨_, rfl⟩
  have hcount : charToInt (x.tbuf.store 0 [0] 0) = (0 : ℕ) := by
    rw [Cells.store_self]
    rfl
  obtain ⟨hslots, hfree, hvalues, htbuf, -, -⟩ :=
    indexOscValues_eq m hinitial hcount (length_types_lt hfits) hx'
  rw [zero_add] at hfree
  have hbytes : (x'.slots 1).toNat = m.initial.encode.length := by
    rw [hfree]
    exact Int.toNat_natCast _
  have hstart : oscStartMessage mem maxlen x m.address m.types =
      (mem₁.store (-4) (bigEndian 4 m.initial.encode.length), x', m.initial.encode.length) := by
    have htypes : (0 : ℤ) + fixSize m.address.val.length + 1 =
        (fixSize m.address.val.length + 1 : ℕ) := by
      push_cast
      ring
    rw [← hbytes, hx', htypes, zero_add, length_head, hmem₁]
    rfl
  have hmessage : (mem₁.store (-4) (bigEndian 4 m.initial.encode.length)).Holds 0
      m.initial.encode := hinitial.store (Or.inl (by rw [length_bigEndian]; omega))
  have hwhole : (mem₁.store (-4) (bigEndian 4 m.initial.encode.length)).Holds (-4)
      (elements [m.initial]) := by
    rw [helements, Cells.holds_append, length_bigEndian]
    exact ⟨Cells.holds_store _ _ _, hmessage⟩
  refine ⟨_, x', hstart, ⟨?_, ?_, ?_, ?_⟩, hwhole, ?_, ?_, hvalues⟩
  · rw [helements, List.drop_left' (length_bigEndian 4 _)]
    exact hmessage
  · have hpointers : pointers (-4) [m.initial] =
        argPointers (0 + m.head.length) m.initial.args := by
      rw [pointers, pointers, List.append_nil, Message.head_initial]
      rfl
    rw [hpointers, stop_singleton]
    rw [zero_add (m.initial.encode.length : ℤ)] at hslots
    exact hslots
  · rw [stop_singleton]
    exact hfree
  · rw [List.flatMap_singleton, Message.tags_initial]
    exact htbuf
  · intro a ha
    rw [Cells.store_of_lt _ _ _ ha, hbelow a (by omega)]
    exact hzero' a (by omega)
  · intro a ha ha'
    rw [Cells.store_of_le _ _ _ (by rw [length_bigEndian]; omega), habove a (by omega)]
    exact hzero a (by omega) ha'

theorem stop_append (messages : List Message) (m : Message) :
    stop (messages ++ [m]) = stop messages + 4 + m.encode.length := by
  rw [stop, stop, elements_append, elements_cons, elements_nil, List.append_nil,
    List.length_append, length_element]
  push_cast
  ring

theorem charToInt_ofNat {n : ℕ} (h : n < 0x80) : charToInt (UInt8.ofNat n) = n := by
  have hmod : (UInt8.ofNat n).toNat = n := by
    rw [UInt8.toNat_ofNat']
    omega
  rw [charToInt, hmod, if_pos h]

theorem oscBundleAppendMessage_eq {mem : Memory} {x : Index} {messages : List Message}
    {size offset : ℕ} {m : Message} (h : Layout mem x messages)
    (hsizes : mem.Holds (-4) (elements messages))
    (hzero : ∀ a : ℤ, stop messages ≤ a → a < size → mem a = 0)
    (hcount : x.tbuf 0 = UInt8.ofNat (messages.flatMap Message.values).length)
    (hlt : (messages.flatMap Message.values).length < 0x80) (hoffset : (offset : ℤ) = stop messages)
    (hfits : stop (messages ++ [m]) ≤ size) :
    ∃ mem' x', oscBundleAppendMessage mem size x m.address m.types offset =
        (mem', x', m.initial.encode.length + 4) ∧
      Layout mem' x' (messages ++ [m.initial]) ∧
      mem'.Holds (-4) (elements (messages ++ [m.initial])) ∧
      (∀ a : ℤ, a < offset → mem' a = mem a) ∧
      (∀ a : ℤ, stop (messages ++ [m.initial]) ≤ a → a < size → mem' a = 0) ∧
      x'.tbuf 0 =
        UInt8.ofNat ((messages.flatMap Message.values).length + m.values.length) := by
  have hle := m.length_encode_initial_le
  rw [stop_append] at hfits
  obtain ⟨mem₁, hmem₁⟩ : ∃ mem₁ : Memory, mem₁ = (mem.store (offset + 4) m.address.val).store
    (offset + 4 + fixSize m.address.val.length) (ascii ',' :: m.types) := ⟨_, rfl⟩
  obtain ⟨hinitial, hbelow, habove⟩ := @holds_initial _ (offset + 4) size m
    (fun a ha ha' => hzero a (by omega) ha') (by omega) mem₁ hmem₁
  obtain ⟨y, hy⟩ : ∃ y : Index, y = indexOscValues mem₁ size x
      (offset + 4 + fixSize m.address.val.length + 1) (offset + 4 + m.head.length) := ⟨_, rfl⟩
  have hchar : charToInt (x.tbuf 0) = (messages.flatMap Message.values).length := by
    rw [hcount, charToInt_ofNat hlt]
  have htypes : m.types.length < size := by
    have hstop : (0 : ℤ) ≤ offset := by omega
    exact length_types_lt (by omega)
  obtain ⟨hslots, hfree, hvalues, htbuf, hslots', htbuf'⟩ :=
    indexOscValues_eq m hinitial hchar htypes hy
  have hbytes : (y.slots 1 - ((offset + 4 : ℕ) : ℤ)).toNat = m.initial.encode.length := by
    rw [hfree]
    push_cast
    omega
  obtain ⟨x', hx'⟩ : ∃ x' : Index, x' = ⟨y.slots, y.tbuf.store 0 [y.tbuf 0 + x.tbuf 0]⟩ := ⟨_, rfl⟩
  have hsum : x'.tbuf 0 =
      UInt8.ofNat ((messages.flatMap Message.values).length + m.values.length) := by
    rw [hx']
    simp only [Cells.store_self]
    rw [hvalues, hcount, ← UInt8.ofNat_add, Nat.add_comm]
  have happend : oscBundleAppendMessage mem size x m.address m.types offset =
      (mem₁.store offset (bigEndian 4 m.initial.encode.length), x',
        m.initial.encode.length + 4) := by
    have hstart : (offset + 4 + fixSize m.address.val.length + 1 : ℤ) =
        (offset + 4 + (fixSize m.address.val.length + 1) : ℕ) := by
      push_cast
      ring
    have hdata : (offset + 4 + m.head.length : ℤ) = (offset + 4 +
        fixSize (fixSize m.address.val.length + 1 + m.types.length) : ℕ) := by
      rw [← length_head]
      push_cast
      ring
    have haddress : (offset + 4 + fixSize m.address.val.length : ℤ) =
        (offset + 4 + fixSize m.address.val.length : ℕ) := by
      push_cast
      ring
    rw [← hbytes, hx', hy, hstart, hdata, hmem₁, haddress]
    rfl
  have hnew : elements (messages ++ [m.initial]) = elements messages ++
      (bigEndian 4 m.initial.encode.length ++ m.initial.encode) := by
    rw [elements_append, elements_cons, elements_nil, List.append_nil, element]
  have hend : (-4 : ℤ) + (elements messages).length = offset := by
    rw [hoffset, stop]
    ring
  have hwhole : (mem₁.store offset (bigEndian 4 m.initial.encode.length)).Holds (-4)
      (elements (messages ++ [m.initial])) := by
    rw [hnew, Cells.holds_append, Cells.holds_append, hend, length_bigEndian]
    refine ⟨?_, Cells.holds_store _ _ _, hinitial.store (Or.inl (by rw [length_bigEndian]; rfl))⟩
    apply Cells.Holds.store _ (Or.inr (by omega))
    exact hsizes.congr fun a _ ha => hbelow a (by omega)
  refine ⟨_, x', happend, ⟨?_, ?_, ?_, ?_⟩, hwhole, ?_, ?_, hsum⟩
  · have hlength : 4 ≤ (elements (messages ++ [m.initial])).length := by
      rw [hnew, List.length_append, List.length_append, length_bigEndian]
      omega
    exact hwhole.drop hlength
  · have hpointers : pointers (-4) (messages ++ [m.initial]) = pointers (-4) messages ++
        argPointers (offset + 4 + m.head.length) m.initial.args := by
      rw [pointers_append, pointers, pointers, List.append_nil, Message.head_initial, hend]
    have hfree' : (offset : ℤ) + 4 + m.initial.encode.length = stop (messages ++ [m.initial]) := by
      rw [stop_append, hoffset]
    rw [hpointers, List.append_assoc, Cells.holds_append, length_pointers, ← hfree', hx']
    refine ⟨?_, hslots⟩
    have hold := (Cells.holds_append.mp h.pointers).1
    apply hold.congr
    intro k hk hk'
    rw [length_pointers] at hk'
    exact hslots' k hk hk'
  · rw [hx', stop_append, ← hoffset]
    exact hfree
  · rw [List.flatMap_append, List.map_append, Cells.holds_append, List.length_map,
      List.flatMap_singleton, Message.tags_initial, hx']
    constructor
    · apply h.types.congr
      intro k hk hk'
      rw [List.length_map] at hk'
      have hfirst : (0 : ℤ) + [y.tbuf 0 + x.tbuf 0].length ≤ k := by
        rw [List.length_singleton]
        omega
      exact (Cells.store_of_le _ _ _ hfirst).trans (htbuf' k hk hk')
    · exact htbuf.store (Or.inl (by rw [List.length_singleton]; omega))
  · intro a ha
    rw [Cells.store_of_lt _ _ _ ha]
    exact hbelow a (by omega)
  · intro a ha ha'
    rw [stop_append] at ha
    rw [Cells.store_of_le _ _ _ (by rw [length_bigEndian]; omega), habove a (by omega)]
    exact hzero a (by omega) ha'

end Stream

end Incudine.Osc

import Incudine.OscWriter

/-!
# The values of a message

`(setf value)` moves the values after a string or a blob with a new size. The buffer is the one of
the same messages written from the start.
-/

namespace Incudine.Osc

open Octets

/-- The required value with the index `k` is replaced. -/
def replaceArg : List Arg → ℕ → Arg → List Arg
  | [], _, _ => []
  | a :: args, k, v =>
    if !a.required then a :: replaceArg args k v
    else if k = 0 then v :: args
    else a :: replaceArg args (k - 1) v

def replaceValue : List Message → ℕ → Arg → List Message
  | [], _, _ => []
  | m :: messages, k, v =>
    if k < m.values.length then ⟨m.address, replaceArg m.args k v⟩ :: messages
    else m :: replaceValue messages (k - m.values.length) v

section Replace

variable {k : ℕ} {v : Arg}

theorem exists_arg {args : List Arg} (h : k < (args.filter Arg.required).length) :
    ∃ before a after, args = before ++ a :: after ∧ a.required ∧
      (before.filter Arg.required).length = k ∧
      ∀ v, replaceArg args k v = before ++ v :: after := by
  induction args generalizing k with
  | nil => exact absurd h (Nat.not_lt_zero k)
  | cons a args ih =>
    by_cases ha : a.required
    · by_cases hk : k = 0
      · refine ⟨[], a, args, rfl, ha, hk.symm, fun v => ?_⟩
        simp only [replaceArg, ha, hk, Bool.not_true, Bool.false_eq_true, if_false, if_true,
          List.nil_append]
      · rw [List.filter_cons, if_pos ha, List.length_cons] at h
        have hless : k - 1 < (args.filter Arg.required).length := by omega
        obtain ⟨before, b, after, hargs, hb, hcount, hreplace⟩ := ih hless
        refine ⟨a :: before, b, after, by rw [hargs]; rfl, hb, ?_, fun v => ?_⟩
        · rw [List.filter_cons, if_pos ha, List.length_cons, hcount]
          omega
        · simp only [replaceArg, ha, hk, Bool.not_true, Bool.false_eq_true, if_false, hreplace,
            List.cons_append]
    · rw [List.filter_cons, if_neg ha] at h
      obtain ⟨before, b, after, hargs, hb, hcount, hreplace⟩ := ih h
      refine ⟨a :: before, b, after, by rw [hargs]; rfl, hb, ?_, fun v => ?_⟩
      · rw [List.filter_cons, if_neg ha, hcount]
      · rw [Bool.not_eq_true] at ha
        simp only [replaceArg, ha, Bool.not_false, if_true, hreplace, List.cons_append]

theorem exists_focus {messages : List Message}
    (h : k < (messages.flatMap Message.values).length) :
    ∃ F : Focus, ∃ a : Arg, a.required ∧ messages = F.messages a ∧ F.index = k ∧
      ∀ v, replaceValue messages k v = F.messages v := by
  induction messages generalizing k with
  | nil => exact absurd h (Nat.not_lt_zero k)
  | cons m messages ih =>
    by_cases hk : k < m.values.length
    · obtain ⟨args, a, args', hargs, ha, hcount, hreplace⟩ := exists_arg hk
      refine ⟨⟨[], m.address, args, args', messages⟩, a, ha, ?_, ?_, fun v => ?_⟩
      · rw [Focus.messages, Focus.message, ← hargs]
        rfl
      · rw [Focus.index, hcount]
        exact Nat.zero_add k
      · rw [replaceValue, if_pos hk, hreplace]
        rfl
    · rw [List.flatMap_cons, List.length_append] at h
      obtain ⟨F, a, ha, hmessages, hindex, hreplace⟩ := @ih (k - m.values.length) (by omega)
      refine ⟨⟨m :: F.before, F.address, F.args, F.args', F.after⟩, a, ha, ?_, ?_, fun v => ?_⟩
      · rw [hmessages]
        rfl
      · simp only [Focus.index, List.flatMap_cons, List.length_append] at hindex ⊢
        omega
      · rw [replaceValue, if_neg hk, hreplace]
        rfl

theorem Focus.getElem?_values {F : Focus} {a : Arg} (ha : a.required) :
    ((F.messages a).flatMap Message.values)[F.index]? = some a := by
  have hlength : (F.before.flatMap Message.values ++ F.args.filter Arg.required).length =
      F.index := by
    rw [List.length_append, Focus.index]
  rw [Focus.values_eq, ← hlength, List.getElem?_append_right le_rfl, Nat.sub_self, List.filter_cons,
    if_pos ha]
  rfl

theorem Focus.values_set {F : Focus} {a v : Arg} (ha : a.required) (hv : v.required) :
    (F.messages v).flatMap Message.values =
      ((F.messages a).flatMap Message.values).set F.index v := by
  have hlength : (F.before.flatMap Message.values ++ F.args.filter Arg.required).length =
      F.index := by
    rw [List.length_append, Focus.index]
  rw [Focus.values_eq, Focus.values_eq, ← hlength, List.set_append_right _ _ le_rfl, Nat.sub_self,
    List.filter_cons, List.filter_cons, if_pos ha, if_pos hv]
  rfl

end Replace

namespace Stream

section Content

variable {s t : Stream} {messages : List Message} {k : ℕ} {a v : Arg}

theorem Represents.holds_value (h : s.Represents messages)
    (hk : (messages.flatMap Message.values)[k]? = some a) :
    s.buffer.Holds (s.index.slots (2 + k)) a.encode := by
  obtain ⟨hlt, -⟩ := List.getElem?_eq_some_iff.mp hk
  obtain ⟨F, b, hb, hmessages, hindex, -⟩ := exists_focus hlt
  subst hmessages hindex
  rw [Focus.getElem?_values hb] at hk
  cases hk
  rw [(h.layout.placed hb).pos_eq]
  exact (Focus.holds_body.mp h.layout.body).2.2.1

/-- The recorded lengths, the octets and the pointers of two streams are the same. -/
structure SamePacket (s t : Stream) (messages : List Message) : Prop where
  messageLength : s.messageLength = t.messageLength
  messageOctets : s.messageOctets = t.messageOctets
  free : s.index.slots 1 = t.index.slots 1
  /-- The pointers to the values and the last slot. -/
  pointers : ∀ k ≤ (messages.flatMap Message.values).length,
    s.index.slots (2 + k) = t.index.slots (2 + k)
  /-- The sizes in a bundle with two or more messages. -/
  elements : messages.length ≠ 1 → s.buffer.Holds (-4) (elements messages) ∧
    t.buffer.Holds (-4) (Osc.elements messages)

theorem Written.messageOctets_drop (h : s.Written messages) (hne : messages ≠ []) :
    s.messageOctets = (Osc.elements messages).drop 4 := by
  have hlength := h.length
  have hbody := h.layout.body
  have hfour : 4 ≤ (Osc.elements messages).length := by
    cases messages with
    | nil => exact absurd rfl hne
    | cons m more =>
      rw [elements_cons, List.length_append, length_element]
      omega
  have hsize : ((Osc.elements messages).drop 4).length = s.messageLength := by
    rw [stop] at hlength
    rw [List.length_drop]
    omega
  rw [messageOctets, ← hsize]
  exact hbody.read_eq

theorem Written.samePacket (h : s.Written messages) (h' : t.Written messages) (hne : messages ≠ [])
    (helements : messages.length ≠ 1 → s.buffer.Holds (-4) (Osc.elements messages))
    (helements' : messages.length ≠ 1 → t.buffer.Holds (-4) (Osc.elements messages)) :
    SamePacket s t messages := by
  refine ⟨?_, ?_, ?_, ?_, fun hmore => ⟨helements hmore, helements' hmore⟩⟩
  · have hlength := h.length.trans h'.length.symm
    exact_mod_cast hlength
  · rw [h.messageOctets_drop hne, h'.messageOctets_drop hne]
  · rw [h.layout.free, h'.layout.free]
  · intro k hk
    have hpointers := h.layout.pointers
    have hpointers' := h'.layout.pointers
    have hlt : k < (pointers (-4) messages ++ [stop messages]).length := by
      rw [List.length_append, length_pointers, List.length_singleton]
      omega
    rw [hpointers k hlt, hpointers' k hlt]

def build (s : Stream) : List Message → Option Stream
  | [] => none
  | [m] => s.writeMessage m
  | m :: m' :: more => s.bundle m (m' :: more)

/-- The types and the values of the messages are within the limits of the writers. -/
def Buildable (maxValues : ℕ) : List Message → Prop
  | [] => False
  | m :: more => m.types.length ≤ maxValues ∧ Appendable maxValues [m] more

theorem build_eq (hbound : s.bufferSize + 4 < 0x80000000) (hbuild : Buildable s.maxValues messages)
    (hfits : stop messages ≤ s.bufferSize) :
    ∃ t, s.build messages = some t ∧ t.Written messages ∧
      (messages.length ≠ 1 → t.buffer.Holds (-4) (elements messages)) := by
  match messages with
  | [] => exact hbuild.elim
  | [m] =>
    have hle : m.encode.length ≤ s.bufferSize := by
      rw [stop_singleton] at hfits
      omega
    obtain ⟨t, hwrite, hwritten, -, -⟩ := writeMessage_eq hbound hbuild.1 hle
    exact ⟨t, hwrite, hwritten, fun hone => absurd rfl hone⟩
  | m :: m' :: more =>
    obtain ⟨t, hwrite, hbundled, -⟩ :=
      bundle_eq hbound (List.cons_ne_nil _ _) hbuild.1 hbuild.2 hfits
    exact ⟨t, hwrite, hbundled.toWritten, fun _ => hbundled.elements⟩

/-- A new value of a message leaves the stream that the writers leave from the start. -/
theorem setValue_eq_build (h : s.Written messages)
    (hk : (messages.flatMap Message.values)[k]? = some a) (htag : v.tag = a.tag)
    (hbuild : Buildable s.maxValues (replaceValue messages k v))
    (hfits : stop (replaceValue messages k v) ≤ s.bufferSize) :
    ∃ s' t, s.setValue k v false = some s' ∧ s.build (replaceValue messages k v) = some t ∧
      s'.Written (replaceValue messages k v) ∧ SamePacket s' t (replaceValue messages k v) ∧
      ∀ j b, j ≠ k → (messages.flatMap Message.values)[j]? = some b →
        s.buffer.Holds (s.index.slots (2 + j)) b.encode ∧
        s'.buffer.Holds (s'.index.slots (2 + j)) b.encode := by
  obtain ⟨hlt, -⟩ := List.getElem?_eq_some_iff.mp hk
  obtain ⟨F, b, hb, hmessages, hindex, hreplace⟩ := exists_focus hlt
  subst hmessages hindex
  rw [Focus.getElem?_values hb] at hk
  cases hk
  have hv : v.required := by
    rw [Arg.required, htag]
    exact hb
  obtain ⟨t, hbuilt, hwritten, helements⟩ := build_eq h.bound hbuild hfits
  rw [hreplace] at hfits hwritten helements hbuilt ⊢
  have hlast : (s.singleMessage || false) = true → F.after = [] := by
    intro hsingle
    rw [Bool.or_false] at hsingle
    exact (h.toRepresents.alone hsingle).2
  have hsize : (elements (F.messages v)).length ≤ s.bufferSize + 4 := by
    rw [stop] at hfits
    omega
  obtain ⟨s', hset, hrep, hkept⟩ := h.toRepresents.setValue hb htag hlast hsize
  have hwritten' : s'.Written (F.messages v) := by
    refine ⟨hrep, ?_⟩
    rcases hkept.length with hnew | ⟨hsame, hstop⟩
    · exact hnew
    · rw [hsame, hstop]
      exact h.length
  have hne : F.messages v ≠ [] := by
    rw [Focus.messages]
    exact List.append_ne_nil_of_right_ne_nil _ (List.cons_ne_nil _ _)
  have helements' : (F.messages v).length ≠ 1 → s'.buffer.Holds (-4) (elements (F.messages v)) := by
    intro hmore
    apply hrep.sizes
    by_contra hsingle
    rw [Bool.not_eq_false] at hsingle
    exact hmore (hrep.single hsingle)
  refine ⟨s', t, hset, hbuilt, hwritten', hwritten'.samePacket hwritten hne helements' helements, ?_⟩
  intro j c hj hc
  refine ⟨h.toRepresents.holds_value hc, hrep.holds_value ?_⟩
  rw [Focus.values_set hb hv, List.getElem?_set_ne (Ne.symm hj)]
  exact hc

theorem setValue_eq_build_longer : ∃ s s', outputStream.writeMessage
      ⟨⟨"/a".toList.map ascii, by decide⟩, [.string ⟨"abc".toList.map ascii, by decide⟩, .int32 7]⟩ =
        some s ∧
    s.setValue 0 (.string ⟨"abcdef".toList.map ascii, by decide⟩) false = some s' ∧
    s'.messageOctets =
      [47, 97, 0, 0, 44, 115, 105, 0, 97, 98, 99, 100, 101, 102, 0, 0, 0, 0, 0, 7] := by
  have hopened : outputStream.Opened := openStream_opened _ _ _ (by decide) _ _ _ _
  let m : Message := ⟨⟨"/a".toList.map ascii, by decide⟩,
    [.string ⟨"abc".toList.map ascii, by decide⟩, .int32 7]⟩
  let v : Arg := .string ⟨"abcdef".toList.map ascii, by decide⟩
  obtain ⟨s, hwrite, hwritten, -, hframe⟩ :=
    @writeMessage_eq outputStream m hopened.bound (by decide) (by decide)
  have hbuild : Buildable s.maxValues (replaceValue [m] 0 v) := by
    rw [hframe.maxValues]
    exact ⟨by decide, trivial⟩
  have hfits : stop (replaceValue [m] 0 v) ≤ s.bufferSize := by
    rw [hframe.bufferSize]
    decide
  obtain ⟨s', t, hset, -, hwritten', -, -⟩ :=
    setValue_eq_build (k := 0) (v := v) hwritten rfl rfl hbuild hfits
  refine ⟨s, s', hwrite, hset, ?_⟩
  rw [hwritten'.messageOctets_drop (by decide)]
  decide

end Content

end Stream

end Incudine.Osc

import Incudine.OscReserve

/-!
# The layout of the messages

The buffer holds the messages and the vectors hold the pointers to the values and their types. A
new value keeps the layout, with the other values where they are in a new message.
-/

namespace Incudine.Osc

open Octets

/-- The pointers to the required values of arguments from the address `a` on. -/
def argPointers (a : ℤ) : List Arg → List ℤ
  | [] => []
  | arg :: args =>
    (if arg.required then [a] else []) ++ argPointers (a + arg.encode.length) args

/-- The pointers to the required values of the elements from the address `a` on. -/
def pointers (a : ℤ) : List Message → List ℤ
  | [] => []
  | m :: messages =>
    argPointers (a + 4 + m.head.length) m.args ++ pointers (a + (element m).length) messages

def stop (messages : List Message) : ℤ := (elements messages).length - 4

/-- The buffer holds the messages, the size of the first one apart. -/
structure Layout (mem : Memory) (x : Index) (messages : List Message) : Prop where
  body : mem.Holds 0 ((elements messages).drop 4)
  pointers : x.slots.Holds 2 (pointers (-4) messages ++ [stop messages])
  free : x.slots 1 = stop messages
  types : x.tbuf.Holds 1 ((messages.flatMap Message.values).map Arg.tag)

section Pointers

variable {a d : ℤ} {args args' : List Arg} {messages messages' : List Message}

theorem argPointers_append : argPointers a (args ++ args') =
    argPointers a args ++ argPointers (a + (args.flatMap Arg.encode).length) args' := by
  induction args generalizing a with
  | nil => simp [argPointers]
  | cons arg args ih =>
    rw [List.cons_append, argPointers, argPointers, ih, List.append_assoc, List.flatMap_cons,
      List.length_append, Nat.cast_add, add_assoc]

theorem argPointers_add : argPointers (a + d) args = (argPointers a args).map (· + d) := by
  induction args generalizing a with
  | nil => rfl
  | cons arg args ih =>
    rw [argPointers, argPointers, List.map_append, add_right_comm, ih]
    split <;> rfl

theorem length_argPointers : (argPointers a args).length = (args.filter Arg.required).length := by
  induction args generalizing a with
  | nil => rfl
  | cons arg args ih =>
    rw [argPointers, List.length_append, ih, List.filter_cons]
    split
    · simp only [List.length_cons, List.length_nil]
      omega
    · rw [List.length_nil, Nat.zero_add]

theorem argPointers_lt {p : ℤ} (h : p ∈ argPointers a args) :
    a ≤ p ∧ p < a + (args.flatMap Arg.encode).length := by
  induction args generalizing a with
  | nil => cases h
  | cons arg args ih =>
    rw [argPointers, List.mem_append] at h
    rw [List.flatMap_cons, List.length_append]
    push_cast
    rcases h with h | h
    · by_cases hrequired : arg.required
      · rw [if_pos hrequired, List.mem_singleton] at h
        have hlength := arg.length_encode.2 hrequired
        omega
      · rw [if_neg hrequired] at h
        cases h
    · have hrest := ih h
      omega

theorem exists_argPointers_append :
    ∃ rest, argPointers a args ++ [a + (args.flatMap Arg.encode).length] = a :: rest := by
  induction args generalizing a with
  | nil => exact ⟨[], by simp [argPointers]⟩
  | cons arg args ih =>
    rw [argPointers, List.flatMap_cons, List.length_append, Nat.cast_add, ← add_assoc]
    by_cases hrequired : arg.required
    · rw [if_pos hrequired]
      exact ⟨_, rfl⟩
    · rw [if_neg hrequired, Arg.encode_of_not_required hrequired]
      simpa using ih

theorem pointers_append : pointers a (messages ++ messages') =
    pointers a messages ++ pointers (a + (elements messages).length) messages' := by
  induction messages generalizing a with
  | nil => simp [pointers]
  | cons m messages ih =>
    rw [List.cons_append, pointers, pointers, ih, List.append_assoc, elements_cons,
      List.length_append, Nat.cast_add, ← add_assoc a (element m).length]

theorem pointers_add : pointers (a + d) messages = (pointers a messages).map (· + d) := by
  induction messages generalizing a with
  | nil => rfl
  | cons m messages ih =>
    have hargs : a + d + 4 + (m.head.length : ℤ) = a + 4 + m.head.length + d := by ring
    rw [pointers, pointers, List.map_append, ← argPointers_add, ← ih, hargs, add_right_comm a d]

theorem length_pointers :
    (pointers a messages).length = (messages.flatMap Message.values).length := by
  induction messages generalizing a with
  | nil => rfl
  | cons m messages ih =>
    rw [pointers, List.length_append, length_argPointers, ih, List.flatMap_cons,
      List.length_append, Message.values]

theorem pointers_lt {p : ℤ} (h : p ∈ pointers a messages) :
    p < a + (elements messages).length := by
  induction messages generalizing a with
  | nil => cases h
  | cons m messages ih =>
    rw [pointers, List.mem_append] at h
    rw [elements_cons, List.length_append]
    push_cast
    rcases h with h | h
    · have hlt := (argPointers_lt h).2
      rw [length_element, Message.encode, List.length_append]
      push_cast
      omega
    · have hrest := ih h
      omega

end Pointers

/-- The place of an argument in the messages. -/
structure Focus where
  before : List Message
  address : CString
  args : List Arg
  args' : List Arg
  after : List Message

namespace Focus

variable (F : Focus) (a : Arg)

def message : Message := ⟨F.address, F.args ++ a :: F.args'⟩

def messages : List Message := F.before ++ F.message a :: F.after

/-- The index of the argument among the required values. -/
def index : ℕ := (F.before.flatMap Message.values).length + (F.args.filter Arg.required).length

/-- The octets between the size of the message and the value. -/
def front : List Octet := (F.message a).head ++ F.args.flatMap Arg.encode

def tail : List Octet := F.args'.flatMap Arg.encode ++ elements F.after

def pos : ℤ := (elements F.before).length + (F.front a).length

/-- The pointers to the values after one that ends at `p`. -/
def later (p : ℤ) : List ℤ :=
  argPointers p F.args' ++ pointers (p + (F.args'.flatMap Arg.encode).length) F.after

variable {F a}

theorem element_eq : element (F.message a) =
    bigEndian 4 (F.message a).encode.length ++ (F.front a ++ (a.encode ++ F.args'.flatMap Arg.encode)) := by
  rw [element, front, Message.encode]
  congr 1
  rw [message, List.flatMap_append, List.flatMap_cons, List.append_assoc]

theorem elements_eq : elements (F.messages a) =
    elements F.before ++ (bigEndian 4 (F.message a).encode.length ++
      (F.front a ++ (a.encode ++ F.tail))) := by
  rw [messages, elements_append, elements_cons, element_eq, tail]
  simp only [List.append_assoc]

theorem stop_eq : stop (F.messages a) = F.pos a + a.encode.length + F.tail.length := by
  rw [stop, elements_eq, pos]
  simp only [List.length_append, length_bigEndian]
  push_cast
  ring

theorem pointers_eq (h : a.required) : pointers (-4) (F.messages a) =
    (pointers (-4) F.before ++
      argPointers (-4 + (elements F.before).length + 4 + (F.message a).head.length) F.args) ++
      F.pos a :: F.later (F.pos a + a.encode.length) := by
  have hpos : -4 + (elements F.before).length + 4 + ((F.message a).head.length : ℤ) +
      (F.args.flatMap Arg.encode).length = F.pos a := by
    rw [pos, front, List.length_append]
    push_cast
    ring
  have hafter : -4 + ((elements F.before).length : ℤ) + (element (F.message a)).length =
      F.pos a + a.encode.length + (F.args'.flatMap Arg.encode).length := by
    rw [element_eq, pos]
    simp only [List.length_append, length_bigEndian]
    push_cast
    ring
  have hargs : (F.message a).args = F.args ++ a :: F.args' := rfl
  rw [messages, pointers_append, pointers, hargs, argPointers_append, argPointers, if_pos h, hpos,
    hafter, later]
  simp only [List.append_assoc, List.cons_append, List.nil_append]

theorem index_eq : (pointers (-4) F.before ++
    argPointers (-4 + (elements F.before).length + 4 + (F.message a).head.length) F.args).length =
      F.index := by
  rw [List.length_append, length_pointers, length_argPointers, index]

theorem later_add (p d : ℤ) : F.later (p + d) = (F.later p).map (· + d) := by
  rw [later, later, List.map_append, ← argPointers_add, ← pointers_add, add_right_comm]

theorem later_lt {p q : ℤ} (h : q ∈ F.later p) : q < p + F.tail.length := by
  rw [later, List.mem_append] at h
  rw [tail, List.length_append]
  push_cast
  rcases h with h | h
  · have hlt := (argPointers_lt h).2
    omega
  · have hlt := pointers_lt h
    omega

theorem length_tail_mod : F.tail.length % 4 = 0 := by
  have hargs := length_flatMap_encode_mod F.args'
  have hafter : (elements F.after).length % 4 = 0 := length_elements_mod F.after
  rw [tail, List.length_append]
  omega

theorem front_congr {a' : Arg} (h : a'.tag = a.tag) : F.front a' = F.front a := by
  simp only [front, message, Message.head, Message.types, List.map_append, List.map_cons, h]

theorem pos_congr {a' : Arg} (h : a'.tag = a.tag) : F.pos a' = F.pos a := by
  rw [pos, pos, front_congr h]

theorem values_eq : (F.messages a).flatMap Message.values =
    F.before.flatMap Message.values ++ F.args.filter Arg.required ++
      ((a :: F.args').filter Arg.required ++ F.after.flatMap Message.values) := by
  rw [messages, List.flatMap_append, List.flatMap_cons, Message.values, message,
    List.filter_append]
  simp only [List.append_assoc]

theorem tags_congr {a' : Arg} (h : a'.tag = a.tag) :
    ((F.messages a').flatMap Message.values).map Arg.tag =
      ((F.messages a).flatMap Message.values).map Arg.tag := by
  have hrequired : a'.required = a.required := by rw [Arg.required, Arg.required, h]
  rw [values_eq, values_eq, List.filter_cons, List.filter_cons, hrequired]
  split
  · simp only [List.map_append, List.map_cons, h]
  · rfl

end Focus

section Update

variable {mem mem' : Memory} {x : Index} {data' : Cells ℤ} {F : Focus} {a a' : Arg}

theorem Focus.holds_front : mem.Holds (elements F.before).length
      (F.front a ++ (a.encode ++ F.tail)) ↔
    mem.Holds (elements F.before).length (F.front a) ∧ mem.Holds (F.pos a) a.encode ∧
      mem.Holds (F.pos a + a.encode.length) F.tail := by
  rw [Cells.holds_append, Cells.holds_append]
  rfl

theorem Focus.holds_body : mem.Holds 0 ((elements (F.messages a)).drop 4) ↔
    mem.Holds 0 ((elements F.before ++ bigEndian 4 (F.message a).encode.length).drop 4) ∧
      mem.Holds (elements F.before).length (F.front a) ∧ mem.Holds (F.pos a) a.encode ∧
      mem.Holds (F.pos a + a.encode.length) F.tail := by
  have hlength : (elements F.before ++ bigEndian 4 (F.message a).encode.length).length =
      (elements F.before).length + 4 := by
    rw [List.length_append, length_bigEndian]
  rw [Focus.elements_eq, ← List.append_assoc, List.drop_append_of_le_length (by omega),
    Cells.holds_append, List.length_drop, hlength, Nat.add_sub_cancel, zero_add,
    Focus.holds_front]

theorem Focus.holds_elements : mem.Holds (-4) (elements (F.messages a)) ↔
    mem.Holds (-4) (elements F.before ++ bigEndian 4 (F.message a).encode.length) ∧
      mem.Holds (elements F.before).length (F.front a) ∧ mem.Holds (F.pos a) a.encode ∧
      mem.Holds (F.pos a + a.encode.length) F.tail := by
  have hlength : (-4 : ℤ) +
      (elements F.before ++ bigEndian 4 (F.message a).encode.length).length =
        (elements F.before).length := by
    rw [List.length_append, length_bigEndian]
    push_cast
    ring
  rw [Focus.elements_eq, ← List.append_assoc, Cells.holds_append, hlength, Focus.holds_front]

theorem Layout.placed (h : Layout mem x (F.messages a)) (ha : a.required) :
    Placed mem x.slots (2 + F.index) (F.pos a) a.encode.length F.tail
      (F.later (F.pos a + a.encode.length)) := by
  have hpointers := h.pointers
  rw [Focus.pointers_eq ha, List.append_assoc, Cells.holds_append, Focus.index_eq,
    List.cons_append, Cells.holds_cons, Focus.stop_eq] at hpointers
  obtain ⟨-, hpos, hlater⟩ := hpointers
  have hfree := h.free
  rw [Focus.stop_eq] at hfree
  exact ⟨by omega, hpos, a.length_encode.1, (Focus.holds_body.mp h.body).2.2.2,
    Focus.length_tail_mod, fun p hp => Focus.later_lt hp, hlater, hfree⟩

theorem Layout.update (h : Layout mem x (F.messages a)) (ha : a.required) (htag : a'.tag = a.tag)
    (hdata : Repointed x.slots data' (2 + F.index) (F.pos a) a.encode.length a'.encode.length
      F.tail (F.later (F.pos a + a.encode.length)))
    (hsizes : mem'.Holds 0
      ((elements F.before ++ bigEndian 4 (F.message a').encode.length).drop 4))
    (hfront : mem'.Holds (elements F.before).length (F.front a))
    (hvalue : mem'.Holds (F.pos a) a'.encode)
    (htail : mem'.Holds (F.pos a + a'.encode.length) F.tail) :
    Layout mem' { x with slots := data' } (F.messages a') := by
  have hrequired : a'.required := by rw [Arg.required, htag]; exact ha
  have hstop : stop (F.messages a') = F.pos a + a'.encode.length + F.tail.length := by
    rw [Focus.stop_eq, Focus.pos_congr htag]
  constructor
  · rw [Focus.holds_body, Focus.front_congr htag, Focus.pos_congr htag]
    exact ⟨hsizes, hfront, hvalue, htail⟩
  · have hpointers := h.pointers
    rw [Focus.pointers_eq ha, List.append_assoc, Cells.holds_append, Focus.index_eq,
      List.cons_append, Cells.holds_cons] at hpointers
    have hhead : (F.message a').head = (F.message a).head := by
      simp only [Focus.message, Message.head, Message.types, List.map_append, List.map_cons, htag]
    have hlater : F.later (F.pos a + a'.encode.length) =
        (F.later (F.pos a + a.encode.length)).map
          (· + ((a'.encode.length : ℤ) - a.encode.length)) := by
      rw [← Focus.later_add]
      congr 1
      ring
    rw [Focus.pointers_eq hrequired, hhead, Focus.pos_congr htag, List.append_assoc,
      Cells.holds_append, Focus.index_eq, List.cons_append, Cells.holds_cons, hlater, hstop]
    refine ⟨?_, ?_, hdata.pointers⟩
    · apply hpointers.1.congr
      intro k hk hk'
      rw [Focus.index_eq] at hk'
      exact hdata.same k (by omega) (by omega)
    · exact (hdata.same _ (by omega) le_rfl).trans hpointers.2.1
  · rw [hstop]
    exact hdata.free
  · rw [Focus.tags_congr htag]
    exact h.types

end Update

end Incudine.Osc

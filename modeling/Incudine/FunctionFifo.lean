import Incudine.CircularArray
import Mathlib.Data.List.Basic

/-!
# Lock-free FIFO

A bounded queue of functions with a producer and a consumer, in an array whose size is a power of
two. The store, the update of the write head, the load and the update of the read head are separate
steps. The attempts, the published and the executed functions are the history of a run.
-/

namespace Incudine.FunctionFifo

open CircularArray

variable {α : Type*}

def nextPowerOfTwo (n : ℕ) : ℕ := 1 <<< (n - 1).size

structure Fifo (α : Type*) where
  items : ℕ → α
  readHead : ℕ
  writeHead : ℕ
  bufferSize : ℕ
  mask : ℕ

def makeFifo (identity : α) (bufferSize : ℕ) : Fifo α where
  items _ := identity
  readHead := 0
  writeHead := 0
  bufferSize := nextPowerOfTwo bufferSize
  mask := nextPowerOfTwo bufferSize - 1

namespace Fifo

variable (fifo : Fifo α)

def headNext (head : ℕ) : ℕ := (head + 1) &&& fifo.mask

def setValue (next : ℕ) (value : α) : Fifo α :=
  { fifo with items := Function.update fifo.items next value }

def setWriteHead (next : ℕ) : Fifo α := { fifo with writeHead := next }

def setReadHead (next : ℕ) : Fifo α := { fifo with readHead := next }

end Fifo

/-- The steps of `enqueue` after the test of the read head. -/
inductive Producer (α : Type*) where
  | idle
  | store (next : ℕ) (value : α)
  | publish (next : ℕ) (value : α)

/-- The steps of `fifo-perform-functions`. -/
inductive Consumer (α : Type*) where
  | idle
  | test
  | read (next : ℕ)
  | advance (next : ℕ) (fn : α)
  | call (fn : α)

def Producer.inHand : Producer α → List α
  | idle => []
  | store _ value | publish _ value => [value]

def Consumer.inHand : Consumer α → List α
  | idle | test | read _ | advance _ _ => []
  | call fn => [fn]

structure State (α : Type*) where
  fifo : Fifo α
  producer : Producer α
  consumer : Consumer α
  attempts : List (α × Bool)
  published : List α
  executed : List α

inductive Action (α : Type*) where
  | refuse (value : α)
  | accept (value : α)
  | store
  | publish
  | start
  | finish
  | more
  | read
  | advance
  | call

def Action.OfConsumer : Action α → Prop
  | refuse _ | accept _ | store | publish => False
  | start | finish | more | read | advance | call => True

namespace State

variable (s : State α)

def initial (identity : α) (bufferSize : ℕ) : State α :=
  ⟨makeFifo identity bufferSize, .idle, .idle, [], [], []⟩

/-- The functions of the attempts that are not refused. -/
def accepted : List α := (s.attempts.filter Prod.snd).map Prod.fst

def taken : List α := s.executed ++ s.consumer.inHand

/-- The functions published and not taken yet. -/
def pending : List α := s.published.drop s.taken.length

end State

inductive Step : State α → Action α → State α → Prop
  | refuse {s : State α} (value : α) (hproducer : s.producer = .idle)
      (hfull : s.fifo.headNext s.fifo.writeHead = s.fifo.readHead) :
      Step s (.refuse value) { s with attempts := s.attempts ++ [(value, false)] }
  | accept {s : State α} (value : α) (hproducer : s.producer = .idle)
      (hspace : s.fifo.headNext s.fifo.writeHead ≠ s.fifo.readHead) :
      Step s (.accept value) { s with
        attempts := s.attempts ++ [(value, true)]
        producer := .store (s.fifo.headNext s.fifo.writeHead) value }
  | store {s : State α} {next : ℕ} {value : α} (hproducer : s.producer = .store next value) :
      Step s .store { s with
        fifo := s.fifo.setValue next value
        producer := .publish next value }
  | publish {s : State α} {next : ℕ} {value : α} (hproducer : s.producer = .publish next value) :
      Step s .publish { s with
        fifo := s.fifo.setWriteHead next
        producer := .idle
        published := s.published ++ [value] }
  | start {s : State α} (hconsumer : s.consumer = .idle) :
      Step s .start { s with consumer := .test }
  | finish {s : State α} (hconsumer : s.consumer = .test)
      (hempty : s.fifo.readHead = s.fifo.writeHead) :
      Step s .finish { s with consumer := .idle }
  | more {s : State α} (hconsumer : s.consumer = .test)
      (hmore : s.fifo.readHead ≠ s.fifo.writeHead) :
      Step s .more { s with consumer := .read (s.fifo.headNext s.fifo.readHead) }
  | read {s : State α} {next : ℕ} (hconsumer : s.consumer = .read next) :
      Step s .read { s with consumer := .advance next (s.fifo.items next) }
  | advance {s : State α} {next : ℕ} {fn : α} (hconsumer : s.consumer = .advance next fn) :
      Step s .advance { s with fifo := s.fifo.setReadHead next, consumer := .call fn }
  | call {s : State α} {fn : α} (hconsumer : s.consumer = .call fn) :
      Step s .call { s with consumer := .test, executed := s.executed ++ [fn] }

def Steps (s s' : State α) : Prop := Relation.ReflTransGen (fun s s' => ∃ a, Step s a s') s s'

def ConsumerSteps (s s' : State α) : Prop :=
  Relation.ReflTransGen (fun s s' => ∃ a : Action α, a.OfConsumer ∧ Step s a s') s s'

/-- The heads are two positions modulo the size, and the pending functions are in the slots
between them. -/
structure Fifo.Holds (fifo : Fifo α) (size taken : ℕ) (pending : List α) : Prop where
  pow : ∃ k, size = 2 ^ k
  mask : fifo.mask = size - 1
  readHead : fifo.readHead = taken % size
  writeHead : fifo.writeHead = (taken + pending.length) % size
  lt_size : pending.length < size
  stores : Stores fifo.items size (taken + 1) pending

section Holds

variable {fifo : Fifo α} {size taken : ℕ} {pending : List α}

theorem nextPowerOfTwo_eq (n : ℕ) : nextPowerOfTwo n = 2 ^ (n - 1).size := Nat.one_shiftLeft _

theorem holds_makeFifo (identity : α) (bufferSize : ℕ) :
    (makeFifo identity bufferSize).Holds (nextPowerOfTwo bufferSize) 0 [] := by
  have hsize := nextPowerOfTwo_eq bufferSize
  have hpos : 0 < nextPowerOfTwo bufferSize := hsize ▸ Nat.two_pow_pos _
  exact ⟨⟨_, hsize⟩, rfl, (Nat.zero_mod _).symm, (Nat.zero_mod _).symm, hpos, trivial⟩

section

variable (h : fifo.Holds size taken pending)
include h

theorem Fifo.Holds.headNext_eq (n : ℕ) : fifo.headNext (n % size) = (n + 1) % size := by
  obtain ⟨k, hk⟩ := h.pow
  rw [Fifo.headNext, h.mask, and_mask hk, Nat.mod_add_mod]

theorem Fifo.Holds.full_iff :
    fifo.headNext fifo.writeHead = fifo.readHead ↔ pending.length = size - 1 := by
  have hlt := h.lt_size
  rw [h.writeHead, h.headNext_eq, h.readHead]
  constructor
  · intro heq
    by_contra hne
    exact slot_ne (by omega) (by omega) heq.symm
  · intro heq
    rw [heq, Nat.add_assoc, Nat.sub_add_cancel (by omega), Nat.add_mod_right]

theorem Fifo.Holds.empty_iff : fifo.readHead = fifo.writeHead ↔ pending = [] := by
  have hlt := h.lt_size
  rw [h.readHead, h.writeHead]
  constructor
  · intro heq
    by_contra hne
    have hpos := List.length_pos_iff.mpr hne
    exact slot_ne (by omega) (by omega) heq
  · intro heq
    rw [heq, List.length_nil, Nat.add_zero]

theorem Fifo.Holds.setValue (hlt : pending.length + 1 < size) (value : α) :
    (fifo.setValue (fifo.headNext fifo.writeHead) value).Holds size taken pending where
  pow := h.pow
  mask := h.mask
  readHead := h.readHead
  writeHead := h.writeHead
  lt_size := h.lt_size
  stores := by
    rw [h.writeHead, h.headNext_eq]
    exact h.stores.update (by omega) (by omega) value

theorem Fifo.Holds.setWriteHead (hlt : pending.length + 1 < size) {value : α}
    (hvalue : fifo.items (fifo.headNext fifo.writeHead) = value) :
    (fifo.setWriteHead (fifo.headNext fifo.writeHead)).Holds size taken (pending ++ [value]) where
  pow := h.pow
  mask := h.mask
  readHead := h.readHead
  writeHead := by
    rw [Fifo.setWriteHead, List.length_append, List.length_singleton, h.writeHead, h.headNext_eq,
      Nat.add_assoc]
  lt_size := by rw [List.length_append, List.length_singleton]; exact hlt
  stores := by
    rw [h.writeHead, h.headNext_eq] at hvalue
    refine stores_append.mpr ⟨h.stores, ?_, trivial⟩
    rw [Nat.add_right_comm]
    exact hvalue

theorem Fifo.Holds.head? (hne : pending ≠ []) :
    pending.head? = some (fifo.items (fifo.headNext fifo.readHead)) := by
  have hpos := List.length_pos_iff.mpr hne
  have hget := h.stores.get hpos
  rw [Nat.add_zero, ← h.headNext_eq, ← h.readHead] at hget
  rw [hget, List.head?_eq_getElem?, List.getElem?_eq_getElem hpos]

theorem Fifo.Holds.setReadHead (hne : pending ≠ []) :
    (fifo.setReadHead (fifo.headNext fifo.readHead)).Holds size (taken + 1) pending.tail where
  pow := h.pow
  mask := h.mask
  readHead := by rw [Fifo.setReadHead, h.readHead, h.headNext_eq]
  writeHead := by
    have hpos := List.length_pos_iff.mpr hne
    have hlen : taken + 1 + pending.tail.length = taken + pending.length := by
      rw [List.length_tail]
      omega
    rw [hlen]
    exact h.writeHead
  lt_size := by
    have := h.lt_size
    rw [List.length_tail]
    omega
  stores := by
    rw [← List.drop_one]
    exact h.stores.drop 1

end

end Holds

def Producer.Ready (size : ℕ) (s : State α) : Producer α → Prop
  | idle => True
  | store next _ => next = s.fifo.headNext s.fifo.writeHead ∧ s.pending.length + 1 < size
  | publish next value => next = s.fifo.headNext s.fifo.writeHead ∧ s.pending.length + 1 < size ∧
      s.fifo.items next = value

def Consumer.Ready (s : State α) : Consumer α → Prop
  | idle | test | call _ => True
  | read next => next = s.fifo.headNext s.fifo.readHead ∧ s.pending ≠ []
  | advance next fn => next = s.fifo.headNext s.fifo.readHead ∧ s.pending.head? = some fn

/-- The buffer holds the functions published and not taken. -/
structure Invariant (size : ℕ) (s : State α) : Prop where
  holds : s.fifo.Holds size s.taken.length s.pending
  history : s.taken ++ s.pending = s.published
  acceptedEq : s.published ++ s.producer.inHand = s.accepted
  producer : s.producer.Ready size s
  consumer : s.consumer.Ready s

section Invariant

variable {size : ℕ} {s s' : State α} {a : Action α}

theorem invariant_initial (identity : α) (bufferSize : ℕ) :
    Invariant (nextPowerOfTwo bufferSize) (.initial identity bufferSize) :=
  ⟨holds_makeFifo identity bufferSize, rfl, rfl, trivial, trivial⟩

theorem Consumer.Ready.congr {c : Consumer α} (h : c.Ready s)
    (hnext : s'.fifo.headNext s'.fifo.readHead = s.fifo.headNext s.fifo.readHead)
    (hpending : s.pending <+: s'.pending) : c.Ready s' := by
  cases c with
  | idle | test | call => trivial
  | read next =>
    refine ⟨h.1.trans hnext.symm, fun hnil => h.2 ?_⟩
    rwa [hnil, List.prefix_nil] at hpending
  | advance next fn =>
    refine ⟨h.1.trans hnext.symm, ?_⟩
    obtain ⟨l, hl⟩ := hpending
    rw [← hl, List.head?_append, h.2]
    rfl

theorem Producer.Ready.congr {p : Producer α} (h : p.Ready size s)
    (hnext : s'.fifo.headNext s'.fifo.writeHead = s.fifo.headNext s.fifo.writeHead)
    (hitems : s'.fifo.items = s.fifo.items) (hpending : s'.pending.length ≤ s.pending.length) :
    p.Ready size s' := by
  cases p with
  | idle => trivial
  | store next value =>
    obtain ⟨hhead, hlt⟩ := h
    exact ⟨hhead.trans hnext.symm, by omega⟩
  | publish next value =>
    obtain ⟨hhead, hlt, hitem⟩ := h
    exact ⟨hhead.trans hnext.symm, by omega, hitems ▸ hitem⟩

theorem State.accepted_refuse (s : State α) (value : α) :
    ({ s with attempts := s.attempts ++ [(value, false)] } : State α).accepted = s.accepted := by
  simp [State.accepted]

section

variable (h : Invariant size s)
include h

theorem Invariant.refuse (value : α) :
    Invariant size { s with attempts := s.attempts ++ [(value, false)] } where
  holds := h.holds
  history := h.history
  acceptedEq := h.acceptedEq.trans (s.accepted_refuse value).symm
  producer := h.producer.congr rfl rfl (Nat.le_refl _)
  consumer := h.consumer.congr rfl (List.prefix_refl _)

theorem Invariant.accept (value : α) (hproducer : s.producer = .idle)
    (hspace : s.fifo.headNext s.fifo.writeHead ≠ s.fifo.readHead) :
    Invariant size { s with
      attempts := s.attempts ++ [(value, true)]
      producer := .store (s.fifo.headNext s.fifo.writeHead) value } where
  holds := h.holds
  history := h.history
  acceptedEq := by
    have hacc := h.acceptedEq
    rw [hproducer, Producer.inHand, List.append_nil] at hacc
    simp [State.accepted, Producer.inHand, hacc]
  producer := by
    have hlt := h.holds.lt_size
    have hfull := h.holds.full_iff.not.mp hspace
    exact ⟨rfl, show s.pending.length + 1 < size by omega⟩
  consumer := h.consumer.congr rfl (List.prefix_refl _)

theorem Invariant.store {next : ℕ} {value : α} (hproducer : s.producer = .store next value) :
    Invariant size { s with
      fifo := s.fifo.setValue next value
      producer := .publish next value } := by
  have hready := h.producer
  rw [hproducer] at hready
  obtain ⟨rfl, hlt⟩ := hready
  exact
    { holds := h.holds.setValue hlt value
      history := h.history
      acceptedEq := by
        have hacc := h.acceptedEq
        rw [hproducer] at hacc
        exact hacc
      producer := ⟨rfl, hlt, Function.update_self _ _ _⟩
      consumer := h.consumer.congr rfl (List.prefix_refl _) }

theorem Invariant.publish {next : ℕ} {value : α} (hproducer : s.producer = .publish next value) :
    Invariant size { s with
      fifo := s.fifo.setWriteHead next
      producer := .idle
      published := s.published ++ [value] } := by
  have hready := h.producer
  rw [hproducer] at hready
  obtain ⟨rfl, hlt, hitem⟩ := hready
  have hlen := congrArg List.length h.history
  rw [List.length_append] at hlen
  set s' : State α := { s with
    fifo := s.fifo.setWriteHead (s.fifo.headNext s.fifo.writeHead)
    producer := .idle
    published := s.published ++ [value] } with hs'
  have hpending : s'.pending = s.pending ++ [value] :=
    List.drop_append_of_le_length (show s.taken.length ≤ s.published.length by omega)
  exact
    { holds := by
        rw [hpending]
        exact h.holds.setWriteHead hlt hitem
      history := by
        rw [hpending, hs', ← h.history, List.append_assoc]
        rfl
      acceptedEq := by
        have hacc := h.acceptedEq
        rw [hproducer, Producer.inHand] at hacc
        rw [hs', Producer.inHand, List.append_nil]
        exact hacc
      producer := trivial
      consumer := h.consumer.congr rfl (hpending ▸ List.prefix_append _ _) }

theorem Invariant.consume {c : Consumer α} {executed : List α}
    (htaken : ({ s with consumer := c, executed := executed } : State α).taken = s.taken)
    (hready : c.Ready s) : Invariant size { s with consumer := c, executed := executed } := by
  have hpending : ({ s with consumer := c, executed := executed } : State α).pending =
      s.pending := by
    rw [State.pending, State.pending, htaken]
  exact
    { holds := by rw [htaken, hpending]; exact h.holds
      history := by rw [htaken, hpending]; exact h.history
      acceptedEq := h.acceptedEq
      producer := h.producer.congr rfl rfl (hpending ▸ Nat.le_refl _)
      consumer := hready.congr rfl (hpending ▸ List.prefix_refl _) }

theorem Invariant.setConsumer {c : Consumer α} (hinHand : s.consumer.inHand = [])
    (hc : c.inHand = []) (hready : c.Ready s) : Invariant size { s with consumer := c } := by
  apply h.consume ?_ hready
  rw [State.taken, State.taken, hc, hinHand]

theorem Invariant.more (hconsumer : s.consumer = .test)
    (hmore : s.fifo.readHead ≠ s.fifo.writeHead) :
    Invariant size { s with consumer := .read (s.fifo.headNext s.fifo.readHead) } := by
  have hinHand : s.consumer.inHand = [] := by rw [hconsumer, Consumer.inHand]
  exact h.setConsumer hinHand rfl ⟨rfl, h.holds.empty_iff.not.mp hmore⟩

theorem Invariant.read {next : ℕ} (hconsumer : s.consumer = .read next) :
    Invariant size { s with consumer := .advance next (s.fifo.items next) } := by
  have hready := h.consumer
  rw [hconsumer] at hready
  obtain ⟨rfl, hne⟩ := hready
  have hinHand : s.consumer.inHand = [] := by rw [hconsumer, Consumer.inHand]
  exact h.setConsumer hinHand rfl ⟨rfl, h.holds.head? hne⟩

theorem Invariant.advance {next : ℕ} {fn : α} (hconsumer : s.consumer = .advance next fn) :
    Invariant size { s with fifo := s.fifo.setReadHead next, consumer := .call fn } := by
  have hready := h.consumer
  rw [hconsumer] at hready
  obtain ⟨rfl, hhead⟩ := hready
  have hne : s.pending ≠ [] := by
    intro hnil
    rw [hnil] at hhead
    cases hhead
  set s' : State α := { s with
    fifo := s.fifo.setReadHead (s.fifo.headNext s.fifo.readHead), consumer := .call fn }
  have hbefore : s.taken = s.executed := by
    rw [State.taken, hconsumer, Consumer.inHand, List.append_nil]
  have htaken : s'.taken = s.taken ++ [fn] := by rw [hbefore]; rfl
  have hlen : s'.taken.length = s.taken.length + 1 := by
    rw [htaken, List.length_append, List.length_singleton]
  have hpending : s'.pending = s.pending.tail := by
    rw [State.pending, hlen, ← List.drop_drop, List.drop_one]
    rfl
  have hcons : s.pending = fn :: s'.pending := by
    rw [hpending]
    exact (List.cons_head?_tail hhead).symm
  exact
    { holds := by
        rw [hlen, hpending]
        exact h.holds.setReadHead hne
      history := by
        rw [htaken, List.append_assoc, List.singleton_append, ← hcons]
        exact h.history
      acceptedEq := h.acceptedEq
      producer := h.producer.congr rfl rfl (by rw [hcons]; exact Nat.le_succ _)
      consumer := trivial }

theorem Invariant.call {fn : α} (hconsumer : s.consumer = .call fn) :
    Invariant size { s with consumer := .test, executed := s.executed ++ [fn] } := by
  apply h.consume (c := .test) ?_ trivial
  rw [State.taken, State.taken, hconsumer]
  exact List.append_nil _

theorem Invariant.step (hstep : Step s a s') : Invariant size s' := by
  cases hstep with
  | refuse value => exact h.refuse value
  | accept value hproducer hspace => exact h.accept value hproducer hspace
  | store hproducer => exact h.store hproducer
  | publish hproducer => exact h.publish hproducer
  | start hconsumer => exact h.setConsumer (by rw [hconsumer, Consumer.inHand]) rfl trivial
  | finish hconsumer => exact h.setConsumer (by rw [hconsumer, Consumer.inHand]) rfl trivial
  | more hconsumer hmore => exact h.more hconsumer hmore
  | read hconsumer => exact h.read hconsumer
  | advance hconsumer => exact h.advance hconsumer
  | call hconsumer => exact h.call hconsumer

theorem Invariant.steps (hsteps : Steps s s') : Invariant size s' := by
  induction hsteps with
  | refl => exact h
  | tail _ hstep ih =>
    obtain ⟨a, hstep⟩ := hstep
    exact ih.step hstep

theorem Invariant.accepted_eq :
    s.executed ++ s.consumer.inHand ++ s.pending ++ s.producer.inHand = s.accepted := by
  rw [← h.acceptedEq, ← h.history, State.taken]

end

theorem ConsumerSteps.one (h : Step s a s') (ha : a.OfConsumer) : ConsumerSteps s s' :=
  Relation.ReflTransGen.single ⟨a, ha, h⟩

theorem ConsumerSteps.steps (h : ConsumerSteps s s') : Steps s s' :=
  Relation.ReflTransGen.mono (fun _ _ ⟨a, _, hstep⟩ => ⟨a, hstep⟩) _ _ h

theorem ConsumerSteps.producer (h : ConsumerSteps s s') :
    s'.published = s.published ∧ s'.attempts = s.attempts := by
  induction h with
  | refl => exact ⟨rfl, rfl⟩
  | tail _ hstep ih =>
    obtain ⟨a, ha, hstep⟩ := hstep
    cases hstep with
    | refuse | accept | store | publish => exact ha.elim
    | start | finish | more | read | advance | call => exact ih

end Invariant

end Incudine.FunctionFifo

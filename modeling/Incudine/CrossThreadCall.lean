import Incudine.FunctionFifo
import Mathlib.Data.List.ReduceOption
import Mathlib.Data.List.Perm.Lattice

/-!
# Calls in the realtime thread from the other threads

A call from a thread that is not realtime passes through two bounded queues. The client puts a relay
in the queue of the fast nrt thread, with a spinlock held; the relay puts the function in the queue
of the realtime thread. The calls are numbered in the order of submission.
-/

set_option linter.unusedSectionVars false

namespace Incudine.CrossThreadCall

open Function FunctionFifo

variable {ι : Type*}

/-- The number of a function for the realtime thread, or any other function. -/
abbrev Call := Option ℕ

/-- The steps of `any-to-rt-funcall` and `rt-eval-with-return` in a client. -/
inductive Client where
  | idle
  | acquire (fn : Call) (returnValueP : Bool)
  | test (fn : Call) (returnValueP : Bool)
  | store (next : ℕ) (fn : Call) (returnValueP : Bool)
  | publish (next : ℕ) (fn : Call) (returnValueP : Bool)
  | release (fn : Call) (returnValueP : Bool)
  | wait (id : ℕ)

inductive FastNrt where
  | idle
  | test
  | read (next : ℕ)
  | call (next : ℕ) (fn : Call)
  | advance (next : ℕ)

inductive Party (ι : Type*) where
  | client (i : ι)
  | fastNrt

/-- The threads and their queues. The fast nrt thread is the producer of the queue `engine` and
the realtime thread is its consumer. -/
structure System (ι : Type*) where
  fromWorld : Fifo Call
  spinlock : Option (Party ι)
  clients : ι → Client
  fastNrt : FastNrt
  engine : FunctionFifo.State Call
  /-- The number of functions taken out of `fromWorld`. -/
  performed : ℕ
  /-- The functions published in `fromWorld` and not taken out yet. -/
  queued : List Call

structure State (ι : Type*) extends System ι where
  calls : ℕ
  /-- The values returned by `any-to-rt-funcall`, where `none` is NIL. -/
  answers : List (ℕ × Option ℕ)
  refused : List ℕ

inductive Action (ι : Type*) where
  | submit (i : ι) (returnValueP : Bool)
  | submitOther (i : ι)
  | acquire (i : ι)
  | test (i : ι)
  | store (i : ι)
  | publish (i : ι)
  | release (i : ι)
  | resume (i : ι)
  | fastAcquire
  | fastRelease
  | fastMore
  | fastRead
  | relay
  | perform
  | fastAdvance
  | otherCall
  | engine

namespace Client

/-- The call that the client has not put in the queue yet. -/
def inHand : Client → Call
  | acquire fn _ | test fn _ | store _ fn _ | publish _ fn _ => fn
  | idle | release _ _ | wait _ => none

def call : Client → Call
  | acquire fn _ | test fn _ | store _ fn _ | publish _ fn _ | release fn _ => fn
  | wait id => some id
  | idle => none

/-- With RETURN-VALUE-P, `rt-eval` waits for the result after `any-to-rt-funcall`. -/
def afterCall : Call → Bool → Client
  | some id, true => wait id
  | _, _ => idle

end Client

def State.initial (worldSize engineSize : ℕ) : State ι where
  fromWorld := makeFifo none worldSize
  spinlock := none
  clients _ := .idle
  fastNrt := .idle
  engine := .initial none engineSize
  performed := 0
  queued := []
  calls := 0
  answers := []
  refused := []

/-- The steps of the queue `engine` after the test of the read head. -/
def Internal : FunctionFifo.Action Call → Prop
  | .refuse _ | .accept _ => False
  | .store | .publish | .start | .finish | .more | .read | .advance | .call => True

variable [DecidableEq ι]

/-- One step of a thread. The value of `any-to-rt-funcall` is NIL also when the function is
refused. -/
inductive Step : State ι → Action ι → State ι → Prop
  | submit {s : State ι} {i : ι} (returnValueP : Bool) (hclient : s.clients i = .idle) :
      Step s (.submit i returnValueP) { s with
        clients := update s.clients i (.acquire (some s.calls) returnValueP)
        calls := s.calls + 1 }
  | submitOther {s : State ι} {i : ι} (hclient : s.clients i = .idle) :
      Step s (.submitOther i) { s with
        clients := update s.clients i (.acquire none false) }
  | acquire {s : State ι} {i : ι} {fn : Call} {returnValueP : Bool}
      (hclient : s.clients i = .acquire fn returnValueP) (hlock : s.spinlock = none) :
      Step s (.acquire i) { s with
        spinlock := some (.client i)
        clients := update s.clients i (.test fn returnValueP) }
  | refuse {s : State ι} {i : ι} {fn : Call} {returnValueP : Bool}
      (hclient : s.clients i = .test fn returnValueP)
      (hfull : s.fromWorld.headNext s.fromWorld.writeHead = s.fromWorld.readHead) :
      Step s (.test i) { s with
        clients := update s.clients i (.release fn returnValueP)
        refused := s.refused ++ fn.toList }
  | accept {s : State ι} {i : ι} {fn : Call} {returnValueP : Bool}
      (hclient : s.clients i = .test fn returnValueP)
      (hspace : s.fromWorld.headNext s.fromWorld.writeHead ≠ s.fromWorld.readHead) :
      Step s (.test i) { s with
        clients := update s.clients i
          (.store (s.fromWorld.headNext s.fromWorld.writeHead) fn returnValueP) }
  | store {s : State ι} {i : ι} {next : ℕ} {fn : Call} {returnValueP : Bool}
      (hclient : s.clients i = .store next fn returnValueP) :
      Step s (.store i) { s with
        fromWorld := s.fromWorld.setValue next fn
        clients := update s.clients i (.publish next fn returnValueP) }
  | publish {s : State ι} {i : ι} {next : ℕ} {fn : Call} {returnValueP : Bool}
      (hclient : s.clients i = .publish next fn returnValueP) :
      Step s (.publish i) { s with
        fromWorld := s.fromWorld.setWriteHead next
        clients := update s.clients i (.release fn returnValueP)
        queued := s.queued ++ [fn] }
  | release {s : State ι} {i : ι} {fn : Call} {returnValueP : Bool}
      (hclient : s.clients i = .release fn returnValueP) :
      Step s (.release i) { s with
        spinlock := none
        clients := update s.clients i (.afterCall fn returnValueP)
        answers := s.answers ++ fn.toList.map fun id => (id, none) }
  | resume {s : State ι} {i : ι} {id : ℕ} (hclient : s.clients i = .wait id)
      (hexecuted : some id ∈ s.engine.executed) :
      Step s (.resume i) { s with clients := update s.clients i .idle }
  | fastAcquire {s : State ι} (hfast : s.fastNrt = .idle) (hproducer : s.engine.producer = .idle)
      (hlock : s.spinlock = none) :
      Step s .fastAcquire { s with spinlock := some .fastNrt, fastNrt := .test }
  | fastRelease {s : State ι} (hfast : s.fastNrt = .test)
      (hempty : s.fromWorld.readHead = s.fromWorld.writeHead) :
      Step s .fastRelease { s with spinlock := none, fastNrt := .idle }
  | fastMore {s : State ι} (hfast : s.fastNrt = .test)
      (hmore : s.fromWorld.readHead ≠ s.fromWorld.writeHead) :
      Step s .fastMore { s with
        fastNrt := .read (s.fromWorld.headNext s.fromWorld.readHead) }
  | fastRead {s : State ι} {next : ℕ} (hfast : s.fastNrt = .read next) :
      Step s .fastRead { s with fastNrt := .call next (s.fromWorld.items next) }
  | relayAccept {s : State ι} {next id : ℕ} {engine : FunctionFifo.State Call}
      (hfast : s.fastNrt = .call next (some id))
      (hengine : FunctionFifo.Step s.engine (.accept (some id)) engine) :
      Step s .relay { s with fastNrt := .advance next, engine }
  | relayRefuse {s : State ι} {next id : ℕ} {engine : FunctionFifo.State Call}
      (hfast : s.fastNrt = .call next (some id))
      (hengine : FunctionFifo.Step s.engine (.refuse (some id)) engine) :
      Step s .relay { s with fastNrt := .advance next, engine, refused := s.refused ++ [id] }
  | perform {s : State ι} {next : ℕ} (hfast : s.fastNrt = .call next none) :
      Step s .perform { s with fastNrt := .advance next }
  | fastAdvance {s : State ι} {next : ℕ} (hfast : s.fastNrt = .advance next)
      (hproducer : s.engine.producer = .idle) :
      Step s .fastAdvance { s with
        fromWorld := s.fromWorld.setReadHead next
        fastNrt := .test
        performed := s.performed + 1
        queued := s.queued.tail }
  | otherCall {s : State ι} {accepted : Bool} {engine : FunctionFifo.State Call}
      (hfast : s.fastNrt = .idle ∨ ∃ next, s.fastNrt = .call next none)
      (hengine : FunctionFifo.Step s.engine
        (if accepted then .accept none else .refuse none) engine) :
      Step s .otherCall { s with engine }
  | engine {s : State ι} {a : FunctionFifo.Action Call} {engine : FunctionFifo.State Call}
      (ha : Internal a) (hengine : FunctionFifo.Step s.engine a engine) :
      Step s .engine { s with engine }

inductive Run (s₀ : State ι) : List (State ι × Action ι) → State ι → Prop
  | nil : Run s₀ [] s₀
  | snoc {path : List (State ι × Action ι)} {s s' : State ι} {a : Action ι}
      (hrun : Run s₀ path s) (hstep : Step s a s') : Run s₀ (path ++ [(s, a)]) s'

namespace State

variable (s : State ι)

/-- The functions of the first queue that are not passed on. -/
def unrelayed : List Call :=
  match s.fastNrt with
  | .advance _ => s.queued.tail
  | _ => s.queued

/-- The calls that left the hands of their clients. -/
def placed : List ℕ := s.engine.accepted.reduceOption ++ s.unrelayed.reduceOption ++ s.refused

def executedCalls : List ℕ := s.engine.executed.reduceOption

/-- The functions of the second queue that are not executed. -/
def inEngine : List Call :=
  s.engine.consumer.inHand ++ s.engine.pending ++ s.engine.producer.inHand

/-- The call is on its way to the realtime thread. -/
def InFlight (id : ℕ) : Prop :=
  (∃ i, (s.clients i).inHand = some id) ∨ some id ∈ s.unrelayed ∨ some id ∈ s.inEngine

/-- The submitter gets a value that is not the one of an accepted call. -/
def Told (id : ℕ) : Prop := ∃ value, (id, some value) ∈ s.answers

/-- Every submitted call is executed once or on its way, or its submitter is told that it is not
accepted, and nobody waits for a call that is lost. -/
structure NoLostCall : Prop where
  nodup : s.executedCalls.Nodup
  notTwice : ∀ id ∈ s.executedCalls, ¬ s.InFlight id
  kept : ∀ id < s.calls, id ∈ s.executedCalls ∨ s.InFlight id ∨ s.Told id
  wait : ∀ i id, s.clients i = .wait id → id ∈ s.executedCalls ∨ s.InFlight id

def Fits : Action ι → Prop
  | .test i => (s.clients i).inHand = none ∨
      s.fromWorld.headNext s.fromWorld.writeHead ≠ s.fromWorld.readHead
  | .relay => s.engine.fifo.headNext s.engine.fifo.writeHead ≠ s.engine.fifo.readHead
  | _ => True

end State

/-- The next head of a client that holds the spinlock. -/
def Client.Ready (size : ℕ) (fifo : Fifo Call) (queued : List Call) : Client → Prop
  | store next _ _ => next = fifo.headNext fifo.writeHead ∧ queued.length + 1 < size
  | publish next fn _ => next = fifo.headNext fifo.writeHead ∧ queued.length + 1 < size ∧
      fifo.items next = fn
  | idle | acquire .. | test .. | release .. | wait _ => True

def FastNrt.Ready (fifo : Fifo Call) (queued : List Call) : FastNrt → Prop
  | idle | test => True
  | read next => next = fifo.headNext fifo.readHead ∧ queued ≠ []
  | call next fn => next = fifo.headNext fifo.readHead ∧ queued.head? = some fn
  | advance next => next = fifo.headNext fifo.readHead ∧ queued ≠ []

def Client.Critical : Client → Prop
  | test .. | store .. | publish .. | release .. => True
  | idle | acquire .. | wait _ => False

def FastNrt.Critical : FastNrt → Prop
  | idle => False
  | test | read _ | call .. | advance _ => True

def Party.Critical (clients : ι → Client) (fastNrt : FastNrt) : Party ι → Prop
  | client i => (clients i).Critical
  | .fastNrt => fastNrt.Critical

/-- Both buffers hold their functions and a party in the critical section holds the spinlock. -/
structure System.Safe (worldSize engineSize : ℕ) (m : System ι) : Prop where
  world : m.fromWorld.Holds worldSize m.performed m.queued
  engine : FunctionFifo.Invariant engineSize m.engine
  lock : ∀ p : Party ι, p.Critical m.clients m.fastNrt → m.spinlock = some p
  client : ∀ i, (m.clients i).Ready worldSize m.fromWorld m.queued
  fastNrt : m.fastNrt.Ready m.fromWorld m.queued

variable {fifo : Fifo Call} {queued : List Call}

theorem Client.ready_of_not_critical {size : ℕ} {c : Client} (h : ¬ c.Critical) :
    c.Ready size fifo queued := by
  cases c with
  | idle | acquire | test | release | wait => trivial
  | store | publish => exact absurd trivial h

variable {f : FastNrt}

theorem FastNrt.ready_of_not_critical (h : ¬ f.Critical) : f.Ready fifo queued := by
  cases f with
  | idle | test => trivial
  | read | call | advance => exact absurd trivial h

theorem FastNrt.eq_idle (h : ¬ f.Critical) : f = idle := by
  cases f with
  | idle => rfl
  | test | read | call | advance => exact absurd trivial h

theorem Client.afterCall_not_critical (fn : Call) (returnValueP : Bool) :
    ¬ (afterCall fn returnValueP).Critical := by
  cases fn <;> cases returnValueP <;> exact id

variable {engine : FunctionFifo.State Call} {fn : Call}

section Safe

variable {worldSize engineSize : ℕ} {m : System ι} {i : ι} {c : Client}

theorem Party.critical_update {clients : ι → Client} {p : Party ι}
    (h : p.Critical (update clients i c) f) :
    p = .client i ∧ c.Critical ∨ p ≠ .client i ∧ p.Critical clients f := by
  cases p with
  | fastNrt => exact .inr ⟨nofun, h⟩
  | client j =>
    rw [Party.Critical, update_apply] at h
    split at h
    next hj => exact .inl ⟨hj ▸ rfl, h⟩
    next hj => exact .inr ⟨fun heq => hj (Party.client.inj heq), h⟩

section

variable (h : m.Safe worldSize engineSize)
include h

theorem System.Safe.not_critical {p q : Party ι} (hlock : m.spinlock = some p) (hne : q ≠ p) :
    ¬ q.Critical m.clients m.fastNrt := by
  intro hq
  have heq := hlock.symm.trans (h.lock q hq)
  exact hne (Option.some.inj heq).symm

theorem System.Safe.not_critical_of_free (hlock : m.spinlock = none) (q : Party ι) :
    ¬ q.Critical m.clients m.fastNrt := by
  intro hq
  have heq := hlock.symm.trans (h.lock q hq)
  cases heq

theorem System.Safe.setClient (hc : ¬ c.Critical) :
    { m with clients := update m.clients i c }.Safe worldSize engineSize where
  world := h.world
  engine := h.engine
  lock p hp := by
    obtain ⟨-, hcritical⟩ | ⟨-, hcritical⟩ := Party.critical_update hp
    · exact absurd hcritical hc
    · exact h.lock p hcritical
  client := (forall_update_iff m.clients _).mpr
    ⟨Client.ready_of_not_critical hc, fun j _ => h.client j⟩
  fastNrt := h.fastNrt

theorem System.Safe.clientStep (hlock : m.spinlock = some (.client i))
    (hworld : fifo.Holds worldSize m.performed queued) (hready : c.Ready worldSize fifo queued) :
    { m with
      fromWorld := fifo
      clients := update m.clients i c
      queued := queued }.Safe worldSize engineSize where
  world := hworld
  engine := h.engine
  lock p hp := by
    obtain ⟨heq, -⟩ | ⟨hne, hcritical⟩ := Party.critical_update hp
    · rw [heq]
      exact hlock
    · exact absurd hcritical (h.not_critical hlock hne)
  client := (forall_update_iff m.clients _).mpr
    ⟨hready, fun j hj => Client.ready_of_not_critical
      (h.not_critical hlock fun heq => hj (Party.client.inj heq))⟩
  fastNrt := FastNrt.ready_of_not_critical (h.not_critical (q := .fastNrt) hlock nofun)

theorem System.Safe.fastStep (hlock : m.spinlock = some .fastNrt) {performed : ℕ}
    (hworld : fifo.Holds worldSize performed queued)
    (hengine : FunctionFifo.Invariant engineSize engine) (hready : f.Ready fifo queued) :
    { m with
      fromWorld := fifo
      fastNrt := f
      engine := engine
      performed := performed
      queued := queued }.Safe worldSize engineSize where
  world := hworld
  engine := hengine
  lock p hp := by
    cases p with
    | fastNrt => exact hlock
    | client j => exact absurd hp (h.not_critical (q := .client j) hlock nofun)
  client j := Client.ready_of_not_critical (h.not_critical (q := .client j) hlock nofun)
  fastNrt := hready

theorem System.Safe.acquire (hlock : m.spinlock = none)
    (hready : ∀ fifo queued, c.Ready worldSize fifo queued) :
    { m with
      spinlock := some (.client i)
      clients := update m.clients i c }.Safe worldSize engineSize where
  world := h.world
  engine := h.engine
  lock p hp := by
    obtain ⟨heq, -⟩ | ⟨-, hcritical⟩ := Party.critical_update hp
    · rw [heq]
    · exact absurd hcritical (h.not_critical_of_free hlock p)
  client := (forall_update_iff m.clients _).mpr
    ⟨hready _ _, fun j _ => h.client j⟩
  fastNrt := h.fastNrt

theorem System.Safe.release (hlock : m.spinlock = some (.client i)) (hc : ¬ c.Critical) :
    { m with
      spinlock := none
      clients := update m.clients i c }.Safe worldSize engineSize where
  world := h.world
  engine := h.engine
  lock p hp := by
    obtain ⟨-, hcritical⟩ | ⟨hne, hcritical⟩ := Party.critical_update hp
    · exact absurd hcritical hc
    · exact absurd hcritical (h.not_critical hlock hne)
  client := (forall_update_iff m.clients _).mpr
    ⟨Client.ready_of_not_critical hc, fun j _ => h.client j⟩
  fastNrt := h.fastNrt

theorem System.Safe.fastAcquire (hlock : m.spinlock = none) :
    { m with spinlock := some .fastNrt, fastNrt := .test }.Safe worldSize engineSize where
  world := h.world
  engine := h.engine
  lock p hp := by
    cases p with
    | fastNrt => rfl
    | client j => exact absurd hp (h.not_critical_of_free (q := .client j) hlock)
  client := h.client
  fastNrt := trivial

theorem System.Safe.fastRelease (hlock : m.spinlock = some .fastNrt) :
    { m with spinlock := none, fastNrt := .idle }.Safe worldSize engineSize where
  world := h.world
  engine := h.engine
  lock p hp := by
    cases p with
    | fastNrt => exact hp.elim
    | client j => exact absurd hp (h.not_critical (q := .client j) hlock nofun)
  client := h.client
  fastNrt := trivial

theorem System.Safe.setEngine {a : FunctionFifo.Action Call}
    (hengine : FunctionFifo.Step m.engine a engine) :
    { m with engine := engine }.Safe worldSize engineSize :=
  { h with engine := h.engine.step hengine }

theorem System.Safe.lock_client (hclient : m.clients i = c) (hc : c.Critical) :
    m.spinlock = some (.client i) :=
  h.lock (.client i) (by rw [Party.Critical, hclient]; exact hc)

theorem System.Safe.lock_fastNrt (hfast : m.fastNrt = f) (hf : f.Critical) :
    m.spinlock = some .fastNrt :=
  h.lock .fastNrt (by rw [Party.Critical, hfast]; exact hf)

theorem System.Safe.relay {next : ℕ} (hfast : m.fastNrt = .call next fn)
    (hengine : FunctionFifo.Invariant engineSize engine) :
    { m with fastNrt := .advance next, engine := engine }.Safe worldSize engineSize := by
  have hready := h.fastNrt
  rw [hfast] at hready
  have hne : m.queued ≠ [] := by
    intro hnil
    rw [FastNrt.Ready, hnil] at hready
    cases hready.2
  exact h.fastStep (h.lock_fastNrt hfast trivial) h.world hengine ⟨hready.1, hne⟩

end

variable {s s' : State ι} {a : Action ι}

theorem System.Safe.step (h : s.Safe worldSize engineSize) (hstep : Step s a s') :
    s'.Safe worldSize engineSize := by
  cases hstep with
  | submit returnValueP hclient => exact h.setClient id
  | submitOther hclient => exact h.setClient id
  | acquire hclient hlock => exact h.acquire hlock fun _ _ => trivial
  | refuse hclient hfull =>
    exact h.clientStep (h.lock_client hclient trivial) h.world trivial
  | accept hclient hspace =>
    have hlt := h.world.lt_size
    have hne := h.world.full_iff.not.mp hspace
    exact h.clientStep (h.lock_client hclient trivial) h.world ⟨rfl, by omega⟩
  | @store i next fn returnValueP hclient =>
    have hready := h.client i
    rw [hclient] at hready
    obtain ⟨rfl, hlt⟩ := hready
    exact h.clientStep (h.lock_client hclient trivial) (h.world.setValue hlt fn)
      ⟨rfl, hlt, update_self _ _ _⟩
  | @publish i next fn returnValueP hclient =>
    have hready := h.client i
    rw [hclient] at hready
    obtain ⟨rfl, hlt, hitem⟩ := hready
    exact h.clientStep (h.lock_client hclient trivial) (h.world.setWriteHead hlt hitem) trivial
  | release hclient =>
    exact h.release (h.lock_client hclient trivial) (Client.afterCall_not_critical _ _)
  | resume hclient hexecuted => exact h.setClient id
  | fastAcquire hfast hproducer hlock => exact h.fastAcquire hlock
  | fastRelease hfast hempty => exact h.fastRelease (h.lock_fastNrt hfast trivial)
  | fastMore hfast hmore =>
    exact h.fastStep (h.lock_fastNrt hfast trivial) h.world h.engine
      ⟨rfl, h.world.empty_iff.not.mp hmore⟩
  | fastRead hfast =>
    have hready := h.fastNrt
    rw [hfast] at hready
    obtain ⟨rfl, hne⟩ := hready
    exact h.fastStep (h.lock_fastNrt hfast trivial) h.world h.engine ⟨rfl, h.world.head? hne⟩
  | relayAccept hfast hengine => exact h.relay hfast (h.engine.step hengine)
  | relayRefuse hfast hengine => exact h.relay hfast (h.engine.step hengine)
  | perform hfast => exact h.relay hfast h.engine
  | fastAdvance hfast hproducer =>
    have hready := h.fastNrt
    rw [hfast] at hready
    obtain ⟨rfl, hne⟩ := hready
    exact h.fastStep (h.lock_fastNrt hfast trivial) (h.world.setReadHead hne) h.engine trivial
  | otherCall hfast hengine => exact h.setEngine hengine
  | engine ha hengine => exact h.setEngine hengine

end Safe

/-- Every submitted call is once in the hand of its client or placed. -/
structure State.Accounts (s : State ι) : Prop where
  nodup : s.placed.Nodup
  hand : ∀ i id, (s.clients i).inHand = some id → id ∉ s.placed
  handInj : ∀ i j id, (s.clients i).inHand = some id → (s.clients j).inHand = some id → i = j
  submitted : ∀ id, id < s.calls ↔ id ∈ s.placed ∨ ∃ i, (s.clients i).inHand = some id
  call : ∀ i id, (s.clients i).call = some id → id < s.calls
  answers : ∀ a ∈ s.answers, a.2 = none

section Accounts

variable {worldSize engineSize : ℕ} {s s' : State ι} {i : ι} {c : Client} {a : Action ι}

theorem Client.call_of_inHand {id : ℕ} (h : c.inHand = some id) : c.call = some id := by
  cases c <;> first | exact h | cases h

theorem Client.afterCall_inHand (fn : Call) (returnValueP : Bool) :
    (afterCall fn returnValueP).inHand = none := by
  cases fn <;> cases returnValueP <;> rfl

theorem Client.afterCall_call {returnValueP : Bool} {id : ℕ}
    (h : (afterCall fn returnValueP).call = some id) : fn = some id := by
  cases fn <;> cases returnValueP <;> first | exact h | cases h

theorem unrelayed_of_ne (hfast : s.fastNrt = f) (hf : ∀ next, f ≠ .advance next) :
    s.unrelayed = s.queued := by
  rw [State.unrelayed, hfast]
  cases f with
  | advance next => exact absurd rfl (hf next)
  | idle | test | read | call => rfl

theorem accepted_accept {e e' : FunctionFifo.State Call} (h : FunctionFifo.Step e (.accept fn) e') :
    e'.accepted = e.accepted ++ [fn] := by
  cases h with
  | accept value hproducer hspace => simp [FunctionFifo.State.accepted]

theorem accepted_refuse {e e' : FunctionFifo.State Call} (h : FunctionFifo.Step e (.refuse fn) e') :
    e'.accepted = e.accepted := by
  cases h with
  | refuse value hproducer hfull => exact e.accepted_refuse fn

theorem accepted_internal {e e' : FunctionFifo.State Call} {a : FunctionFifo.Action Call}
    (ha : Internal a) (h : FunctionFifo.Step e a e') : e'.accepted = e.accepted := by
  cases h with
  | refuse | accept => exact ha.elim
  | store | publish | start | finish | more | read | advance | call => rfl

theorem reduceOption_queued {m : System ι} (hsafe : m.Safe worldSize engineSize) {next : ℕ}
    (hfast : m.fastNrt = .call next fn) :
    m.queued.reduceOption = fn.toList ++ m.queued.tail.reduceOption := by
  have hready := hsafe.fastNrt
  rw [hfast] at hready
  obtain ⟨-, hhead⟩ := hready
  rw [← List.cons_head?_tail hhead]
  cases fn with
  | none => rfl
  | some id => rfl

theorem State.placed_eq (hsafe : s.Safe worldSize engineSize) :
    s.placed = s.executedCalls ++ s.inEngine.reduceOption ++ s.unrelayed.reduceOption ++
      s.refused := by
  rw [State.placed, ← hsafe.engine.accepted_eq, State.executedCalls, State.inEngine,
    List.append_assoc s.engine.executed, List.append_assoc s.engine.executed,
    List.reduceOption_append]

theorem State.inFlight_iff {id : ℕ} : s.InFlight id ↔ (∃ i, (s.clients i).inHand = some id) ∨
    id ∈ s.inEngine.reduceOption ++ s.unrelayed.reduceOption := by
  rw [State.InFlight, List.mem_append, List.reduceOption_mem_iff, List.reduceOption_mem_iff]
  tauto

section

variable (h : s.Accounts)
include h

theorem State.Accounts.congr (hplaced : s'.placed.Perm s.placed)
    (hhand : ∀ j, (s'.clients j).inHand = (s.clients j).inHand) (hcalls : s'.calls = s.calls)
    (hcall : ∀ j id, (s'.clients j).call = some id → (s.clients j).call = some id)
    (hanswers : ∀ a ∈ s'.answers, a.2 = none) : s'.Accounts where
  nodup := hplaced.nodup_iff.mpr h.nodup
  hand j id hid := by
    rw [hhand] at hid
    rw [hplaced.mem_iff]
    exact h.hand j id hid
  handInj j k id hj hk := by
    rw [hhand] at hj hk
    exact h.handInj j k id hj hk
  submitted id := by
    rw [hcalls, h.submitted, hplaced.mem_iff]
    simp only [hhand]
  call j id hid := hcalls ▸ h.call j id (hcall j id hid)
  answers := hanswers

theorem State.Accounts.setClient (hclients : s'.clients = update s.clients i c)
    (hplaced : s'.placed = s.placed) (hinHand : c.inHand = (s.clients i).inHand)
    (hc : ∀ id, c.call = some id → (s.clients i).call = some id) (hcalls : s'.calls = s.calls)
    (hanswers : ∀ a ∈ s'.answers, a.2 = none) : s'.Accounts := by
  refine h.congr (hplaced ▸ .refl _) (fun j => ?_) hcalls (fun j => ?_) hanswers
  · rw [hclients, update_apply]
    split
    next hj => rw [hj, hinHand]
    next => rfl
  · rw [hclients, update_apply]
    split
    next hj => rw [hj]; exact hc
    next => exact fun id hid => hid

theorem State.Accounts.place (hclients : s'.clients = update s.clients i c)
    (hinHand : c.inHand = none) (hplaced : s'.placed.Perm ((s.clients i).inHand.toList ++ s.placed))
    (hcall : ∀ id, c.call = some id → (s.clients i).call = some id) (hcalls : s'.calls = s.calls)
    (hanswers : s'.answers = s.answers) : s'.Accounts := by
  have hmem : ∀ id, id ∈ s'.placed ↔ (s.clients i).inHand = some id ∨ id ∈ s.placed := by
    intro id
    rw [hplaced.mem_iff, List.mem_append, Option.mem_toList]
  have hother : ∀ j id, (s'.clients j).inHand = some id →
      j ≠ i ∧ (s.clients j).inHand = some id := by
    intro j id hid
    rw [hclients, update_apply] at hid
    split at hid
    next =>
      rw [hinHand] at hid
      cases hid
    next hj => exact ⟨hj, hid⟩
  exact
    { nodup := by
        rw [hplaced.nodup_iff]
        cases hfn : (s.clients i).inHand with
        | none => exact h.nodup
        | some id => exact List.nodup_cons.mpr ⟨h.hand i id hfn, h.nodup⟩
      hand := by
        intro j id hid hplace
        obtain ⟨hne, hj⟩ := hother j id hid
        obtain hi | hold := (hmem id).mp hplace
        · exact hne (h.handInj j i id hj hi)
        · exact h.hand j id hj hold
      handInj := fun j k id hj hk =>
        h.handInj j k id (hother j id hj).2 (hother k id hk).2
      submitted := by
        intro id
        rw [hcalls, h.submitted, hmem]
        constructor
        · intro hid
          obtain hold | ⟨j, hj⟩ := hid
          · exact .inl (.inr hold)
          · by_cases hne : j = i
            · exact .inl (.inl (hne ▸ hj))
            · refine .inr ⟨j, ?_⟩
              rw [hclients, update_of_ne hne]
              exact hj
        · intro hid
          obtain (hi | hold) | ⟨j, hj⟩ := hid
          · exact .inr ⟨i, hi⟩
          · exact .inl hold
          · exact .inr ⟨j, (hother j id hj).2⟩
      call := by
        intro j id hid
        rw [hclients, update_apply] at hid
        rw [hcalls]
        split at hid
        next => exact h.call i id (hcall id hid)
        next => exact h.call j id hid
      answers := hanswers ▸ h.answers }

theorem State.Accounts.submit (hclient : s.clients i = .idle)
    (hclients : s'.clients = update s.clients i c) (hinHand : c.inHand = some s.calls)
    (hplaced : s'.placed = s.placed) (hcalls : s'.calls = s.calls + 1)
    (hanswers : s'.answers = s.answers) : s'.Accounts := by
  have hold : ∀ j id, (s.clients j).inHand = some id → id ≠ s.calls := by
    intro j id hid heq
    have hlt := h.call j id (Client.call_of_inHand hid)
    omega
  have hcases : ∀ j id, (s'.clients j).inHand = some id ↔
      j = i ∧ id = s.calls ∨ (s.clients j).inHand = some id := by
    intro j id
    rw [hclients, update_apply]
    split
    next hj =>
      rw [hj, hclient, hinHand, Option.some_inj]
      simp [Client.inHand, eq_comm]
    next hj => simp [hj]
  exact
    { nodup := hplaced ▸ h.nodup
      hand := by
        intro j id hid hplace
        rw [hplaced] at hplace
        obtain ⟨-, rfl⟩ | hj := (hcases j id).mp hid
        · exact Nat.lt_irrefl _ ((h.submitted _).mpr (.inl hplace))
        · exact h.hand j id hj hplace
      handInj := by
        intro j k id hj hk
        obtain ⟨hji, hid⟩ | hj := (hcases j id).mp hj
        · obtain ⟨hki, -⟩ | hk := (hcases k id).mp hk
          · rw [hji, hki]
          · exact absurd hid (hold k id hk)
        · obtain ⟨-, hid⟩ | hk := (hcases k id).mp hk
          · exact absurd hid (hold j id hj)
          · exact h.handInj j k id hj hk
      submitted := by
        intro id
        simp only [hcases, hcalls, hplaced, Nat.lt_succ_iff_lt_or_eq, h.submitted]
        constructor
        · intro hid
          obtain (hplace | ⟨j, hj⟩) | heq := hid
          · exact .inl hplace
          · exact .inr ⟨j, .inr hj⟩
          · exact .inr ⟨i, .inl ⟨rfl, heq⟩⟩
        · intro hid
          obtain hplace | ⟨j, ⟨-, heq⟩ | hj⟩ := hid
          · exact .inl (.inl hplace)
          · exact .inr heq
          · exact .inl (.inr ⟨j, hj⟩)
      call := by
        intro j id hid
        rw [hclients, update_apply] at hid
        rw [hcalls]
        split at hid
        next =>
          rw [Client.call_of_inHand hinHand] at hid
          exact Option.some.inj hid ▸ Nat.lt_succ_self _
        next => exact Nat.lt_succ_of_lt (h.call j id hid)
      answers := hanswers ▸ h.answers }

theorem State.Accounts.of_placed (hclients : s'.clients = s.clients)
    (hplaced : s'.placed.Perm s.placed) (hcalls : s'.calls = s.calls)
    (hanswers : s'.answers = s.answers) : s'.Accounts :=
  h.congr hplaced (fun j => by rw [hclients]) hcalls (fun j id hid => hclients ▸ hid)
    (hanswers ▸ h.answers)

theorem State.Accounts.fastStep {f' : FastNrt} (hfast : s.fastNrt = f) (hfast' : s'.fastNrt = f')
    (hf : ∀ next, f ≠ .advance next) (hf' : ∀ next, f' ≠ .advance next)
    (hqueued : s'.queued = s.queued) (hclients : s'.clients = s.clients)
    (hengine : s'.engine = s.engine) (hrefused : s'.refused = s.refused)
    (hcalls : s'.calls = s.calls) (hanswers : s'.answers = s.answers) : s'.Accounts := by
  refine h.of_placed hclients ?_ hcalls hanswers
  rw [State.placed, State.placed, unrelayed_of_ne hfast hf, unrelayed_of_ne hfast' hf', hqueued,
    hengine, hrefused]

theorem State.Accounts.relay (hsafe : s.Safe worldSize engineSize) {next : ℕ}
    (hfast : s.fastNrt = .call next fn) {refused : List ℕ}
    (hplaced : (engine.accepted.reduceOption ++ refused).Perm
      (fn.toList ++ (s.engine.accepted.reduceOption ++ s.refused))) :
    State.Accounts { s with fastNrt := .advance next, engine := engine, refused := refused } := by
  refine h.of_placed rfl ?_ rfl rfl
  rw [State.placed, State.placed, unrelayed_of_ne hfast nofun, reduceOption_queued hsafe hfast]
  rw [List.perm_iff_count] at hplaced ⊢
  intro id
  have hcount := hplaced id
  simp only [State.unrelayed, List.count_append] at hcount ⊢
  omega

theorem State.Accounts.step (hsafe : s.Safe worldSize engineSize) (hstep : Step s a s') :
    s'.Accounts := by
  cases hstep with
  | submit returnValueP hclient => exact h.submit hclient rfl rfl rfl rfl rfl
  | submitOther hclient => exact h.setClient rfl rfl (by rw [hclient]; rfl) nofun rfl h.answers
  | acquire hclient hlock | accept hclient hspace | store hclient =>
    exact h.setClient rfl rfl (by rw [hclient]; rfl) (fun id hid => by rw [hclient]; exact hid) rfl
      h.answers
  | @refuse i fn returnValueP hclient hfull =>
    refine h.place rfl rfl ?_ (fun id hid => by rw [hclient]; exact hid) rfl rfl
    rw [hclient, State.placed, ← List.append_assoc]
    exact List.perm_append_comm
  | @publish i next fn returnValueP hclient =>
    have hlock := hsafe.lock_client hclient trivial
    have hfast := FastNrt.eq_idle (hsafe.not_critical (q := .fastNrt) hlock nofun)
    refine h.place rfl rfl ?_ (fun id hid => by rw [hclient]; exact hid) rfl rfl
    rw [hclient, List.perm_iff_count]
    intro id
    simp only [State.placed, State.unrelayed, hfast, Client.inHand, List.reduceOption_append,
      List.reduceOption_singleton, List.count_append]
    omega
  | @release i fn returnValueP hclient =>
    refine h.setClient rfl rfl ?_ (fun id hid => ?_) rfl fun a ha => ?_
    · rw [hclient, Client.afterCall_inHand]
      rfl
    · rw [hclient]
      exact Client.afterCall_call hid
    · obtain hold | hnew := List.mem_append.mp ha
      · exact h.answers a hold
      · obtain ⟨id, -, rfl⟩ := List.mem_map.mp hnew
        rfl
  | resume hclient hexecuted => exact h.setClient rfl rfl (by rw [hclient]; rfl) nofun rfl h.answers
  | fastAcquire hfast hproducer hlock | fastRelease hfast hempty | fastMore hfast hmore
  | fastRead hfast =>
    exact h.fastStep hfast rfl nofun nofun rfl rfl rfl rfl rfl rfl
  | @relayAccept next id engine hfast hengine =>
    refine h.relay hsafe hfast ?_
    rw [accepted_accept hengine, List.perm_iff_count]
    intro id
    simp only [List.reduceOption_append, List.reduceOption_singleton, List.count_append]
    omega
  | @relayRefuse next id engine hfast hengine =>
    refine h.relay hsafe hfast ?_
    rw [accepted_refuse hengine, ← List.append_assoc]
    exact List.perm_append_comm
  | perform hfast => exact h.relay hsafe hfast (.refl _)
  | fastAdvance hfast hproducer =>
    refine h.of_placed rfl ?_ rfl rfl
    rw [State.placed, State.placed, State.unrelayed, State.unrelayed, hfast]
  | @otherCall accepted engine hfast hengine =>
    have haccepted : engine.accepted.reduceOption = s.engine.accepted.reduceOption := by
      cases accepted with
      | false => rw [accepted_refuse hengine]
      | true =>
        rw [accepted_accept hengine, List.reduceOption_append]
        exact List.append_nil _
    refine h.of_placed rfl ?_ rfl rfl
    rw [State.placed, haccepted]
    rfl
  | engine ha hengine =>
    refine h.of_placed rfl ?_ rfl rfl
    rw [State.placed, accepted_internal ha hengine]
    rfl

theorem State.Accounts.noLostCall_iff (hsafe : s.Safe worldSize engineSize) :
    s.NoLostCall ↔ s.refused = [] := by
  have hplaced := s.placed_eq hsafe
  have hnodup := h.nodup
  rw [hplaced] at hnodup
  constructor
  · intro hkept
    by_contra hne
    obtain ⟨id, hid⟩ := List.exists_mem_of_ne_nil _ hne
    have hmem : id ∈ s.placed := by
      rw [hplaced]
      exact List.mem_append_right _ hid
    have hdisjoint : id ∉ s.executedCalls ++ s.inEngine.reduceOption ++
        s.unrelayed.reduceOption :=
      fun hother => List.disjoint_of_nodup_append hnodup hother hid
    rw [List.append_assoc, List.mem_append, not_or] at hdisjoint
    obtain hexecuted | hflight | ⟨value, htold⟩ := hkept.kept id ((h.submitted id).mpr (.inl hmem))
    · exact hdisjoint.1 hexecuted
    · obtain ⟨i, hi⟩ | hqueue := State.inFlight_iff.mp hflight
      · exact h.hand i id hi hmem
      · exact hdisjoint.2 hqueue
    · cases h.answers _ htold
  · intro hnil
    rw [hnil, List.append_nil, List.append_assoc] at hnodup hplaced
    have hkept : ∀ id < s.calls, id ∈ s.executedCalls ∨ s.InFlight id := by
      intro id hid
      rw [State.inFlight_iff]
      obtain hmem | hhand := (h.submitted id).mp hid
      · rw [hplaced, List.mem_append] at hmem
        exact hmem.imp_right .inr
      · exact .inr (.inl hhand)
    exact
      { nodup := hnodup.of_append_left
        notTwice := by
          intro id hid hflight
          obtain ⟨i, hi⟩ | hqueue := State.inFlight_iff.mp hflight
          · exact h.hand i id hi (hplaced ▸ List.mem_append_left _ hid)
          · exact List.disjoint_of_nodup_append hnodup hid hqueue
        kept := fun id hid => (hkept id hid).imp_right .inl
        wait := fun i id hi => hkept id (h.call i id (by rw [hi]; rfl)) }

end

end Accounts

section Run

variable {worldSize engineSize : ℕ} {s s' : State ι} {a : Action ι}
  {path : List (State ι × Action ι)}

theorem safe_initial (worldSize engineSize : ℕ) :
    (State.initial worldSize engineSize : State ι).Safe (nextPowerOfTwo worldSize)
      (nextPowerOfTwo engineSize) where
  world := holds_makeFifo none worldSize
  engine := invariant_initial none engineSize
  lock p hp := by cases p <;> exact hp.elim
  client _ := trivial
  fastNrt := trivial

theorem accounts_initial (worldSize engineSize : ℕ) :
    (State.initial worldSize engineSize : State ι).Accounts where
  nodup := List.nodup_nil
  hand := nofun
  handInj := nofun
  submitted _ := ⟨nofun, fun h => h.elim nofun nofun⟩
  call := nofun
  answers := nofun

theorem Step.refused_eq_nil (h : Step s a s') : s'.refused = [] ↔ s.refused = [] ∧ s.Fits a := by
  cases h with
  | @refuse i fn returnValueP hclient hfull =>
    rw [List.append_eq_nil_iff, State.Fits, hclient]
    cases fn with
    | none => simp [Client.inHand]
    | some id => simp [Client.inHand, hfull]
  | accept hclient hspace => exact (and_iff_left (.inr hspace)).symm
  | relayAccept hfast hengine =>
    cases hengine with
    | accept value hproducer hspace => exact (and_iff_left hspace).symm
  | relayRefuse hfast hengine =>
    cases hengine with
    | refuse value hproducer hfull => simp [State.Fits, hfull]
  | submit | submitOther | acquire | store | publish | release | resume | fastAcquire | fastRelease
  | fastMore | fastRead | perform | fastAdvance | otherCall | engine =>
    exact (and_iff_left trivial).symm

theorem Run.safe (h : Run (.initial worldSize engineSize) path s) :
    s.Safe (nextPowerOfTwo worldSize) (nextPowerOfTwo engineSize) := by
  induction h with
  | nil => exact safe_initial worldSize engineSize
  | snoc hrun hstep ih => exact ih.step hstep

theorem Run.accounts (h : Run (.initial worldSize engineSize) path s) : s.Accounts := by
  induction h with
  | nil => exact accounts_initial worldSize engineSize
  | snoc hrun hstep ih => exact ih.step hrun.safe hstep

theorem Run.refused_eq_nil (h : Run (.initial worldSize engineSize) path s) :
    s.refused = [] ↔ ∀ p ∈ path, p.1.Fits p.2 := by
  induction h with
  | nil => simp [State.initial]
  | snoc hrun hstep ih =>
    rw [hstep.refused_eq_nil, ih, List.forall_mem_append, List.forall_mem_singleton]

/-- In every state of a run, no call is lost and nobody waits for a lost call, if and only if all
the calls found a free slot in both queues. -/
theorem noLostCall_iff_fits (h : Run (.initial worldSize engineSize) path s) :
    s.NoLostCall ↔ ∀ p ∈ path, p.1.Fits p.2 := by
  rw [h.accounts.noLostCall_iff h.safe, h.refused_eq_nil]

theorem noLostCall_iff_fits_one : ∃ (path : _) (s : State Unit), Run (.initial 2 2) path s ∧
    s.clients () = .wait 0 ∧ s.executedCalls = [0] ∧ s.NoLostCall := by
  have hstart : Run (.initial 2 2 : State Unit) [] (.initial 2 2) := .nil
  have hacquire := (hstart.snoc (.submit (i := ()) true rfl)).snoc (.acquire (i := ()) rfl rfl)
  have haccept := hacquire.snoc (.accept (i := ()) rfl (by decide))
  have hclient := ((haccept.snoc (.store (i := ()) rfl)).snoc
    (.publish (i := ()) rfl)).snoc (.release (i := ()) rfl)
  have hfast := ((((hclient.snoc (.fastAcquire rfl rfl rfl)).snoc
    (.fastMore rfl (by decide))).snoc (.fastRead rfl)).snoc
    (.relayAccept rfl (.accept _ rfl (by decide))))
  have hengine := (((hfast.snoc (.engine (a := .store) trivial (.store rfl))).snoc
    (.engine (a := .publish) trivial (.publish rfl))).snoc (.engine (a := .start) trivial (.start rfl))).snoc
    (.engine (a := .more) trivial (.more rfl (by decide)))
  have hexecuted := ((hengine.snoc (.engine (a := .read) trivial (.read rfl))).snoc
    (.engine (a := .advance) trivial (.advance rfl))).snoc (.engine (a := .call) trivial (.call rfl))
  refine ⟨_, _, hexecuted, rfl, rfl, (noLostCall_iff_fits hexecuted).mpr ?_⟩
  exact hexecuted.refused_eq_nil.mp rfl

/-- The client of a refused call with RETURN-VALUE-P waits for it, in two slots. -/
theorem rtEval_lostCall : ∃ (path : _) (s : State Bool), Run (.initial 2 2) path s ∧
    s.clients true = .wait 1 ∧ ¬ s.NoLostCall := by
  have hstart : Run (.initial 2 2 : State Bool) [] (.initial 2 2) := .nil
  have hacquire := (hstart.snoc (.submit (i := false) false rfl)).snoc
    (.acquire (update_self _ _ _) rfl)
  have haccept := hacquire.snoc (.accept (update_self _ _ _) (by decide))
  have hfirst := ((haccept.snoc (.store (update_self _ _ _))).snoc
    (.publish (update_self _ _ _))).snoc (.release (update_self _ _ _))
  have hacquire' := (hfirst.snoc (.submit (i := true) true rfl)).snoc
    (.acquire (update_self _ _ _) rfl)
  have hrefuse := hacquire'.snoc (.refuse (update_self _ _ _) (by decide))
  have hsecond := hrefuse.snoc (.release (update_self _ _ _))
  refine ⟨_, _, hsecond, rfl, fun h => ?_⟩
  obtain hexecuted | ⟨i, hi⟩ | hqueued | hengine := h.wait true 1 rfl
  · cases hexecuted
  · cases i <;> cases hi
  · revert hqueued
    decide
  · cases hengine

end Run

end Incudine.CrossThreadCall

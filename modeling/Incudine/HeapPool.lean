import Incudine.ConsList
import Mathlib.Data.Multiset.Bind

/-!
# Ownership of the temporary heaps

Every call of `with-schedule` takes a heap from the pool. The heap comes back through its end
action, which is registered twice: as a flush hook and as the function that `pour-on-rt-heap` posts
when nothing is left to pour. The threads exchange closures through the FIFOs, and a step is one
action of one party.
-/

namespace Incudine.HeapPool

open Function ConsList

/-- The closures sent to the realtime thread: schedule at 0 the function that starts the pouring
of the given call of `with-schedule`, or `rt-flush`. -/
inductive Closure where
  | scheduleStart (job : ℕ)
  | rtFlush

inductive RtEvent where
  | start (job : ℕ)
  | pour (job : ℕ)
  | other (crucial : Bool)

def RtEvent.crucial : RtEvent → Bool
  | .other crucial => crucial
  | _ => false

/-- An event of a temporary heap on the realtime heap. -/
def movedEvent : Option ℕ → RtEvent
  | some job => .start job
  | none => .other false

inductive PourPhase where
  | pouring
  | ending
  | unhooked
  deriving DecidableEq

/-- The progress of a call of `flush-pending` in a non-realtime thread: `rt-flush` is posted,
`nrt-flush` is at some cons of the list of hooks, or it has called the hook of a cons. -/
inductive Flush where
  | posted
  | atCons (rest : Option ℕ)
  | called (job : ℕ)

/-- The pool and the owners of the heaps. The calls of `with-schedule` are numbered. -/
structure Bank where
  pool : List ℕ
  heaps : ℕ
  jobs : ℕ
  heapOf : ℕ → ℕ
  pushed : List ℕ

/-- `contents` are the events in the temporary heaps, each with its heap, where `some job` starts
the pouring of an inner `with-schedule`. `running` are the calls of `pour-on-rt-heap` in progress,
innermost first. `hook` are the conses of the list of hooks. -/
structure State where
  bank : Bank
  filling : Multiset ℕ
  contents : Multiset (ℕ × Option ℕ)
  fromWorld : List Closure
  fastToEngine : List Closure
  rtHeap : Multiset RtEvent
  running : List (ℕ × PourPhase)
  fromEngine : List ℕ
  hook : Option ℕ → Option ℕ
  flushes : Multiset Flush

/-- The size of the FIFOs, the size of the heaps and the growth of the pool. -/
structure Config where
  fifoSize : ℕ
  heapSize : ℕ
  poolGrow : ℕ
  grow_pos : 0 < poolGrow

variable (c : Config)

def enqueue {α : Type} (value : α) (fifo : List α) : List α :=
  if fifo.length + 1 < c.fifoSize then fifo ++ [value] else fifo

def scheduleAt {α : Type} (event : α) (count : ℕ) (heap : Multiset α) : Multiset α :=
  if count + 1 < c.heapSize then event ::ₘ heap else heap

namespace Bank

def expandHeapPool (b : Bank) : Bank :=
  { b with
    pool := List.range' b.heaps c.poolGrow
    heaps := b.heaps + c.poolGrow }

def heapPoolPop (b : Bank) : Option (ℕ × Bank) :=
  let b := if b.pool = [] then b.expandHeapPool c else b
  match b.pool with
  | [] => none
  | heap :: pool =>
    some (heap,
      { b with pool, jobs := b.jobs + 1, heapOf := update b.heapOf b.jobs heap })

variable {c} in
theorem heapPoolPop_spec (c : Config) {b b' : Bank} {heap : ℕ}
    (h : b.heapPoolPop c = some (heap, b')) (hnodup : b.pool.Nodup)
    (hmade : ∀ x ∈ b.pool, x < b.heaps) :
    (heap :: b'.pool).Nodup ∧ (∀ x ∈ heap :: b'.pool, x < b'.heaps) ∧ b.heaps ≤ b'.heaps ∧
    (∀ x ∈ heap :: b'.pool, x ∈ b.pool ∨ b.heaps ≤ x) ∧ b'.jobs = b.jobs + 1 ∧
    b'.heapOf = update b.heapOf b.jobs heap ∧ b'.pushed = b.pushed := by
  unfold heapPoolPop at h
  by_cases hempty : b.pool = []
  · simp only [if_pos hempty] at h
    split at h
    · cases h
    · next x pool hpool =>
      cases h
      have hfresh : ∀ y ∈ heap :: pool, b.heaps ≤ y ∧ y < b.heaps + c.poolGrow := by
        intro y hy
        rw [← hpool] at hy
        simpa [expandHeapPool] using hy
      have hdistinct : (heap :: pool).Nodup := by
        rw [← hpool]
        exact List.nodup_range'
      exact ⟨hdistinct, fun y hy => (hfresh y hy).2, Nat.le_add_right _ _,
        fun y hy => Or.inr (hfresh y hy).1, rfl, rfl, rfl⟩
  · simp only [if_neg hempty] at h
    split at h
    · cases h
    · next x pool hpool =>
      cases h
      rw [hpool] at hnodup hmade
      exact ⟨hnodup, hmade, le_rfl, fun y hy => Or.inl (hpool ▸ hy), rfl, rfl, rfl⟩

def heapPoolPush (b : Bank) (job : ℕ) : Bank :=
  { b with pool := b.heapOf job :: b.pool, pushed := job :: b.pushed }

end Bank

namespace State

def heapCount (s : State) (heap : ℕ) : ℕ := s.contents.countP fun x => x.1 = heap

/-- The function scheduled at 0 by `with-schedule`. -/
def startPouring (s : State) (job : ℕ) : State :=
  { s with hook := push job s.hook, running := (job, .pouring) :: s.running }

def callNodeFunction (s : State) : RtEvent → State
  | .start job => s.startPouring job
  | .pour job => { s with running := (job, .pouring) :: s.running }
  | .other _ => s

def rtFlush (s : State) : State :=
  { s with rtHeap := s.rtHeap.filter fun e => e.crucial = true }

end State

/-- The actions of the parties. -/
inductive Op where
  | heapPoolPop
  | fill (job : ℕ)
  | at0 (job : ℕ)
  | at0Nested (outer job : ℕ)
  | fastNrt
  | fastRt
  | rtSchedule (crucial : Bool)
  | schedLoop (e : RtEvent)
  | pourLoop (e : Option ℕ)
  | pourNext (e : Option ℕ)
  | pourEmpty
  | removeHook
  | nrtFuncall
  | nrtPerform
  | flushPending
  | nrtFlush
  | callHook (job : ℕ)
  | nextHook (job : ℕ)
  | clearHook

/-- The body of `with-schedule` runs in a non-realtime thread, which fills the heap and schedules
the pouring. The fast non-realtime thread forwards the closures to the realtime thread, which
performs them, runs the events of its heap and pours. Any number of calls of `flush-pending` are in
progress in other threads. -/
inductive Step : Op → State → State → Prop
  | heapPoolPop {s heap bank} (h : s.bank.heapPoolPop c = some (heap, bank)) :
      Step .heapPoolPop s
        { s with
          bank
          filling := s.bank.jobs ::ₘ s.filling
          contents := s.contents.filter fun x => x.1 ≠ heap }
  | fill {s job} (h : job ∈ s.filling) :
      Step (.fill job) s
        { s with
          contents := scheduleAt c (s.bank.heapOf job, none)
            (s.heapCount (s.bank.heapOf job)) s.contents }
  | at0 {s job rest} (h : s.filling = job ::ₘ rest) :
      Step (.at0 job) s
        { s with
          filling := rest
          fromWorld := enqueue c (.scheduleStart job) s.fromWorld }
  | at0Nested {s outer job rest} (h : s.filling = job ::ₘ rest) (houter : outer ∈ rest) :
      Step (.at0Nested outer job) s
        { s with
          filling := rest
          contents := scheduleAt c (s.bank.heapOf outer, some job)
            (s.heapCount (s.bank.heapOf outer)) s.contents }
  | fastNrt {s fn rest} (h : s.fromWorld = fn :: rest) :
      Step .fastNrt s
        { s with fromWorld := rest, fastToEngine := enqueue c fn s.fastToEngine }
  | fastRtSchedule {s job rest} (hidle : s.running = [])
      (h : s.fastToEngine = .scheduleStart job :: rest) :
      Step .fastRt s
        { s with
          fastToEngine := rest
          rtHeap := scheduleAt c (.start job) s.rtHeap.card s.rtHeap }
  | fastRtFlush {s rest} (hidle : s.running = []) (h : s.fastToEngine = .rtFlush :: rest) :
      Step .fastRt s { s.rtFlush with fastToEngine := rest }
  | rtSchedule {s} (crucial : Bool) :
      Step (.rtSchedule crucial) s
        { s with rtHeap := scheduleAt c (.other crucial) s.rtHeap.card s.rtHeap }
  | schedLoop {s e rest} (hidle : s.running = []) (h : s.rtHeap = e ::ₘ rest) :
      Step (.schedLoop e) s ({ s with rtHeap := rest }.callNodeFunction e)
  | pourLoop {s job frames e rest} (hin : s.running = (job, .pouring) :: frames)
      (h : s.contents = (s.bank.heapOf job, e) ::ₘ rest) :
      Step (.pourLoop e) s ({ s with contents := rest }.callNodeFunction (movedEvent e))
  | pourLast {s job frames e rest} (hin : s.running = (job, .pouring) :: frames)
      (h : s.contents = (s.bank.heapOf job, e) ::ₘ rest)
      (hcount : s.heapCount (s.bank.heapOf job) = 1) :
      Step (.pourNext e) s
        { s with
          contents := rest
          rtHeap := scheduleAt c (movedEvent e) s.rtHeap.card s.rtHeap
          running := (job, .ending) :: frames }
  | pourNext {s job frames e rest} (hin : s.running = (job, .pouring) :: frames)
      (h : s.contents = (s.bank.heapOf job, e) ::ₘ rest)
      (hcount : s.heapCount (s.bank.heapOf job) ≠ 1) :
      Step (.pourNext e) s
        { s with
          contents := rest
          rtHeap := scheduleAt c (.pour job)
            (scheduleAt c (movedEvent e) s.rtHeap.card s.rtHeap).card
            (scheduleAt c (movedEvent e) s.rtHeap.card s.rtHeap)
          running := frames }
  | pourEmpty {s job frames} (hin : s.running = (job, .pouring) :: frames)
      (hempty : s.heapCount (s.bank.heapOf job) = 0) :
      Step .pourEmpty s { s with running := (job, .ending) :: frames }
  | removeHook {s job frames} (hin : s.running = (job, .ending) :: frames) :
      Step .removeHook s
        { s with
          hook := deleteLoop job s.bank.jobs s.hook none
          running := (job, .unhooked) :: frames }
  | nrtFuncall {s job frames} (hin : s.running = (job, .unhooked) :: frames) :
      Step .nrtFuncall s
        { s with running := frames, fromEngine := enqueue c job s.fromEngine }
  | nrtPerform {s job rest} (h : s.fromEngine = job :: rest) :
      Step .nrtPerform s { s with fromEngine := rest, bank := s.bank.heapPoolPush job }
  | flushPending {s} :
      Step .flushPending s
        { s with
          fromWorld := enqueue c .rtFlush s.fromWorld
          flushes := .posted ::ₘ s.flushes }
  | nrtFlush {s rest} (h : s.flushes = .posted ::ₘ rest) :
      Step .nrtFlush s { s with flushes := .atCons (s.hook none) ::ₘ rest }
  | callHook {s job rest} (h : s.flushes = .atCons (some job) ::ₘ rest) :
      Step (.callHook job) s
        { s with flushes := .called job ::ₘ rest, bank := s.bank.heapPoolPush job }
  | nextHook {s job rest} (h : s.flushes = .called job ::ₘ rest) :
      Step (.nextHook job) s { s with flushes := .atCons (s.hook (some job)) ::ₘ rest }
  | clearHook {s rest} (h : s.flushes = .atCons none ::ₘ rest) :
      Step .clearHook s { s with flushes := rest, hook := update s.hook none none }

variable {count : ℕ}

section Collections

variable {α : Type} {c : Config}

theorem bind_cons (a : α) (l : List α) (f : α → Multiset ℕ) :
    Multiset.bind (a :: l : List α) f = f a + Multiset.bind l f := by
  rw [← Multiset.cons_coe, Multiset.cons_bind]

theorem bind_enqueue {value : α} {fifo : List α} (hroom : fifo.length + 1 < c.fifoSize)
    {f : α → Multiset ℕ} :
    Multiset.bind (enqueue c value fifo) f = f value + Multiset.bind fifo f := by
  rw [enqueue, if_pos hroom, ← Multiset.coe_add, Multiset.add_bind, Multiset.coe_singleton,
    Multiset.singleton_bind, add_comm]

theorem bind_enqueue_of_empty {value : α} {fifo : List α} {f : α → Multiset ℕ}
    (hempty : f value = 0) : Multiset.bind (enqueue c value fifo) f = Multiset.bind fifo f := by
  by_cases hroom : fifo.length + 1 < c.fifoSize
  · rw [bind_enqueue hroom, hempty, zero_add]
  · rw [enqueue, if_neg hroom]

theorem bind_scheduleAt {event : α} {heap : Multiset α} (hroom : count + 1 < c.heapSize)
    {f : α → Multiset ℕ} : (scheduleAt c event count heap).bind f = f event + heap.bind f := by
  rw [scheduleAt, if_pos hroom, Multiset.cons_bind]

theorem bind_scheduleAt_of_empty {event : α} {heap : Multiset α} {f : α → Multiset ℕ}
    (hempty : f event = 0) : (scheduleAt c event count heap).bind f = heap.bind f := by
  unfold scheduleAt
  split_ifs
  · rw [Multiset.cons_bind, hempty, zero_add]
  · rfl

theorem mem_scheduleAt {x event : α} {heap : Multiset α} (hx : x ∈ scheduleAt c event count heap) :
    x = event ∨ x ∈ heap := by
  unfold scheduleAt at hx
  split_ifs at hx
  · exact Multiset.mem_cons.mp hx
  · exact Or.inr hx

end Collections

namespace State

variable (s : State)

def closureJob : Closure → Multiset ℕ
  | .scheduleStart job => {job}
  | .rtFlush => 0

def startJob : RtEvent → Multiset ℕ
  | .start job => {job}
  | _ => 0

def pourJob : RtEvent → Multiset ℕ
  | .pour job => {job}
  | _ => 0

def contentJob : ℕ × Option ℕ → Multiset ℕ
  | (_, some job) => {job}
  | (_, none) => 0

def pouringJob : ℕ × PourPhase → Multiset ℕ
  | (job, .pouring) => {job}
  | _ => 0

def leavingJob : ℕ × PourPhase → Multiset ℕ
  | (_, .pouring) => 0
  | (job, _) => {job}

/-- The calls whose pouring is not started yet. -/
def unstarted : Multiset ℕ :=
  s.filling + s.contents.bind contentJob + Multiset.bind s.fromWorld closureJob +
    Multiset.bind s.fastToEngine closureJob + s.rtHeap.bind startJob

/-- The calls whose pouring is pending or running. -/
def pouring : Multiset ℕ := s.rtHeap.bind pourJob + Multiset.bind s.running pouringJob

/-- The calls whose end action is about to be posted or posted. -/
def leaving : Multiset ℕ := Multiset.bind s.running leavingJob + (s.fromEngine : Multiset ℕ)

def places : Multiset ℕ := s.unstarted + s.pouring + s.leaving

/-- The heap of a call can still be read: it is filled, its pouring is pending or running. -/
def Reads (job : ℕ) : Prop :=
  job ∈ s.unstarted ∨ job ∈ s.pouring ∨ job ∈ s.running.map Prod.fst

end State

def Flush.rest (hook : Option ℕ → Option ℕ) : Flush → Option ℕ
  | .posted => hook none
  | .atCons rest => rest
  | .called job => hook (some job)

variable {heap : ℕ} {e : Option ℕ}

namespace State

variable (s : State)

/-- A call of `flush-pending` in progress is going to call the hook. -/
def Owed (job : ℕ) : Prop := ∃ f ∈ s.flushes, InList s.hook (f.rest s.hook) job

def Hooked (job : ℕ) : Prop := InList s.hook (s.hook none) job ∨ s.Owed job

/-- No heap is twice in the pool, no heap in the pool can be read, no heap is shared, no heap is
pushed twice by a call, and a heap that is not pushed yet is still at some place or `flush-pending`
is going to push it. -/
structure Owned : Prop where
  distinct : s.bank.pool.Nodup
  unread : ∀ job, s.Reads job → s.bank.heapOf job ∉ s.bank.pool
  unshared : ∀ i j, s.Reads i → s.Reads j → s.bank.heapOf i = s.bank.heapOf j → i = j
  once : s.bank.pushed.Nodup
  returned : ∀ job < s.bank.jobs, job ∈ s.bank.pushed ∨ job ∈ s.places ∨ s.Owed job

/-- What the state before a step has to satisfy. Nothing is lost because a FIFO or a heap is full.
`rt-flush` finds no pouring that is not started, also inside a heap whose pouring it cancels, and
the hooks of those that it cancels are going to be called. A hook is called only if the pouring is
cancelled and the heap is not back. The list of hooks is cleared only if no other call of
`flush-pending` is about to find a cancelled pouring in it. -/
def Meets : Op → Prop
  | .at0 _ => s.fromWorld.length + 1 < c.fifoSize
  | .at0Nested outer _ => s.heapCount (s.bank.heapOf outer) + 1 < c.heapSize
  | .fastNrt => s.fastToEngine.length + 1 < c.fifoSize
  | .fastRt =>
    (∀ job rest, s.fastToEngine = .scheduleStart job :: rest →
      s.rtHeap.card + 1 < c.heapSize) ∧
    (∀ rest, s.fastToEngine = .rtFlush :: rest →
      (∀ job, .start job ∉ s.rtHeap) ∧
      ∀ job, .pour job ∈ s.rtHeap →
        s.Owed job ∧ ∀ inner, (s.bank.heapOf job, some inner) ∉ s.contents)
  | .pourNext e =>
    (e ≠ none → s.rtHeap.card + 1 < c.heapSize) ∧
    ∀ job frames, s.running = (job, .pouring) :: frames →
      s.heapCount (s.bank.heapOf job) ≠ 1 → s.rtHeap.card + 2 < c.heapSize
  | .nrtFuncall => s.fromEngine.length + 1 < c.fifoSize
  | .callHook job => job ∉ s.places ∧ job ∉ s.bank.pushed
  | .clearHook =>
    .posted ∈ s.flushes → ∀ job, InList s.hook (s.hook none) job →
      job ∈ s.places ∨ job ∈ s.bank.pushed ∨
        ∃ f ∈ s.flushes, f ≠ .posted ∧ InList s.hook (f.rest s.hook) job
  | _ => True

/-- The state with the given pool, before any call of `with-schedule`. -/
def initial (poolSize : ℕ) : State where
  bank := ⟨List.range poolSize, poolSize, 0, fun _ => 0, []⟩
  filling := 0
  contents := 0
  fromWorld := []
  fastToEngine := []
  rtHeap := 0
  running := []
  fromEngine := []
  hook := fun _ => none
  flushes := 0

/-- The runs whose steps all meet the condition. -/
inductive Run (poolSize : ℕ) : State → Prop
  | initial : Run poolSize (initial poolSize)
  | step {s t op} (run : Run poolSize s) (hstep : Step c op s t) (hmeets : s.Meets c op) :
      Run poolSize t

/-- The invariant of the runs. -/
structure Inv : Prop where
  nodup : s.places.Nodup
  live : ∀ job ∈ s.places, job < s.bank.jobs ∧ job ∉ s.bank.pushed
  kept : ∀ job < s.bank.jobs, job ∉ s.bank.pushed → job ∈ s.places ∨ s.Owed job
  hooked : ∀ job, s.Hooked job → job < s.bank.jobs ∧ job ∉ s.unstarted
  called : ∀ job, .called job ∈ s.flushes → job ∈ s.bank.pushed
  once : s.bank.pushed.Nodup
  bound : ∀ job ∈ s.bank.pushed, job < s.bank.jobs
  distinct : s.bank.pool.Nodup
  made : ∀ heap ∈ s.bank.pool, heap < s.bank.heaps
  taken : ∀ job < s.bank.jobs, s.bank.heapOf job < s.bank.heaps
  unread : ∀ job < s.bank.jobs, job ∉ s.bank.pushed → s.bank.heapOf job ∉ s.bank.pool
  unshared : ∀ i < s.bank.jobs, i ∉ s.bank.pushed → ∀ j < s.bank.jobs, j ∉ s.bank.pushed →
    s.bank.heapOf i = s.bank.heapOf j → i = j
  nested : ∀ heap inner, (heap, some inner) ∈ s.contents →
    ∃ job, (job ∈ s.unstarted ∨ job ∈ s.pouring) ∧ s.bank.heapOf job = heap

namespace Inv

variable {s} {t : State}

theorem lt_of_mem_unstarted (h : s.Inv) {job : ℕ} (hj : job ∈ s.unstarted) :
    job < s.bank.jobs ∧ job ∉ s.bank.pushed :=
  h.live job (by simp [places, hj])

theorem initial (poolSize : ℕ) : (State.initial poolSize).Inv where
  nodup := by simp [places, unstarted, pouring, leaving, State.initial]
  live := fun job hj => by simp [places, unstarted, pouring, leaving, State.initial] at hj
  kept := fun job hj => absurd hj (Nat.not_lt_zero job)
  hooked := fun job hj => by simp [Hooked, Owed, State.initial] at hj
  called := fun job hj => by simp [State.initial] at hj
  once := List.nodup_nil
  bound := fun job hj => by simp [State.initial] at hj
  distinct := List.nodup_range
  made := fun heap hh => List.mem_range.mp hh
  taken := fun job hj => absurd hj (Nat.not_lt_zero job)
  unread := fun job hj => absurd hj (Nat.not_lt_zero job)
  unshared := fun i hi => absurd hi (Nat.not_lt_zero i)
  nested := fun heap inner hh => by simp [State.initial] at hh

section

variable (h : s.Inv)
include h

theorem move (hbank : t.bank = s.bank) (hhook : t.hook = s.hook) (hflushes : t.flushes = s.flushes)
    (hplaces : t.places ≤ s.places) (hkept : ∀ job ∈ s.places, job ∈ t.places ∨ s.Owed job)
    (hunstarted : ∀ job ∈ t.unstarted, job ∈ s.unstarted)
    (hnested : ∀ heap inner, (heap, some inner) ∈ t.contents →
      ∃ job, (job ∈ t.unstarted ∨ job ∈ t.pouring) ∧ s.bank.heapOf job = heap) : t.Inv := by
  have howed : ∀ job, t.Owed job ↔ s.Owed job := by
    intro job
    rw [Owed, hflushes, hhook]
    rfl
  have hhooked : ∀ job, t.Hooked job → s.Hooked job := by
    intro job hj
    rw [Hooked, howed, hhook] at hj
    exact hj
  constructor
  · exact Multiset.nodup_of_le hplaces h.nodup
  · rw [hbank]
    exact fun job hj => h.live job (Multiset.mem_of_le hplaces hj)
  · rw [hbank]
    intro job hjobs hpushed
    rw [howed]
    rcases h.kept job hjobs hpushed with hj | hj
    · exact hkept job hj
    · exact Or.inr hj
  · rw [hbank]
    intro job hj
    obtain ⟨hjobs, hnot⟩ := h.hooked job (hhooked job hj)
    exact ⟨hjobs, fun hmem => hnot (hunstarted job hmem)⟩
  · rw [hbank, hflushes]
    exact h.called
  · rw [hbank]
    exact h.once
  · rw [hbank]
    exact h.bound
  · rw [hbank]
    exact h.distinct
  · rw [hbank]
    exact h.made
  · rw [hbank]
    exact h.taken
  · rw [hbank]
    exact h.unread
  · rw [hbank]
    exact h.unshared
  · rw [hbank]
    exact hnested

theorem flush (hbank : t.bank = s.bank) (hunstarted : t.unstarted = s.unstarted)
    (hpouring : t.pouring = s.pouring) (hleaving : t.leaving = s.leaving)
    (hcontents : t.contents = s.contents)
    (howed : ∀ job, s.Owed job → job ∈ s.places ∨ job ∈ s.bank.pushed ∨ t.Owed job)
    (hhooked : ∀ job, t.Hooked job → s.Hooked job)
    (hcalled : ∀ job, .called job ∈ t.flushes → .called job ∈ s.flushes) : t.Inv := by
  have hplaces : t.places = s.places := by
    rw [places, places, hunstarted, hpouring, hleaving]
  constructor
  · rw [hplaces]
    exact h.nodup
  · rw [hplaces, hbank]
    exact h.live
  · rw [hplaces, hbank]
    intro job hjobs hpushed
    rcases h.kept job hjobs hpushed with hj | hj
    · exact Or.inl hj
    · rcases howed job hj with hj | hj | hj
      · exact Or.inl hj
      · exact absurd hj hpushed
      · exact Or.inr hj
  · rw [hbank, hunstarted]
    exact fun job hj => h.hooked job (hhooked job hj)
  · rw [hbank]
    exact fun job hj => h.called job (hcalled job hj)
  · rw [hbank]
    exact h.once
  · rw [hbank]
    exact h.bound
  · rw [hbank]
    exact h.distinct
  · rw [hbank]
    exact h.made
  · rw [hbank]
    exact h.taken
  · rw [hbank]
    exact h.unread
  · rw [hbank]
    exact h.unshared
  · rw [hbank, hcontents, hunstarted, hpouring]
    exact h.nested

theorem relocate (hbank : t.bank = s.bank) (hhook : t.hook = s.hook)
    (hflushes : t.flushes = s.flushes) (hunstarted : t.unstarted = s.unstarted)
    (hstarted : t.pouring + t.leaving = s.pouring + s.leaving)
    (hnested : ∀ heap inner, (heap, some inner) ∈ t.contents →
      ∃ job, (job ∈ s.unstarted ∨ job ∈ t.pouring) ∧ s.bank.heapOf job = heap) : t.Inv := by
  have hplaces : t.places = s.places := by
    rw [places, places, hunstarted, add_assoc, hstarted, add_assoc]
  refine h.move hbank hhook hflushes hplaces.le (fun _ hj => Or.inl (hplaces ▸ hj)) ?_ ?_
  · exact fun job hj => hunstarted ▸ hj
  · rw [hunstarted]
    exact hnested

theorem push {job : ℕ} (hjobs : job < s.bank.jobs) (hpushed : job ∉ s.bank.pushed)
    (hbank : t.bank = s.bank.heapPoolPush job) (hunstarted : t.unstarted = s.unstarted)
    (hpouring : t.pouring = s.pouring) (hcontents : t.contents = s.contents)
    (hhook : t.hook = s.hook) (hplaces : t.places ≤ s.places) (hgone : job ∉ t.places)
    (hkept : ∀ i ∈ s.places, i ≠ job → i ∈ t.places) (howed : ∀ i, s.Owed i → i ≠ job → t.Owed i)
    (howed' : ∀ i, t.Owed i → s.Owed i)
    (hcalled : ∀ i, .called i ∈ t.flushes → i = job ∨ .called i ∈ s.flushes) : t.Inv := by
  constructor
  · exact Multiset.nodup_of_le hplaces h.nodup
  · rw [hbank]
    intro i hi
    obtain ⟨hi₁, hi₂⟩ := h.live i (Multiset.mem_of_le hplaces hi)
    refine ⟨hi₁, fun hmem => ?_⟩
    rcases List.mem_cons.mp hmem with rfl | hmem
    · exact hgone hi
    · exact hi₂ hmem
  · rw [hbank]
    intro i hi hni
    obtain ⟨hne, hni⟩ := not_or.mp (List.mem_cons.not.mp hni)
    rcases h.kept i hi hni with hp | ho
    · exact Or.inl (hkept i hp hne)
    · exact Or.inr (howed i ho hne)
  · rw [hbank, hunstarted]
    intro i hi
    refine h.hooked i ?_
    rw [Hooked, hhook] at hi
    exact hi.imp_right (howed' i)
  · rw [hbank]
    intro i hi
    rcases hcalled i hi with rfl | hi
    · exact List.mem_cons_self
    · exact List.mem_cons_of_mem job (h.called i hi)
  · rw [hbank]
    exact List.nodup_cons.mpr ⟨hpushed, h.once⟩
  · rw [hbank]
    intro i hi
    rcases List.mem_cons.mp hi with rfl | hi
    · exact hjobs
    · exact h.bound i hi
  · rw [hbank]
    exact List.nodup_cons.mpr ⟨h.unread job hjobs hpushed, h.distinct⟩
  · rw [hbank]
    intro heap hheap
    rcases List.mem_cons.mp hheap with rfl | hheap
    · exact h.taken job hjobs
    · exact h.made heap hheap
  · rw [hbank]
    exact h.taken
  · rw [hbank]
    intro i hi hni
    obtain ⟨hne, hni⟩ := not_or.mp (List.mem_cons.not.mp hni)
    intro hmem
    rcases List.mem_cons.mp hmem with heq | hmem
    · exact hne (h.unshared i hi hni job hjobs hpushed heq)
    · exact h.unread i hi hni hmem
  · rw [hbank]
    intro i hi hni j hj hnj
    exact h.unshared i hi (not_or.mp (List.mem_cons.not.mp hni)).2 j hj
      (not_or.mp (List.mem_cons.not.mp hnj)).2
  · rw [hbank, hcontents, hunstarted, hpouring]
    exact h.nested

theorem startPouring {job : ℕ} (hbank : t.bank = s.bank) (hhook : t.hook = ConsList.push job s.hook)
    (hflushes : t.flushes = s.flushes) (hunstarted : s.unstarted = t.unstarted + {job})
    (hpouring : t.pouring = s.pouring + {job}) (hleaving : t.leaving = s.leaving)
    (hcontents : ∀ heap inner, (heap, some inner) ∈ t.contents → (heap, some inner) ∈ s.contents) :
    t.Inv := by
  have hplaces : t.places = s.places := by
    rw [places, places, hunstarted, hpouring, hleaving]
    ac_rfl
  have hmem : job ∈ s.unstarted := by simp [hunstarted]
  have hlive := h.lt_of_mem_unstarted hmem
  have hlist : ¬ InList s.hook (s.hook none) job :=
    fun hin => (h.hooked job (Or.inl hin)).2 hmem
  have hrest : ∀ f ∈ s.flushes, ∀ i, InList t.hook (f.rest t.hook) i ↔
      f = .posted ∧ i = job ∨ InList s.hook (f.rest s.hook) i := by
    intro f hf i
    have hnew : ¬ InList s.hook (f.rest s.hook) job :=
      fun hin => (h.hooked job (Or.inr ⟨f, hf, hin⟩)).2 hmem
    rw [hhook]
    cases f with
    | posted =>
      simp only [Flush.rest, true_and]
      exact inList_push_none hlist
    | atCons rest =>
      simp only [Flush.rest, reduceCtorEq, false_and, false_or]
      exact inList_push hnew
    | called k =>
      have hk : k ≠ job := fun hk => hlive.2 (hk ▸ h.called k hf)
      simp only [Flush.rest, reduceCtorEq, false_and, false_or, push_of_ne hk]
      exact inList_push hnew
  have hnot : job ∉ t.unstarted := by
    have hnodup : (t.unstarted + {job}).Nodup :=
      hunstarted ▸ Multiset.nodup_of_le (le_trans (Multiset.le_add_right _ _)
        (Multiset.le_add_right _ _)) h.nodup
    exact fun hj => Multiset.disjoint_left.mp (Multiset.nodup_add.mp hnodup).2.2 hj
      (Multiset.mem_singleton_self job)
  have hhooked : ∀ i, t.Hooked i → i = job ∨ s.Hooked i := by
    rintro i (hi | ⟨f, hf, hi⟩)
    · rw [hhook, inList_push_none hlist] at hi
      exact hi.imp_right Or.inl
    · rw [hflushes] at hf
      rcases (hrest f hf i).mp hi with ⟨-, hi⟩ | hi
      · exact Or.inl hi
      · exact Or.inr (Or.inr ⟨f, hf, hi⟩)
  constructor
  · rw [hplaces]
    exact h.nodup
  · rw [hplaces, hbank]
    exact h.live
  · rw [hplaces, hbank]
    intro i hi hni
    refine (h.kept i hi hni).imp_right ?_
    rintro ⟨f, hf, hin⟩
    exact ⟨f, hflushes ▸ hf, (hrest f hf i).mpr (Or.inr hin)⟩
  · rw [hbank]
    intro i hi
    rcases hhooked i hi with rfl | hi
    · exact ⟨hlive.1, hnot⟩
    · obtain ⟨hi₁, hi₂⟩ := h.hooked i hi
      exact ⟨hi₁, fun hin => hi₂ (by simp [hunstarted, hin])⟩
  · rw [hbank, hflushes]
    exact h.called
  · rw [hbank]
    exact h.once
  · rw [hbank]
    exact h.bound
  · rw [hbank]
    exact h.distinct
  · rw [hbank]
    exact h.made
  · rw [hbank]
    exact h.taken
  · rw [hbank]
    exact h.unread
  · rw [hbank]
    exact h.unshared
  · rw [hbank]
    intro heap inner hin
    obtain ⟨i, hi, heq⟩ := h.nested heap inner (hcontents heap inner hin)
    refine ⟨i, ?_, heq⟩
    rw [hunstarted] at hi
    rw [hpouring]
    simp only [Multiset.mem_add, Multiset.mem_singleton] at hi ⊢
    tauto

section

variable {bank : Bank} (hpop : s.bank.heapPoolPop c = some (heap, bank))
include hpop

theorem heapOf_not_mem_popped {i : ℕ} (hi : i < s.bank.jobs) (hni : i ∉ s.bank.pushed) :
    s.bank.heapOf i ∉ heap :: bank.pool := by
  obtain ⟨-, -, -, hold, -⟩ := Bank.heapPoolPop_spec c hpop h.distinct h.made
  intro hmem
  rcases hold _ hmem with hmem | hle
  · exact h.unread i hi hni hmem
  · exact absurd (h.taken i hi) (not_lt.mpr hle)

theorem contentJob_popped :
    (s.contents.filter fun x => x.1 ≠ heap).bind contentJob = s.contents.bind contentJob := by
  have hempty : (s.contents.filter fun x => ¬ x.1 ≠ heap).bind contentJob = 0 := by
    refine Multiset.eq_zero_of_forall_notMem fun i hi => ?_
    obtain ⟨⟨heap', event⟩, hx, hi⟩ := Multiset.mem_bind.mp hi
    obtain ⟨hx, heq⟩ := Multiset.mem_filter.mp hx
    cases event with
    | none => simp [contentJob] at hi
    | some inner =>
      obtain ⟨k, hk, hkheap⟩ := h.nested heap' inner hx
      have hkplace : k ∈ s.places := by
        rcases hk with hk | hk <;> simp [places, hk]
      obtain ⟨hk₁, hk₂⟩ := h.live k hkplace
      refine h.heapOf_not_mem_popped c hpop hk₁ hk₂ ?_
      rw [hkheap, show heap' = heap from not_not.mp heq]
      exact List.mem_cons_self
  rw [← add_zero ((s.contents.filter fun x => x.1 ≠ heap).bind contentJob), ← hempty,
    ← Multiset.add_bind, Multiset.filter_add_not]

theorem heapPoolPop :
    Inv { s with
      bank
      filling := s.bank.jobs ::ₘ s.filling
      contents := s.contents.filter fun x => x.1 ≠ heap } := by
  obtain ⟨hnodup, hbelow, hheaps, -, hjobs, hheapOf, hpushed⟩ :=
    Bank.heapPoolPop_spec c hpop h.distinct h.made
  obtain ⟨hheap, hpool⟩ := List.nodup_cons.mp hnodup
  have hother : ∀ i < s.bank.jobs, bank.heapOf i = s.bank.heapOf i := by
    intro i hi
    rw [hheapOf, update_of_ne hi.ne]
  have hnew : bank.heapOf s.bank.jobs = heap := by rw [hheapOf, update_self]
  have hlive : ∀ i < s.bank.jobs, i ∉ s.bank.pushed → s.bank.heapOf i ∉ heap :: bank.pool :=
    fun i hi hni => h.heapOf_not_mem_popped c hpop hi hni
  generalize ht : ({ s with
      bank
      filling := s.bank.jobs ::ₘ s.filling
      contents := s.contents.filter fun x => x.1 ≠ heap } : State) = t
  have hbank : t.bank = bank := by rw [← ht]
  have hhook : t.hook = s.hook := by rw [← ht]
  have hflushes : t.flushes = s.flushes := by rw [← ht]
  have htcontents : t.contents = s.contents.filter fun x => x.1 ≠ heap := by rw [← ht]
  have hunstarted : t.unstarted = s.bank.jobs ::ₘ s.unstarted := by
    rw [← ht, unstarted, unstarted]
    simp only [h.contentJob_popped c hpop, Multiset.cons_add]
  have hpouring : t.pouring = s.pouring := by rw [← ht]; rfl
  have hleaving : t.leaving = s.leaving := by rw [← ht]; rfl
  have hplaces : t.places = s.bank.jobs ::ₘ s.places := by
    rw [places, places, hunstarted, hpouring, hleaving, Multiset.cons_add, Multiset.cons_add]
  have howed : ∀ i, t.Owed i ↔ s.Owed i := by
    intro i
    rw [Owed, hflushes, hhook]
    rfl
  have hnewPushed : s.bank.jobs ∉ s.bank.pushed := fun hmem => lt_irrefl _ (h.bound _ hmem)
  have hcases : ∀ i < s.bank.jobs + 1, i < s.bank.jobs ∨ i = s.bank.jobs := by omega
  constructor
  · rw [hplaces]
    exact Multiset.nodup_cons.mpr ⟨fun hmem => absurd (h.live _ hmem).1 (lt_irrefl _), h.nodup⟩
  · rw [hplaces, hbank, hjobs, hpushed]
    intro i hi
    rcases Multiset.mem_cons.mp hi with rfl | hi
    · exact ⟨Nat.lt_succ_self _, hnewPushed⟩
    · obtain ⟨hi₁, hi₂⟩ := h.live i hi
      exact ⟨hi₁.trans (Nat.lt_succ_self _), hi₂⟩
  · rw [hplaces, hbank, hjobs, hpushed]
    intro i hi hni
    rcases hcases i hi with hi | rfl
    · rcases h.kept i hi hni with hp | ho
      · exact Or.inl (Multiset.mem_cons_of_mem hp)
      · exact Or.inr ((howed i).mpr ho)
    · exact Or.inl (Multiset.mem_cons_self _ _)
  · rw [hunstarted, hbank, hjobs]
    intro i hi
    rw [Hooked, howed, hhook] at hi
    obtain ⟨hi₁, hi₂⟩ := h.hooked i hi
    refine ⟨hi₁.trans (Nat.lt_succ_self _), fun hmem => ?_⟩
    rcases Multiset.mem_cons.mp hmem with rfl | hmem
    · exact lt_irrefl _ hi₁
    · exact hi₂ hmem
  · rw [hbank, hpushed, hflushes]
    exact h.called
  · rw [hbank, hpushed]
    exact h.once
  · rw [hbank, hpushed, hjobs]
    exact fun i hi => (h.bound i hi).trans (Nat.lt_succ_self _)
  · rw [hbank]
    exact hpool
  · rw [hbank]
    exact fun x hx => hbelow x (List.mem_cons_of_mem heap hx)
  · rw [hbank, hjobs]
    intro i hi
    rcases hcases i hi with hi | rfl
    · rw [hother i hi]
      exact (h.taken i hi).trans_le hheaps
    · rw [hnew]
      exact hbelow heap List.mem_cons_self
  · rw [hbank, hjobs, hpushed]
    intro i hi hni
    rcases hcases i hi with hi | rfl
    · rw [hother i hi]
      exact fun hmem => hlive i hi hni (List.mem_cons_of_mem heap hmem)
    · rwa [hnew]
  · rw [hbank, hjobs, hpushed]
    intro i hi hni j hj hnj heq
    rcases hcases i hi with hi | rfl
    · rcases hcases j hj with hj | rfl
      · rw [hother i hi, hother j hj] at heq
        exact h.unshared i hi hni j hj hnj heq
      · rw [hother i hi, hnew] at heq
        exact absurd (heq ▸ List.mem_cons_self) (hlive i hi hni)
    · rcases hcases j hj with hj | rfl
      · rw [hother j hj, hnew] at heq
        exact absurd (heq ▸ List.mem_cons_self) (hlive j hj hnj)
      · rfl
  · rw [hunstarted, hpouring, htcontents, hbank]
    intro heap' inner hin
    obtain ⟨i, hi, heq⟩ := h.nested heap' inner (Multiset.mem_filter.mp hin).1
    have hilt : i < s.bank.jobs := by
      refine (h.live i ?_).1
      rcases hi with hi | hi <;> simp [places, hi]
    exact ⟨i, hi.imp_left Multiset.mem_cons_of_mem, (hother i hilt).trans heq⟩

end

theorem fill (job : ℕ) :
    Inv { s with
      contents := scheduleAt c (s.bank.heapOf job, none) (s.heapCount (s.bank.heapOf job))
        s.contents } := by
  have hcontents : (scheduleAt c (s.bank.heapOf job, none) (s.heapCount (s.bank.heapOf job))
      s.contents).bind contentJob = s.contents.bind contentJob := bind_scheduleAt_of_empty rfl
  refine h.relocate rfl rfl rfl ?_ rfl fun heap inner hin => ?_
  · simp only [unstarted, hcontents]
  · rcases mem_scheduleAt hin with heq | hin
    · simp at heq
    · exact h.nested heap inner hin

theorem at0 {job : ℕ} {rest : Multiset ℕ} (hfilling : s.filling = job ::ₘ rest)
    (hroom : s.fromWorld.length + 1 < c.fifoSize) :
    Inv { s with filling := rest, fromWorld := enqueue c (.scheduleStart job) s.fromWorld } := by
  refine h.relocate rfl rfl rfl ?_ rfl h.nested
  simp only [unstarted, hfilling, bind_enqueue hroom, closureJob, ← Multiset.singleton_add]
  ac_rfl

theorem at0Nested {outer job : ℕ} {rest : Multiset ℕ} (hfilling : s.filling = job ::ₘ rest)
    (houter : outer ∈ rest) (hroom : s.heapCount (s.bank.heapOf outer) + 1 < c.heapSize) :
    Inv { s with
      filling := rest
      contents := scheduleAt c (s.bank.heapOf outer, some job)
        (s.heapCount (s.bank.heapOf outer)) s.contents } := by
  refine h.relocate rfl rfl rfl ?_ rfl fun heap inner hin => ?_
  · simp only [unstarted, hfilling, bind_scheduleAt hroom, contentJob, ← Multiset.singleton_add]
    ac_rfl
  · rcases mem_scheduleAt hin with heq | hin
    · refine ⟨outer, Or.inl ?_, (congrArg Prod.fst heq).symm⟩
      simp [unstarted, hfilling, houter]
    · exact h.nested heap inner hin

theorem fastNrt {fn : Closure} {rest : List Closure} (hfifo : s.fromWorld = fn :: rest)
    (hroom : s.fastToEngine.length + 1 < c.fifoSize) :
    Inv { s with fromWorld := rest, fastToEngine := enqueue c fn s.fastToEngine } := by
  refine h.relocate rfl rfl rfl ?_ rfl h.nested
  simp only [unstarted, hfifo, bind_enqueue hroom, bind_cons]
  ac_rfl

theorem fastRtSchedule {job : ℕ} {rest : List Closure}
    (hfifo : s.fastToEngine = .scheduleStart job :: rest) (hroom : s.rtHeap.card + 1 < c.heapSize) :
    Inv { s with
      fastToEngine := rest
      rtHeap := scheduleAt c (.start job) s.rtHeap.card s.rtHeap } := by
  have hpouring : (scheduleAt c (.start job) s.rtHeap.card s.rtHeap).bind pourJob =
      s.rtHeap.bind pourJob := bind_scheduleAt_of_empty rfl
  refine h.relocate rfl rfl rfl ?_ ?_ fun heap inner hin => ?_
  · simp only [unstarted, hfifo, bind_scheduleAt hroom, bind_cons, closureJob, startJob]
    ac_rfl
  · simp only [pouring, leaving, hpouring]
  · simp only [pouring, hpouring]
    exact h.nested heap inner hin

theorem rtSchedule (crucial : Bool) :
    Inv { s with rtHeap := scheduleAt c (.other crucial) s.rtHeap.card s.rtHeap } := by
  have hpouring : (scheduleAt c (.other crucial) s.rtHeap.card s.rtHeap).bind pourJob =
      s.rtHeap.bind pourJob := bind_scheduleAt_of_empty rfl
  have hunstarted : (scheduleAt c (.other crucial) s.rtHeap.card s.rtHeap).bind startJob =
      s.rtHeap.bind startJob := bind_scheduleAt_of_empty rfl
  refine h.relocate rfl rfl rfl ?_ ?_ fun heap inner hin => ?_
  · simp only [unstarted, hunstarted]
  · simp only [pouring, leaving, hpouring]
  · simp only [pouring, hpouring]
    exact h.nested heap inner hin

theorem fastRtFlush {rest : List Closure} (hfifo : s.fastToEngine = .rtFlush :: rest)
    (hidle : s.running = []) (hstart : ∀ job, .start job ∉ s.rtHeap)
    (hpour : ∀ job, .pour job ∈ s.rtHeap →
      s.Owed job ∧ ∀ inner, (s.bank.heapOf job, some inner) ∉ s.contents) :
    Inv { s.rtFlush with fastToEngine := rest } := by
  have hnoStart : s.rtHeap.bind startJob = 0 := by
    refine Multiset.eq_zero_of_forall_notMem fun job hj => ?_
    obtain ⟨e, he, hj⟩ := Multiset.mem_bind.mp hj
    cases e with
    | start i => exact hstart i he
    | pour i => exact absurd hj (Multiset.notMem_zero job)
    | other b => exact absurd hj (Multiset.notMem_zero job)
  have hkeptStart : (s.rtHeap.filter fun e => e.crucial = true).bind startJob = 0 := by
    refine Multiset.eq_zero_of_forall_notMem fun job hj => ?_
    obtain ⟨e, he, hj⟩ := Multiset.mem_bind.mp hj
    refine Multiset.notMem_zero job (hnoStart ▸ ?_)
    exact Multiset.mem_bind.mpr ⟨e, (Multiset.mem_filter.mp he).1, hj⟩
  have hkeptPour : (s.rtHeap.filter fun e => e.crucial = true).bind pourJob = 0 := by
    refine Multiset.eq_zero_of_forall_notMem fun job hj => ?_
    obtain ⟨e, he, hj⟩ := Multiset.mem_bind.mp hj
    cases e with
    | pour i => exact absurd (Multiset.mem_filter.mp he).2 (by simp [RtEvent.crucial])
    | start i => exact absurd hj (Multiset.notMem_zero job)
    | other b => exact absurd hj (Multiset.notMem_zero job)
  have hpourJob : ∀ job, job ∈ s.rtHeap.bind pourJob → .pour job ∈ s.rtHeap := by
    intro job hj
    obtain ⟨e, he, hj⟩ := Multiset.mem_bind.mp hj
    cases e with
    | pour i => exact Multiset.mem_singleton.mp hj ▸ he
    | start i => exact absurd hj (Multiset.notMem_zero job)
    | other b => exact absurd hj (Multiset.notMem_zero job)
  have hunstarted : State.unstarted { s.rtFlush with fastToEngine := rest } = s.unstarted := by
    simp only [unstarted, rtFlush, hkeptStart, hnoStart, hfifo, bind_cons, closureJob, zero_add]
  have hpouring : State.pouring { s.rtFlush with fastToEngine := rest } = 0 := by
    simp [pouring, rtFlush, hkeptPour, hidle]
  have hpours : s.pouring = s.rtHeap.bind pourJob := by simp [pouring, hidle]
  have hleaving : State.leaving { s.rtFlush with fastToEngine := rest } = s.leaving := rfl
  refine h.move rfl rfl rfl ?_ ?_ (fun job hj => hunstarted ▸ hj) fun heap inner hin => ?_
  · rw [places, places, hunstarted, hpouring, hleaving, add_zero]
    exact add_le_add_left (Multiset.le_add_right _ _) _
  · intro job hj
    rw [places, hunstarted, hpouring, hleaving, add_zero]
    simp only [places, Multiset.mem_add, hpours] at hj ⊢
    rcases hj with (hj | hj) | hj
    · exact Or.inl (Or.inl hj)
    · exact Or.inr (hpour job (hpourJob job hj)).1
    · exact Or.inl (Or.inr hj)
  · rw [hunstarted]
    obtain ⟨job, hj | hj, heq⟩ := h.nested heap inner hin
    · exact ⟨job, Or.inl hj, heq⟩
    · rw [hpours] at hj
      exact absurd (heq ▸ hin) ((hpour job (hpourJob job hj)).2 inner)

theorem schedLoop {e : RtEvent} {rest : Multiset RtEvent} (hrtHeap : s.rtHeap = e ::ₘ rest) :
    Inv ({ s with rtHeap := rest }.callNodeFunction e) := by
  cases e with
  | start job =>
    refine h.startPouring rfl rfl rfl ?_ ?_ ?_ fun heap inner hin => hin
    · simp only [unstarted, callNodeFunction, State.startPouring, hrtHeap, Multiset.cons_bind,
        startJob]
      ac_rfl
    · simp only [pouring, callNodeFunction, State.startPouring, hrtHeap, Multiset.cons_bind,
        bind_cons, pourJob, pouringJob, zero_add]
      ac_rfl
    · simp only [leaving, callNodeFunction, State.startPouring, bind_cons, leavingJob, zero_add]
  | pour job =>
    have hpouring : State.pouring ({ s with rtHeap := rest }.callNodeFunction (.pour job)) =
        s.pouring := by
      simp only [pouring, callNodeFunction, hrtHeap, Multiset.cons_bind, bind_cons, pourJob,
        pouringJob]
      ac_rfl
    refine h.relocate rfl rfl rfl ?_ ?_ fun heap inner hin => ?_
    · simp only [unstarted, callNodeFunction, hrtHeap, Multiset.cons_bind, startJob, zero_add]
    · rw [hpouring]
      simp only [leaving, callNodeFunction, bind_cons, leavingJob, zero_add]
    · rw [hpouring]
      exact h.nested heap inner hin
  | other crucial =>
    refine h.relocate rfl rfl rfl ?_ ?_ fun heap inner hin => ?_
    · simp only [unstarted, callNodeFunction, hrtHeap, Multiset.cons_bind, startJob, zero_add]
    · simp only [pouring, leaving, callNodeFunction, hrtHeap, Multiset.cons_bind, pourJob,
        zero_add]
    · obtain ⟨job, hj, heq⟩ := h.nested heap inner hin
      refine ⟨job, hj.imp_right fun hj => ?_, heq⟩
      simpa only [pouring, callNodeFunction, hrtHeap, Multiset.cons_bind, pourJob, zero_add]
        using hj

theorem pourLoop {rest : Multiset (ℕ × Option ℕ)} (hcontents : s.contents = (heap, e) ::ₘ rest) :
    Inv ({ s with contents := rest }.callNodeFunction (movedEvent e)) := by
  have hmem : ∀ x, x ∈ rest → x ∈ s.contents :=
    fun x hx => hcontents ▸ Multiset.mem_cons_of_mem hx
  cases e with
  | none =>
    refine h.relocate rfl rfl rfl ?_ rfl fun heap' inner hin => h.nested heap' inner (hmem _ hin)
    simp only [unstarted, callNodeFunction, movedEvent, hcontents, Multiset.cons_bind,
      contentJob, zero_add]
  | some job =>
    refine h.startPouring rfl rfl rfl ?_ ?_ ?_ fun heap' inner hin => hmem _ hin
    · simp only [unstarted, callNodeFunction, movedEvent, State.startPouring, hcontents,
        Multiset.cons_bind, contentJob]
      ac_rfl
    · simp only [pouring, callNodeFunction, movedEvent, State.startPouring, bind_cons, pouringJob]
      ac_rfl
    · simp only [leaving, callNodeFunction, movedEvent, State.startPouring, bind_cons, leavingJob,
        zero_add]

end

theorem bind_movedEvent (heap : ℕ) (rtHeap : Multiset RtEvent)
    (hroom : e ≠ none → count + 1 < c.heapSize) :
    (scheduleAt c (movedEvent e) count rtHeap).bind startJob =
      contentJob (heap, e) + rtHeap.bind startJob ∧
    (scheduleAt c (movedEvent e) count rtHeap).bind pourJob = rtHeap.bind pourJob := by
  cases e with
  | none =>
    have hstart : startJob (movedEvent none) = 0 := rfl
    rw [bind_scheduleAt_of_empty hstart, contentJob, zero_add]
    exact ⟨rfl, bind_scheduleAt_of_empty rfl⟩
  | some job => exact ⟨bind_scheduleAt (hroom nofun), bind_scheduleAt_of_empty rfl⟩

section

variable {job : ℕ} {frames : List (ℕ × PourPhase)} (h : s.Inv)
include h

theorem pourEnd (hbank : t.bank = s.bank) (hhook : t.hook = s.hook)
    (hflushes : t.flushes = s.flushes) (hunstarted : t.unstarted = s.unstarted)
    (hin : s.running = (job, .pouring) :: frames) (hrunning : t.running = (job, .ending) :: frames)
    (hfifo : t.fromEngine = s.fromEngine) (hpours : t.rtHeap.bind pourJob = s.rtHeap.bind pourJob)
    (hcontents : ∀ x ∈ t.contents, x ∈ s.contents)
    (hempty : ∀ x ∈ t.contents, x.1 ≠ s.bank.heapOf job) : t.Inv := by
  have hpouring : s.pouring = {job} + t.pouring := by
    simp only [pouring, hin, hrunning, hpours, bind_cons, pouringJob, zero_add]
    ac_rfl
  have hleaving : t.leaving = {job} + s.leaving := by
    simp only [leaving, hin, hrunning, hfifo, bind_cons, leavingJob, zero_add]
    ac_rfl
  refine h.relocate hbank hhook hflushes hunstarted ?_ fun heap inner hmem => ?_
  · rw [hpouring, hleaving]
    ac_rfl
  · obtain ⟨i, hi | hi, heq⟩ := h.nested heap inner (hcontents _ hmem)
    · exact ⟨i, Or.inl hi, heq⟩
    · rw [hpouring] at hi
      rcases Multiset.mem_add.mp hi with hi | hi
      · exact absurd (Multiset.mem_singleton.mp hi ▸ heq.symm) (hempty _ hmem)
      · exact ⟨i, Or.inr hi, heq⟩

theorem pourLast {rest : Multiset (ℕ × Option ℕ)} (hin : s.running = (job, .pouring) :: frames)
    (hcontents : s.contents = (s.bank.heapOf job, e) ::ₘ rest)
    (hcount : s.heapCount (s.bank.heapOf job) = 1)
    (hroom : e ≠ none → s.rtHeap.card + 1 < c.heapSize) :
    Inv { s with
      contents := rest
      rtHeap := scheduleAt c (movedEvent e) s.rtHeap.card s.rtHeap
      running := (job, .ending) :: frames } := by
  obtain ⟨hstarts, hpours⟩ := bind_movedEvent c (s.bank.heapOf job) s.rtHeap hroom
  have hempty : ∀ x ∈ rest, x.1 ≠ s.bank.heapOf job := by
    apply Multiset.countP_eq_zero.mp
    rw [heapCount, hcontents, Multiset.countP_cons, if_pos (by rfl)] at hcount
    exact Nat.succ_injective hcount
  refine h.pourEnd rfl rfl rfl ?_ hin rfl rfl hpours
    (fun x hx => hcontents ▸ Multiset.mem_cons_of_mem hx) hempty
  simp only [unstarted, hstarts, hcontents, Multiset.cons_bind]
  ac_rfl

theorem pourEmpty (hin : s.running = (job, .pouring) :: frames)
    (hcount : s.heapCount (s.bank.heapOf job) = 0) :
    Inv { s with running := (job, .ending) :: frames } :=
  h.pourEnd rfl rfl rfl rfl hin rfl rfl rfl (fun _ hx => hx) (Multiset.countP_eq_zero.mp hcount)

theorem pourNext {rest : Multiset (ℕ × Option ℕ)} (hin : s.running = (job, .pouring) :: frames)
    (hcontents : s.contents = (s.bank.heapOf job, e) ::ₘ rest)
    (hroom : s.rtHeap.card + 2 < c.heapSize) :
    Inv { s with
      contents := rest
      rtHeap := scheduleAt c (.pour job)
        (scheduleAt c (movedEvent e) s.rtHeap.card s.rtHeap).card
        (scheduleAt c (movedEvent e) s.rtHeap.card s.rtHeap)
      running := frames } := by
  have hroom₁ : s.rtHeap.card + 1 < c.heapSize := by omega
  obtain ⟨hstarts, hpours⟩ := bind_movedEvent c (s.bank.heapOf job) (e := e) s.rtHeap
    fun _ => hroom₁
  have hroom₂ : (scheduleAt c (movedEvent e) s.rtHeap.card s.rtHeap).card + 1 < c.heapSize := by
    rw [scheduleAt, if_pos hroom₁, Multiset.card_cons]
    exact hroom
  generalize scheduleAt c (movedEvent e) s.rtHeap.card s.rtHeap = rtHeap at *
  have hpouring : State.pouring { s with
      contents := rest, rtHeap := scheduleAt c (.pour job) rtHeap.card rtHeap, running := frames } =
        s.pouring := by
    simp only [pouring, bind_scheduleAt hroom₂, hpours, pourJob, hin, bind_cons, pouringJob]
    ac_rfl
  refine h.relocate rfl rfl rfl ?_ ?_ fun heap inner hmem => ?_
  · simp only [unstarted, bind_scheduleAt hroom₂, hstarts, hcontents, Multiset.cons_bind, startJob,
      zero_add]
    ac_rfl
  · rw [hpouring]
    simp only [leaving, hin, bind_cons, leavingJob, zero_add]
  · rw [hpouring]
    exact h.nested heap inner (hcontents ▸ Multiset.mem_cons_of_mem hmem)

theorem removeHook (hin : s.running = (job, .ending) :: frames) :
    Inv { s with
      hook := deleteLoop job s.bank.jobs s.hook none
      running := (job, .unhooked) :: frames } := by
  have hplace : job ∈ s.places := by simp [places, leaving, hin, bind_cons, leavingJob]
  refine h.flush rfl rfl ?_ ?_ rfl ?_ ?_ fun i hi => hi
  · simp only [pouring, hin, bind_cons, pouringJob]
  · simp only [leaving, hin, bind_cons, leavingJob]
  · rintro i ⟨f, hf, hi⟩
    by_cases hne : i = job
    · exact Or.inl (hne ▸ hplace)
    · refine Or.inr (Or.inr ⟨f, hf, ?_⟩)
      cases f with
      | posted => exact hi.delete_cdr hne _
      | atCons rest => exact hi.delete hne _
      | called k => exact hi.delete_cdr hne _
  · rintro i (hi | ⟨f, hf, hi⟩)
    · exact Or.inl hi.of_delete_cdr
    · refine Or.inr ⟨f, hf, ?_⟩
      cases f with
      | posted => exact hi.of_delete_cdr
      | atCons rest => exact hi.of_delete
      | called k => exact hi.of_delete_cdr

theorem nrtFuncall (hin : s.running = (job, .unhooked) :: frames)
    (hroom : s.fromEngine.length + 1 < c.fifoSize) :
    Inv { s with running := frames, fromEngine := enqueue c job s.fromEngine } := by
  have hpouring : State.pouring { s with
      running := frames, fromEngine := enqueue c job s.fromEngine } = s.pouring := by
    simp only [pouring, hin, bind_cons, pouringJob, zero_add]
  refine h.relocate rfl rfl rfl rfl ?_ fun heap inner hmem => ?_
  · rw [hpouring]
    simp only [leaving, hin, bind_cons, leavingJob, enqueue, if_pos hroom, ← Multiset.coe_add,
      Multiset.coe_singleton]
    ac_rfl
  · rw [hpouring]
    exact h.nested heap inner hmem

end

theorem nrtPerform (h : s.Inv) {job : ℕ} {rest : List ℕ} (hfifo : s.fromEngine = job :: rest) :
    Inv { s with fromEngine := rest, bank := s.bank.heapPoolPush job } := by
  have hplaces : s.places = job ::ₘ State.places { s with
      fromEngine := rest, bank := s.bank.heapPoolPush job } := by
    simp only [places, unstarted, pouring, leaving, hfifo, ← Multiset.cons_coe,
      Multiset.add_cons]
  have hnodup := h.nodup
  rw [hplaces, Multiset.nodup_cons] at hnodup
  obtain ⟨hjobs, hpushed⟩ := h.live job (hplaces ▸ Multiset.mem_cons_self job _)
  refine h.push hjobs hpushed rfl rfl rfl rfl rfl ?_ hnodup.1 ?_ (fun i hi _ => hi)
    (fun i hi => hi) fun i hi => Or.inr hi
  · rw [hplaces]
    exact Multiset.le_cons_self _ _
  · intro i hi hne
    rw [hplaces] at hi
    exact (Multiset.mem_cons.mp hi).resolve_left hne

theorem flushPending (h : s.Inv) :
    Inv { s with
      fromWorld := enqueue c .rtFlush s.fromWorld
      flushes := .posted ::ₘ s.flushes } := by
  refine h.flush rfl ?_ rfl rfl rfl ?_ ?_ fun i hi => ?_
  · simp only [unstarted, bind_enqueue_of_empty (rfl : closureJob .rtFlush = 0)]
  · rintro i ⟨f, hf, hi⟩
    exact Or.inr (Or.inr ⟨f, Multiset.mem_cons_of_mem hf, hi⟩)
  · rintro i (hi | ⟨f, hf, hi⟩)
    · exact Or.inl hi
    · rcases Multiset.mem_cons.mp hf with rfl | hf
      · exact Or.inl hi
      · exact Or.inr ⟨f, hf, hi⟩
  · simpa using hi

theorem advance (h : s.Inv) {f f' : Flush} {rest : Multiset Flush}
    (hflushes : s.flushes = f ::ₘ rest) (hrest : f'.rest s.hook = f.rest s.hook)
    (hnot : ∀ job, f' ≠ .called job) : Inv { s with flushes := f' ::ₘ rest } := by
  have howed : ∀ i, State.Owed { s with flushes := f' ::ₘ rest } i ↔ s.Owed i := by
    intro i
    simp only [Owed, hflushes, Multiset.mem_cons, exists_eq_or_imp, hrest]
  refine h.flush rfl rfl rfl rfl rfl (fun i hi => Or.inr (Or.inr ((howed i).mpr hi)))
    (fun i hi => hi.imp_right (howed i).mp) fun i hi => ?_
  rw [hflushes]
  exact Multiset.mem_cons_of_mem ((Multiset.mem_cons.mp hi).resolve_left (hnot i).symm)

theorem callHook (h : s.Inv) {job : ℕ} {rest : Multiset Flush}
    (hflushes : s.flushes = .atCons (some job) ::ₘ rest) (hgone : job ∉ s.places)
    (hpushed : job ∉ s.bank.pushed) :
    Inv { s with flushes := .called job ::ₘ rest, bank := s.bank.heapPoolPush job } := by
  have howed : s.Owed job := ⟨_, hflushes ▸ Multiset.mem_cons_self _ _, .head job⟩
  refine h.push (h.hooked job (Or.inr howed)).1 hpushed rfl rfl rfl rfl rfl le_rfl hgone
    (fun i hi _ => hi) ?_ ?_ fun i hi => ?_
  · rintro i ⟨f, hf, hi⟩ hne
    rw [hflushes] at hf
    rcases Multiset.mem_cons.mp hf with rfl | hf
    · exact ⟨.called job, Multiset.mem_cons_self _ _, (inList_some.mp hi).resolve_left hne⟩
    · exact ⟨f, Multiset.mem_cons_of_mem hf, hi⟩
  · rintro i ⟨f, hf, hi⟩
    rcases Multiset.mem_cons.mp hf with rfl | hf
    · exact ⟨.atCons (some job), hflushes ▸ Multiset.mem_cons_self _ _, .tail hi⟩
    · exact ⟨f, hflushes ▸ Multiset.mem_cons_of_mem hf, hi⟩
  · rw [hflushes]
    rcases Multiset.mem_cons.mp hi with heq | hi
    · exact Or.inl (Flush.called.inj heq)
    · exact Or.inr (Multiset.mem_cons_of_mem hi)

theorem clearHook (h : s.Inv) {rest : Multiset Flush}
    (hflushes : s.flushes = .atCons none ::ₘ rest)
    (hmeets : .posted ∈ s.flushes → ∀ job, InList s.hook (s.hook none) job →
      job ∈ s.places ∨ job ∈ s.bank.pushed ∨
        ∃ f ∈ s.flushes, f ≠ .posted ∧ InList s.hook (f.rest s.hook) job) :
    Inv { s with flushes := rest, hook := update s.hook none none } := by
  have hrest : ∀ f : Flush, f ≠ .posted → ∀ i, InList (update s.hook none none)
      (f.rest (update s.hook none none)) i ↔ InList s.hook (f.rest s.hook) i := by
    intro f hf i
    cases f with
    | posted => exact absurd rfl hf
    | atCons r => exact inList_update_none
    | called k =>
      simp only [Flush.rest, update_of_ne (nofun : some k ≠ none)]
      exact inList_update_none
  have hleft : ∀ i, (∃ f ∈ s.flushes, f ≠ .posted ∧ InList s.hook (f.rest s.hook) i) →
      State.Owed { s with flushes := rest, hook := update s.hook none none } i := by
    rintro i ⟨f, hf, hne, hi⟩
    rw [hflushes] at hf
    rcases Multiset.mem_cons.mp hf with rfl | hf
    · exact absurd hi not_inList_none
    · exact ⟨f, hf, (hrest f hne i).mpr hi⟩
  refine h.flush rfl rfl rfl rfl rfl ?_ ?_ fun i hi => ?_
  · rintro i ⟨f, hf, hi⟩
    cases f with
    | posted => exact (hmeets hf i hi).imp_right (Or.imp_right (hleft i))
    | atCons r => exact Or.inr (Or.inr (hleft i ⟨_, hf, nofun, hi⟩))
    | called k => exact Or.inr (Or.inr (hleft i ⟨_, hf, nofun, hi⟩))
  · rintro i (hi | ⟨f, hf, hi⟩)
    · simp at hi
    · refine Or.inr ⟨f, hflushes ▸ Multiset.mem_cons_of_mem hf, ?_⟩
      cases f with
      | posted => simp [Flush.rest] at hi
      | atCons r => exact (hrest (.atCons r) nofun i).mp hi
      | called k => exact (hrest (.called k) nofun i).mp hi
  · exact hflushes ▸ Multiset.mem_cons_of_mem hi

theorem step (h : s.Inv) {op : Op} (hmeets : s.Meets c op) (hstep : Step c op s t) : t.Inv := by
  cases hstep with
  | heapPoolPop hpop => exact h.heapPoolPop c hpop
  | fill _ => exact h.fill c _
  | at0 hfilling => exact h.at0 c hfilling hmeets
  | at0Nested hfilling houter => exact h.at0Nested c hfilling houter hmeets
  | fastNrt hfifo => exact h.fastNrt c hfifo hmeets
  | fastRtSchedule _ hfifo => exact h.fastRtSchedule c hfifo (hmeets.1 _ _ hfifo)
  | fastRtFlush hidle hfifo =>
    obtain ⟨hstart, hpour⟩ := hmeets.2 _ hfifo
    exact h.fastRtFlush hfifo hidle hstart hpour
  | rtSchedule crucial => exact h.rtSchedule c crucial
  | schedLoop _ hrtHeap => exact h.schedLoop hrtHeap
  | pourLoop _ hcontents => exact h.pourLoop hcontents
  | pourLast hin hcontents hcount => exact h.pourLast c hin hcontents hcount hmeets.1
  | pourNext hin hcontents hcount => exact h.pourNext c hin hcontents (hmeets.2 _ _ hin hcount)
  | pourEmpty hin hcount => exact h.pourEmpty hin hcount
  | removeHook hin => exact h.removeHook hin
  | nrtFuncall hin => exact h.nrtFuncall c hin hmeets
  | nrtPerform hfifo => exact h.nrtPerform hfifo
  | flushPending => exact h.flushPending c
  | nrtFlush hflushes => exact h.advance hflushes rfl nofun
  | callHook hflushes => exact h.callHook hflushes hmeets.1 hmeets.2
  | nextHook hflushes => exact h.advance hflushes rfl nofun
  | clearHook hflushes => exact h.clearHook hflushes hmeets

theorem run {poolSize : ℕ} (hrun : Run c poolSize s) : s.Inv := by
  induction hrun with
  | initial => exact .initial poolSize
  | step _ hstep hmeets ih => exact ih.step c hmeets hstep

theorem reads (h : s.Inv) {job : ℕ} (hreads : s.Reads job) :
    job < s.bank.jobs ∧ job ∉ s.bank.pushed := by
  refine h.live job ?_
  rcases hreads with hj | hj | hj
  · simp [places, hj]
  · simp [places, hj]
  · obtain ⟨⟨i, phase⟩, hmem, rfl⟩ := List.mem_map.mp hj
    simp only [places, pouring, leaving, Multiset.mem_add, Multiset.mem_bind]
    cases phase with
    | pouring => exact Or.inl (Or.inr (Or.inr ⟨_, hmem, Multiset.mem_singleton_self i⟩))
    | ending => exact Or.inr (Or.inl ⟨_, hmem, Multiset.mem_singleton_self i⟩)
    | unhooked => exact Or.inr (Or.inl ⟨_, hmem, Multiset.mem_singleton_self i⟩)

end Inv

variable {s} in
/-- In the runs whose steps all meet the condition, the heaps have one owner. -/
theorem heapPool_owned {poolSize : ℕ} (hrun : Run c poolSize s) : s.Owned := by
  have h := Inv.run c hrun
  constructor
  · exact h.distinct
  · intro job hreads
    obtain ⟨hjobs, hpushed⟩ := h.reads hreads
    exact h.unread job hjobs hpushed
  · intro i j hi hj heq
    obtain ⟨hi₁, hi₂⟩ := h.reads hi
    obtain ⟨hj₁, hj₂⟩ := h.reads hj
    exact h.unshared i hi₁ hi₂ j hj₁ hj₂ heq
  · exact h.once
  · intro job hjobs
    by_cases hpushed : job ∈ s.bank.pushed
    · exact Or.inl hpushed
    · exact Or.inr (h.kept job hjobs hpushed)

end State

def smallConfig : Config := ⟨16, 16, 1, Nat.one_pos⟩

/-- A state with one call of `with-schedule` that holds the only heap. -/
def oneJob (filling : Multiset ℕ) (fromWorld fastToEngine : List Closure)
    (rtHeap : Multiset RtEvent) (running : List (ℕ × PourPhase)) (fromEngine : List ℕ)
    (hook : Option ℕ → Option ℕ) : State where
  bank := ⟨[], 1, 1, update (fun _ => 0) 0 0, []⟩
  filling := filling
  contents := 0
  fromWorld := fromWorld
  fastToEngine := fastToEngine
  rtHeap := rtHeap
  running := running
  fromEngine := fromEngine
  hook := hook
  flushes := 0

theorem oneJob_pouring : State.Run smallConfig 1
    (oneJob 0 [] [] 0 [(0, .pouring)] [] (push 0 fun _ => none)) := by
  have h₀ : State.Run smallConfig 1 (State.initial 1) := .initial
  have h₁ : State.Run smallConfig 1 (oneJob {0} [] [] 0 [] [] fun _ => none) :=
    h₀.step (.heapPoolPop rfl) trivial
  have h₂ : State.Run smallConfig 1 (oneJob 0 [.scheduleStart 0] [] 0 [] [] fun _ => none) :=
    h₁.step (.at0 rfl) (by decide : 0 + 1 < 16)
  have h₃ : State.Run smallConfig 1 (oneJob 0 [] [.scheduleStart 0] 0 [] [] fun _ => none) :=
    h₂.step (.fastNrt rfl) (by decide : 0 + 1 < 16)
  have h₄ : State.Run smallConfig 1 (oneJob 0 [] [] {.start 0} [] [] fun _ => none) :=
    h₃.step (.fastRtSchedule rfl rfl) ⟨fun _ _ _ => (by decide : 0 + 1 < 16), nofun⟩
  exact h₄.step (.schedLoop (e := .start 0) rfl rfl) trivial

/-- A state where a second call of `with-schedule` fills a heap of its own. -/
def twoJobs (running : List (ℕ × PourPhase)) (fromEngine : List ℕ) (hook : Option ℕ → Option ℕ) :
    State :=
  { oneJob {1} [] [] 0 running fromEngine hook with
    bank := ⟨[], 2, 2, update (update (fun _ => 0) 0 0) 1 1, []⟩ }

/-- The first call pours its heap, which comes back while the second call fills the other one. -/
theorem heapPool_owned_two : ∃ s : State, s.bank.pushed = [0] ∧ s.bank.pool = [0] ∧
    s.filling = {1} ∧ s.bank.heapOf 1 = 1 ∧ s.Owned := by
  have h₁ : State.Run smallConfig 1 (twoJobs [(0, .pouring)] [] (push 0 fun _ => none)) :=
    oneJob_pouring.step (.heapPoolPop rfl) trivial
  have h₂ : State.Run smallConfig 1 (twoJobs [(0, .ending)] [] (push 0 fun _ => none)) :=
    h₁.step (.pourEmpty rfl rfl) trivial
  have h₃ : State.Run smallConfig 1
      (twoJobs [(0, .unhooked)] [] (deleteLoop 0 2 (push 0 fun _ => none) none)) :=
    h₂.step (.removeHook rfl) trivial
  have h₄ : State.Run smallConfig 1
      (twoJobs [] [0] (deleteLoop 0 2 (push 0 fun _ => none) none)) :=
    h₃.step (.nrtFuncall rfl) (by decide : 0 + 1 < 16)
  exact ⟨_, rfl, rfl, rfl, rfl, State.heapPool_owned smallConfig (h₄.step (.nrtPerform rfl) trivial)⟩

def AnyStep (s t : State) : Prop := ∃ op, Step c op s t

theorem State.Run.reachable {poolSize : ℕ} {s : State} (hrun : State.Run c poolSize s) :
    Relation.ReflTransGen (AnyStep c) (State.initial poolSize) s := by
  induction hrun with
  | initial => exact .refl
  | step _ hstep _ ih => exact ih.tail ⟨_, hstep⟩

/-- A call of `flush-pending` calls the hook while the pouring is running, and the heap comes
back a second time when the pouring ends. -/
theorem heapPool_not_owned :
    ∃ s : State, Relation.ReflTransGen (AnyStep smallConfig) (State.initial 1) s ∧
      s.bank.pool = [0, 0] ∧ ¬ s.Owned := by
  have h₁ := oneJob_pouring.reachable.tail ⟨_, .flushPending⟩
  have h₂ := h₁.tail ⟨_, .nrtFlush (Eq.refl (Flush.posted ::ₘ 0))⟩
  have h₃ := h₂.tail ⟨_, .callHook (Eq.refl (Flush.atCons (some 0) ::ₘ 0))⟩
  have h₄ := h₃.tail ⟨_, .pourEmpty rfl rfl⟩
  have h₅ := h₄.tail ⟨_, .removeHook rfl⟩
  have h₆ := h₅.tail ⟨_, .nrtFuncall rfl⟩
  have h₇ := h₆.tail ⟨_, .nrtPerform rfl⟩
  refine ⟨_, h₇, rfl, fun howned => ?_⟩
  exact absurd howned.distinct (by decide : ¬ [0, 0].Nodup)

end Incudine.HeapPool

import Incudine.Literals
import Incudine.UnscheduleIf
import Mathlib.Algebra.Order.Field.Basic
import Mathlib.Tactic.Linarith

/-!
# Pouring a temporary heap on the realtime heap

At every tick `pour-on-rt-heap` runs what is already due in a temporary heap, moves one event to the
realtime heap at its own time and schedules itself again. The realtime loop is a step relation in
which the other events may be scheduled at any moment.
-/

namespace Incudine.EdfHeap

open Function SiftedHeap
open scoped Literals

section DispatchOrder

variable {T F A : Type*} [LinearOrder T]

/-- The pending nodes in the order in which `getHeap` returns them. -/
def Heap.DispatchOrder (h : Heap T F A) (l : List (Node T F A)) : Prop :=
  (l : Multiset (Node T F A)) = h.nodes ∧ l.Pairwise (fun a b => a.key < b.key)

theorem sorted_eq_cons {l : List (Node T F A)} {x : Node T F A} {rest : Multiset (Node T F A)}
    (hl : (l : Multiset (Node T F A)) = x ::ₘ rest)
    (hsorted : l.Pairwise (fun a b => a.key < b.key)) (hleast : ∀ y ∈ rest, x.key < y.key) :
    ∃ l', l = x :: l' ∧ (l' : Multiset (Node T F A)) = rest ∧
      l'.Pairwise (fun a b => a.key < b.key) := by
  cases l with
  | nil => simp at hl
  | cons y l =>
    rw [← Multiset.cons_coe] at hl
    have hyx : y = x := by
      by_contra hne
      have hy : y ∈ x ::ₘ rest := hl ▸ Multiset.mem_cons_self y _
      have hx : x ∈ y ::ₘ (l : Multiset (Node T F A)) := hl.symm ▸ Multiset.mem_cons_self x rest
      have hyrest : y ∈ rest := (Multiset.mem_cons.mp hy).resolve_left hne
      have hxl : x ∈ l := (Multiset.mem_cons.mp hx).resolve_left (Ne.symm hne)
      exact lt_asymm (hleast y hyrest) ((List.pairwise_cons.mp hsorted).1 x hxl)
    subst hyx
    exact ⟨l, rfl, (Multiset.cons_inj_right y).mp hl, (List.pairwise_cons.mp hsorted).2⟩

variable [Zero T] [Inhabited F]

omit [Zero T] [Inhabited F] in
theorem Heap.DispatchOrder.length {h : Heap T F A} {l : List (Node T F A)}
    (hl : h.DispatchOrder l) : l.length = h.heapCount := by
  rw [← card_nodes, ← hl.1, Multiset.coe_card]

theorem Heap.DispatchOrder.getHeap {h : Heap T F A} {l : List (Node T F A)}
    (hl : h.DispatchOrder l) (hv : h.Valid) (hne : 1 < h.nextNode) :
    ∃ l', l = h.data rootNode :: l' ∧ (getHeap h).1 = h.data rootNode ∧
      (getHeap h).2.DispatchOrder l' := by
  obtain ⟨hnode, -, -, -, hnodes⟩ := getHeap_spec hne hv.ordered
  obtain ⟨l', heq, hrest, hsorted⟩ := sorted_eq_cons (hl.1.trans hnodes) hl.2
    fun y hy => hv.root_lt hnodes hy
  exact ⟨l', heq, hnode, hrest, hsorted⟩

theorem Heap.Valid.exists_dispatchOrder (n : ℕ) :
    ∀ {h : Heap T F A}, h.Valid → h.heapCount = n → ∃ l, h.DispatchOrder l := by
  induction n with
  | zero =>
    intro h hv hn
    refine ⟨[], ?_, List.Pairwise.nil⟩
    have hone : h.nextNode = 1 := by
      have := hv.pos
      unfold Heap.heapCount at hn
      omega
    rw [Heap.nodes, hone, entries_one, Multiset.coe_nil]
  | succ n ih =>
    intro h hv hn
    have hne : 1 < h.nextNode := by
      unfold Heap.heapCount at hn
      omega
    obtain ⟨-, hnext, -, -, hnodes⟩ := getHeap_spec hne hv.ordered
    obtain ⟨l, hl, hsorted⟩ := ih (getHeap_valid hv) (by unfold Heap.heapCount at hn ⊢; omega)
    refine ⟨h.data rootNode :: l, ?_, List.pairwise_cons.mpr ⟨fun y hy => ?_, hsorted⟩⟩
    · rw [← Multiset.cons_coe, hl, hnodes]
    · exact hv.root_lt hnodes (hl ▸ Multiset.mem_coe.mpr hy)

omit [LinearOrder T] in
@[simp] theorem getHeap_timeOffset [LinearOrder T] (h : Heap T F A) :
    (EdfHeap.getHeap h).2.timeOffset = h.timeOffset := by
  unfold EdfHeap.getHeap
  split_ifs <;> rfl

omit [LinearOrder T] [Zero T] [Inhabited F] in
/-- The pending nodes whose function satisfies `p`. -/
def Heap.nodesOf (p : F → Bool) (h : Heap T F A) : Multiset (Node T F A) :=
  h.nodes.filter fun x => p x.function = true

omit [LinearOrder T] [Zero T] [Inhabited F] in
theorem Heap.mem_nodesOf {p : F → Bool} {h : Heap T F A} {x : Node T F A} :
    x ∈ h.nodesOf p ↔ x ∈ h.nodes ∧ p x.function = true :=
  Multiset.mem_filter

theorem Heap.Valid.nodesOf_getHeap {h : Heap T F A} (hv : h.Valid) (hne : 1 < h.nextNode)
    (p : F → Bool) :
    h.nodesOf p = if p (h.data rootNode).function
      then h.data rootNode ::ₘ (EdfHeap.getHeap h).2.nodesOf p
      else (EdfHeap.getHeap h).2.nodesOf p := by
  obtain ⟨-, -, -, -, hnodes⟩ := getHeap_spec hne hv.ordered
  rw [Heap.nodesOf, hnodes, Multiset.filter_cons]
  split_ifs <;> simp [Heap.nodesOf]

omit [Zero T] [Inhabited F] in
theorem Heap.Valid.nodesOf_scheduleAt {heapSize : ℕ} {h : Heap T F A} (hv : h.Valid)
    (hroom : h.nextNode < heapSize) (t : T) (f : F) (a : List A) (p : F → Bool) :
    (scheduleAt heapSize h t f a).nodesOf p = if p f
      then ⟨t, h.orderingTag, f, a⟩ ::ₘ h.nodesOf p
      else h.nodesOf p := by
  obtain ⟨-, -, -, hnodes⟩ := scheduleAt_spec hroom hv.pos hv.ordered hv.used t f a
  rw [Heap.nodesOf, hnodes, Multiset.filter_cons]
  split_ifs <;> simp [Heap.nodesOf]

end DispatchOrder

/-- The functions called by the realtime thread: `pour-on-rt-heap`, the functions scheduled by
the body of `with-schedule` and all the others. -/
inductive RtFunction (F G : Type*) where
  | corruptedHeap
  | pourOnRtHeap
  | body (f : F)
  | foreign (g : G)
  deriving DecidableEq

instance {F G : Type*} : Inhabited (RtFunction F G) := ⟨.corruptedHeap⟩

@[simp] def RtFunction.isBody {F G : Type*} : RtFunction F G → Bool
  | .body _ => true
  | _ => false

@[simp] def RtFunction.isPour {F G : Type*} : RtFunction F G → Bool
  | .pourOnRtHeap => true
  | _ => false

structure Call (T F A : Type*) where
  tick : ℕ
  time : T
  function : F
  args : List A

/-- `pouring` is set while the realtime thread is inside `pour-on-rt-heap`. -/
structure RtState (T F G A : Type*) where
  now : ℕ
  rtHeap : Heap T (RtFunction F G) A
  tmpHeap : Heap T (RtFunction F G) A
  pouring : Bool
  calls : List (Call T F A)

variable {T F G A : Type*} [Field T] [LinearOrder T]

def Due (now : ℕ) (time : T) : Prop := time ≤ (now : T) + 1 / 2

instance (now : ℕ) (time : T) : Decidable (Due now time) := inferInstanceAs (Decidable (_ ≤ _))

namespace RtState

def RtDue (s : RtState T F G A) : Prop :=
  rootNode < s.rtHeap.nextNode ∧ Due s.now (s.rtHeap.data rootNode).time

def TmpDue (s : RtState T F G A) : Prop :=
  rootNode < s.tmpHeap.nextNode ∧
    Due s.now ((s.tmpHeap.data rootNode).time + s.tmpHeap.timeOffset)

instance (s : RtState T F G A) : Decidable s.RtDue := inferInstanceAs (Decidable (_ ∧ _))

instance (s : RtState T F G A) : Decidable s.TmpDue := inferInstanceAs (Decidable (_ ∧ _))

def callNodeFunction (s : RtState T F G A) (time : T) (node : Node T (RtFunction F G) A) :
    RtState T F G A :=
  match node.function with
  | .body f => { s with calls := s.calls ++ [⟨s.now, time, f, node.args⟩] }
  | .pourOnRtHeap => { s with pouring := true }
  | .corruptedHeap | .foreign _ => s

def schedLoopStep (s : RtState T F G A) : RtState T F G A :=
  let (node, rtHeap) := getHeap s.rtHeap
  { s with rtHeap }.callNodeFunction node.time node

/-- One iteration of the loop of `pour-on-rt-heap`, which runs what is already due. -/
def pourLoopStep (s : RtState T F G A) : RtState T F G A :=
  let (node, tmpHeap) := getHeap s.tmpHeap
  { s with tmpHeap }.callNodeFunction (node.time + s.tmpHeap.timeOffset) node

/-- What the state before a step has to satisfy. When `pour-on-rt-heap` runs an event by itself, no
event that it moved is still due on the realtime heap; when it moves an event, there is room; the
ordering tag is not masked. -/
def pourEnd (heapSize : ℕ) (s : RtState T F G A) : RtState T F G A :=
  if s.tmpHeap.heapEmpty then { s with pouring := false }
  else
    let (node, tmpHeap) := getHeap s.tmpHeap
    let time := node.time + s.tmpHeap.timeOffset
    let rtHeap := scheduleAt heapSize s.rtHeap time node.function node.args
    if s.tmpHeap.heapCount = 1 then { s with rtHeap, tmpHeap, pouring := false }
    else
      { s with
        rtHeap := scheduleAt heapSize rtHeap (s.now + 1) .pourOnRtHeap []
        tmpHeap, pouring := false }

/-- The realtime thread, with the events scheduled by the other functions. -/
inductive Step (heapSize : ℕ) : RtState T F G A → RtState T F G A → Prop
  | schedLoop {s} (hout : s.pouring = false) (hdue : s.RtDue) : Step heapSize s s.schedLoopStep
  | pourLoop {s} (hin : s.pouring = true) (hdue : s.TmpDue) : Step heapSize s s.pourLoopStep
  | pourEnd {s} (hin : s.pouring = true) (hdue : ¬ s.TmpDue) :
      Step heapSize s (s.pourEnd heapSize)
  | foreign {s} (time : T) (g : G) (args : List A) :
      Step heapSize s
        { s with rtHeap := scheduleAt heapSize s.rtHeap time (.foreign g) args }
  | tick {s} (hout : s.pouring = false) (hdue : ¬ s.RtDue) :
      Step heapSize s { s with now := s.now + 1 }

/-- The closure scheduled by `with-schedule` sets the time offset and calls
`pour-on-rt-heap`. -/
def withSchedule (now : ℕ) (startTime : Option T) (rtHeap tmpHeap : Heap T (RtFunction F G) A) :
    RtState T F G A where
  now := now
  rtHeap := rtHeap
  tmpHeap := { tmpHeap with
    timeOffset := match startTime with
      | none => now
      | some timeOffset => if (now : T) < timeOffset then timeOffset else now }
  pouring := true
  calls := []

/-- What the state before a step has to satisfy. When `pour-on-rt-heap` is about to run an event
by itself, no event that it moved before is still pending on the realtime heap and due; when it
moves an event, there is room on the realtime heap; the ordering tag is not masked. -/
structure Meets (heapSize : ℕ) (s : RtState T F G A) : Prop where
  settled : s.pouring = true → s.TmpDue →
    ∀ x ∈ s.rtHeap.nodes, x.function.isBody = true → ¬ Due s.now x.time
  room : s.pouring = true → ¬ s.TmpDue →
    s.rtHeap.nextNode + min 2 s.tmpHeap.heapCount ≤ heapSize
  tag : s.rtHeap.orderingTag + 2 < tagModulus

/-- The runs of the realtime thread whose steps all meet the condition. -/
inductive Run (heapSize : ℕ) (s : RtState T F G A) : RtState T F G A → Prop
  | refl : Run heapSize s s
  | step {t u} (run : Run heapSize s t) (hmeets : t.Meets heapSize) (hstep : Step heapSize t u) :
      Run heapSize s u

end RtState

/-- The call of a node of the temporary heap, at the first tick where it is due. -/
structure CallOf (start : ℕ) (offset : T) (c : Call T F A) (n : Node T (RtFunction F G) A) :
    Prop where
  time : c.time = n.time + offset
  function : n.function = .body c.function
  args : n.args = c.args
  first : IsLeast {tick | start ≤ tick ∧ Due tick c.time} c.tick

/-- The events of the temporary heap are called in order from the first one, each at its tick,
and at the end of a tick none that is due is left. -/
def CalledInOrder (start : ℕ) (offset : T) (l : List (Node T (RtFunction F G) A))
    (s : RtState T F G A) : Prop :=
  ∃ done rest, l = done ++ rest ∧ List.Forall₂ (CallOf start offset) s.calls done ∧
    (s.pouring = false → ¬ s.RtDue → ∀ n ∈ rest, ¬ Due s.now (n.time + offset))

/-- A node of the temporary heap after it was moved to the realtime heap. -/
structure MovedTo (offset : T) (x n : Node T (RtFunction F G) A) : Prop where
  time : x.time = n.time + offset
  function : x.function = n.function
  args : x.args = n.args

/-- The callback is running, or it is pending at this tick or, if nothing poured is left to run
at this tick, at the next one, or it has ended. -/
inductive PourStatus (offset : T) (rest : List (Node T (RtFunction F G) A))
    (s : RtState T F G A) : Prop
  | running (hin : s.pouring = true)
      (hpours : s.rtHeap.nodesOf RtFunction.isPour = 0)
  | pending (p : Node T (RtFunction F G) A) (hout : s.pouring = false)
      (hpours : s.rtHeap.nodesOf RtFunction.isPour = {p})
      (htime : p.time = s.now ∨
        p.time = (s.now : T) + 1 ∧ ∀ n ∈ rest, ¬ Due s.now (n.time + offset))
  | ended (hout : s.pouring = false)
      (hpours : s.rtHeap.nodesOf RtFunction.isPour = 0)
      (hrest : rest = [])

/-- The invariant of the pouring. The events were called up to some point, the next ones are on
the realtime heap in the same order, the last ones are on the temporary heap. -/
structure Pouring (start : ℕ) (offset : T) (l : List (Node T (RtFunction F G) A))
    (s : RtState T F G A) (done mid rest moved : List (Node T (RtFunction F G) A)) : Prop where
  split : l = done ++ (mid ++ rest)
  sorted : l.Pairwise (fun a b => a.key < b.key)
  bodies : ∀ n ∈ l, n.function.isBody = true
  calls : List.Forall₂ (CallOf start offset) s.calls done
  tmpValid : s.tmpHeap.Valid
  tmpOffset : s.tmpHeap.timeOffset = offset
  tmpOrder : s.tmpHeap.DispatchOrder rest
  rtValid : s.rtHeap.Valid
  movedNodes : (moved : Multiset _) =
    s.rtHeap.nodesOf RtFunction.isBody
  movedOrder : moved.Pairwise (fun a b => a.key < b.key)
  movedTo : List.Forall₂ (MovedTo offset) moved mid
  started : start ≤ s.now
  fresh : ∀ n ∈ mid ++ rest, ∀ m, start ≤ m → m < s.now → ¬ Due m (n.time + offset)
  status : PourStatus offset rest s

omit [Field T] in
theorem Node.time_le_of_key_le {F A : Type*} {a b : Node T F A} (h : a.key ≤ b.key) :
    a.time ≤ b.time := by
  rcases Prod.Lex.toLex_le_toLex.mp h with h | ⟨h, -⟩
  · exact le_of_lt h
  · exact le_of_eq h

theorem RtState.not_due_of_not_rtDue {s : RtState T F G A} (hv : s.rtHeap.Valid)
    (hdue : ¬ s.RtDue) : ∀ x ∈ s.rtHeap.nodes, ¬ Due s.now x.time := by
  intro x hx hxdue
  obtain ⟨i, h₁, hi, rfl⟩ := mem_entries.mp hx
  apply hdue
  refine ⟨by unfold rootNode; omega, ?_⟩
  exact (Node.time_le_of_key_le (hv.ordered.root_le i h₁ hi)).trans hxdue

theorem PourStatus.congr {offset : T} {rest : List (Node T (RtFunction F G) A)}
    {s s' : RtState T F G A} (h : PourStatus offset rest s) (hin : s'.pouring = s.pouring)
    (hnow : s'.now = s.now)
    (hpours : s'.rtHeap.nodesOf RtFunction.isPour =
      s.rtHeap.nodesOf RtFunction.isPour) : PourStatus offset rest s' := by
  cases h with
  | running hr hp => exact .running (hin.trans hr) (hpours.trans hp)
  | pending p ho hp ht =>
    refine .pending p (hin.trans ho) (hpours.trans hp) ?_
    rw [hnow]
    exact ht
  | ended ho hp hr => exact .ended (hin.trans ho) (hpours.trans hp) hr

namespace Pouring

variable {start : ℕ} {offset : T} {l done mid rest moved : List (Node T (RtFunction F G) A)}
  {s : RtState T F G A}

theorem moved_time_le (h : Pouring start offset l s done mid rest moved)
    {x r : Node T (RtFunction F G) A} (hx : x ∈ moved) (hr : r ∈ rest)
    [IsStrictOrderedRing T] : x.time ≤ r.time + offset := by
  obtain ⟨n, hn, hmoved⟩ : ∃ n ∈ mid, MovedTo offset x n := by
    have hto := h.movedTo
    clear h
    induction hto with
    | nil => simp at hx
    | cons hab _ ih =>
      rcases List.mem_cons.mp hx with rfl | hx
      · exact ⟨_, List.mem_cons_self, hab⟩
      · obtain ⟨n, hn, hmoved⟩ := ih hx
        exact ⟨n, List.mem_cons_of_mem _ hn, hmoved⟩
  have hsorted := h.sorted
  rw [h.split] at hsorted
  have hpair := (List.pairwise_append.mp (List.pairwise_append.mp hsorted).2.1).2.2 n hn r hr
  have := Node.time_le_of_key_le hpair.le
  rw [hmoved.time]
  linarith

variable [IsStrictOrderedRing T]

theorem not_due (h : Pouring start offset l s done mid rest moved) (hout : s.pouring = false)
    (hdue : ¬ s.RtDue) : ∀ n ∈ mid ++ rest, ¬ Due s.now (n.time + offset) := by
  have hrt := RtState.not_due_of_not_rtDue h.rtValid hdue
  intro n hn
  rcases List.mem_append.mp hn with hn | hn
  · obtain ⟨x, hx, hmoved⟩ : ∃ x ∈ moved, MovedTo offset x n := by
      have hto := h.movedTo
      clear h
      induction hto with
      | nil => simp at hn
      | cons hab _ ih =>
        rcases List.mem_cons.mp hn with rfl | hn'
        · exact ⟨_, List.mem_cons_self, hab⟩
        · obtain ⟨x, hx, hmoved⟩ := ih (List.mem_append_left _ hn') hn'
          exact ⟨x, List.mem_cons_of_mem _ hx, hmoved⟩
    rw [← hmoved.time]
    have hmem : x ∈ (moved : Multiset (Node T (RtFunction F G) A)) := hx
    rw [h.movedNodes] at hmem
    exact hrt x (Multiset.mem_filter.mp hmem).1
  · cases h.status with
    | running hin _ => exact absurd (hin.symm.trans hout) (by decide)
    | pending p _ hpours htime =>
      rcases htime with htime | ⟨-, hrest⟩
      · have hp : p ∈ s.rtHeap.nodes :=
          (Multiset.mem_filter.mp (hpours ▸ Multiset.mem_singleton_self p)).1
        refine absurd ?_ (hrt p hp)
        unfold Due
        rw [htime]
        linarith
      · exact hrest n hn
    | ended _ _ hrest =>
      rw [hrest] at hn
      simp at hn

theorem calledInOrder (h : Pouring start offset l s done mid rest moved) :
    CalledInOrder start offset l s :=
  ⟨done, mid ++ rest, h.split, h.calls, fun hout hdue => h.not_due hout hdue⟩

omit [IsStrictOrderedRing T] in
theorem callOf (h : Pouring start offset l s done mid rest moved)
    {n : Node T (RtFunction F G) A} {f : F} {time : T} {args : List A} (hn : n ∈ mid ++ rest)
    (htime : time = n.time + offset) (hf : n.function = .body f) (hargs : n.args = args)
    (hdue : Due s.now time) : CallOf start offset ⟨s.now, time, f, args⟩ n := by
  refine ⟨htime, hf, hargs, ⟨h.started, hdue⟩, ?_⟩
  intro m hm
  by_contra hlt
  exact h.fresh n hn m hm.1 (not_le.mp hlt) (htime ▸ hm.2)

omit [IsStrictOrderedRing T] in
theorem schedLoop_body (h : Pouring start offset l s done mid rest moved) (hdue : s.RtDue)
    {f : F} (hf : (s.rtHeap.data rootNode).function = .body f) :
    ∃ done mid rest moved, Pouring start offset l s.schedLoopStep done mid rest moved := by
  obtain ⟨hroot, -, -, -, hnodes⟩ := getHeap_spec hdue.1 h.rtValid.ordered
  have hmoved := h.movedNodes
  rw [h.rtValid.nodesOf_getHeap hdue.1, if_pos (by rw [hf]; rfl)] at hmoved
  obtain ⟨moved', rfl, hmoved', hsorted'⟩ := sorted_eq_cons hmoved h.movedOrder
    fun y hy => h.rtValid.root_lt hnodes (Heap.mem_nodesOf.mp hy).1
  obtain ⟨n, mid', hn, hmid', rfl⟩ := List.forall₂_cons_left_iff.mp h.movedTo
  have hpours : (getHeap s.rtHeap).2.nodesOf RtFunction.isPour = s.rtHeap.nodesOf RtFunction.isPour := by
    rw [h.rtValid.nodesOf_getHeap hdue.1, if_neg (by simp [hf])]
  have hstep : s.schedLoopStep =
      { s with
        rtHeap := (getHeap s.rtHeap).2
        calls := s.calls ++ [⟨s.now, (s.rtHeap.data rootNode).time, f,
          (s.rtHeap.data rootNode).args⟩] } := by
    simp only [RtState.schedLoopStep, RtState.callNodeFunction, hroot, hf]
  have hcall := h.callOf (n := n) (by simp) hn.time (hn.function ▸ hf) hn.args.symm hdue.2
  rw [hstep]
  refine ⟨done ++ [n], mid', rest, moved', ?_⟩
  exact {
    split := by simpa using h.split
    sorted := h.sorted
    bodies := h.bodies
    calls := List.rel_append h.calls (.cons hcall .nil)
    tmpValid := h.tmpValid
    tmpOffset := h.tmpOffset
    tmpOrder := h.tmpOrder
    rtValid := getHeap_valid h.rtValid
    movedNodes := hmoved'
    movedOrder := hsorted'
    movedTo := hmid'
    started := h.started
    fresh := fun x hx => h.fresh x (List.mem_cons_of_mem n hx)
    status := h.status.congr rfl rfl hpours }

omit [IsStrictOrderedRing T] in
theorem schedLoop (h : Pouring start offset l s done mid rest moved) (hdue : s.RtDue) :
    ∃ done mid rest moved, Pouring start offset l s.schedLoopStep done mid rest moved := by
  obtain ⟨hroot, -⟩ := getHeap_spec hdue.1 h.rtValid.ordered
  have hbodies := h.rtValid.nodesOf_getHeap hdue.1 RtFunction.isBody
  have hpours := h.rtValid.nodesOf_getHeap hdue.1 RtFunction.isPour
  cases hf : (s.rtHeap.data rootNode).function with
  | body f => exact h.schedLoop_body hdue hf
  | pourOnRtHeap =>
    rw [hf, if_neg (by simp)] at hbodies
    rw [hf, if_pos (by simp)] at hpours
    have hnone : (getHeap s.rtHeap).2.nodesOf RtFunction.isPour = 0 := by
      have hcard : (s.rtHeap.nodesOf RtFunction.isPour).card ≤ 1 := by
        cases h.status with
        | running _ hpours => simp [hpours]
        | pending p _ hpours _ => simp [hpours]
        | ended _ hpours _ => simp [hpours]
      rw [hpours, Multiset.card_cons] at hcard
      exact Multiset.card_eq_zero.mp (by omega)
    have hstep : s.schedLoopStep =
        { s with rtHeap := (getHeap s.rtHeap).2, pouring := true } := by
      simp only [RtState.schedLoopStep, RtState.callNodeFunction, hroot, hf]
    rw [hstep]
    exact ⟨done, mid, rest, moved, { h with
      rtValid := getHeap_valid h.rtValid
      movedNodes := h.movedNodes.trans hbodies
      status := .running rfl hnone }⟩
  | corruptedHeap | foreign _ =>
    rw [hf, if_neg (by simp)] at hbodies
    rw [hf, if_neg (by simp)] at hpours
    have hstep : s.schedLoopStep = { s with rtHeap := (getHeap s.rtHeap).2 } := by
      simp only [RtState.schedLoopStep, RtState.callNodeFunction, hroot, hf]
    rw [hstep]
    exact ⟨done, mid, rest, moved, { h with
      rtValid := getHeap_valid h.rtValid
      movedNodes := h.movedNodes.trans hbodies
      status := h.status.congr rfl rfl hpours.symm }⟩

omit [IsStrictOrderedRing T] in
theorem no_pour (h : Pouring start offset l s done mid rest moved) (hin : s.pouring = true) :
    s.rtHeap.nodesOf RtFunction.isPour = 0 := by
  cases h.status with
  | running _ hpours => exact hpours
  | pending _ hout _ _ => exact absurd (hin.symm.trans hout) (by decide)
  | ended hout _ _ => exact absurd (hin.symm.trans hout) (by decide)

omit [IsStrictOrderedRing T] in
theorem exists_body (h : Pouring start offset l s done mid rest moved)
    {n : Node T (RtFunction F G) A} (hn : n ∈ mid ++ rest) : ∃ f, n.function = .body f := by
  have hbody := h.bodies n (h.split ▸ List.mem_append_right done hn)
  cases hf : n.function with
  | body f => exact ⟨f, rfl⟩
  | corruptedHeap | pourOnRtHeap | foreign _ => simp [hf] at hbody

section

variable {heapSize : ℕ} (h : Pouring start offset l s done mid rest moved)
include h

theorem pourLoop (hmeets : s.Meets heapSize) (hin : s.pouring = true) (hdue : s.TmpDue) :
    ∃ done mid rest moved, Pouring start offset l s.pourLoopStep done mid rest moved := by
  obtain ⟨rest', hrest, hnode, horder⟩ := h.tmpOrder.getHeap h.tmpValid hdue.1
  have hdue' := hdue.2
  generalize s.tmpHeap.data rootNode = r at *
  subst hrest
  rw [h.tmpOffset] at hdue'
  have hnil : moved = [] := by
    refine List.eq_nil_iff_forall_not_mem.mpr fun x hx => ?_
    have hmem : x ∈ (moved : Multiset (Node T (RtFunction F G) A)) := hx
    rw [h.movedNodes, Heap.mem_nodesOf] at hmem
    have hbefore : x.time ≤ r.time + offset := h.moved_time_le hx List.mem_cons_self
    exact hmeets.settled hin hdue x hmem.1 hmem.2 (hbefore.trans hdue')
  subst hnil
  obtain rfl := List.forall₂_nil_left_iff.mp h.movedTo
  obtain ⟨f, hf⟩ := h.exists_body (n := r) (by simp)
  have hstep : s.pourLoopStep =
      { s with
        tmpHeap := (getHeap s.tmpHeap).2
        calls := s.calls ++ [⟨s.now, r.time + offset, f, r.args⟩] } := by
    simp only [RtState.pourLoopStep, RtState.callNodeFunction, hnode, hf, h.tmpOffset]
  have hcall := h.callOf (n := r) (by simp) rfl hf rfl hdue'
  rw [hstep]
  refine ⟨done ++ [r], [], rest', [], ?_⟩
  exact {
    split := by simpa using h.split
    sorted := h.sorted
    bodies := h.bodies
    calls := List.rel_append h.calls (.cons hcall .nil)
    tmpValid := getHeap_valid h.tmpValid
    tmpOffset := (getHeap_timeOffset _).trans h.tmpOffset
    tmpOrder := horder
    rtValid := h.rtValid
    movedNodes := h.movedNodes
    movedOrder := h.movedOrder
    movedTo := h.movedTo
    started := h.started
    fresh := fun x hx => h.fresh x (List.mem_cons_of_mem r hx)
    status := .running hin (h.no_pour hin) }

theorem moved_append (hroom : s.rtHeap.nextNode < heapSize) {r : Node T (RtFunction F G) A}
    (hr : r ∈ rest) :
    let x := (⟨r.time + offset, s.rtHeap.orderingTag, r.function, r.args⟩ :
      Node T (RtFunction F G) A)
    ((moved ++ [x] : List (Node T (RtFunction F G) A)) : Multiset _) =
      (scheduleAt heapSize s.rtHeap x.time x.function x.args).nodesOf RtFunction.isBody ∧
    (moved ++ [x]).Pairwise (fun a b => a.key < b.key) := by
  intro x
  have hbody : r.function.isBody = true := h.bodies r (by rw [h.split]; simp [hr])
  refine ⟨?_, List.pairwise_append.mpr ⟨h.movedOrder, List.pairwise_singleton _ _, ?_⟩⟩
  · rw [h.rtValid.nodesOf_scheduleAt hroom, if_pos hbody, ← h.movedNodes,
      ← Multiset.coe_add, Multiset.coe_singleton, add_comm, Multiset.singleton_add]
  · intro y hy z hz
    obtain rfl := List.mem_singleton.mp hz
    have hmem : y ∈ (moved : Multiset (Node T (RtFunction F G) A)) := hy
    rw [h.movedNodes, Heap.mem_nodesOf] at hmem
    have hle : y.time ≤ x.time := h.moved_time_le hy hr
    have hlt : y.order < x.order := h.rtValid.used y hmem.1
    rcases lt_or_eq_of_le hle with h₁ | h₁
    · exact Prod.Lex.toLex_lt_toLex.mpr (Or.inl h₁)
    · exact Prod.Lex.toLex_lt_toLex.mpr (Or.inr ⟨h₁, hlt⟩)

theorem pourEnd (hmeets : s.Meets heapSize) (hin : s.pouring = true) (hdue : ¬ s.TmpDue) :
    ∃ done mid rest moved, Pouring start offset l (s.pourEnd heapSize) done mid rest moved := by
  have hlength := h.tmpOrder.length
  have hpos := h.tmpValid.pos
  have htag := hmeets.tag
  by_cases hempty : s.tmpHeap.heapEmpty
  · have hrest : rest = [] := by
      apply List.eq_nil_of_length_eq_zero
      rw [hlength, Heap.heapCount, hempty]
      rfl
    refine ⟨done, mid, rest, moved, ?_⟩
    rw [RtState.pourEnd, if_pos hempty]
    exact { h with status := .ended rfl (h.no_pour hin) hrest }
  have hne : 1 < s.tmpHeap.nextNode := lt_of_le_of_ne hpos (Ne.symm hempty)
  have hroom := hmeets.room hin hdue
  obtain ⟨rest', hrest, hnode, horder⟩ := h.tmpOrder.getHeap h.tmpValid hne
  generalize hr : s.tmpHeap.data rootNode = r at *
  subst hrest
  have hrdue : ¬ Due s.now (r.time + offset) := by
    intro hr'
    refine hdue ⟨hne, ?_⟩
    rwa [hr, h.tmpOffset]
  have hcount : 1 ≤ s.tmpHeap.heapCount := by rw [← hlength]; simp
  have hroom₁ : s.rtHeap.nextNode < heapSize := by omega
  have hbody := h.bodies r (by rw [h.split]; simp)
  obtain ⟨hmovedNodes, hmovedOrder⟩ := h.moved_append hroom₁ (r := r) List.mem_cons_self
  have hmovedTo : List.Forall₂ (MovedTo offset)
      (moved ++ [⟨r.time + offset, s.rtHeap.orderingTag, r.function, r.args⟩]) (mid ++ [r]) :=
    List.rel_append h.movedTo (.cons ⟨rfl, rfl, rfl⟩ .nil)
  have hpours : (scheduleAt heapSize s.rtHeap (r.time + offset) r.function r.args).nodesOf
      RtFunction.isPour = 0 := by
    obtain ⟨f, hf⟩ := h.exists_body (n := r) (by simp)
    rw [h.rtValid.nodesOf_scheduleAt hroom₁, if_neg (by simp [hf]), h.no_pour hin]
  obtain ⟨hnext, hnewTag, -, -⟩ := scheduleAt_spec hroom₁ h.rtValid.pos h.rtValid.ordered
    h.rtValid.used (r.time + offset) r.function r.args
  rw [Nat.mod_eq_of_lt (by omega)] at hnewTag
  have hrtValid := scheduleAt_valid h.rtValid hroom₁ (by omega) (r.time + offset) r.function
    r.args
  rw [RtState.pourEnd, if_neg hempty]
  simp only [hnode, h.tmpOffset]
  split_ifs with hone
  · have hnil : rest' = [] := by
      apply List.eq_nil_of_length_eq_zero
      rw [List.length_cons] at hlength
      omega
    subst hnil
    exact ⟨done, mid ++ [r], [], _, { h with
      split := by simpa using h.split
      tmpValid := getHeap_valid h.tmpValid
      tmpOffset := (getHeap_timeOffset _).trans h.tmpOffset
      tmpOrder := horder
      rtValid := hrtValid
      movedNodes := hmovedNodes
      movedOrder := hmovedOrder
      movedTo := hmovedTo
      fresh := by simpa using h.fresh
      status := .ended rfl hpours rfl }⟩
  · have hroom₂ : (scheduleAt heapSize s.rtHeap (r.time + offset) r.function r.args).nextNode <
        heapSize := by omega
    have hlater : ∀ n ∈ rest', ¬ Due s.now (n.time + offset) := by
      intro n hn hndue
      have hsorted := h.tmpOrder.2
      have hle := Node.time_le_of_key_le ((List.pairwise_cons.mp hsorted).1 n hn).le
      exact hrdue ((add_le_add_left hle offset).trans hndue)
    refine ⟨done, mid ++ [r], rest', _, { h with
      split := by simpa using h.split
      tmpValid := getHeap_valid h.tmpValid
      tmpOffset := (getHeap_timeOffset _).trans h.tmpOffset
      tmpOrder := horder
      rtValid := scheduleAt_valid hrtValid hroom₂ (by omega) _ _ _
      movedNodes := ?_
      movedOrder := hmovedOrder
      movedTo := hmovedTo
      fresh := by simpa using h.fresh
      status := .pending ⟨(s.now : T) + 1, s.rtHeap.orderingTag + 1, .pourOnRtHeap, []⟩ rfl ?_
        (Or.inr ⟨rfl, hlater⟩) }⟩
    · rw [hrtValid.nodesOf_scheduleAt hroom₂, if_neg (by simp), ← hmovedNodes]
    · rw [hrtValid.nodesOf_scheduleAt hroom₂, if_pos (by simp), hpours, hnewTag]
      rfl

end

omit [IsStrictOrderedRing T] in
theorem foreign (h : Pouring start offset l s done mid rest moved) {heapSize : ℕ}
    (hmeets : s.Meets heapSize) (time : T) (g : G) (args : List A) :
    Pouring start offset l
      { s with rtHeap := scheduleAt heapSize s.rtHeap time (.foreign g) args }
      done mid rest moved := by
  rcases Nat.lt_or_ge s.rtHeap.nextNode heapSize with hroom | hfull
  · have htag := hmeets.tag
    refine { h with
      rtValid := scheduleAt_valid h.rtValid hroom (by omega) time _ args
      movedNodes := ?_
      status := h.status.congr rfl rfl ?_ }
    · rw [h.rtValid.nodesOf_scheduleAt hroom, if_neg (by simp), h.movedNodes]
    · rw [h.rtValid.nodesOf_scheduleAt hroom, if_neg (by simp)]
  · rw [scheduleAt_full hfull]
    exact h

theorem tick (h : Pouring start offset l s done mid rest moved) (hout : s.pouring = false)
    (hdue : ¬ s.RtDue) :
    Pouring start offset l { s with now := s.now + 1 } done mid rest moved := by
  have hnot := h.not_due hout hdue
  refine { h with
    started := h.started.trans (Nat.le_succ s.now)
    fresh := fun n hn m hm hlt => ?_
    status := ?_ }
  · rcases Nat.lt_succ_iff_lt_or_eq.mp hlt with hlt | rfl
    · exact h.fresh n hn m hm hlt
    · exact hnot n hn
  · cases h.status with
    | running hin _ => exact absurd (hin.symm.trans hout) (by decide)
    | ended _ hpours hrest => exact .ended hout hpours hrest
    | pending p _ hpours htime =>
      refine .pending p hout hpours (Or.inl ?_)
      rcases htime with htime | ⟨htime, -⟩
      · have hp : p ∈ s.rtHeap.nodesOf RtFunction.isPour :=
          hpours ▸ Multiset.mem_singleton_self p
        refine absurd ?_ (RtState.not_due_of_not_rtDue h.rtValid hdue p (Heap.mem_nodesOf.mp hp).1)
        unfold Due
        rw [htime]
        linarith
      · rw [htime]
        push_cast
        rfl

theorem step (h : Pouring start offset l s done mid rest moved) {heapSize : ℕ}
    {u : RtState T F G A} (hmeets : s.Meets heapSize) (hstep : RtState.Step heapSize s u) :
    ∃ done mid rest moved, Pouring start offset l u done mid rest moved := by
  cases hstep with
  | schedLoop _ hdue => exact h.schedLoop hdue
  | pourLoop hin hdue => exact h.pourLoop hmeets hin hdue
  | pourEnd hin hdue => exact h.pourEnd hmeets hin hdue
  | foreign time g args => exact ⟨done, mid, rest, moved, h.foreign hmeets time g args⟩
  | tick hout hdue => exact ⟨done, mid, rest, moved, h.tick hout hdue⟩

theorem run {heapSize : ℕ} {u : RtState T F G A}
    (h : Pouring start offset l s done mid rest moved) (hrun : RtState.Run heapSize s u) :
    ∃ done mid rest moved, Pouring start offset l u done mid rest moved := by
  induction hrun with
  | refl => exact ⟨done, mid, rest, moved, h⟩
  | step _ hmeets hstep ih =>
    obtain ⟨done', mid', rest', moved', h'⟩ := ih
    exact h'.step hmeets hstep

end Pouring

section Runs

variable [IsStrictOrderedRing T] {start : ℕ} {l : List (Node T (RtFunction F G) A)}

/-- In the runs whose steps all meet the condition, the events of the temporary heap are called
in order, each at the first tick where it is due. -/
theorem withSchedule_calledInOrder {crucial : RtFunction F G → Bool} {heapSize : ℕ}
    {rtHeap tmpHeap : Heap T (RtFunction F G) A} (hrt : Reachable crucial heapSize rtHeap)
    (htmp : Reachable crucial heapSize tmpHeap)
    (hforeign : ∀ x ∈ rtHeap.nodes, x.function.isBody = false ∧ x.function.isPour = false)
    (hbodies : ∀ n ∈ tmpHeap.nodes, n.function.isBody = true) (start : ℕ)
    (startTime : Option T) :
    ∃ l, tmpHeap.DispatchOrder l ∧
      ∀ s, RtState.Run heapSize (RtState.withSchedule start startTime rtHeap tmpHeap) s →
        CalledInOrder start
          (RtState.withSchedule start startTime rtHeap tmpHeap).tmpHeap.timeOffset l s := by
  obtain ⟨l, hl⟩ := htmp.valid.1.exists_dispatchOrder _ rfl
  have hbodyNone : rtHeap.nodesOf RtFunction.isBody = 0 := by
    apply Multiset.filter_eq_nil.mpr
    intro x hx
    exact Bool.eq_false_iff.mp (hforeign x hx).1
  have hpourNone : rtHeap.nodesOf RtFunction.isPour = 0 := by
    apply Multiset.filter_eq_nil.mpr
    intro x hx
    exact Bool.eq_false_iff.mp (hforeign x hx).2
  have hstart : Pouring start
      (RtState.withSchedule start startTime rtHeap tmpHeap).tmpHeap.timeOffset l
      (RtState.withSchedule start startTime rtHeap tmpHeap) [] [] l [] := {
    split := rfl
    sorted := hl.2
    bodies := fun n hn => hbodies n (hl.1 ▸ Multiset.mem_coe.mpr hn)
    calls := .nil
    tmpValid := { htmp.valid.1 with }
    tmpOffset := rfl
    tmpOrder := hl
    rtValid := hrt.valid.1
    movedNodes := hbodyNone.symm
    movedOrder := .nil
    movedTo := .nil
    started := le_rfl
    fresh := fun n _ m hm hlt => absurd (hm.trans_lt hlt) (lt_irrefl start)
    status := .running rfl hpourNone }
  refine ⟨l, hl, fun s hrun => ?_⟩
  obtain ⟨done, mid, rest, moved, h⟩ := hstart.run hrun
  exact h.calledInOrder

end Runs

def heapOfEvents (times : List ℚ) : Heap ℚ (RtFunction ℕ Empty) Unit :=
  (run 16 makeHeap (times.zipIdx.map fun (t, i) => .scheduleAt t (.body i) [])).2

theorem heapOfEvents_reachable (times : List ℚ) (hlength : times.length < tagModulus) :
    Reachable (fun _ => false) 16 (heapOfEvents times) :=
  run_reachable _ .makeHeap (by simpa [makeHeap] using hlength)

theorem not_mem_makeHeap_nodes {T F A : Type*} [Zero T] [Inhabited F] {x : Node T F A} :
    x ∉ (makeHeap : Heap T F A).nodes := by
  simp [Heap.nodes, makeHeap, rootNode]

theorem withSchedule_calledInOrder_pair :
    ∃ l, (heapOfEvents [0, 2]).DispatchOrder l ∧
      CalledInOrder 0 0 l
        ((RtState.withSchedule 0 none makeHeap (heapOfEvents [0, 2])).pourLoopStep.pourEnd
          16) := by
  have hbodies : ∀ n ∈ (heapOfEvents [0, 2]).nodes, n.function.isBody = true := by
    intro n hn
    obtain ⟨i, h₁, hi, rfl⟩ := mem_entries.mp hn
    have hnext : (heapOfEvents [0, 2]).nextNode = 3 := by decide +kernel
    have hcases : i = 1 ∨ i = 2 := by omega
    rcases hcases with rfl | rfl
    · decide +kernel
    · decide +kernel
  obtain ⟨l, hl, hrun⟩ := withSchedule_calledInOrder .makeHeap
    (heapOfEvents_reachable [0, 2] (by decide))
    (fun x hx => absurd hx not_mem_makeHeap_nodes) hbodies 0 none
  refine ⟨l, hl, hrun _ (.step (.step .refl ?_ (.pourLoop rfl ?_)) ?_ (.pourEnd rfl ?_))⟩
  · exact ⟨fun _ _ x hx => absurd hx not_mem_makeHeap_nodes,
      fun _ hdue => absurd (by decide +kernel) hdue, by decide⟩
  · decide +kernel
  · exact ⟨fun _ hdue => absurd hdue (by decide +kernel), by decide +kernel, by decide +kernel⟩
  · decide +kernel

/-- Two events at the same time between two ticks: the first one is moved at the first tick, the
second one is called by the callback at the next tick, before the first one. -/
theorem withSchedule_not_calledInOrder :
    Reachable (fun _ => false) 16 (heapOfEvents [5 / 4, 5 / 4]) ∧
    ∃ s, Relation.ReflTransGen (RtState.Step 16)
        (RtState.withSchedule 0 none makeHeap (heapOfEvents [5 / 4, 5 / 4])) s ∧
      ∀ l, (heapOfEvents [5 / 4, 5 / 4]).DispatchOrder l → ¬ CalledInOrder 0 0 l s := by
  have hreach := heapOfEvents_reachable [5 / 4, 5 / 4] (by decide)
  refine ⟨hreach, _, .tail (.tail (.tail (.tail .refl (.pourEnd rfl ?_)) (.tick ?_ ?_))
    (.schedLoop ?_ ?_)) (.pourLoop ?_ ?_), ?_⟩
  · decide +kernel
  · decide +kernel
  · decide +kernel
  · decide +kernel
  · decide +kernel
  · decide +kernel
  · decide +kernel
  · rintro l hl ⟨done, rest, hsplit, hcalls, -⟩
    obtain ⟨l', rfl, -⟩ := hl.getHeap hreach.valid.1 (by decide +kernel)
    cases done with
    | nil => exact absurd (List.forall₂_nil_right_iff.mp hcalls) (by decide +kernel)
    | cons n done =>
      obtain ⟨c, cs, hcall, -, heq⟩ := List.forall₂_cons_right_iff.mp hcalls
      have hsecond := congrArg (List.map Call.function) heq
      rw [show List.map Call.function _ = [1] by decide +kernel] at hsecond
      have hroot : (heapOfEvents [5 / 4, 5 / 4]).data rootNode = n := List.head_eq_of_cons_eq hsplit
      have hfirst : ((heapOfEvents [5 / 4, 5 / 4]).data rootNode).function = .body 0 := by
        decide +kernel
      rw [hroot, hcall.function, ← (List.head_eq_of_cons_eq hsecond)] at hfirst
      exact absurd hfirst (by decide)

end Incudine.EdfHeap

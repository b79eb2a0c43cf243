import Incudine.EdfHeap
import Mathlib.Algebra.GroupWithZero.Nat

/-!
# Scheduling order of the EDF heap

The agenda is the purpose of the heap: a bag of numbered pending events, from which the least one by
time and number is taken. The heap refines it although it compares only times during an insertion
and restarts its ordering tag whenever it is empty.
-/

namespace Incudine.EdfHeap

open Function SiftedHeap

variable {T F A : Type*} [LinearOrder T] [Zero T] [Inhabited F]

def Heap.nodes (h : Heap T F A) : Multiset (Node T F A) := entries h.data h.nextNode

def Heap.HeapProperty (h : Heap T F A) : Prop := Ordered Node.key h.data h.nextNode

/-- The invariant of the heaps between two operations. The tags of the pending nodes are
distinct and already used. -/
structure Heap.Valid (h : Heap T F A) : Prop where
  pos : 1 ≤ h.nextNode
  ordered : h.HeapProperty
  used : ∀ x ∈ h.nodes, x.order < h.orderingTag
  distinct : (h.nodes.map Node.order).Nodup
  idle : h.nextNode = 1 → h.orderingTag = 0

theorem makeHeap_valid : (makeHeap : Heap T F A).Valid where
  pos := le_refl 1
  ordered := fun i h₂ hi => absurd hi (by simp [makeHeap, rootNode]; omega)
  used := fun x hx => by simp [Heap.nodes, makeHeap, rootNode] at hx
  distinct := by simp [Heap.nodes, makeHeap, rootNode]
  idle := fun _ => rfl

omit [Inhabited F] [Zero T] [LinearOrder T] in
@[simp] theorem card_nodes (h : Heap T F A) : h.nodes.card = h.heapCount := by
  simp [Heap.nodes, Heap.heapCount]

omit [Inhabited F] [Zero T] in
theorem scheduleAt_full {heapSize : ℕ} {h : Heap T F A} (hfull : heapSize ≤ h.nextNode) (t : T)
    (f : F) (a : List A) : scheduleAt heapSize h t f a = h := by
  simp [scheduleAt, hfull]

omit [Inhabited F] [Zero T] in
theorem scheduleAt_ordered {κ : Type*} [LinearOrder κ] {key : Node T F A → κ} {heapSize : ℕ}
    {h : Heap T F A} (hroom : h.nextNode < heapSize) (hpos : 1 ≤ h.nextNode)
    (hord : Ordered key h.data h.nextNode) (t : T) (f : F) (a : List A)
    (hlater : ∀ x : Node T F A, t < x.time → key ⟨t, h.orderingTag, f, a⟩ ≤ key x)
    (hearlier : ∀ x ∈ h.nodes, x.time ≤ t → key x ≤ key ⟨t, h.orderingTag, f, a⟩) :
    (scheduleAt heapSize h t f a).nextNode = h.nextNode + 1 ∧
    (scheduleAt heapSize h t f a).orderingTag = (h.orderingTag + 1) % tagModulus ∧
    Ordered key (scheduleAt heapSize h t f a).data (scheduleAt heapSize h t f a).nextNode ∧
    (scheduleAt heapSize h t f a).nodes = ⟨t, h.orderingTag, f, a⟩ ::ₘ h.nodes := by
  have hnfull : ¬ heapSize ≤ h.nextNode := by omega
  have hspec := siftUpLoop_spec ⟨t, h.orderingTag, f, a⟩ (h.nextNode + 1) hlater h.nextNode
    h.data h.nextNode le_rfl hpos (by omega) hord.puncture_last
    (fun i h₁ hi hne => hearlier _ (mem_entries.mpr ⟨i, h₁, by omega, rfl⟩))
    (fun c _ hc hp => by omega)
  have hnew : entries (update h.data h.nextNode ⟨t, h.orderingTag, f, a⟩) (h.nextNode + 1) =
      ⟨t, h.orderingTag, f, a⟩ ::ₘ entries h.data h.nextNode := by
    rw [entries_succ _ hpos, update_self]
    congr 1
    exact entries_congr fun i _ hi => update_of_ne (by omega) _ _
  simp only [scheduleAt, hnfull, if_false, Heap.nodes]
  exact ⟨trivial, trivial, hspec.1, hspec.2.trans hnew⟩

omit [Inhabited F] [Zero T] in
theorem scheduleAt_spec {heapSize : ℕ} {h : Heap T F A} (hroom : h.nextNode < heapSize)
    (hpos : 1 ≤ h.nextNode) (hord : h.HeapProperty)
    (hused : ∀ x ∈ h.nodes, x.order < h.orderingTag) (t : T) (f : F) (a : List A) :
    (scheduleAt heapSize h t f a).nextNode = h.nextNode + 1 ∧
    (scheduleAt heapSize h t f a).orderingTag = (h.orderingTag + 1) % tagModulus ∧
    (scheduleAt heapSize h t f a).HeapProperty ∧
    (scheduleAt heapSize h t f a).nodes = ⟨t, h.orderingTag, f, a⟩ ::ₘ h.nodes := by
  refine scheduleAt_ordered hroom hpos hord t f a (fun x hlt => ?_) fun x hx hle => ?_
  · exact le_of_lt (Prod.Lex.toLex_lt_toLex.mpr (Or.inl hlt))
  · rcases lt_or_eq_of_le hle with hlt | heq
    · exact le_of_lt (Prod.Lex.toLex_lt_toLex.mpr (Or.inl hlt))
    · exact le_of_lt (Prod.Lex.toLex_lt_toLex.mpr (Or.inr ⟨heq, hused x hx⟩))

omit [Inhabited F] [Zero T] in
theorem scheduleAt_valid {heapSize : ℕ} {h : Heap T F A} (hv : h.Valid)
    (hroom : h.nextNode < heapSize) (htag : h.orderingTag + 1 < tagModulus) (t : T) (f : F)
    (a : List A) : (scheduleAt heapSize h t f a).Valid := by
  obtain ⟨hnext, hnewTag, hord, hnodes⟩ :=
    scheduleAt_spec hroom hv.pos hv.ordered hv.used t f a
  rw [Nat.mod_eq_of_lt htag] at hnewTag
  refine ⟨by omega, hord, ?_, ?_, fun h₁ => ?_⟩
  · intro x hx
    rw [hnodes, Multiset.mem_cons] at hx
    rcases hx with rfl | hx
    · exact hnewTag ▸ Nat.lt_succ_self h.orderingTag
    · have := hv.used x hx
      omega
  · rw [hnodes, Multiset.map_cons, Multiset.nodup_cons]
    refine ⟨fun hmem => ?_, hv.distinct⟩
    obtain ⟨x, hx, hxo⟩ := Multiset.mem_map.mp hmem
    exact absurd hxo (hv.used x hx).ne
  · have := hv.pos
    omega

variable {h : Heap T F A}

theorem getHeap_empty (he : h.nextNode = 1) : getHeap h = (makeNode, h) := by
  simp [getHeap, he, rootNode]

theorem getHeap_ordered {κ : Type*} [LinearOrder κ] {key : Node T F A → κ}
    (hkey : ∀ x y : Node T F A, x.key ≤ y.key → key x ≤ key y) (hne : 1 < h.nextNode)
    (hord : Ordered key h.data h.nextNode) :
    (getHeap h).1 = h.data rootNode ∧
    (getHeap h).2.nextNode = h.nextNode - 1 ∧
    (getHeap h).2.orderingTag = (if h.nextNode - 1 = 1 then 0 else h.orderingTag) ∧
    Ordered key (getHeap h).2.data (getHeap h).2.nextNode ∧
    h.nodes = h.data rootNode ::ₘ (getHeap h).2.nodes := by
  have hroot : rootNode < h.nextNode := hne
  simp only [getHeap, hroot, if_true]
  generalize hh₁ : ({ h with
    data := update h.data 0 (h.data rootNode), nextNode := h.nextNode - 1 } : Heap T F A) = h₁
  have hdata : h₁.data = update h.data 0 (h.data rootNode) := by rw [← hh₁]
  have hnext : h₁.nextNode = h.nextNode - 1 := by rw [← hh₁]
  have htag : h₁.orderingTag = h.orderingTag := by rw [← hh₁]
  have hsame : ∀ i, 1 ≤ i → h₁.data i = h.data i := fun i hi => by
    rw [hdata, update_of_ne (by omega)]
  have hsucc : h₁.nextNode + 1 = h.nextNode := by omega
  have hp : Punctured key h₁.data (h₁.nextNode + 1) rootNode := by
    rw [hsucc]
    exact (hord.puncture rootNode).congr fun i hi _ _ => hsame i hi
  obtain ⟨ho, he⟩ := reorderHeap_spec hkey h₁ (by omega) hp
  refine ⟨?_, hnext, ?_, ho, ?_⟩
  · rw [reorderHeap_data_zero h₁ (by omega), hdata, update_self]
  · rw [reorderHeap_orderingTag, hnext, htag]
    rfl
  · have h₂ := he (h.data rootNode)
    rw [hsucc] at h₂
    rw [Heap.nodes, Heap.nodes, reorderHeap_nextNode, ← h₂]
    refine entries_congr fun i hi _ => ?_
    by_cases hir : i = rootNode
    · rw [hir, update_self]
    · rw [update_of_ne hir, hsame i hi]

theorem getHeap_spec (hne : 1 < h.nextNode) (hord : h.HeapProperty) :
    (getHeap h).1 = h.data rootNode ∧
    (getHeap h).2.nextNode = h.nextNode - 1 ∧
    (getHeap h).2.orderingTag = (if h.nextNode - 1 = 1 then 0 else h.orderingTag) ∧
    (getHeap h).2.HeapProperty ∧
    h.nodes = h.data rootNode ::ₘ (getHeap h).2.nodes :=
  getHeap_ordered (fun _ _ => id) hne hord

theorem getHeap_valid (hv : h.Valid) : (getHeap h).2.Valid := by
  have hpos := hv.pos
  rcases Nat.lt_or_ge 1 h.nextNode with hne | hle
  · obtain ⟨-, hnext, htag, hord, hnodes⟩ := getHeap_spec hne hv.ordered
    have hdistinct := hv.distinct
    rw [hnodes, Multiset.map_cons, Multiset.nodup_cons] at hdistinct
    refine ⟨by omega, hord, fun x hx => ?_, hdistinct.2, fun h₁ => ?_⟩
    · have hused := hv.used x (by rw [hnodes]; exact Multiset.mem_cons_of_mem hx)
      rw [htag]
      split_ifs with hlast
      · have hempty : (getHeap h).2.nodes = 0 := by
          rw [Heap.nodes, hnext, hlast, entries_one]
        simp [hempty] at hx
      · exact hused
    · rw [htag, if_pos (by omega)]
  · rw [getHeap_empty (by omega)]
    exact hv

structure Event (T F A : Type*) where
  time : T
  seq : ℕ
  function : F
  args : List A

def Event.key (e : Event T F A) : T ×ₗ ℕ := toLex (e.time, e.seq)

structure Agenda (T F A : Type*) where
  pending : Multiset (Event T F A)
  scheduled : ℕ

inductive Op (T F A : Type*) where
  | scheduleAt (time : T) (function : F) (args : List A)
  | getHeap

inductive Agenda.Step : Agenda T F A → Op T F A → Option (Event T F A) → Agenda T F A → Prop
  | scheduleAt (p k t f a) :
      Agenda.Step ⟨p, k⟩ (.scheduleAt t f a) none ⟨⟨t, k, f, a⟩ ::ₘ p, k + 1⟩
  | getHeap (e p k) (least : ∀ e' ∈ p, e.key < e'.key) :
      Agenda.Step ⟨e ::ₘ p, k⟩ .getHeap (some e) ⟨p, k⟩
  | idle (k) : Agenda.Step ⟨0, k⟩ .getHeap none ⟨0, k⟩

inductive Agenda.Run :
    Agenda T F A → List (Op T F A) → List (Option (Event T F A)) → Agenda T F A → Prop
  | nil (a) : Agenda.Run a [] [] a
  | cons {a b c op ops e es} (step : Agenda.Step a op e b) (tail : Agenda.Run b ops es c) :
      Agenda.Run a (op :: ops) (e :: es) c

/-- One operation on the heap and the node it returns. -/
def step (heapSize : ℕ) (h : Heap T F A) : Op T F A → Option (Node T F A) × Heap T F A
  | .scheduleAt t f a => (none, scheduleAt heapSize h t f a)
  | .getHeap => (some (getHeap h).1, (getHeap h).2)

def run (heapSize : ℕ) : Heap T F A → List (Op T F A) → List (Option (Node T F A)) × Heap T F A
  | h, [] => ([], h)
  | h, op :: ops =>
    let r := run heapSize (step heapSize h op).2 ops
    ((step heapSize h op).1 :: r.1, r.2)

/-- The node returned by an operation is the delivered event, unaltered. An empty heap returns
the dummy node. -/
inductive Reply : Option (Event T F A) → Option (Node T F A) → Prop
  | scheduled : Reply none none
  | event (e : Event T F A) (n : Node T F A) (htime : n.time = e.time)
      (hfunction : n.function = e.function) (hargs : n.args = e.args) : Reply (some e) (some n)
  | dummy : Reply none (some makeNode)

/-- The load of a sequence of operations, from a heap with `count` pending events and `busy`
events scheduled since it was empty: no event is refused and the tag is never masked. -/
def Admissible (heapSize : ℕ) : ℕ → ℕ → List (Op T F A) → Prop
  | _, _, [] => True
  | count, busy, .scheduleAt _ _ _ :: ops =>
    count + 1 < heapSize ∧ busy + 1 < tagModulus ∧ Admissible heapSize (count + 1) (busy + 1) ops
  | count, busy, .getHeap :: ops =>
    Admissible heapSize (count - 1) (if count - 1 = 0 then 0 else busy) ops

def Node.event (base : ℕ) (n : Node T F A) : Event T F A :=
  ⟨n.time, base + n.order, n.function, n.args⟩

omit [Zero T] [Inhabited F] in
theorem Node.event_key_lt {base : ℕ} {m n : Node T F A} (h : m.key < n.key) :
    (m.event base).key < (n.event base).key := by
  rw [Node.key, Node.key, Prod.Lex.toLex_lt_toLex] at h
  rw [Event.key, Event.key, Prod.Lex.toLex_lt_toLex]
  rcases h with h | ⟨h, ho⟩
  · exact Or.inl h
  · exact Or.inr ⟨h, Nat.add_lt_add_left ho base⟩

/-- The heap holds the pending events of the agenda. The tag counts the events scheduled since
the heap was empty. -/
structure Refines (h : Heap T F A) (a : Agenda T F A) (base : ℕ) : Prop where
  valid : h.Valid
  pending : a.pending = h.nodes.map (Node.event base)
  scheduled : a.scheduled = base + h.orderingTag

omit [Zero T] [Inhabited F] in
theorem Heap.Valid.root_lt {h : Heap T F A} (hv : h.Valid) {rest : Multiset (Node T F A)}
    (hnodes : h.nodes = h.data rootNode ::ₘ rest) {x : Node T F A} (hx : x ∈ rest) :
    (h.data rootNode).key < x.key := by
  have hle : (h.data rootNode).key ≤ x.key :=
    hv.ordered.root_le_of_mem (by
      change x ∈ h.nodes
      rw [hnodes]
      exact Multiset.mem_cons_of_mem hx)
  refine lt_of_le_of_ne hle fun heq => ?_
  have hdistinct := hv.distinct
  rw [hnodes, Multiset.map_cons, Multiset.nodup_cons] at hdistinct
  refine hdistinct.1 (Multiset.mem_map.mpr ⟨x, hx, ?_⟩)
  exact (congrArg Prod.snd (toLex.injective heq)).symm

theorem step_refines {heapSize : ℕ} {a : Agenda T F A} {base : ℕ} (hr : Refines h a base)
    (op : Op T F A) (ops : List (Op T F A))
    (hadm : Admissible heapSize h.heapCount h.orderingTag (op :: ops)) :
    ∃ e a' base', Agenda.Step a op e a' ∧ Reply e (step heapSize h op).1 ∧
      Refines (step heapSize h op).2 a' base' ∧
      Admissible heapSize (step heapSize h op).2.heapCount
        (step heapSize h op).2.orderingTag ops := by
  obtain ⟨pending, scheduled⟩ := a
  have hpos := hr.valid.pos
  have hpending : pending = h.nodes.map (Node.event base) := hr.pending
  have hscheduled : scheduled = base + h.orderingTag := hr.scheduled
  cases op with
  | scheduleAt t f args =>
    obtain ⟨hroom, htag, hrest⟩ := hadm
    have hroom' : h.nextNode < heapSize := by
      unfold Heap.heapCount at hroom
      omega
    obtain ⟨hnext, hnewTag, -, hnodes⟩ :=
      scheduleAt_spec hroom' hpos hr.valid.ordered hr.valid.used t f args
    rw [Nat.mod_eq_of_lt htag] at hnewTag
    refine ⟨none, _, base, .scheduleAt pending scheduled t f args, .scheduled,
      ⟨scheduleAt_valid hr.valid hroom' htag t f args, ?_, ?_⟩, ?_⟩
    · simp only [step, hnodes, Multiset.map_cons, Node.event, ← hscheduled]
      rw [hpending]
    · simp only [step, hnewTag]
      omega
    · have hcount : (scheduleAt heapSize h t f args).heapCount = h.heapCount + 1 := by
        unfold Heap.heapCount
        omega
      simp only [step, hcount, hnewTag]
      exact hrest
  | getHeap =>
    rcases Nat.lt_or_ge 1 h.nextNode with hne | hle
    · obtain ⟨hnode, hnext, hnewTag, -, hnodes⟩ := getHeap_spec hne hr.valid.ordered
      -- an empty heap restarts the tag, so the base moves to the events scheduled so far
      refine ⟨some ((h.data rootNode).event base), ⟨(getHeap h).2.nodes.map (Node.event base),
        scheduled⟩, if h.nextNode - 1 = 1 then scheduled else base, ?_, ?_,
        ⟨getHeap_valid hr.valid, ?_, ?_⟩, ?_⟩
      · rw [hpending, hnodes, Multiset.map_cons]
        refine .getHeap _ _ _ fun e' he' => ?_
        obtain ⟨x, hx, rfl⟩ := Multiset.mem_map.mp he'
        exact Node.event_key_lt (hr.valid.root_lt hnodes hx)
      · simp only [step, hnode]
        exact .event _ _ rfl rfl rfl
      · simp only [step]
        split_ifs with hlast
        · have hempty : (getHeap h).2.nodes = 0 := by
            rw [Heap.nodes, hnext, hlast, entries_one]
          simp [hempty]
        · rfl
      · simp only [step, hnewTag]
        split_ifs
        · rfl
        · exact hscheduled
      · have hcount : (getHeap h).2.heapCount = h.heapCount - 1 := by
          unfold Heap.heapCount
          omega
        simp only [step, hcount, hnewTag]
        have hiff : (h.nextNode - 1 = 1) ↔ (h.heapCount - 1 = 0) := by
          unfold Heap.heapCount
          omega
        simpa only [Admissible, hiff] using hadm
    · have hone : h.nextNode = 1 := by omega
      have hempty : h.nodes = 0 := by rw [Heap.nodes, hone, entries_one]
      have htag : h.orderingTag = 0 := hr.valid.idle hone
      have hcount : h.heapCount = 0 := by simp [Heap.heapCount, hone]
      rw [hempty, Multiset.map_zero] at hpending
      subst hpending
      refine ⟨none, _, base, .idle scheduled, ?_, ?_, ?_⟩
      · simp only [step, getHeap_empty hone]
        exact .dummy
      · simp only [step, getHeap_empty hone]
        exact hr
      · simp only [step, getHeap_empty hone, hcount, htag]
        simpa [Admissible, hcount, htag] using hadm

theorem run_refines {heapSize : ℕ} (ops : List (Op T F A)) :
    ∀ {h : Heap T F A} {a : Agenda T F A} {base : ℕ}, Refines h a base →
      Admissible heapSize h.heapCount h.orderingTag ops →
      ∃ es a' base', Agenda.Run a ops es a' ∧ List.Forall₂ Reply es (run heapSize h ops).1 ∧
        Refines (run heapSize h ops).2 a' base' := by
  induction ops with
  | nil => exact fun hr _ => ⟨[], _, _, .nil _, .nil, hr⟩
  | cons op ops ih =>
    intro h a base hr hadm
    obtain ⟨e, b, base₁, hstep, hreply, hr₁, hadm₁⟩ := step_refines hr op ops hadm
    obtain ⟨es, c, base₂, hrun, hreplies, hr₂⟩ := ih hr₁ hadm₁
    exact ⟨e :: es, c, base₂, .cons hstep hrun, .cons hreply hreplies, hr₂⟩

/-- What is pending, without the bookkeeping of the order. -/
def Event.content (e : Event T F A) : T × F × List A := (e.time, e.function, e.args)

def Node.content (n : Node T F A) : T × F × List A := (n.time, n.function, n.args)

/-- From an empty heap, the nodes returned by the operations are the events delivered by the
agenda, and what is left in the heap is what is left in the agenda. -/
theorem edf_scheduling_order (heapSize : ℕ) (ops : List (Op T F A))
    (hadm : Admissible heapSize 0 0 ops) :
    ∃ es a, Agenda.Run ⟨0, 0⟩ ops es a ∧
      List.Forall₂ Reply es (run heapSize makeHeap ops).1 ∧
      (run heapSize makeHeap ops).2.nodes.map Node.content = a.pending.map Event.content := by
  have hinit : Refines (makeHeap : Heap T F A) ⟨0, 0⟩ 0 :=
    ⟨makeHeap_valid, by simp [Heap.nodes, makeHeap, rootNode], rfl⟩
  obtain ⟨es, a, base, hrun, hreplies, hr⟩ := run_refines ops hinit hadm
  refine ⟨es, a, hrun, hreplies, ?_⟩
  rw [hr.pending, Multiset.map_map]
  rfl

theorem edf_scheduling_order_ties :
    ∃ es a, Agenda.Run ⟨0, 0⟩ [.scheduleAt 3 'a' [0], .scheduleAt 3 'b' [1],
        .scheduleAt 1 'c' [], .getHeap, .getHeap] es a ∧
      List.Forall₂ Reply es (run 8 makeHeap [.scheduleAt (3 : ℕ) 'a' [0], .scheduleAt 3 'b' [1],
        .scheduleAt 1 'c' [], .getHeap, .getHeap]).1 ∧
      (run 8 makeHeap [.scheduleAt (3 : ℕ) 'a' [0], .scheduleAt 3 'b' [1],
        .scheduleAt 1 'c' [], .getHeap, .getHeap]).2.nodes.map Node.content =
        a.pending.map Event.content :=
  edf_scheduling_order 8 _ (by simp [Admissible, tagModulus, nFixnumBits])

end Incudine.EdfHeap

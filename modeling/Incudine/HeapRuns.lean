import Incudine.EdfTimes
import Incudine.HeapVector
import Mathlib.Data.List.GetD

/-!
# The runs of a heap

A heap is reached from a new one by the operations on its events and on its vector. `resizeHeap`
copies as many slots as there are pending events, slot 0 included, although it never contains one.
-/

namespace Incudine.EdfHeap

open Function SiftedHeap
open FunctionFifo (nextPowerOfTwo)

variable {T F A : Type*} [Zero T] [Inhabited F] {w : HeapVector T F A} {crucial : F → Bool}

namespace HeapVector

/-- The loop of `resize-heap`. -/
def copySlots (old : List ℕ) : ℕ → List ℕ → List ℕ
  | 0, data => data
  | i + 1, data => (copySlots old i data).set i (old.getD i 0)

def resizeHeap (v : HeapVector T F A) (size : ℕ) : HeapVector T F A :=
  let size := nextPowerOfTwo size
  if size = v.data.length then v
  else
    let data := List.range' v.made size
    { v with
      node := fun m => if m < v.made then v.node m else makeNode
      made := v.made + size
      data := copySlots v.data (min size (v.nextNode - 1)) data }

def maybeResizeEdfHeap (v : HeapVector T F A) (size : ℕ) : HeapVector T F A :=
  let size := nextPowerOfTwo size
  if size = v.data.length then v
  else if v.heapCount < size then v.resizeHeap size
  else v

omit [Zero T] [Inhabited F] in
theorem nextPowerOfTwo_pos (n : ℕ) : 1 ≤ nextPowerOfTwo n := by
  rw [FunctionFifo.nextPowerOfTwo_eq]
  exact Nat.one_le_two_pow

omit [Zero T] [Inhabited F] in
theorem nextPowerOfTwo_two_pow (k : ℕ) : nextPowerOfTwo (2 ^ k) = 2 ^ k := by
  rw [FunctionFifo.nextPowerOfTwo_eq]
  congr 1
  apply le_antisymm
  · exact Nat.size_le.mpr (Nat.sub_lt (Nat.two_pow_pos k) Nat.one_pos)
  · rcases Nat.eq_zero_or_pos k with rfl | hk
    · exact Nat.zero_le _
    · have hhalf : 2 ^ k = 2 * 2 ^ (k - 1) := by rw [← pow_succ', Nat.sub_add_cancel hk]
      have hone : 1 ≤ 2 ^ (k - 1) := Nat.one_le_two_pow
      have hlt : k - 1 < (2 ^ k - 1).size := Nat.lt_size.mpr (by omega)
      omega

omit [Zero T] [Inhabited F] in
theorem nextPowerOfTwo_idem (n : ℕ) : nextPowerOfTwo (nextPowerOfTwo n) = nextPowerOfTwo n := by
  rw [FunctionFifo.nextPowerOfTwo_eq n, nextPowerOfTwo_two_pow]

omit [Zero T] [Inhabited F] in
theorem copySlots_eq (old : List ℕ) (made size : ℕ) :
    ∀ n ≤ size, copySlots old n (List.range' made size) =
      (List.range size).map fun i => if i < n then old.getD i 0 else made + i := by
  intro n
  induction n with
  | zero =>
    intro _
    rw [copySlots, List.range'_eq_map_range]
    simp
  | succ n ih =>
    intro hn
    rw [copySlots, ih (by omega)]
    apply List.ext_getElem
    · simp
    · intro i hi _
      have hsize : i < size := by simpa using hi
      rw [List.getElem_set]
      simp only [List.getElem_map, List.getElem_range]
      by_cases hin : n = i
      · subst hin
        simp
      · have hiff : i < n ↔ i < n + 1 := by omega
        simp [hin, hiff]

/-- The slots refer to distinct nodes, and the next free node is in the vector or follows it. -/
structure InBounds (v : HeapVector T F A) : Prop where
  distinct : v.Distinct
  pos : 1 ≤ v.nextNode
  bounded : v.nextNode ≤ v.data.length

theorem makeHeap_inBounds (size : ℕ) : (makeHeap size : HeapVector T F A).InBounds where
  distinct := ⟨List.nodup_range, fun m hm => List.mem_range.mp hm⟩
  pos := le_rfl
  bounded := by
    rw [makeHeap, List.length_range]
    exact nextPowerOfTwo_pos size

section Resize

variable {v : HeapVector T F A} {size : ℕ}

theorem resizeHeap_same (hsize : nextPowerOfTwo size = v.data.length) : v.resizeHeap size = v :=
  if_pos hsize

theorem resizeHeap_length : (v.resizeHeap size).data.length = nextPowerOfTwo size := by
  by_cases hsize : nextPowerOfTwo size = v.data.length
  · rw [resizeHeap_same hsize, hsize]
  · simp only [resizeHeap, if_neg hsize]
    rw [copySlots_eq _ _ _ _ (min_le_left _ _)]
    simp

@[simp] theorem resizeHeap_nextNode : (v.resizeHeap size).nextNode = v.nextNode := by
  unfold resizeHeap
  dsimp only
  split_ifs <;> rfl

theorem resizeHeap_orderingTag : (v.resizeHeap size).orderingTag = v.orderingTag := by
  unfold resizeHeap
  dsimp only
  split_ifs <;> rfl

theorem resizeHeap_data (hv : v.InBounds) (hsize : nextPowerOfTwo size ≠ v.data.length) (i : ℕ) :
    (v.resizeHeap size).heap.data i =
      if i < min (nextPowerOfTwo size) v.heapCount then v.heap.data i else makeNode := by
  simp only [resizeHeap, if_neg hsize, heap]
  rw [copySlots_eq _ _ _ _ (min_le_left _ _), List.getElem?_map]
  rw [show v.heapCount = v.nextNode - 1 from rfl]
  have hbounded := hv.bounded
  have hpos := hv.pos
  rcases Nat.lt_or_ge i (nextPowerOfTwo size) with hi | hi
  · rw [List.getElem?_range hi, Option.map_some, Option.elim_some]
    by_cases hcopied : i < min (nextPowerOfTwo size) (v.nextNode - 1)
    · have hlength : i < v.data.length := by omega
      have hmade := hv.distinct.made v.data[i] (List.getElem_mem hlength)
      rw [if_pos hcopied, if_pos hcopied, List.getD_eq_getElem _ _ hlength, if_pos hmade,
        List.getElem?_eq_getElem hlength, Option.elim_some]
    · rw [if_neg hcopied, if_neg hcopied, if_neg (Nat.not_lt.mpr (Nat.le_add_right _ _))]
  · rw [List.getElem?_eq_none (by simpa using hi), if_neg (by omega)]
    rfl

theorem resizeHeap_inBounds (hv : v.InBounds) (hadmits : v.heapCount < nextPowerOfTwo size) :
    (v.resizeHeap size).InBounds := by
  by_cases hsize : nextPowerOfTwo size = v.data.length
  · rw [resizeHeap_same hsize]
    exact hv
  · have hpos := hv.pos
    have hbounded := hv.bounded
    have hold : ∀ i < min (nextPowerOfTwo size) (v.nextNode - 1),
        v.data.getD i 0 ∈ v.data ∧ ∀ j < min (nextPowerOfTwo size) (v.nextNode - 1),
          v.data.getD i 0 = v.data.getD j 0 → i = j := by
      intro i hi
      have hlength : i < v.data.length := by omega
      rw [List.getD_eq_getElem _ _ hlength]
      refine ⟨List.getElem_mem hlength, fun j hj heq => ?_⟩
      rw [List.getD_eq_getElem _ _ (by omega : j < v.data.length)] at heq
      exact hv.distinct.nodup.getElem_inj_iff.mp heq
    refine ⟨⟨?_, ?_⟩, by simpa using hpos, ?_⟩
    · simp only [resizeHeap, if_neg hsize]
      rw [copySlots_eq _ _ _ _ (min_le_left _ _)]
      refine List.nodup_range.map_on fun i hi j hj heq => ?_
      split_ifs at heq with hi' hj' hj'
      · exact (hold i hi').2 j hj' heq
      · have := hv.distinct.made _ (hold i hi').1
        omega
      · have := hv.distinct.made _ (hold j hj').1
        omega
      · omega
    · simp only [resizeHeap, if_neg hsize]
      rw [copySlots_eq _ _ _ _ (min_le_left _ _)]
      intro m hm
      obtain ⟨i, hi, rfl⟩ := List.mem_map.mp hm
      rw [List.mem_range] at hi
      split_ifs with hi'
      · have := hv.distinct.made _ (hold i hi').1
        omega
      · omega
    · rw [resizeHeap_length, resizeHeap_nextNode]
      unfold heapCount at hadmits
      omega

end Resize

section Runs

variable [LinearOrder T]

inductive Op (T F A : Type*) where
  | scheduleAt (heapSize : ℕ) (time : T) (function : F) (args : List A)
  | getHeap
  | unscheduleIf (test : T → F → List A → Bool)
  | flushPending (heapSize : ℕ)
  | resizeHeap (size : ℕ)
  | heapPoolPop

/-- One operation in bounds. The last two operations on the events are given by their effect on
the contents of the slots. A resize admits the pending events. -/
inductive Step (crucial : F → Bool) : HeapVector T F A → Op T F A → HeapVector T F A → Prop
  | scheduleAt {v w} (heapSize t f a) (h : v.scheduleAt heapSize t f a = some w) :
      Step crucial v (.scheduleAt heapSize t f a) w
  | getHeap {v n w} (h : v.getHeap = some (n, w)) : Step crucial v .getHeap w
  | unscheduleIf {v w} (test) (h : w.Contains v (EdfHeap.unscheduleIf crucial test v.heap)) :
      Step crucial v (.unscheduleIf test) w
  | flushPending {v w} (heapSize)
      (h : w.Contains v (ignoreNonCrucialEvents crucial heapSize v.heap)) :
      Step crucial v (.flushPending heapSize) w
  | resizeHeap {v} (size) (h : v.heapCount < nextPowerOfTwo size) :
      Step crucial v (.resizeHeap size) (v.resizeHeap size)
  | heapPoolPop {v} : Step crucial v .heapPoolPop (v.setNextNode rootNode)

/-- The heaps reached from a new one by operations that are allowed where they are called. -/
inductive Reached (crucial : F → Bool) (allowed : HeapVector T F A → Op T F A → Prop) :
    HeapVector T F A → Prop
  | makeHeap (size) : Reached crucial allowed (makeHeap size)
  | step {v op w} (hr : Reached crucial allowed v) (hop : allowed v op)
      (hs : Step crucial v op w) : Reached crucial allowed w

omit [Zero T] [Inhabited F] [LinearOrder T] in
theorem nodeUpdate_none {v : HeapVector T F A} {i : ℕ} (hi : v.data.length ≤ i)
    (n : Node T F A) : v.nodeUpdate i n = none := by
  simp [nodeUpdate, List.getElem?_eq_none hi]

omit [Zero T] [Inhabited F] in
theorem siftUp_outside {v : HeapVector T F A} {curr : ℕ} (hcurr : v.data.length ≤ curr) (t : T)
    (fuel : ℕ) : siftUp t fuel v curr = none ∨ siftUp t fuel v curr = some (v, curr) := by
  cases fuel with
  | zero => exact Or.inr rfl
  | succ fuel =>
    simp only [siftUp]
    split_ifs with hroot
    · cases hparent : v.heapNode (curr / 2) with
      | none => exact Or.inl rfl
      | some n =>
        by_cases hlt : t < n.time
        · exact Or.inl (by simp [hlt, nodeCopy, hparent, nodeUpdate_none hcurr])
        · exact Or.inr (by simp [hlt])
    · exact Or.inr rfl

omit [Zero T] [Inhabited F] in
theorem scheduleAt_none {v : HeapVector T F A} {heapSize : ℕ} (hroom : v.nextNode < heapSize)
    (hbound : v.data.length ≤ v.nextNode) (t : T) (f : F) (a : List A) :
    v.scheduleAt heapSize t f a = none := by
  unfold scheduleAt
  rw [if_neg (by omega)]
  rcases siftUp_outside hbound t v.nextNode with hnone | hsome
  · simp [hnone]
  · simp [hsome, nodeUpdate_none hbound]

omit [LinearOrder T] in
theorem Contains.inBounds {v w : HeapVector T F A} {h : Heap T F A} (hc : w.Contains v h)
    (hv : v.InBounds) (hpos : 1 ≤ h.nextNode) (hle : h.nextNode ≤ v.data.length) : w.InBounds where
  distinct := hc.distinct hv.distinct
  pos := by rwa [hc.nextNode_eq]
  bounded := by rwa [hc.nextNode_eq, hc.data_eq]

theorem scheduleAt_some {v : HeapVector T F A} (hv : v.InBounds) {heapSize : ℕ} {t : T} {f : F}
    {a : List A} (h : v.scheduleAt heapSize t f a = some w) :
    (v.nextNode < heapSize → v.nextNode < v.data.length) ∧
      w.Contains v (EdfHeap.scheduleAt heapSize v.heap t f a) := by
  have hbound : v.nextNode < heapSize → v.nextNode < v.data.length := by
    intro hroom
    by_contra hge
    rw [scheduleAt_none hroom (by omega)] at h
    cases h
  obtain ⟨w', hw, hc⟩ := scheduleAt_eq hv.distinct hbound t f a
  obtain rfl : w' = w := Option.some.inj (hw.symm.trans h)
  exact ⟨hbound, hc⟩

theorem getHeap_some {v : HeapVector T F A} (hv : v.InBounds) {n : Node T F A}
    (h : v.getHeap = some (n, w)) :
    n = (EdfHeap.getHeap v.heap).1 ∧ w.Contains v (EdfHeap.getHeap v.heap).2 := by
  obtain ⟨w', hw, hc⟩ := getHeap_eq hv.distinct hv.bounded
  have heq := Option.some.inj (h.symm.trans hw)
  obtain rfl : w = w' := congrArg Prod.snd heq
  exact ⟨congrArg Prod.fst heq, hc⟩

theorem Step.kept {v : HeapVector T F A} {op : Op T F A} (hs : Step crucial v op w)
    (hv : v.InBounds) {κ : Type*} [LinearOrder κ] {key : Node T F A → κ}
    (hord : v.heap.OrderedBy key)
    (hresize : ∀ size, op = .resizeHeap size → (v.resizeHeap size).heap.OrderedBy key) :
    w.InBounds ∧ w.heap.OrderedBy key := by
  have hbounded := hv.bounded
  cases hs with
  | scheduleAt heapSize t f a h =>
    obtain ⟨hbound, hc⟩ := scheduleAt_some hv h
    obtain ⟨hkept, hle⟩ := hord.scheduleAt heapSize t f a
    refine ⟨hc.inBounds hv hkept.pos ?_, hc.heap_eq ▸ hkept⟩
    rcases Nat.lt_or_ge v.nextNode heapSize with hroom | hfull
    · have := hbound hroom
      rw [heap_nextNode] at hle
      omega
    · rw [scheduleAt_full hfull]
      exact hbounded
  | getHeap h =>
    obtain ⟨-, hc⟩ := getHeap_some hv h
    obtain ⟨hkept, hle⟩ := hord.getHeap
    exact ⟨hc.inBounds hv hkept.pos (hle.trans hbounded), hc.heap_eq ▸ hkept⟩
  | unscheduleIf test hc =>
    obtain ⟨hkept, hle⟩ := hord.scanLoop (doomed crucial test) le_rfl
    exact ⟨hc.inBounds hv hkept.pos (hle.trans hbounded), hc.heap_eq ▸ hkept⟩
  | flushPending heapSize hc =>
    obtain ⟨hkept, hle⟩ := hord.ignoreNonCrucialEvents crucial heapSize
    exact ⟨hc.inBounds hv hkept.pos (hle.trans hbounded), hc.heap_eq ▸ hkept⟩
  | resizeHeap size h => exact ⟨resizeHeap_inBounds hv h, hresize size rfl⟩
  | heapPoolPop =>
    have hlength : rootNode ≤ v.data.length := hv.pos.trans hbounded
    exact ⟨⟨⟨hv.distinct.nodup, hv.distinct.made⟩, le_rfl, hlength⟩, hord.of_empty rfl⟩

theorem Step.inBounds {v : HeapVector T F A} {op : Op T F A} (hs : Step crucial v op w)
    (hv : v.InBounds) : w.InBounds :=
  (hs.kept hv (Heap.orderedBy_const hv.pos) fun size _ =>
    Heap.orderedBy_const (by simpa using hv.pos)).1

theorem Reached.inBounds {allowed : HeapVector T F A → Op T F A → Prop} {v : HeapVector T F A}
    (hr : Reached crucial allowed v) : v.InBounds := by
  induction hr with
  | makeHeap size => exact makeHeap_inBounds size
  | step _ _ hs ih => exact hs.inBounds ih

/-- The vector has the requested size, or nothing is pending, or the last pending node cannot be
told from a new one. -/
def LosesNothing (v : HeapVector T F A) (size : ℕ) : Prop :=
  nextPowerOfTwo size = v.data.length ∨ v.nextNode = rootNode ∨
    v.heap.data v.heapCount = makeNode

omit [LinearOrder T] in
theorem resizeHeap_pending {v : HeapVector T F A} (hv : v.InBounds) {size : ℕ}
    (hadmits : v.heapCount < nextPowerOfTwo size) (hloses : LosesNothing v size) (i : ℕ)
    (h₁ : 1 ≤ i) (hi : i < v.nextNode) : (v.resizeHeap size).heap.data i = v.heap.data i := by
  unfold heapCount at *
  rcases hloses with hsame | hempty | hlast
  · rw [resizeHeap_same hsame]
  · unfold rootNode at hempty
    omega
  · by_cases hsame : nextPowerOfTwo size = v.data.length
    · rw [resizeHeap_same hsame]
    · rw [resizeHeap_data hv hsame]
      split_ifs with hcopied
      · rfl
      · have hi' : i = v.nextNode - 1 := by
          unfold heapCount at hcopied
          omega
        rw [hi', ← hlast]
        rfl

/-- The operation is not a resize that loses an event. -/
def KeepsPending (v : HeapVector T F A) (op : Op T F A) : Prop :=
  ∀ size, op = .resizeHeap size → LosesNothing v size

theorem resizeHeap_orderedBy {κ : Type*} [LinearOrder κ] {key : Node T F A → κ}
    {v : HeapVector T F A} (hv : v.InBounds) (hord : v.heap.OrderedBy key) {size : ℕ}
    (hadmits : v.heapCount < nextPowerOfTwo size) (hloses : LosesNothing v size) :
    (v.resizeHeap size).heap.OrderedBy key where
  mono := hord.mono
  pos := by simpa using hv.pos
  ordered := by
    have hnext : (v.resizeHeap size).heap.nextNode = v.nextNode := resizeHeap_nextNode
    rw [hnext]
    exact hord.ordered.congr (resizeHeap_pending hv hadmits hloses)

theorem Reached.timeOrdered {v : HeapVector T F A} (hr : Reached crucial KeepsPending v) :
    v.heap.OrderedBy Node.time := by
  induction hr with
  | makeHeap size =>
    exact ⟨fun _ _ hle => hle, le_rfl, fun i h₂ hi => by
      change i < 1 at hi
      omega⟩
  | @step v op w hr hop hs ih =>
    have hv := hr.inBounds
    refine (hs.kept hv ih fun size hsize => ?_).2
    subst hsize
    cases hs with
    | resizeHeap _ hadmits => exact resizeHeap_orderedBy hv ih hadmits (hop size rfl)

/-- If no resize of the run loses an event, the next time is the least one. -/
theorem nextTime_least [DecidableEq F] {crucial : F → Bool} {v : HeapVector T F A}
    (hr : Reached crucial KeepsPending v) (function : Option F) (startTime : Option T) :
    NextTimeIsLeast v.heap function startTime :=
  Heap.TimeOrdered.nextTimeIsLeast hr.timeOrdered.ordered function startTime

/-- If no resize of the run loses an event, the last time is the greatest one, unless the heap is
empty and the node of the last result has another time than zero. -/
theorem lastTime_greatest_iff {crucial : F → Bool} {v : HeapVector T F A}
    (hr : Reached crucial KeepsPending v) :
    LastTimeIsGreatest v.heap ↔ ¬ v.heap.heapEmpty ∨ (v.heap.data 0).time = 0 :=
  Heap.TimeOrdered.lastTimeIsGreatest_iff hr.timeOrdered.ordered hr.timeOrdered.pos

end Runs

/-- The new heap of the runs below. The function `false` is the one of the nodes without event. -/
def newHeap : HeapVector ℕ Bool Unit := makeHeap 8

theorem reached_scheduled :
    ∃ v, newHeap.scheduleAt 8 5 true [] = some v ∧ Reached (fun _ => false) KeepsPending v :=
  ⟨_, rfl, .step (.makeHeap 8) (fun _ h => by cases h) (.scheduleAt 8 5 true [] rfl)⟩

/-- The events at 5 and 7 are those of the function, the one at 5 is before the start time. -/
theorem nextTime_least_three :
    ∃ v₁ v₂ v₃, (makeHeap 8 : HeapVector ℕ ℕ Unit).scheduleAt 8 7 1 [] = some v₁ ∧
      (v₁.resizeHeap 6).scheduleAt 8 5 1 [] = some v₂ ∧ v₂.scheduleAt 8 6 2 [] = some v₃ ∧
      nextTime v₃.heap (some 1) (some 6) = 7 ∧ NextTimeIsLeast v₃.heap (some 1) (some 6) := by
  refine ⟨_, _, _, rfl, rfl, rfl, by decide, ?_⟩
  exact @nextTime_least ℕ ℕ Unit _ _ _ _ (fun _ => false) _
    (.step (.step (.step (.step (.makeHeap 8) (fun _ h => by cases h)
      (.scheduleAt 8 7 1 [] rfl)) (fun _ h => by cases h; exact .inl (by decide))
      (.resizeHeap 6 (by decide))) (fun _ h => by cases h) (.scheduleAt 8 5 1 [] rfl))
      (fun _ h => by cases h) (.scheduleAt 8 6 2 [] rfl)) (some 1) (some 6)

theorem lastTime_greatest_iff_three :
    ∃ v₁ v₂ v₃, newHeap.scheduleAt 8 5 true [] = some v₁ ∧
      v₁.scheduleAt 8 7 true [] = some v₂ ∧ v₂.scheduleAt 8 6 true [] = some v₃ ∧
      lastTime v₃.heap = some 7 ∧ LastTimeIsGreatest v₃.heap := by
  refine ⟨_, _, _, rfl, rfl, rfl, by decide, ?_⟩
  exact (@lastTime_greatest_iff ℕ Bool Unit _ _ _ (fun _ => false) _
    (.step (.step (.step (.makeHeap 8) (fun _ h => by cases h) (.scheduleAt 8 5 true [] rfl))
      (fun _ h => by cases h) (.scheduleAt 8 7 true [] rfl)) (fun _ h => by cases h)
      (.scheduleAt 8 6 true [] rfl))).mpr (.inl (by decide))

/-- The only event is removed. The last time of the empty heap is its time. -/
theorem lastTime_not_greatest :
    ∃ v n w, newHeap.scheduleAt 8 5 true [] = some v ∧ v.getHeap = some (n, w) ∧
      Reached (fun _ => false) KeepsPending w ∧ ¬ LastTimeIsGreatest w.heap := by
  obtain ⟨v, hv, hr⟩ := reached_scheduled
  obtain ⟨w, hw, hc⟩ := getHeap_eq hr.inBounds.distinct hr.inBounds.bounded
  have hrw : Reached (fun _ => false) KeepsPending w :=
    .step hr (fun _ h => by cases h) (.getHeap hw)
  refine ⟨v, _, w, hv, hw, hrw, ?_⟩
  rw [Heap.TimeOrdered.lastTimeIsGreatest_iff hrw.timeOrdered.ordered hrw.timeOrdered.pos,
    hc.heap_eq]
  obtain rfl := Option.some.inj hv
  decide

/-- Two events are pending when the heap is resized. The second one is lost, and the node in its
place hides the last event from the search. -/
theorem nextTime_not_least :
    ∃ v₁ v₂ v₃ v₄, newHeap.scheduleAt 8 5 true [] = some v₁ ∧
      v₁.scheduleAt 8 6 true [] = some v₂ ∧
      (v₂.resizeHeap 16).scheduleAt 16 7 true [] = some v₃ ∧
      v₃.scheduleAt 16 3 true [] = some v₄ ∧ Reached (fun _ => false) (fun _ _ => True) v₄ ∧
      ¬ NextTimeIsLeast v₄.heap (some true) none := by
  refine ⟨_, _, _, _, rfl, rfl, rfl, rfl, ?_, ?_⟩
  · refine .step (.step (.step (.step (.step (.makeHeap 8) trivial
      (.scheduleAt 8 5 true [] rfl)) trivial (.scheduleAt 8 6 true [] rfl)) trivial
      (.resizeHeap 16 (by decide))) trivial (.scheduleAt 16 7 true [] rfl)) trivial
      (.scheduleAt 16 3 true [] rfl)
  · rintro (⟨x, -, -, hnext, hleast⟩ | ⟨hnone, -⟩)
    · have hthree := hleast _ (mem_entries.mpr ⟨4, by decide, by decide, rfl⟩)
        ⟨fun f hf => by cases hf; rfl, fun t ht => by cases ht⟩
      rw [← hnext] at hthree
      exact absurd hthree (by decide)
    · exact hnone _ (mem_entries.mpr ⟨1, by decide, by decide, rfl⟩)
        ⟨fun f hf => by cases hf; rfl, fun t ht => by cases ht⟩

end HeapVector

end Incudine.EdfHeap

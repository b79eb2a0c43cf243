import Incudine.EdfDispatch
import Incudine.HeapRuns

/-!
# Resizing a heap with pending events

`resizeHeap` copies as many slots as the pending events, counted from slot 0. The last event is in
the slot that follows, so a new node takes its place.
-/

namespace Incudine.EdfHeap.HeapVector

open Function SiftedHeap
open FunctionFifo (nextPowerOfTwo)

variable {T F A : Type*} [LinearOrder T] [Zero T] [Inhabited F]

def getHeaps : ℕ → HeapVector T F A → Option (List (Node T F A))
  | 0, _ => some []
  | n + 1, v => do
    let (node, v) ← v.getHeap
    let nodes ← getHeaps n v
    some (node :: nodes)

theorem getHeaps_eq (n : ℕ) :
    ∀ {v : HeapVector T F A}, v.InBounds → getHeaps n v = some (dispatch n v.heap) := by
  induction n with
  | zero => exact fun _ => rfl
  | succ n ih =>
    intro v hv
    obtain ⟨w, hw, hc⟩ := getHeap_eq hv.distinct hv.bounded
    obtain ⟨hkept, hle⟩ := (Heap.orderedBy_const (h := v.heap) hv.pos).getHeap
    have hrest := ih (hc.inBounds hv hkept.pos (hle.trans hv.bounded))
    simp only [getHeaps, hw, dispatch]
    simp [hrest, hc.heap_eq]

/-- The events come out of `w` as they would have come out of `v`, the slots of `w` refer to
distinct nodes, as many as requested, and new events can be scheduled until they are used. -/
structure PreservesPending (v w : HeapVector T F A) (size : ℕ) : Prop where
  getHeaps_eq : ∀ n, getHeaps n w = getHeaps n v
  distinct : w.Distinct
  length_eq : w.data.length = nextPowerOfTwo size
  usable : ∀ t f a, ∃ x, w.scheduleAt (nextPowerOfTwo size) t f a = some x ∧
    x.heap = EdfHeap.scheduleAt (nextPowerOfTwo size) w.heap t f a

omit [LinearOrder T] in
theorem maybeResizeEdfHeap_eq {v : HeapVector T F A} {size : ℕ}
    (hadmits : v.heapCount < nextPowerOfTwo size) :
    v.maybeResizeEdfHeap size = v.resizeHeap size := by
  unfold maybeResizeEdfHeap
  by_cases hsame : nextPowerOfTwo size = v.data.length
  · rw [resizeHeap_same hsame]
    exact if_pos hsame
  · dsimp only
    rw [if_neg hsame, if_pos hadmits]
    simp only [resizeHeap, nextPowerOfTwo_idem]

theorem resizeHeap_preserves_iff {v : HeapVector T F A} (hv : v.InBounds) {size : ℕ}
    (hadmits : v.heapCount < nextPowerOfTwo size) :
    PreservesPending v (v.resizeHeap size) size ↔ LosesNothing v size := by
  have hw : (v.resizeHeap size).InBounds := resizeHeap_inBounds hv hadmits
  have hnext : (v.resizeHeap size).nextNode = v.nextNode := resizeHeap_nextNode
  constructor
  · intro hpreserves
    by_contra hloses
    obtain ⟨hsize, hpending, hlast⟩ : nextPowerOfTwo size ≠ v.data.length ∧
        v.nextNode ≠ rootNode ∧ v.heap.data v.heapCount ≠ makeNode := by
      simpa only [LosesNothing, not_or] using hloses
    have hpos := hv.pos
    have hcount : v.nextNode = v.heapCount + 1 := by
      unfold heapCount
      omega
    have hsequence := hpreserves.getHeaps_eq v.heapCount
    rw [getHeaps_eq _ hw, getHeaps_eq _ hv] at hsequence
    have hnodes : (v.resizeHeap size).heap.nodes = v.heap.nodes := by
      rw [← dispatch_nodes v.heapCount (hnext.trans hcount), ← dispatch_nodes v.heapCount hcount,
        Option.some.inj hsequence]
    have hdata := resizeHeap_data hv hsize
    have hbefore : entries (v.resizeHeap size).heap.data v.heapCount =
        entries v.heap.data v.heapCount := by
      refine entries_congr fun i _ hi => ?_
      rw [hdata, if_pos (by omega)]
    have hone : 1 ≤ v.heapCount := by
      unfold rootNode at hpending
      omega
    rw [Heap.nodes, Heap.nodes, heap_nextNode, heap_nextNode, hnext, hcount,
      entries_succ _ hone, entries_succ _ hone, hbefore, Multiset.cons_inj_left, hdata,
      if_neg (by omega)] at hnodes
    exact hlast hnodes.symm
  · intro hloses
    refine ⟨fun n => ?_, hw.distinct, resizeHeap_length, fun t f a => ?_⟩
    · rw [getHeaps_eq n hw, getHeaps_eq n hv]
      refine congrArg some (dispatch_congr n ?_ ⟨hnext, ?_⟩)
      · rw [heap_nextNode, hnext]
        exact hv.pos
      · intro i h₁ hi
        rw [heap_nextNode, hnext] at hi
        exact resizeHeap_pending hv hadmits hloses i h₁ hi
    · obtain ⟨x, hx, hc⟩ := @scheduleAt_eq T F A _ _ _ _ hw.distinct (nextPowerOfTwo size)
        (fun hroom => by rwa [resizeHeap_length]) t f a
      exact ⟨x, hx, hc.heap_eq⟩

/-- The resize, called at the start of the realtime thread or directly, preserves the pending
events if and only if it does not have to move the last one. -/
theorem resize_preserves_iff {crucial : F → Bool}
    {allowed : HeapVector T F A → Op T F A → Prop} {v : HeapVector T F A}
    (hr : Reached crucial allowed v) {size : ℕ} (hadmits : v.heapCount < nextPowerOfTwo size) :
    PreservesPending v (v.resizeHeap size) size ∧
      PreservesPending v (v.maybeResizeEdfHeap size) size ↔ LosesNothing v size := by
  rw [maybeResizeEdfHeap_eq hadmits, and_self]
  exact resizeHeap_preserves_iff hr.inBounds hadmits

theorem resize_preserves_iff_two :
    ∃ v₁ v₂, newHeap.scheduleAt 8 5 true [] = some v₁ ∧
      v₁.scheduleAt 8 6 true [] = some v₂ ∧ v₂.heapCount = 2 ∧
      PreservesPending v₂ (v₂.resizeHeap 7) 7 ∧
      PreservesPending v₂ (v₂.maybeResizeEdfHeap 7) 7 := by
  refine ⟨_, _, rfl, rfl, rfl, ?_⟩
  exact (@resize_preserves_iff ℕ Bool Unit _ _ _ (fun _ => false) KeepsPending _
    (.step (.step (.makeHeap 8) (fun _ h => by cases h) (.scheduleAt 8 5 true [] rfl))
      (fun _ h => by cases h) (.scheduleAt 8 6 true [] rfl)) 7 (by decide)).mpr (.inl (by decide))

/-- The second of two events is lost. -/
theorem resize_not_preserves :
    ∃ v₁ v₂, newHeap.scheduleAt 8 5 true [] = some v₁ ∧
      v₁.scheduleAt 8 6 true [] = some v₂ ∧ Reached (fun _ => false) KeepsPending v₂ ∧
      v₂.heapCount < nextPowerOfTwo 16 ∧ ¬ PreservesPending v₂ (v₂.resizeHeap 16) 16 := by
  have hr : ∀ v₁ v₂, newHeap.scheduleAt 8 5 true [] = some v₁ →
      v₁.scheduleAt 8 6 true [] = some v₂ → Reached (fun _ => false) KeepsPending v₂ :=
    fun v₁ v₂ h₁ h₂ => .step (.step (.makeHeap 8) (fun _ h => by cases h)
      (.scheduleAt 8 5 true [] h₁)) (fun _ h => by cases h) (.scheduleAt 8 6 true [] h₂)
  refine ⟨_, _, rfl, rfl, hr _ _ rfl rfl, by decide, ?_⟩
  rw [resizeHeap_preserves_iff (hr _ _ rfl rfl).inBounds (by decide)]
  unfold LosesNothing
  decide

end Incudine.EdfHeap.HeapVector

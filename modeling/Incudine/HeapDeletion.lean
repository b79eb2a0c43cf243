import Incudine.HeapRuns
import Mathlib.Algebra.Order.Ring.Rat

/-!
# Deletion of an event from the vector

`delete-event` on the nodes of the vector of a heap: the hole goes up to the root by copies of the
contents and the last node is sifted down. The slots are not written.
-/

namespace Incudine.EdfHeap

open Function SiftedHeap

variable {T F A : Type*}

namespace HeapVector

/-- The first loop of `delete-event`. -/
def moveHole : ℕ → HeapVector T F A → ℕ → Option (HeapVector T F A)
  | 0, v, _ => some v
  | fuel + 1, v, child =>
    if child < 2 then some v
    else do
      let v ← v.nodeCopy (child / 2) child
      moveHole fuel v (child / 2)

section Operations

variable [LinearOrder T] [Zero T] [Inhabited F]

/-- The index is halved at every step of the first loop, so `index` steps are enough. -/
def deleteEvent (v : HeapVector T F A) (index : ℕ) : Option (HeapVector T F A) :=
  (if rootNode < index then v.moveHole index index else some v).bind fun v =>
    (v.setNextNode (v.nextNode - 1)).reorderHeap

end Operations

theorem moveHole_succ {v w : HeapVector T F A} {fuel child : ℕ} (h₂ : ¬ child < 2)
    (hcopy : v.nodeCopy (child / 2) child = some w) :
    moveHole (fuel + 1) v child = moveHole fuel w (child / 2) := by
  rw [moveHole, if_neg h₂, hcopy, Option.bind_eq_bind, Option.bind_some]

variable [Zero T] [Inhabited F] {v : HeapVector T F A}

theorem Contains.moveHole (hv : v.Distinct) :
    ∀ fuel {w : HeapVector T F A} {h : Heap T F A} {child : ℕ}, w.Contains v h →
      child < v.data.length →
      ∃ w', HeapVector.moveHole fuel w child = some w' ∧
        w'.Contains v { h with data := EdfHeap.moveHole fuel h.data child } := by
  intro fuel
  induction fuel with
  | zero => exact fun hc _ => ⟨_, rfl, hc⟩
  | succ fuel ih =>
    intro w h child hc hchild
    by_cases h₂ : child < 2
    · rw [HeapVector.moveHole, EdfHeap.moveHole, if_pos h₂, if_pos h₂]
      exact ⟨w, rfl, hc⟩
    · have hparent : child / 2 < v.data.length := by omega
      obtain ⟨w₁, hcopy, hc₁⟩ := hc.nodeCopy hv hparent hchild
      obtain ⟨w₂, hloop, hc₂⟩ := ih hc₁ hparent
      rw [moveHole_succ h₂ hcopy, EdfHeap.moveHole, if_neg h₂]
      exact ⟨w₂, hloop, hc₂⟩

variable [LinearOrder T]

theorem deleteEvent_eq (hv : v.InBounds) {i : ℕ} (h₁ : 1 ≤ i) (hi : i < v.nextNode) :
    ∃ w, v.deleteEvent i = some w ∧ w.Contains v (EdfHeap.deleteEvent v.heap i) := by
  have hbounded := hv.bounded
  have hchild : i < v.data.length := by omega
  have hhole : ∃ w₁, (if rootNode < i then v.moveHole i i else some v) = some w₁ ∧
      w₁.Contains v { v.heap with
        data := if rootNode < i then EdfHeap.moveHole i v.heap.data i else v.heap.data } := by
    by_cases hroot : rootNode < i
    · simp only [if_pos hroot]
      exact Contains.moveHole hv.distinct i (.refl v) hchild
    · simp only [if_neg hroot]
      exact ⟨v, rfl, .refl v⟩
  obtain ⟨w₁, hloop, hc₁⟩ := hhole
  have hnext₁ : w₁.nextNode = v.nextNode := hc₁.nextNode_eq
  obtain ⟨w₂, hreorder, hc₂⟩ := (hc₁.setNextNode (v.nextNode - 1)).reorderHeap hv.distinct
    (by dsimp; omega) (by dsimp; omega)
  refine ⟨w₂, ?_, hc₂⟩
  rw [deleteEvent, hloop, Option.bind_some, hnext₁, hreorder]

end HeapVector

variable [LinearOrder T] [Zero T] [Inhabited F]

/-- The event at the index is removed, the other events are kept once, the heap property is kept
and the slots refer to the same distinct nodes. -/
theorem deleteEvent_sound {v : HeapVector T F A} (hv : v.InBounds) (hord : v.heap.HeapProperty)
    {i : ℕ} (h₁ : 1 ≤ i) (hi : i < v.nextNode) :
    ∃ w, v.deleteEvent i = some w ∧ v.heap.nodes = v.heap.data i ::ₘ w.heap.nodes ∧
      w.nextNode = v.nextNode - 1 ∧ w.heap.HeapProperty ∧ w.data = v.data ∧ w.InBounds := by
  obtain ⟨w, hdelete, hc⟩ := HeapVector.deleteEvent_eq hv h₁ hi
  obtain ⟨hproperty, hnodes⟩ := deleteEvent_spec h₁ hi hord
  have hbounded := hv.bounded
  refine ⟨w, hdelete, ?_, hc.nextNode_eq, ?_, hc.data_eq, hc.inBounds hv ?_ ?_⟩
  · rw [hc.heap_eq]
    exact hnodes
  · rw [hc.heap_eq]
    exact hproperty
  · rw [deleteEvent_nextNode, HeapVector.heap_nextNode]
    omega
  · rw [deleteEvent_nextNode, HeapVector.heap_nextNode]
    omega

/-- Four events. The node of the slot 3 is the node 1. -/
def fourEvents : HeapVector ℚ Unit Unit :=
  { node := fun m => if m = 0 then makeNode else if m = 1 then ⟨9, 2, (), []⟩
      else if m = 2 then ⟨6, 1, (), []⟩ else if m = 3 then ⟨5, 0, (), []⟩ else ⟨8, 3, (), []⟩
    made := 5, data := [0, 3, 2, 1, 4], nextNode := 5
    tempNode := makeNode, timeOffset := 0, orderingTag := 4 }

theorem fourEvents_inBounds : fourEvents.InBounds where
  distinct := ⟨by decide, by decide⟩
  pos := by decide
  bounded := by decide

theorem fourEvents_heapProperty : fourEvents.heap.HeapProperty := by
  intro i h₂ hi
  change i < 5 at hi
  have hcases : i = 2 ∨ i = 3 ∨ i = 4 := by omega
  obtain rfl | rfl | rfl := hcases <;> decide

/-- The node in the slot 2 has a child. -/
theorem deleteEvent_sound_fourEvents :
    ∃ w, fourEvents.deleteEvent 2 = some w ∧
      fourEvents.heap.nodes = ⟨6, 1, (), []⟩ ::ₘ w.heap.nodes ∧ w.nextNode = 4 ∧
      w.heap.HeapProperty ∧ w.data = [0, 3, 2, 1, 4] ∧ w.InBounds :=
  deleteEvent_sound fourEvents_inBounds fourEvents_heapProperty (by decide) (by decide)

end Incudine.EdfHeap

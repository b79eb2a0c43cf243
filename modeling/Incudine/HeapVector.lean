import Incudine.FunctionFifo
import Incudine.UnscheduleIf

/-!
# The vector of a heap

The slots of the vector of a heap refer to preallocated nodes. An access outside of the vector has
no result. If the slots refer to distinct nodes and the next free node is in the vector, the
operations are those on the contents of the slots.
-/

namespace Incudine.EdfHeap

open Function SiftedHeap
open FunctionFifo (nextPowerOfTwo)

variable {T F A : Type*}

/-- The nodes are numbered in the order in which they are made. The slots are numbers of nodes. -/
structure HeapVector (T F A : Type*) where
  node : ℕ → Node T F A
  made : ℕ
  data : List ℕ
  nextNode : ℕ
  tempNode : Node T F A
  timeOffset : T
  orderingTag : ℕ

namespace HeapVector

def heapCount (v : HeapVector T F A) : ℕ := v.nextNode - 1

def heapNode (v : HeapVector T F A) (i : ℕ) : Option (Node T F A) := v.data[i]?.map v.node

def nodeUpdate (v : HeapVector T F A) (i : ℕ) (n : Node T F A) : Option (HeapVector T F A) :=
  v.data[i]?.map fun m => { v with node := update v.node m n }

def nodeCopy (v : HeapVector T F A) (src dest : ℕ) : Option (HeapVector T F A) := do
  let n ← v.heapNode src
  v.nodeUpdate dest n

def setNextNode (v : HeapVector T F A) (i : ℕ) : HeapVector T F A := { v with nextNode := i }

def setTempNode (v : HeapVector T F A) (n : Node T F A) : HeapVector T F A :=
  { v with tempNode := n }

def setOrderingTag (v : HeapVector T F A) (tag : ℕ) : HeapVector T F A :=
  { v with orderingTag := tag }

@[simp] theorem setTempNode_nextNode (v : HeapVector T F A) (n : Node T F A) :
    (v.setTempNode n).nextNode = v.nextNode := rfl

@[simp] theorem setOrderingTag_nextNode (v : HeapVector T F A) (tag : ℕ) :
    (v.setOrderingTag tag).nextNode = v.nextNode := rfl

section Operations

variable [LinearOrder T]

/-- The loop of `schedule-at`. The result has the free index. -/
def siftUp (t₀ : T) : ℕ → HeapVector T F A → ℕ → Option (HeapVector T F A × ℕ)
  | 0, v, curr => some (v, curr)
  | fuel + 1, v, curr =>
    if rootNode < curr then do
      let parent := curr / 2
      let n ← v.heapNode parent
      if t₀ < n.time then
        let v ← v.nodeCopy parent curr
        siftUp t₀ fuel v parent
      else some (v, curr)
    else some (v, curr)

def scheduleAt (heapSize : ℕ) (v : HeapVector T F A) (time : T) (function : F) (args : List A) :
    Option (HeapVector T F A) :=
  if heapSize ≤ v.nextNode then some v
  else do
    let (v, curr) ← siftUp time v.nextNode v v.nextNode
    let v ← v.nodeUpdate curr ⟨time, v.orderingTag, function, args⟩
    let v := v.setOrderingTag ((v.orderingTag + 1) % tagModulus)
    some (v.setNextNode (v.nextNode + 1))

/-- The child that the loop of `get-heap` compares with the temporary node. -/
def leastSister (v : HeapVector T F A) (curr : ℕ) : Option ℕ :=
  let sister := curr + 1
  if sister < v.nextNode then
    (v.heapNode curr).bind fun left =>
      (v.heapNode sister).bind fun right => some (if nodeTimeGt left right then sister else curr)
  else some curr

/-- The loop of `get-heap`. The result has the free index. -/
def siftDown : ℕ → HeapVector T F A → ℕ → ℕ → Option (HeapVector T F A × ℕ)
  | 0, v, parent, _ => some (v, parent)
  | fuel + 1, v, parent, curr =>
    if curr < v.nextNode then
      match v.leastSister curr with
      | none => none
      | some curr => do
        let n ← v.heapNode curr
        if nodeTimeGt v.tempNode n then
          let v ← v.nodeCopy curr parent
          siftDown fuel v curr (2 * curr)
        else some (v, parent)
    else some (v, parent)

variable [Zero T] [Inhabited F]

def nodeMove (v : HeapVector T F A) (src dest : ℕ) : Option (HeapVector T F A) := do
  let v ← v.nodeCopy src dest
  v.nodeUpdate src makeNode

/-- The second half of `get-heap`: `nextNode` already points to the last event. -/
def reorderHeap (v : HeapVector T F A) : Option (HeapVector T F A) := do
  let v ← v.nodeMove v.nextNode rootNode
  let temp ← v.heapNode rootNode
  let v := v.setTempNode temp
  let p : HeapVector T F A × ℕ ← siftDown v.nextNode v rootNode firstParent
  let v ← p.1.nodeUpdate p.2 p.1.tempNode
  some (v.setOrderingTag (if v.nextNode = rootNode then 0 else v.orderingTag))

/-- The node returned is in slot 0, or it is the dummy node if the heap is empty. -/
def getHeap (v : HeapVector T F A) : Option (Node T F A × HeapVector T F A) :=
  if rootNode < v.nextNode then do
    let v ← v.nodeCopy rootNode 0
    let v : HeapVector T F A ← (v.setNextNode (v.nextNode - 1)).reorderHeap
    let n ← v.heapNode 0
    some (n, v)
  else some (makeNode, v)

end Operations

variable [Zero T] [Inhabited F]

def makeHeap (size : ℕ) : HeapVector T F A where
  node _ := makeNode
  made := nextPowerOfTwo size
  data := List.range (nextPowerOfTwo size)
  nextNode := rootNode
  tempNode := makeNode
  timeOffset := 0
  orderingTag := 0

def heap (v : HeapVector T F A) : Heap T F A where
  data i := (v.data[i]?).elim makeNode v.node
  nextNode := v.nextNode
  tempNode := v.tempNode
  timeOffset := v.timeOffset
  orderingTag := v.orderingTag

@[simp] theorem heap_nextNode (v : HeapVector T F A) : v.heap.nextNode = v.nextNode := rfl

@[simp] theorem heap_orderingTag (v : HeapVector T F A) : v.heap.orderingTag = v.orderingTag := rfl

/-- The slots refer to distinct nodes that have been made. -/
structure Distinct (v : HeapVector T F A) : Prop where
  nodup : v.data.Nodup
  made : ∀ m ∈ v.data, m < v.made

structure Contains (w v : HeapVector T F A) (h : Heap T F A) : Prop where
  heap_eq : w.heap = h
  data_eq : w.data = v.data
  made_eq : w.made = v.made

theorem Contains.refl (v : HeapVector T F A) : v.Contains v v.heap := ⟨rfl, rfl, rfl⟩

section Contents

variable {v w : HeapVector T F A} {h : Heap T F A}

section

variable (hc : w.Contains v h)
include hc

theorem Contains.distinct (hv : v.Distinct) : w.Distinct where
  nodup := hc.data_eq ▸ hv.nodup
  made := by
    rw [hc.data_eq, hc.made_eq]
    exact hv.made

theorem Contains.nextNode_eq : w.nextNode = h.nextNode :=
  congrArg Heap.nextNode hc.heap_eq

theorem Contains.tempNode_eq : w.tempNode = h.tempNode :=
  congrArg Heap.tempNode hc.heap_eq

theorem Contains.orderingTag_eq : w.orderingTag = h.orderingTag :=
  congrArg Heap.orderingTag hc.heap_eq

theorem Contains.setNextNode (i : ℕ) : (w.setNextNode i).Contains v { h with nextNode := i } :=
  ⟨by rw [← hc.heap_eq]; rfl, hc.data_eq, hc.made_eq⟩

theorem Contains.setTempNode (n : Node T F A) :
    (w.setTempNode n).Contains v { h with tempNode := n } :=
  ⟨by rw [← hc.heap_eq]; rfl, hc.data_eq, hc.made_eq⟩

theorem Contains.setOrderingTag (tag : ℕ) :
    (w.setOrderingTag tag).Contains v { h with orderingTag := tag } :=
  ⟨by rw [← hc.heap_eq]; rfl, hc.data_eq, hc.made_eq⟩

theorem Contains.heapNode {i : ℕ} (hi : i < v.data.length) : w.heapNode i = some (h.data i) := by
  rw [← hc.data_eq] at hi
  simp [← hc.heap_eq, HeapVector.heapNode, heap, List.getElem?_eq_getElem hi]

theorem Contains.nodeUpdate (hv : v.Distinct) {i : ℕ} (hi : i < v.data.length) (n : Node T F A) :
    ∃ w', w.nodeUpdate i n = some w' ∧ w'.Contains v { h with data := update h.data i n } := by
  have hw := hc.distinct hv
  rw [← hc.data_eq] at hi
  refine ⟨{ w with node := update w.node w.data[i] n }, ?_, ?_, hc.data_eq, hc.made_eq⟩
  · simp [HeapVector.nodeUpdate, List.getElem?_eq_getElem hi]
  · have hdata : (fun j => (w.data[j]?).elim makeNode (update w.node w.data[i] n)) =
        update (fun j => (w.data[j]?).elim makeNode w.node) i n := by
      funext j
      by_cases hji : j = i
      · subst hji
        simp [List.getElem?_eq_getElem hi]
      · rw [update_of_ne hji]
        rcases Nat.lt_or_ge j w.data.length with hj | hj
        · have hne : w.data[j] ≠ w.data[i] := fun heq => hji (hw.nodup.getElem_inj_iff.mp heq)
          simp [List.getElem?_eq_getElem hj, update_of_ne hne]
        · simp [List.getElem?_eq_none hj]
    rw [← hc.heap_eq]
    simp only [heap, hdata]

theorem Contains.nodeCopy (hv : v.Distinct) {src dest : ℕ} (hsrc : src < v.data.length)
    (hdest : dest < v.data.length) :
    ∃ w', w.nodeCopy src dest = some w' ∧
      w'.Contains v { h with data := update h.data dest (h.data src) } := by
  obtain ⟨w', hupdate, hc'⟩ := hc.nodeUpdate hv hdest (h.data src)
  refine ⟨w', ?_, hc'⟩
  simp [HeapVector.nodeCopy, hc.heapNode hsrc, hupdate]

theorem Contains.nodeMove (hv : v.Distinct) {src dest : ℕ} (hsrc : src < v.data.length)
    (hdest : dest < v.data.length) :
    ∃ w', w.nodeMove src dest = some w' ∧ w'.Contains v { h with
      data := update (update h.data dest (h.data src)) src makeNode } := by
  obtain ⟨w₁, hcopy, hc₁⟩ := hc.nodeCopy hv hsrc hdest
  obtain ⟨w₂, hupdate, hc₂⟩ := hc₁.nodeUpdate hv hsrc makeNode
  refine ⟨w₂, ?_, hc₂⟩
  simp [HeapVector.nodeMove, hcopy, hupdate]

end

end Contents

variable [LinearOrder T] {v : HeapVector T F A}

theorem Contains.siftUp (hv : v.Distinct) (t : T) :
    ∀ fuel {w : HeapVector T F A} {h : Heap T F A} {curr : ℕ}, w.Contains v h →
      curr < v.data.length →
      (siftUpLoop t fuel h.data curr).2 ≤ curr ∧
      ∃ w', HeapVector.siftUp t fuel w curr = some (w', (siftUpLoop t fuel h.data curr).2) ∧
        w'.Contains v { h with data := (siftUpLoop t fuel h.data curr).1 } := by
  intro fuel
  induction fuel with
  | zero => exact fun hc _ => ⟨le_rfl, _, rfl, hc⟩
  | succ fuel ih =>
    intro w h curr hc hcurr
    have hparent : curr / 2 < v.data.length := by omega
    simp only [HeapVector.siftUp, siftUpLoop]
    split_ifs with hroot hlt
    · obtain ⟨w₁, hcopy, hc₁⟩ := hc.nodeCopy hv hparent hcurr
      obtain ⟨hle, w₂, hsift, hc₂⟩ := ih hc₁ hparent
      refine ⟨hle.trans (Nat.div_le_self _ _), w₂, ?_, hc₂⟩
      simp [hc.heapNode hparent, hlt, hcopy, hsift]
    · refine ⟨le_rfl, w, ?_, hc⟩
      simp [hc.heapNode hparent, hlt]
    · exact ⟨le_rfl, w, rfl, hc⟩

theorem Contains.leastSister {w : HeapVector T F A} {h : Heap T F A} (hc : w.Contains v h)
    (hnext : h.nextNode ≤ v.data.length) (curr : ℕ) :
    w.leastSister curr = some (leastChild h.nextNode h.data curr) := by
  unfold HeapVector.leastSister leastChild
  rw [hc.nextNode_eq]
  by_cases hsister : curr + 1 < h.nextNode
  · simp [hsister, hc.heapNode (show curr < v.data.length by omega),
      hc.heapNode (show curr + 1 < v.data.length by omega)]
  · simp [hsister]

theorem Contains.siftDown (hv : v.Distinct) :
    ∀ fuel {w : HeapVector T F A} {h : Heap T F A} {parent curr : ℕ}, w.Contains v h →
      h.nextNode ≤ v.data.length → parent < v.data.length →
      (siftDownLoop h.nextNode h.tempNode fuel h.data parent curr).2 < v.data.length ∧
      ∃ w', HeapVector.siftDown fuel w parent curr =
          some (w', (siftDownLoop h.nextNode h.tempNode fuel h.data parent curr).2) ∧
        w'.Contains v { h with
          data := (siftDownLoop h.nextNode h.tempNode fuel h.data parent curr).1 } := by
  intro fuel
  induction fuel with
  | zero => exact fun hc _ hparent => ⟨hparent, _, rfl, hc⟩
  | succ fuel ih =>
    intro w h parent curr hc hnext hparent
    rw [siftDownLoop_succ, HeapVector.siftDown, hc.nextNode_eq, hc.tempNode_eq,
      hc.leastSister hnext]
    by_cases hcurr : curr < h.nextNode
    · rw [if_pos hcurr, if_pos hcurr]
      have hchild := leastChild_eq h.nextNode h.data curr
      generalize leastChild h.nextNode h.data curr = c at hchild
      have hcv : c < v.data.length := by omega
      by_cases hgt : nodeTimeGt h.tempNode (h.data c)
      · obtain ⟨w₁, hcopy, hc₁⟩ := hc.nodeCopy hv hcv hparent
        obtain ⟨hlt, w₂, hsift, hc₂⟩ := @ih w₁ _ c (2 * c) hc₁ hnext hcv
        rw [if_pos hgt]
        refine ⟨hlt, w₂, ?_, hc₂⟩
        simp [hc.heapNode hcv, hgt, hcopy, hsift]
      · rw [if_neg hgt]
        refine ⟨hparent, w, ?_, hc⟩
        simp [hc.heapNode hcv, hgt]
    · rw [if_neg hcurr, if_neg hcurr]
      exact ⟨hparent, w, rfl, hc⟩

theorem scheduleAt_eq (hv : v.Distinct) {heapSize : ℕ}
    (hbound : v.nextNode < heapSize → v.nextNode < v.data.length) (t : T) (f : F) (a : List A) :
    ∃ w, v.scheduleAt heapSize t f a = some w ∧
      w.Contains v (EdfHeap.scheduleAt heapSize v.heap t f a) := by
  unfold scheduleAt EdfHeap.scheduleAt
  by_cases hfull : heapSize ≤ v.nextNode
  · rw [if_pos hfull, if_pos (show heapSize ≤ v.heap.nextNode from hfull)]
    exact ⟨v, rfl, .refl v⟩
  · rw [if_neg hfull, if_neg (show ¬ heapSize ≤ v.heap.nextNode from hfull)]
    have hnext : v.nextNode < v.data.length := hbound (by omega)
    obtain ⟨hle, w₁, hsift, hc₁⟩ := Contains.siftUp hv t v.nextNode (.refl v) hnext
    obtain ⟨w₂, hupdate, hc₂⟩ := hc₁.nodeUpdate hv (lt_of_le_of_lt hle hnext)
      ⟨t, v.orderingTag, f, a⟩
    have htag₁ : w₁.orderingTag = v.orderingTag := hc₁.orderingTag_eq
    have htag₂ : w₂.orderingTag = v.orderingTag := hc₂.orderingTag_eq
    have hnext₂ : w₂.nextNode = v.nextNode := hc₂.nextNode_eq
    refine ⟨(w₂.setOrderingTag ((v.orderingTag + 1) % tagModulus)).setNextNode (v.nextNode + 1),
      ?_, (hc₂.setOrderingTag _).setNextNode _⟩
    simp [hsift, htag₁, hupdate, htag₂, hnext₂]

theorem Contains.reorderHeap {w : HeapVector T F A} {h : Heap T F A} (hc : w.Contains v h)
    (hv : v.Distinct) (hpos : 1 ≤ h.nextNode) (hnext : h.nextNode < v.data.length) :
    ∃ w', w.reorderHeap = some w' ∧ w'.Contains v (EdfHeap.reorderHeap h) := by
  have hroot : rootNode < v.data.length := by
    unfold rootNode
    omega
  have hnext₀ : w.nextNode = h.nextNode := hc.nextNode_eq
  obtain ⟨w₁, hmove, hc₁⟩ := hc.nodeMove hv hnext hroot
  simp only [EdfHeap.reorderHeap]
  generalize update (update h.data rootNode (h.data h.nextNode)) h.nextNode makeNode = d at *
  have hnext₁ : w₁.nextNode = h.nextNode := hc₁.nextNode_eq
  have htemp : w₁.heapNode rootNode = some (d rootNode) := hc₁.heapNode hroot
  obtain ⟨hlt, w₂, hsift, hc₂⟩ := @Contains.siftDown T F A _ _ _ v hv h.nextNode _ _ rootNode
    firstParent (hc₁.setTempNode (d rootNode)) hnext.le hroot
  have htemp₂ : w₂.tempNode = d rootNode := hc₂.tempNode_eq
  obtain ⟨w₃, hupdate, hc₃⟩ := hc₂.nodeUpdate hv hlt (d rootNode)
  have hnext₃ : w₃.nextNode = h.nextNode := hc₃.nextNode_eq
  have htag₃ : w₃.orderingTag = h.orderingTag := hc₃.orderingTag_eq
  refine ⟨w₃.setOrderingTag (if h.nextNode = rootNode then 0 else h.orderingTag), ?_,
    hc₃.setOrderingTag _⟩
  simp [HeapVector.reorderHeap, hnext₀, hmove, htemp, hnext₁, hsift, htemp₂, hupdate, hnext₃,
    htag₃]

theorem getHeap_eq (hv : v.Distinct) (hnext : v.nextNode ≤ v.data.length) :
    ∃ w, v.getHeap = some ((EdfHeap.getHeap v.heap).1, w) ∧
      w.Contains v (EdfHeap.getHeap v.heap).2 := by
  unfold getHeap EdfHeap.getHeap
  by_cases hne : rootNode < v.nextNode
  · rw [if_pos hne, if_pos (show rootNode < v.heap.nextNode from hne)]
    have hroot : rootNode < v.data.length := by omega
    have hzero : 0 < v.data.length := by omega
    obtain ⟨w₁, hcopy, hc₁⟩ := (Contains.refl v).nodeCopy hv hroot hzero
    have hnext₁ : w₁.nextNode = v.nextNode := hc₁.nextNode_eq
    have hc₁' := hc₁.setNextNode (v.nextNode - 1)
    obtain ⟨w₂, hreorder, hc₂⟩ := hc₁'.reorderHeap hv (by unfold rootNode at hne; dsimp; omega)
      (by dsimp; omega)
    refine ⟨w₂, ?_, hc₂⟩
    simp [hcopy, hnext₁, hreorder, hc₂.heapNode hzero]
  · rw [if_neg hne, if_neg (show ¬ rootNode < v.heap.nextNode from hne)]
    exact ⟨v, rfl, .refl v⟩

end HeapVector

end Incudine.EdfHeap

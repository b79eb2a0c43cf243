import Incudine.SiftedHeap
import Mathlib.Data.Prod.Lex
import Mathlib.Data.Nat.Size

/-!
# The earliest-deadline-first heap

The heap is an array of event nodes that are never exchanged: the operations copy the slots of a
node into another one. Node 0 receives the result of `getHeap`, the root is node 1 and `nextNode` is
the first free node. `corrupted-heap` is the function of a node that holds no event.
-/

namespace Incudine.EdfHeap

open Function SiftedHeap

variable {T F A : Type*}

/-- Heap node. Two nodes have different order also if the time is the same. -/
structure Node (T F A : Type*) where
  time : T
  order : ℕ
  function : F
  args : List A
  deriving DecidableEq, Repr

def makeNode [Zero T] [Inhabited F] : Node T F A := ⟨0, 0, default, []⟩

def rootNode : ℕ := 1

def firstParent : ℕ := 2

structure Heap (T F A : Type*) where
  data : ℕ → Node T F A
  nextNode : ℕ
  tempNode : Node T F A
  timeOffset : T
  orderingTag : ℕ

def makeHeap [Zero T] [Inhabited F] : Heap T F A :=
  ⟨fun _ => makeNode, rootNode, makeNode, 0, 0⟩

def Heap.heapEmpty (h : Heap T F A) : Prop := h.nextNode = rootNode

instance (h : Heap T F A) : Decidable h.heapEmpty := inferInstanceAs (Decidable (_ = _))

def Heap.heapCount (h : Heap T F A) : ℕ := h.nextNode - 1

def nFixnumBits : ℕ := 63

def tagModulus : ℕ := 2 ^ (nFixnumBits - 1)

def nodeTimeGt [LT T] (n₀ n₁ : Node T F A) : Prop :=
  n₁.time < n₀.time ∨ n₀.time = n₁.time ∧ n₁.order < n₀.order

instance [LinearOrder T] (n₀ n₁ : Node T F A) : Decidable (nodeTimeGt n₀ n₁) :=
  inferInstanceAs (Decidable (_ ∨ _))

def Node.key (n : Node T F A) : T ×ₗ ℕ := toLex (n.time, n.order)

theorem nodeTimeGt_iff [LinearOrder T] (n₀ n₁ : Node T F A) :
    nodeTimeGt n₀ n₁ ↔ n₁.key < n₀.key := by
  simp only [nodeTimeGt, Node.key, Prod.Lex.toLex_lt_toLex]
  constructor
  · rintro (h | ⟨h, ho⟩)
    · exact Or.inl h
    · exact Or.inr ⟨h.symm, ho⟩
  · rintro (h | ⟨h, ho⟩)
    · exact Or.inl h
    · exact Or.inr ⟨h.symm, ho⟩

section Schedule

variable [LinearOrder T]

/-- The loop of `scheduleAt`: the parents that are later than `t₀` are copied down. The result is
the data and the free index. -/
def siftUpLoop (t₀ : T) : ℕ → (ℕ → Node T F A) → ℕ → (ℕ → Node T F A) × ℕ
  | 0, data, curr => (data, curr)
  | fuel + 1, data, curr =>
    if rootNode < curr then
      let parent := curr / 2
      if t₀ < (data parent).time then
        siftUpLoop t₀ fuel (update data curr (data parent)) parent
      else (data, curr)
    else (data, curr)

/-- Schedule `function` to be called with `args` at `time` samples. The event is ignored if the heap
is full. The index halves at every step, so `nextNode` steps are enough. -/
def scheduleAt (heapSize : ℕ) (h : Heap T F A) (time : T) (function : F) (args : List A) :
    Heap T F A :=
  if heapSize ≤ h.nextNode then h
  else
    let (data, curr) := siftUpLoop time h.nextNode h.data h.nextNode
    { h with
      data := update data curr ⟨time, h.orderingTag, function, args⟩
      orderingTag := (h.orderingTag + 1) % tagModulus
      nextNode := h.nextNode + 1 }

/-- The entry placed by the loop is `e`. Only its time is compared, so the entries that are not
later have to precede it in the order of the heap. -/
theorem siftUpLoop_spec {κ : Type*} [LinearOrder κ] {key : Node T F A → κ} (e : Node T F A)
    (n : ℕ) (hlater : ∀ x : Node T F A, e.time < x.time → key e ≤ key x) :
    ∀ fuel (d : ℕ → Node T F A) curr, curr ≤ fuel → 1 ≤ curr → curr < n →
      Punctured key d n curr →
      (∀ i, 1 ≤ i → i < n → i ≠ curr → (d i).time ≤ e.time → key (d i) ≤ key e) →
      (∀ c, 2 ≤ c → c < n → c / 2 = curr → key e ≤ key (d c)) →
      Ordered key (update (siftUpLoop e.time fuel d curr).1
        (siftUpLoop e.time fuel d curr).2 e) n ∧
      entries (update (siftUpLoop e.time fuel d curr).1
        (siftUpLoop e.time fuel d curr).2 e) n = entries (update d curr e) n := by
  intro fuel
  induction fuel with
  | zero => omega
  | succ fuel ih =>
    intro d curr hf h₁ hn hp hord hbelow
    simp only [siftUpLoop]
    split_ifs with hroot hlt
    · have h₂ : 2 ≤ curr := hroot
      have hbefore : key e ≤ key (d (curr / 2)) := hlater _ hlt
      have hord' : ∀ i, 1 ≤ i → i < n → i ≠ curr / 2 →
          (update d curr (d (curr / 2)) i).time ≤ e.time →
          key (update d curr (d (curr / 2)) i) ≤ key e := by
        intro i hi hin hne
        by_cases hic : i = curr
        · rw [hic, update_self]
          exact hord (curr / 2) (by omega) (by omega) (by omega)
        · rw [update_of_ne hic]
          exact hord i hi hin hic
      have hbelow' : ∀ c, 2 ≤ c → c < n → c / 2 = curr / 2 →
          key e ≤ key (update d curr (d (curr / 2)) c) := by
        intro c hc₂ hc hcp
        by_cases hcc : c = curr
        · rw [hcc, update_self]
          exact hbefore
        · rw [update_of_ne hcc]
          have hside : key (d (curr / 2)) ≤ key (d c) :=
            hcp ▸ hp.edge c hc₂ hc hcc (by omega)
          exact hbefore.trans hside
      obtain ⟨ho, he⟩ := ih (update d curr (d (curr / 2))) (curr / 2) (by omega) (by omega)
        (by omega) (hp.moveUp h₂) hord' hbelow'
      exact ⟨ho, he.trans (entries_move d e (by omega) h₁ hn (by omega) (by omega))⟩
    · refine ⟨hp.fill (fun h₂ => ?_) hbelow, rfl⟩
      exact hord (curr / 2) (by omega) (by omega) (by omega) (not_lt.mp hlt)
    · exact ⟨hp.fill (fun h₂ => absurd h₂ hroot) hbelow, rfl⟩

end Schedule

section Reorder

variable [LinearOrder T]

/-- The loop shared by `getHeap` and `deleteEvent`: the least child is copied up while the
temporary node is later. The result is the data and the free index. -/
def siftDownLoop (next : ℕ) (temp : Node T F A) :
    ℕ → (ℕ → Node T F A) → ℕ → ℕ → (ℕ → Node T F A) × ℕ
  | 0, data, parent, _ => (data, parent)
  | fuel + 1, data, parent, curr =>
    if curr < next then
      let sister := curr + 1
      let curr := if sister < next ∧ nodeTimeGt (data curr) (data sister) then sister else curr
      if nodeTimeGt temp (data curr) then
        siftDownLoop next temp fuel (update data parent (data curr)) curr (2 * curr)
      else (data, parent)
    else (data, parent)

/-- The index of the child that `siftDownLoop` compares with the temporary node. -/
def leastChild (next : ℕ) (data : ℕ → Node T F A) (curr : ℕ) : ℕ :=
  if curr + 1 < next ∧ nodeTimeGt (data curr) (data (curr + 1)) then curr + 1 else curr

theorem siftDownLoop_succ (next : ℕ) (temp : Node T F A) (fuel : ℕ) (data : ℕ → Node T F A)
    (parent curr : ℕ) : siftDownLoop next temp (fuel + 1) data parent curr =
      if curr < next then
        if nodeTimeGt temp (data (leastChild next data curr)) then
          siftDownLoop next temp fuel (update data parent (data (leastChild next data curr)))
            (leastChild next data curr) (2 * leastChild next data curr)
        else (data, parent)
      else (data, parent) := rfl

theorem leastChild_eq (next : ℕ) (data : ℕ → Node T F A) (curr : ℕ) :
    leastChild next data curr = curr ∨
      leastChild next data curr = curr + 1 ∧ curr + 1 < next := by
  unfold leastChild
  split_ifs with h
  · exact Or.inr ⟨rfl, h.1⟩
  · exact Or.inl rfl

theorem leastChild_le {next : ℕ} (data : ℕ → Node T F A) {parent s : ℕ} (hs : s < next)
    (hp : s / 2 = parent) :
    (data (leastChild next data (2 * parent))).key ≤ (data s).key := by
  have hcases : s = 2 * parent ∨ s = 2 * parent + 1 := by omega
  unfold leastChild
  split_ifs with h
  · rw [nodeTimeGt_iff] at h
    rcases hcases with rfl | rfl
    · exact le_of_lt h.2
    · exact le_rfl
  · rcases hcases with rfl | rfl
    · exact le_rfl
    · rw [nodeTimeGt_iff] at h
      exact not_lt.mp fun hlt => h ⟨hs, hlt⟩

theorem siftDownLoop_spec {κ : Type*} [LinearOrder κ] {key : Node T F A → κ}
    (hkey : ∀ x y : Node T F A, x.key ≤ y.key → key x ≤ key y) (n : ℕ) (e : Node T F A) :
    ∀ fuel (d : ℕ → Node T F A) parent, n ≤ parent + fuel → 1 ≤ parent →
      (parent < n ∨ n ≤ 1) → Punctured key d n parent →
      (2 ≤ parent → key (d (parent / 2)) ≤ key e) →
      Ordered key (update (siftDownLoop n e fuel d parent (2 * parent)).1
        (siftDownLoop n e fuel d parent (2 * parent)).2 e) n ∧
      entries (update (siftDownLoop n e fuel d parent (2 * parent)).1
        (siftDownLoop n e fuel d parent (2 * parent)).2 e) n = entries (update d parent e) n := by
  intro fuel
  induction fuel with
  | zero =>
    intro d parent hf h₁ hn hp habove
    exact ⟨hp.fill habove fun c _ hc hcp => by omega, rfl⟩
  | succ fuel ih =>
    intro d parent hf h₁ hn hp habove
    rw [siftDownLoop_succ]
    split_ifs with hcurr hgt
    · have hchild := leastChild_eq n d (2 * parent)
      have hmin : ∀ s, s < n → s / 2 = parent →
          key (d (leastChild n d (2 * parent))) ≤ key (d s) :=
        fun s hs hp => hkey _ _ (leastChild_le d hs hp)
      generalize leastChild n d (2 * parent) = c at hgt hchild hmin ⊢
      have hc : c / 2 = parent := by omega
      have hcn : c < n := by omega
      rw [nodeTimeGt_iff] at hgt
      obtain ⟨ho, he⟩ := ih (update d parent (d c)) c (by omega) (by omega) (Or.inl hcn)
        (hp.moveDown h₁ hc hcn hmin) (fun _ => by
          rw [hc, update_self]
          exact hkey _ _ (le_of_lt hgt))
      refine ⟨ho, he.trans ?_⟩
      exact entries_move d e (by omega) h₁ (by omega) (by omega) hcn
    · rw [nodeTimeGt_iff, not_lt] at hgt
      exact ⟨hp.fill habove fun c _ hc hcp => hkey _ _ (hgt.trans (leastChild_le d hc hcp)), rfl⟩
    · exact ⟨hp.fill habove fun c _ hc hcp => by omega, rfl⟩

end Reorder

section Remove

variable [LinearOrder T] [Zero T] [Inhabited F]

/-- The second half of `getHeap` and `deleteEvent`: the last event, to which `nextNode` already
points, is moved over the root and sifted down. The ordering tag restarts when the heap is empty. -/
def reorderHeap (h : Heap T F A) : Heap T F A :=
  -- node-move, also if the last node is the root
  let data := update h.data rootNode (h.data h.nextNode)
  let data := update data h.nextNode makeNode
  let temp := data rootNode
  let (data, parent) := siftDownLoop h.nextNode temp h.nextNode data rootNode firstParent
  { h with
    data := update data parent temp
    tempNode := temp
    orderingTag := if h.nextNode = rootNode then 0 else h.orderingTag }

/-- The next event, which is copied to node 0, or a dummy node if the heap is empty. -/
def getHeap (h : Heap T F A) : Node T F A × Heap T F A :=
  if rootNode < h.nextNode then
    let h := { h with data := update h.data 0 (h.data rootNode), nextNode := h.nextNode - 1 }
    let h := reorderHeap h
    (h.data 0, h)
  else (makeNode, h)

omit [Zero T] [Inhabited F] in
theorem siftDownLoop_zero (n : ℕ) (e : Node T F A) :
    ∀ fuel (d : ℕ → Node T F A) parent, 1 ≤ parent →
      1 ≤ (siftDownLoop n e fuel d parent (2 * parent)).2 ∧
      (siftDownLoop n e fuel d parent (2 * parent)).1 0 = d 0 := by
  intro fuel
  induction fuel with
  | zero => exact fun d parent h₁ => ⟨h₁, rfl⟩
  | succ fuel ih =>
    intro d parent h₁
    rw [siftDownLoop_succ]
    have hchild := leastChild_eq n d (2 * parent)
    split_ifs
    · obtain ⟨hi, hz⟩ := ih (update d parent (d (leastChild n d (2 * parent))))
        (leastChild n d (2 * parent)) (by omega)
      exact ⟨hi, hz.trans (update_of_ne (by omega) _ _)⟩
    · exact ⟨h₁, rfl⟩
    · exact ⟨h₁, rfl⟩

@[simp] theorem reorderHeap_nextNode (h : Heap T F A) :
    (reorderHeap h).nextNode = h.nextNode := rfl

theorem reorderHeap_orderingTag (h : Heap T F A) :
    (reorderHeap h).orderingTag = if h.nextNode = rootNode then 0 else h.orderingTag := rfl

theorem reorderHeap_data_zero (h : Heap T F A) (hn : 1 ≤ h.nextNode) :
    (reorderHeap h).data 0 = h.data 0 := by
  simp only [reorderHeap]
  obtain ⟨hi, hz⟩ := siftDownLoop_zero h.nextNode
    (update (update h.data rootNode (h.data h.nextNode)) h.nextNode makeNode rootNode)
    h.nextNode (update (update h.data rootNode (h.data h.nextNode)) h.nextNode makeNode)
    rootNode (le_refl 1)
  rw [show firstParent = 2 * rootNode from rfl, update_of_ne (by omega), hz,
    update_of_ne (by omega), update_of_ne (by decide : (0 : ℕ) ≠ rootNode)]

theorem reorderHeap_spec {κ : Type*} [LinearOrder κ] {key : Node T F A → κ}
    (hkey : ∀ x y : Node T F A, x.key ≤ y.key → key x ≤ key y) (h : Heap T F A)
    (hn : 1 ≤ h.nextNode) (hp : Punctured key h.data (h.nextNode + 1) rootNode) :
    Ordered key (reorderHeap h).data h.nextNode ∧
    ∀ x, entries (update h.data rootNode x) (h.nextNode + 1) =
      x ::ₘ entries (reorderHeap h).data h.nextNode := by
  simp only [reorderHeap]
  generalize hd : update (update h.data rootNode (h.data h.nextNode)) h.nextNode makeNode = d
  have hdi : ∀ i, 1 ≤ i → i < h.nextNode → i ≠ rootNode → d i = h.data i := by
    intro i _ hi hne
    rw [← hd, update_of_ne (by omega), update_of_ne hne]
  have hp' : Punctured key d h.nextNode rootNode := (hp.mono (by omega)).congr hdi
  obtain ⟨ho, he⟩ := siftDownLoop_spec hkey h.nextNode (d rootNode) h.nextNode d
    rootNode (by omega) (le_refl 1) (by unfold rootNode; omega) hp' (fun h₂ => absurd h₂ (by decide))
  refine ⟨ho, fun x => ?_⟩
  rw [show firstParent = 2 * rootNode from rfl, he, update_eq_self]
  rcases Nat.lt_or_ge 1 h.nextNode with hlt | hle
  · have hlast : d rootNode = h.data h.nextNode := by
      rw [← hd, update_of_ne (by unfold rootNode; omega), update_self]
    have hdc : entries d h.nextNode =
        entries (update h.data rootNode (h.data h.nextNode)) h.nextNode := by
      refine entries_congr fun i h₁ hi => ?_
      by_cases hir : i = rootNode
      · rw [hir, update_self, hlast]
      · rw [update_of_ne hir, hdi i h₁ hi hir]
    rw [hdc, entries_succ _ hn, update_of_ne (by unfold rootNode; omega)]
    have h₁ := entries_update h.data x (le_refl rootNode) hlt
    have h₂ := entries_update h.data (h.data h.nextNode) (le_refl rootNode) hlt
    apply (Multiset.cons_inj_right (h.data rootNode)).mp
    rw [Multiset.cons_swap, h₁, Multiset.cons_swap, ← h₂, Multiset.cons_swap]
  · have h₁ : h.nextNode = 1 := by omega
    rw [h₁, entries_succ _ le_rfl]
    simp [rootNode]

end Remove

end Incudine.EdfHeap

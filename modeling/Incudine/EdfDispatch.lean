import Incudine.EdfOrder

/-!
# The events returned by successive calls

The sequence of the events that successive calls of `getHeap` return. It depends on the pending
events only, whatever the other slots contain, it consists of the pending events, and in a valid
heap it is their increasing enumeration.
-/

namespace Incudine.EdfHeap

open Function SiftedHeap

variable {T F A : Type*} [LinearOrder T]

structure SameEvents (h g : Heap T F A) : Prop where
  nextNode_eq : h.nextNode = g.nextNode
  data_eq : ∀ i, 1 ≤ i → i < h.nextNode → h.data i = g.data i

theorem siftDownLoop_congr (n : ℕ) (e : Node T F A) :
    ∀ fuel (d d' : ℕ → Node T F A) parent, 1 ≤ parent → (∀ i, 1 ≤ i → i < n → d i = d' i) →
      (siftDownLoop n e fuel d parent (2 * parent)).2 =
        (siftDownLoop n e fuel d' parent (2 * parent)).2 ∧
      ∀ i, 1 ≤ i → i < n → (siftDownLoop n e fuel d parent (2 * parent)).1 i =
        (siftDownLoop n e fuel d' parent (2 * parent)).1 i := by
  intro fuel
  induction fuel with
  | zero => exact fun d d' parent _ hd => ⟨rfl, hd⟩
  | succ fuel ih =>
    intro d d' parent h₁ hd
    rw [siftDownLoop_succ, siftDownLoop_succ]
    by_cases hcurr : 2 * parent < n
    · have hleast : leastChild n d (2 * parent) = leastChild n d' (2 * parent) := by
        unfold leastChild
        by_cases hsister : 2 * parent + 1 < n
        · rw [hd (2 * parent) (by omega) hcurr, hd (2 * parent + 1) (by omega) hsister]
        · simp [hsister]
      have hchild := leastChild_eq n d' (2 * parent)
      rw [if_pos hcurr, if_pos hcurr, hleast]
      generalize leastChild n d' (2 * parent) = c at hchild
      rw [hd c (by omega) (by omega)]
      by_cases hgt : nodeTimeGt e (d' c)
      · rw [if_pos hgt, if_pos hgt]
        refine ih _ _ c (by omega) fun i hi hin => ?_
        by_cases hip : i = parent
        · rw [hip, update_self, update_self]
        · rw [update_of_ne hip, update_of_ne hip, hd i hi hin]
      · rw [if_neg hgt, if_neg hgt]
        exact ⟨rfl, hd⟩
    · rw [if_neg hcurr, if_neg hcurr]
      exact ⟨rfl, hd⟩

variable [Zero T] [Inhabited F]

theorem reorderHeap_congr {h g : Heap T F A} (hpos : 1 ≤ h.nextNode)
    (hnext : h.nextNode = g.nextNode) (hd : ∀ i, 1 ≤ i → i ≤ h.nextNode → h.data i = g.data i) :
    SameEvents (reorderHeap h) (reorderHeap g) := by
  have hmoved : ∀ i, 1 ≤ i → i ≤ h.nextNode →
      update (update h.data rootNode (h.data h.nextNode)) h.nextNode makeNode i =
      update (update g.data rootNode (g.data g.nextNode)) g.nextNode makeNode i := by
    intro i h₁ hi
    rw [← hnext, hd h.nextNode hpos le_rfl]
    by_cases hlast : i = h.nextNode
    · rw [hlast, update_self, update_self]
    · rw [update_of_ne hlast, update_of_ne hlast]
      by_cases hroot : i = rootNode
      · rw [hroot, update_self, update_self]
      · rw [update_of_ne hroot, update_of_ne hroot, hd i h₁ hi]
  refine ⟨hnext, fun i h₁ hi => ?_⟩
  have hi' : i < h.nextNode := hi
  simp only [reorderHeap]
  rw [← hmoved rootNode le_rfl hpos, ← hnext]
  rw [← hnext] at hmoved
  generalize update (update h.data rootNode (h.data h.nextNode)) h.nextNode makeNode = d at *
  generalize update (update g.data rootNode (g.data h.nextNode)) h.nextNode makeNode = d' at *
  obtain ⟨hindex, hdata⟩ := siftDownLoop_congr h.nextNode (d rootNode) h.nextNode d d' rootNode
    le_rfl fun i h₁ hi => hmoved i h₁ hi.le
  rw [show firstParent = 2 * rootNode from rfl, hindex]
  by_cases hip : i = (siftDownLoop h.nextNode (d rootNode) h.nextNode d' rootNode
      (2 * rootNode)).2
  · rw [hip, update_self, update_self]
  · rw [update_of_ne hip, update_of_ne hip, hdata i h₁ hi']

theorem getHeap_removes {h : Heap T F A} (hne : 1 < h.nextNode) :
    (getHeap h).1 = h.data rootNode ∧ (getHeap h).2.nextNode = h.nextNode - 1 ∧
      h.nodes = h.data rootNode ::ₘ (getHeap h).2.nodes := by
  have hconst : ∀ x y : Node T F A, x.key ≤ y.key → () ≤ () := fun _ _ _ => le_rfl
  obtain ⟨hnode, hnext, -, -, hnodes⟩ := getHeap_ordered hconst hne fun _ _ _ => le_rfl
  exact ⟨hnode, hnext, hnodes⟩

theorem getHeap_congr {h g : Heap T F A} (hpos : 1 ≤ h.nextNode) (hs : SameEvents h g) :
    (getHeap h).1 = (getHeap g).1 ∧ SameEvents (getHeap h).2 (getHeap g).2 := by
  have hnext := hs.nextNode_eq
  rcases Nat.eq_or_lt_of_le hpos with hone | hne
  · rw [getHeap_empty hone.symm, getHeap_empty (hnext ▸ hone.symm)]
    exact ⟨rfl, hs⟩
  · refine ⟨?_, ?_⟩
    · rw [(getHeap_removes hne).1, (getHeap_removes (hnext ▸ hne)).1,
        hs.data_eq rootNode le_rfl hne]
    · have hroot : rootNode < h.nextNode := hne
      simp only [getHeap, if_pos hroot, if_pos (hnext ▸ hroot)]
      apply reorderHeap_congr
      · change 1 ≤ h.nextNode - 1
        omega
      · change h.nextNode - 1 = g.nextNode - 1
        rw [hnext]
      · intro i h₁ hi
        change i ≤ h.nextNode - 1 at hi
        change update h.data 0 _ i = update g.data 0 _ i
        rw [update_of_ne (by omega), update_of_ne (by omega), hs.data_eq i h₁ (by omega)]

/-- What the next `n` calls of `getHeap` return. -/
def dispatch : ℕ → Heap T F A → List (Node T F A)
  | 0, _ => []
  | n + 1, h => (getHeap h).1 :: dispatch n (getHeap h).2

theorem dispatch_congr (n : ℕ) :
    ∀ {h g : Heap T F A}, 1 ≤ h.nextNode → SameEvents h g → dispatch n h = dispatch n g := by
  induction n with
  | zero => exact fun _ _ => rfl
  | succ n ih =>
    intro h g hpos hs
    obtain ⟨hnode, hrest⟩ := getHeap_congr hpos hs
    have hpos' : 1 ≤ (getHeap h).2.nextNode := by
      rcases Nat.eq_or_lt_of_le hpos with hone | hne
      · rw [getHeap_empty hone.symm]
        exact hpos
      · rw [(getHeap_removes hne).2.1]
        omega
    rw [dispatch, dispatch, hnode, ih hpos' hrest]

theorem dispatch_nodes (n : ℕ) :
    ∀ {h : Heap T F A}, h.nextNode = n + 1 → (dispatch n h : Multiset (Node T F A)) = h.nodes := by
  induction n with
  | zero =>
    intro h hn
    rw [Heap.nodes, hn, entries_one]
    rfl
  | succ n ih =>
    intro h hn
    obtain ⟨hnode, hnext, hnodes⟩ := getHeap_removes (h := h) (by omega)
    rw [dispatch, ← Multiset.cons_coe, ih (by omega), hnode, hnodes]

theorem dispatch_sorted (n : ℕ) :
    ∀ {h : Heap T F A}, h.Valid → h.nextNode = n + 1 →
      (dispatch n h).Pairwise fun x y => x.key < y.key := by
  induction n with
  | zero => exact fun _ _ => .nil
  | succ n ih =>
    intro h hv hn
    obtain ⟨hnode, hnext, -, -, hnodes⟩ := getHeap_spec (by omega) hv.ordered
    have hnext' : (getHeap h).2.nextNode = n + 1 := by omega
    refine List.pairwise_cons.mpr ⟨fun x hx => ?_, ih (getHeap_valid hv) hnext'⟩
    rw [hnode]
    refine hv.root_lt hnodes ?_
    rw [← dispatch_nodes n hnext']
    exact hx

end Incudine.EdfHeap

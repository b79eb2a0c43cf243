import Incudine.UnscheduleIf
import Mathlib.Algebra.Order.Group.Defs
import Mathlib.Algebra.Order.Group.Int
import Mathlib.Algebra.Order.Sub.Basic
import Mathlib.Algebra.Ring.Int.Defs

/-!
# Starting a score later

The loop rewrites the times in the heap that it scans: an event after the start time is shifted, a
crucial event before it is moved to zero, any other event before it is deleted. A deletion reorders
the heap and the scan resumes at a lower index, where the rewritten events are visited again.
-/

namespace Incudine.EdfHeap

open Function SiftedHeap

variable {T F A : Type*}

def Node.setTime (n : Node T F A) (t : T) : Node T F A := { n with time := t }

@[simp] theorem Node.setTime_time (n : Node T F A) (t : T) : (n.setTime t).time = t := rfl

@[simp] theorem Node.setTime_order (n : Node T F A) (t : T) : (n.setTime t).order = n.order := rfl

def Heap.setTime (h : Heap T F A) (i : ℕ) (t : T) : Heap T F A :=
  { h with data := update h.data i ((h.data i).setTime t) }

@[simp] theorem Heap.setTime_nextNode (h : Heap T F A) (i : ℕ) (t : T) :
    (h.setTime i t).nextNode = h.nextNode := rfl

theorem Heap.setTime_data_of_ne (h : Heap T F A) {i j : ℕ} (t : T) (hne : j ≠ i) :
    (h.setTime i t).data j = h.data j := update_of_ne hne _ _

variable [AddCommGroup T] [LinearOrder T]

/-- An event that is too early and not crucial. -/
def Missed (crucial : F → Bool) (startTime : T) (n : Node T F A) : Prop :=
  n.time < startTime ∧ crucial n.function = false

instance (crucial : F → Bool) (startTime : T) (n : Node T F A) :
    Decidable (Missed crucial startTime n) := inferInstanceAs (Decidable (_ ∧ _))

def advanceNode (startTime : T) (n : Node T F A) : Node T F A :=
  n.setTime (if startTime ≤ n.time then n.time - startTime else 0)

section Loop

variable [Inhabited F]

def advanceLoop (crucial : F → Bool) (startTime : T) (h : Heap T F A) (i : ℕ) : Heap T F A :=
  if h.nextNode ≤ i then h
  else
    let node := h.data i
    if startTime ≤ node.time then
      advanceLoop crucial startTime (h.setTime i (node.time - startTime)) (i + 1)
    else if crucial node.function then
      advanceLoop crucial startTime (h.setTime i 0) (i + 1)
    else advanceLoop crucial startTime (deleteEvent h i) (restartIndex i)
termination_by (h.nextNode, h.nextNode - i)
decreasing_by
  · exact Prod.Lex.right _ (by rw [Heap.setTime_nextNode]; omega)
  · exact Prod.Lex.right _ (by rw [Heap.setTime_nextNode]; omega)
  · rw [deleteEvent_nextNode]
    exact Prod.Lex.left _ _ (by omega)

def advanceScoreStartTime (crucial : F → Bool) (startTime : T) (h : Heap T F A) : Heap T F A :=
  advanceLoop crucial startTime h rootNode

variable {crucial : F → Bool} {startTime : T} {h : Heap T F A} {i : ℕ}

theorem advanceLoop_end (hi : h.nextNode ≤ i) : advanceLoop crucial startTime h i = h := by
  rw [advanceLoop, if_pos hi]

theorem advanceLoop_keep (hi : i < h.nextNode) (hkeep : ¬ Missed crucial startTime (h.data i)) :
    advanceLoop crucial startTime h i =
      advanceLoop crucial startTime (h.setTime i (advanceNode startTime (h.data i)).time)
        (i + 1) := by
  rw [advanceLoop, if_neg (by omega)]
  dsimp only [advanceNode]
  split_ifs with hlate hcrucial
  · rfl
  · rfl
  · exact absurd ⟨not_le.mp hlate, by simpa using hcrucial⟩ hkeep

theorem advanceLoop_delete (hi : i < h.nextNode) (hmissed : Missed crucial startTime (h.data i)) :
    advanceLoop crucial startTime h i =
      advanceLoop crucial startTime (deleteEvent h i) (restartIndex i) := by
  rw [advanceLoop, if_neg (by omega)]
  dsimp only
  rw [if_neg (not_le.mpr hmissed.1), if_neg (by simp [hmissed.2])]

end Loop

/-- The heap after the events from index `i` are rewritten. -/
def Heap.advancedFrom (h : Heap T F A) (startTime : T) (i : ℕ) : Heap T F A :=
  { h with data := fun j =>
      if i ≤ j ∧ j < h.nextNode then advanceNode startTime (h.data j) else h.data j }

section Pass

variable {crucial : F → Bool} {startTime : T} {h : Heap T F A} {i : ℕ}

theorem Heap.advancedFrom_setTime (hi : i < h.nextNode) :
    (h.setTime i (advanceNode startTime (h.data i)).time).advancedFrom startTime (i + 1) =
      h.advancedFrom startTime i := by
  have hdata : ((h.setTime i (advanceNode startTime (h.data i)).time).advancedFrom startTime
      (i + 1)).data = (h.advancedFrom startTime i).data := by
    funext j
    simp only [Heap.advancedFrom, Heap.setTime_nextNode]
    by_cases hji : j = i
    · subst hji
      simp [hi, advanceNode, Heap.setTime]
    · have hiff : i + 1 ≤ j ∧ j < h.nextNode ↔ i ≤ j ∧ j < h.nextNode := by omega
      simp only [Heap.setTime_data_of_ne _ _ hji, hiff]
  exact congrArg (fun d => { h with data := d }) hdata

theorem Heap.advancedFrom_end (hi : h.nextNode ≤ i) : h.advancedFrom startTime i = h := by
  have hdata : (fun j => if i ≤ j ∧ j < h.nextNode then advanceNode startTime (h.data j)
      else h.data j) = h.data := by
    funext j
    exact if_neg (by omega)
  unfold Heap.advancedFrom
  rw [hdata]

theorem advanceLoop_pass [Inhabited F] (hkeep : ∀ j, i ≤ j → j < h.nextNode →
      ¬ Missed crucial startTime (h.data j)) :
    advanceLoop crucial startTime h i = h.advancedFrom startTime i := by
  induction hn : h.nextNode - i generalizing h i with
  | zero =>
    have hend : h.nextNode ≤ i := by omega
    rw [advanceLoop_end hend, Heap.advancedFrom_end hend]
  | succ n ih =>
    have hi : i < h.nextNode := by omega
    rw [advanceLoop_keep hi (hkeep i le_rfl hi), ih, Heap.advancedFrom_setTime hi]
    · intro j hj hjn
      rw [Heap.setTime_data_of_ne _ _ (by omega)]
      exact hkeep j (by omega) hjn
    · rw [Heap.setTime_nextNode]
      omega

theorem Heap.nodes_advancedFrom (h : Heap T F A) (startTime : T) :
    (h.advancedFrom startTime rootNode).nodes = h.nodes.map (advanceNode startTime) := by
  unfold Heap.nodes entries
  rw [Multiset.map_map]
  refine Multiset.map_congr rfl fun j hj => ?_
  have hj' : 1 ≤ j ∧ j < h.nextNode := by simpa [Heap.advancedFrom] using hj
  exact if_pos hj'

end Pass

section Root

variable [Inhabited F]

def Heap.dropMissed (crucial : F → Bool) (startTime : T) (h : Heap T F A) : Heap T F A :=
  if rootNode < h.nextNode ∧ Missed crucial startTime (h.data rootNode) then
    (deleteEvent h rootNode).dropMissed crucial startTime
  else h
termination_by h.nextNode
decreasing_by
  rw [deleteEvent_nextNode]
  omega

variable {crucial : F → Bool} {startTime : T} {h : Heap T F A}

theorem advanceScoreStartTime_dropMissed :
    advanceScoreStartTime crucial startTime h =
      advanceScoreStartTime crucial startTime (h.dropMissed crucial startTime) := by
  induction h using Heap.dropMissed.induct crucial startTime with
  | case1 h hroot ih =>
    rw [Heap.dropMissed, if_pos hroot, ← ih]
    unfold advanceScoreStartTime
    rw [advanceLoop_delete hroot.1 hroot.2, show restartIndex rootNode = rootNode by decide]
  | case2 h hroot => rw [Heap.dropMissed, if_neg hroot]

theorem Heap.dropMissed_root (crucial : F → Bool) (startTime : T) (h : Heap T F A) :
    rootNode < (h.dropMissed crucial startTime).nextNode →
      ¬ Missed crucial startTime ((h.dropMissed crucial startTime).data rootNode) := by
  induction h using Heap.dropMissed.induct crucial startTime with
  | case1 h hroot ih => rwa [Heap.dropMissed, if_pos hroot]
  | case2 h hroot =>
    rw [Heap.dropMissed, if_neg hroot]
    exact fun hlt hmissed => hroot ⟨hlt, hmissed⟩

theorem Heap.dropMissed_spec (crucial : F → Bool) (startTime : T) (hord : h.HeapProperty) :
    (h.dropMissed crucial startTime).HeapProperty ∧
    ∃ removed, h.nodes = removed + (h.dropMissed crucial startTime).nodes ∧
      ∀ x ∈ removed, Missed crucial startTime x := by
  induction h using Heap.dropMissed.induct crucial startTime with
  | case1 h hroot ih =>
    rw [Heap.dropMissed, if_pos hroot]
    obtain ⟨hkept, hnodes⟩ := deleteEvent_spec (le_refl rootNode) hroot.1 hord
    obtain ⟨hdropped, removed, hremoved, hmissed⟩ := ih hkept
    refine ⟨hdropped, h.data rootNode ::ₘ removed, ?_, ?_⟩
    · rw [hnodes, hremoved, Multiset.cons_add]
    · intro x hx
      rcases Multiset.mem_cons.mp hx with rfl | hx
      · exact hroot.2
      · exact hmissed x hx
  | case2 h hroot =>
    rw [Heap.dropMissed, if_neg hroot]
    exact ⟨hord, 0, by simp, by simp⟩

/-- The missed events precede the early events that are crucial. -/
def MissedComeFirst (crucial : F → Bool) (startTime : T) (h : Heap T F A) : Prop :=
  ∀ x ∈ h.nodes, ∀ y ∈ h.nodes, Missed crucial startTime x → y.time < startTime →
    crucial y.function = true → x.key < y.key

theorem Heap.dropMissed_keeps (hord : h.HeapProperty)
    (hfirst : MissedComeFirst crucial startTime h) :
    ∀ x ∈ (h.dropMissed crucial startTime).nodes, ¬ Missed crucial startTime x := by
  obtain ⟨hdropped, removed, hnodes, -⟩ :=
    Heap.dropMissed_spec crucial startTime hord
  intro x hx hmissed
  have hmem : ∀ y ∈ (h.dropMissed crucial startTime).nodes, y ∈ h.nodes := fun y hy => by
    rw [hnodes]
    exact Multiset.mem_add.mpr (Or.inr hy)
  obtain ⟨i, h₁, hi, -⟩ := mem_entries.mp hx
  have hroot := Heap.dropMissed_root crucial startTime h (lt_of_le_of_lt h₁ hi)
  have hle := hdropped.root_le_of_mem hx
  generalize hr : (h.dropMissed crucial startTime).data 1 = r at hle
  have hrmem : r ∈ (h.dropMissed crucial startTime).nodes :=
    mem_entries.mpr ⟨1, le_rfl, lt_of_le_of_lt h₁ hi, hr⟩
  have hearly : r.time < startTime := by
    rcases Prod.Lex.toLex_le_toLex.mp hle with hlt | ⟨heq, -⟩
    · exact hlt.trans hmissed.1
    · exact lt_of_eq_of_lt heq hmissed.1
  have hcrucial : crucial r.function = true := by
    by_contra hfalse
    rw [show rootNode = 1 from rfl, hr] at hroot
    exact hroot ⟨hearly, by simpa using hfalse⟩
  exact absurd (hfirst x (hmem x hx) r (hmem r hrmem) hmissed hearly hcrucial)
    (not_lt.mpr hle)

end Root

/-- The pending events are the late ones, shifted, and the early crucial ones, at time zero, each
once and with the same function and arguments. The heap property holds. -/
def AdvancedExactly (crucial : F → Bool) (startTime : T) (h h' : Heap T F A) : Prop :=
  h'.nodes =
    (h.nodes.filter fun n => startTime ≤ n.time).map
        (fun n => n.setTime (n.time - startTime)) +
      (h.nodes.filter fun n => n.time < startTime ∧ crucial n.function = true).map
        (fun n => n.setTime 0) ∧
  h'.HeapProperty

/-- An event that is not after the start time has a greater tag than its parent, if the time of
the parent becomes zero. -/
def Heap.TagsFollow (h : Heap T F A) (startTime : T) : Prop :=
  ∀ i, 2 ≤ i → i < h.nextNode → (h.data (i / 2)).time < startTime →
    (h.data i).time ≤ startTime → (h.data (i / 2)).order ≤ (h.data i).order

theorem advanceNode_filter {crucial : F → Bool} {startTime : T} {s : Multiset (Node T F A)}
    (hkeep : ∀ x ∈ s, ¬ Missed crucial startTime x) :
    s.map (advanceNode startTime) =
      (s.filter fun n => startTime ≤ n.time).map
          (fun n => n.setTime (n.time - startTime)) +
        (s.filter fun n => n.time < startTime ∧ crucial n.function = true).map
          (fun n => n.setTime 0) := by
  have hearly : (s.filter fun n => n.time < startTime ∧ crucial n.function = true) =
      s.filter fun n => ¬ startTime ≤ n.time := by
    refine Multiset.filter_congr fun x hx => ?_
    rw [not_le]
    refine ⟨fun h => h.1, fun hlt => ⟨hlt, ?_⟩⟩
    by_contra hfalse
    exact hkeep x hx ⟨hlt, by simpa using hfalse⟩
  rw [hearly]
  calc s.map (advanceNode startTime)
      = ((s.filter fun n => startTime ≤ n.time) +
          s.filter fun n => ¬ startTime ≤ n.time).map (advanceNode startTime) := by
        rw [Multiset.filter_add_not]
    _ = (s.filter fun n => startTime ≤ n.time).map (advanceNode startTime) +
          (s.filter fun n => ¬ startTime ≤ n.time).map (advanceNode startTime) :=
        Multiset.map_add _ _ _
    _ = _ := by
        refine congrArg₂ _ (Multiset.map_congr rfl fun x hx => ?_)
          (Multiset.map_congr rfl fun x hx => ?_)
        · rw [advanceNode, if_pos (Multiset.mem_filter.mp hx).2]
        · rw [advanceNode, if_neg (Multiset.mem_filter.mp hx).2]

variable [IsOrderedAddMonoid T]

theorem advanceNode_key_le {startTime : T} {x y : Node T F A} (hle : x.key ≤ y.key) :
    (advanceNode startTime x).key ≤ (advanceNode startTime y).key ↔
      (x.time < startTime → y.time ≤ startTime → x.order ≤ y.order) := by
  have hle' := Prod.Lex.toLex_le_toLex.mp hle
  have htime : x.time ≤ y.time := by
    rcases hle' with hlt | ⟨heq, -⟩
    · exact hlt.le
    · exact heq.le
  simp only [Node.key, Prod.Lex.toLex_le_toLex]
  rcases lt_or_ge x.time startTime with hx | hx
  · have hx₀ : (advanceNode startTime x).time = 0 := if_neg (not_le.mpr hx)
    rcases lt_or_ge y.time startTime with hy | hy
    · have hy₀ : (advanceNode startTime y).time = 0 := if_neg (not_le.mpr hy)
      rw [hx₀, hy₀]
      simp [hx, hy.le, advanceNode]
    · have hy₀ : (advanceNode startTime y).time = y.time - startTime := if_pos hy
      rw [hx₀, hy₀]
      rcases lt_or_eq_of_le hy with hlt | heq
      · simp [hlt, not_le.mpr hlt]
      · simp [hx, ← heq, advanceNode]
  · have hx₀ : (advanceNode startTime x).time = x.time - startTime := if_pos hx
    have hy₀ : (advanceNode startTime y).time = y.time - startTime := if_pos (hx.trans htime)
    rw [hx₀, hy₀]
    simpa [not_lt.mpr hx, advanceNode] using hle'

variable [Inhabited F]

/-- If the missed events come first, the result is exact when the tags of the events that come
to time zero follow the order of the heap. -/
theorem advanceScoreStartTime_exact_iff {crucial : F → Bool} {heapSize : ℕ} {h : Heap T F A}
    (hr : Reachable crucial heapSize h) (startTime : T)
    (hfirst : MissedComeFirst crucial startTime h) :
    AdvancedExactly crucial startTime h (advanceScoreStartTime crucial startTime h) ↔
      (h.dropMissed crucial startTime).TagsFollow startTime := by
  have hord := hr.valid.1.ordered
  have hkeep := Heap.dropMissed_keeps hord hfirst
  obtain ⟨hdropped, removed, hnodes, hmissed⟩ :=
    Heap.dropMissed_spec crucial startTime hord
  rw [advanceScoreStartTime_dropMissed]
  generalize h.dropMissed crucial startTime = g at *
  have hpass : advanceScoreStartTime crucial startTime g = g.advancedFrom startTime rootNode :=
    advanceLoop_pass fun j hj hjn => hkeep _ (mem_entries.mpr ⟨j, hj, hjn, rfl⟩)
  have hrewritten : (advanceScoreStartTime crucial startTime g).nodes =
      (h.nodes.filter fun n => startTime ≤ n.time).map (fun n => n.setTime (n.time - startTime)) +
        (h.nodes.filter fun n => n.time < startTime ∧ crucial n.function = true).map
          (fun n => n.setTime 0) := by
    have hlate : removed.filter (fun n => startTime ≤ n.time) = 0 :=
      Multiset.filter_eq_nil.mpr fun x hx => not_le.mpr (hmissed x hx).1
    have hearly : removed.filter (fun n => n.time < startTime ∧ crucial n.function = true) = 0 :=
      Multiset.filter_eq_nil.mpr fun x hx hand => by simp [(hmissed x hx).2] at hand
    rw [hpass, Heap.nodes_advancedFrom, advanceNode_filter hkeep, hnodes, Multiset.filter_add,
      Multiset.filter_add, hlate, hearly, zero_add, zero_add]
  have hedge : ∀ i, 2 ≤ i → i < g.nextNode →
      (((g.advancedFrom startTime rootNode).data (i / 2)).key ≤
          ((g.advancedFrom startTime rootNode).data i).key ↔
        ((g.data (i / 2)).time < startTime → (g.data i).time ≤ startTime →
          (g.data (i / 2)).order ≤ (g.data i).order)) := by
    intro i h₂ hi
    have hparent : (g.advancedFrom startTime rootNode).data (i / 2) =
        advanceNode startTime (g.data (i / 2)) := if_pos ⟨by unfold rootNode; omega, by omega⟩
    have hself : (g.advancedFrom startTime rootNode).data i = advanceNode startTime (g.data i) :=
      if_pos ⟨by unfold rootNode; omega, hi⟩
    rw [hparent, hself]
    exact advanceNode_key_le (hdropped i h₂ hi)
  constructor
  · rintro ⟨-, hprop⟩ i h₂ hi
    rw [hpass] at hprop
    exact (hedge i h₂ hi).mp (hprop i h₂ hi)
  · intro htags
    refine ⟨hrewritten, fun i h₂ hi => ?_⟩
    rw [hpass] at hi ⊢
    exact (hedge i h₂ hi).mpr (htags i h₂ hi)

/-- The heap of the events scheduled at the given times. The crucial ones are marked. -/
def scoreHeap (events : List (ℤ × Bool)) : Heap ℤ Bool Unit :=
  (run 16 makeHeap (events.map fun e => .scheduleAt e.1 e.2 [])).2

theorem scoreHeap_reachable {events : List (ℤ × Bool)} (hlen : events.length < tagModulus) :
    Reachable id 16 (scoreHeap events) :=
  run_reachable _ .makeHeap (by simpa [makeHeap] using hlen)

theorem advanceScoreStartTime_exact_three :
    AdvancedExactly id 5 (scoreHeap [(1, false), (2, true), (8, false)])
      (advanceScoreStartTime id 5 (scoreHeap [(1, false), (2, true), (8, false)])) := by
  refine (advanceScoreStartTime_exact_iff (scoreHeap_reachable (by decide)) 5 ?_).mpr ?_
  · unfold MissedComeFirst
    decide
  · intro i h₂ hi
    rw [Heap.dropMissed, if_pos (by decide), Heap.dropMissed, if_neg (by decide)] at hi ⊢
    have hi₂ : i = 2 := le_antisymm (Nat.lt_succ_iff.mp hi) h₂
    subst hi₂
    decide

/-- The event at time 10 precedes the missed one in the vector, therefore it is shifted again. -/
theorem advanceScoreStartTime_not_exact :
    Reachable id 16 (scoreHeap [(1, true), (10, false), (2, false)]) ∧
    ¬ AdvancedExactly id 5 (scoreHeap [(1, true), (10, false), (2, false)])
      (advanceScoreStartTime id 5 (scoreHeap [(1, true), (10, false), (2, false)])) := by
  refine ⟨scoreHeap_reachable (by decide), fun hexact => ?_⟩
  have hnodes := hexact.1
  rw [advanceScoreStartTime, advanceLoop_keep (by decide) (by decide),
    advanceLoop_keep (by decide) (by decide), advanceLoop_delete (by decide) (by decide),
    show restartIndex (rootNode + 1 + 1) = 1 by decide, advanceLoop_keep (by decide) (by decide),
    advanceLoop_keep (by decide) (by decide), advanceLoop_end (by decide)] at hnodes
  exact absurd hnodes (by decide)

end Incudine.EdfHeap

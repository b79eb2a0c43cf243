import Incudine.HeapResize

/-!
# The order of the crucial events after a flush

`flushPending` schedules the crucial events again in the order of the array, and the tags start from
zero. The array is not sorted, so events at the same time lose the order in which they were
scheduled.
-/

namespace Incudine.EdfHeap

open Function SiftedHeap HeapVector

variable {T F A : Type*} [LinearOrder T]

theorem eq_of_filter_time_eq {β : Type*} (time : β → T) :
    ∀ {l m : List β}, l.Pairwise (time · ≤ time ·) → m.Pairwise (time · ≤ time ·) →
      (∀ t, l.filter (time · = t) = m.filter (time · = t)) → l = m := by
  intro l
  induction l with
  | nil =>
    intro m _ _ hfilter
    cases m with
    | nil => rfl
    | cons y ys => simpa using hfilter (time y)
  | cons x xs ih =>
    intro m hl hm hfilter
    cases m with
    | nil => simpa using hfilter (time x)
    | cons y ys =>
      have hx : x ∈ (y :: ys).filter (time · = time x) := by
        rw [← hfilter]
        simp
      have hy : y ∈ (x :: xs).filter (time · = time y) := by
        rw [hfilter]
        simp
      have hxy : time x = time y := by
        apply le_antisymm
        · rcases List.mem_cons.mp (List.mem_of_mem_filter hy) with rfl | hmem
          · exact le_rfl
          · exact (List.pairwise_cons.mp hl).1 y hmem
        · rcases List.mem_cons.mp (List.mem_of_mem_filter hx) with rfl | hmem
          · exact le_rfl
          · exact (List.pairwise_cons.mp hm).1 x hmem
      have hhead : x = y := by
        have := hfilter (time x)
        rw [List.filter_cons_of_pos (by simp), List.filter_cons_of_pos (by simp [hxy])] at this
        exact (List.cons.inj this).1
      subst hhead
      rw [ih hl.of_cons hm.of_cons fun t => ?_]
      have := hfilter t
      by_cases ht : time x = t
      · rw [List.filter_cons_of_pos (by simpa using ht),
          List.filter_cons_of_pos (by simpa using ht)] at this
        exact (List.cons.inj this).2
      · rwa [List.filter_cons_of_neg (by simpa using ht),
          List.filter_cons_of_neg (by simpa using ht)] at this

def forceScheduledEvent (crucial : F → Bool) (n : Node T F A) : Bool := crucial n.function

def crucialEvents (crucial : F → Bool) (h : Heap T F A) : List (Node T F A) :=
  ((List.range' rootNode h.heapCount).map h.data).filter (forceScheduledEvent crucial)

def retag (k : ℕ) : List (Node T F A) → List (Node T F A)
  | [] => []
  | n :: l => { n with order := k } :: retag (k + 1) l

omit [LinearOrder T] in
theorem retag_content (l : List (Node T F A)) :
    ∀ k, (retag k l).map Node.content = l.map Node.content := by
  induction l with
  | nil => exact fun _ => rfl
  | cons n l ih =>
    intro k
    rw [retag, List.map_cons, ih, List.map_cons]
    rfl

omit [LinearOrder T] in
theorem retag_orders (l : List (Node T F A)) :
    ∀ k, (∀ x ∈ retag k l, k ≤ x.order) ∧ (retag k l).Pairwise (·.order < ·.order) := by
  induction l with
  | nil => exact fun _ => ⟨fun _ hx => absurd hx List.not_mem_nil, .nil⟩
  | cons n l ih =>
    intro k
    obtain ⟨hle, hsorted⟩ := ih (k + 1)
    refine ⟨fun x hx => ?_, List.pairwise_cons.mpr ⟨fun x hx => ?_, hsorted⟩⟩
    · rcases List.mem_cons.mp hx with rfl | hx
      · exact le_rfl
      · have := hle x hx
        omega
    · exact hle x hx

omit [LinearOrder T] in
theorem siftUpLoop_frame [LinearOrder T] (t : T) :
    ∀ fuel (d : ℕ → Node T F A) curr,
      (siftUpLoop t fuel d curr).2 ≤ curr ∧
      ∀ j, curr < j → (siftUpLoop t fuel d curr).1 j = d j := by
  intro fuel
  induction fuel with
  | zero => exact fun _ _ => ⟨le_rfl, fun _ _ => rfl⟩
  | succ fuel ih =>
    intro d curr
    simp only [siftUpLoop]
    split_ifs with hroot hlt
    · obtain ⟨hle, hframe⟩ := ih (update d curr (d (curr / 2))) (curr / 2)
      refine ⟨by omega, fun j hj => ?_⟩
      rw [hframe j (by omega), update_of_ne (by omega)]
    · exact ⟨le_rfl, fun _ _ => rfl⟩
    · exact ⟨le_rfl, fun _ _ => rfl⟩

theorem scheduleAt_frame (heapSize : ℕ) (h : Heap T F A) (t : T) (f : F) (a : List A) {j : ℕ}
    (hj : h.nextNode < j) : (scheduleAt heapSize h t f a).data j = h.data j := by
  rcases Nat.lt_or_ge h.nextNode heapSize with hroom | hfull
  · obtain ⟨hle, hframe⟩ := siftUpLoop_frame t h.nextNode h.data h.nextNode
    simp only [scheduleAt, if_neg (not_le.mpr hroom)]
    rw [update_of_ne (by omega), hframe j hj]
  · rw [scheduleAt_full hfull]

theorem reinsertLoop_nodes (crucial : F → Bool) {heapSize count : ℕ} (hsize : count < heapSize)
    (htag : count < tagModulus) :
    ∀ fuel {h : Heap T F A} {i : ℕ}, h.Valid → h.nextNode ≤ i → h.orderingTag < i →
      i + fuel = count + 1 →
      (reinsertLoop crucial heapSize count fuel h i).Valid ∧
      (reinsertLoop crucial heapSize count fuel h i).nodes = h.nodes +
        (retag h.orderingTag
          (((List.range' i fuel).map h.data).filter (forceScheduledEvent crucial)) :
          Multiset (Node T F A)) := by
  intro fuel
  induction fuel with
  | zero =>
    intro h i hv _ _ _
    exact ⟨hv, by simp [reinsertLoop, retag]⟩
  | succ fuel ih =>
    intro h i hv hnext hi hcount
    simp only [reinsertLoop, if_neg (show ¬ count < i by omega), List.range'_succ, List.map_cons]
    by_cases hcrucial : crucial (h.data i).function = true
    · have hfirst : forceScheduledEvent crucial (h.data i) = true := hcrucial
      have hroom : h.nextNode < heapSize := by omega
      obtain ⟨hnext', htag', -, hnodes⟩ := scheduleAt_spec hroom hv.pos hv.ordered hv.used
        (h.data i).time (h.data i).function (h.data i).args
      rw [Nat.mod_eq_of_lt (by omega)] at htag'
      have hv' := scheduleAt_valid hv hroom (by omega) (h.data i).time (h.data i).function
        (h.data i).args
      obtain ⟨hvalid, hrest⟩ := @ih _ (i + 1) hv' (by omega) (by omega) (by omega)
      rw [if_pos hcrucial, List.filter_cons_of_pos hfirst, retag]
      refine ⟨hvalid, ?_⟩
      have hunread : (List.range' (i + 1) fuel).map (scheduleAt heapSize h (h.data i).time
          (h.data i).function (h.data i).args).data = (List.range' (i + 1) fuel).map h.data := by
        refine List.map_congr_left fun j hj => scheduleAt_frame _ _ _ _ _ ?_
        have := (List.mem_range'_1.mp hj).1
        omega
      rw [hrest, hnodes, htag', hunread, ← Multiset.cons_coe, Multiset.cons_add,
        Multiset.add_cons]
    · have hfirst : ¬ forceScheduledEvent crucial (h.data i) = true := hcrucial
      obtain ⟨hvalid, hrest⟩ := @ih h (i + 1) hv (by omega) (by omega) (by omega)
      rw [if_neg hcrucial, List.filter_cons_of_neg hfirst]
      exact ⟨hvalid, hrest⟩

theorem ignoreNonCrucialEvents_nodes (crucial : F → Bool) {heapSize : ℕ} {h : Heap T F A}
    (hroom : h.nextNode ≤ heapSize) (hpos : 1 ≤ h.nextNode) (htag : h.heapCount < tagModulus) :
    (ignoreNonCrucialEvents crucial heapSize h).Valid ∧
      (ignoreNonCrucialEvents crucial heapSize h).nodes =
        (retag 0 (crucialEvents crucial h) : Multiset (Node T F A)) := by
  have hcount : h.heapCount < heapSize := by
    unfold Heap.heapCount
    omega
  obtain ⟨hvalid, hnodes⟩ := reinsertLoop_nodes crucial hcount htag h.heapCount h.reset_valid
    le_rfl Nat.one_pos (Nat.add_comm _ _)
  refine ⟨hvalid, hnodes.trans ?_⟩
  simp [Heap.nodes, rootNode, crucialEvents]

section Order

variable [Zero T] [Inhabited F]

/-- Exactly the crucial events are left, with their times, functions and arguments, and they come
out in the order in which they would have come out without the flush. -/
structure FlushKeepsCrucial (crucial : F → Bool) (h g : Heap T F A) : Prop where
  exactly : g.nodes.map Node.content =
    (h.nodes.filter fun n => forceScheduledEvent crucial n = true).map Node.content
  order : (dispatch g.heapCount g).map Node.content =
    ((dispatch h.heapCount h).filter (forceScheduledEvent crucial)).map Node.content

/-- The crucial events at the same time are in the array in the order in which they were
scheduled, up to events that cannot be told apart. -/
def TiesInArrayOrder (crucial : F → Bool) (h : Heap T F A) : Prop :=
  ∀ t, ((crucialEvents crucial h).filter (·.time = t)).map Node.content =
    (((crucialEvents crucial h).filter (·.time = t)).mergeSort (·.order ≤ ·.order)).map
      Node.content

omit [LinearOrder T] [Zero T] [Inhabited F] in
theorem coe_crucialEvents (crucial : F → Bool) (h : Heap T F A) :
    (crucialEvents crucial h : Multiset (Node T F A)) =
      h.nodes.filter fun n => forceScheduledEvent crucial n = true := by
  have hnodes : h.nodes = ((List.range' rootNode h.heapCount).map h.data :
      List (Node T F A)) := by
    rw [← Multiset.map_coe]
    rfl
  rw [hnodes, Multiset.filter_coe, crucialEvents]
  simp

omit [LinearOrder T] [Zero T] [Inhabited F] in
theorem eq_of_order_sorted {l m : List (Node T F A)}
    (hcoe : (l : Multiset (Node T F A)) = m)
    (hl : l.Pairwise (·.order < ·.order)) (hm : m.Pairwise (·.order ≤ ·.order)) : l = m := by
  have hinj : ∀ a ∈ l, ∀ b ∈ l, a.order = b.order → a = b :=
    fun a ha b hb heq => List.inj_on_of_nodup_map (f := Node.order)
      (List.pairwise_map.mpr (hl.imp ne_of_lt)) ha hb heq
  have hperm : l.Perm m := Multiset.coe_eq_coe.mp hcoe
  refine hperm.eq_of_pairwise (fun a b ha hb hab hba => ?_) (hl.imp le_of_lt) hm
  exact hinj a ha b (hperm.mem_iff.mpr hb) (le_antisymm hab hba)

omit [Zero T] [Inhabited F] in
theorem order_sorted_of_time {l : List (Node T F A)} (hl : l.Pairwise fun x y => x.key < y.key)
    (t : T) : (l.filter (·.time = t)).Pairwise (·.order < ·.order) := by
  refine List.Pairwise.imp_of_mem (fun {a b} ha hb hab => ?_) (hl.filter _)
  have hat : a.time = t := by simpa using List.of_mem_filter ha
  have hbt : b.time = t := by simpa using List.of_mem_filter hb
  rw [Node.key, Node.key, Prod.Lex.toLex_lt_toLex, hat, hbt] at hab
  rcases hab with hlt | ⟨-, hlt⟩
  · exact absurd hlt (lt_irrefl t)
  · exact hlt

omit [Zero T] [Inhabited F] in
theorem time_sorted {l : List (Node T F A)} (hl : l.Pairwise fun x y => x.key < y.key) :
    (l.map Node.content).Pairwise (fun x y => x.1 ≤ y.1) := by
  refine List.pairwise_map.mpr (hl.imp fun {a b} hab => ?_)
  rw [Node.key, Node.key, Prod.Lex.toLex_lt_toLex] at hab
  rcases hab with hlt | ⟨heq, -⟩
  · exact le_of_lt hlt
  · exact le_of_eq heq

omit [Zero T] [Inhabited F] in
theorem filter_content (l : List (Node T F A)) (t : T) :
    (l.map Node.content).filter (·.1 = t) = (l.filter (·.time = t)).map Node.content := by
  rw [List.filter_map]
  rfl

omit [Zero T] [Inhabited F] in
theorem filter_dispatched {l m : List (Node T F A)} (hcoe : (l : Multiset (Node T F A)) = m)
    (hl : l.Pairwise fun x y => x.key < y.key) (t : T) :
    l.filter (·.time = t) = (m.filter (·.time = t)).mergeSort (·.order ≤ ·.order) := by
  refine eq_of_order_sorted ?_ (order_sorted_of_time hl t) ?_
  · have hperm := (Multiset.coe_eq_coe.mp hcoe).filter (·.time = t)
    exact Multiset.coe_eq_coe.mpr (hperm.trans (List.mergeSort_perm _ _).symm)
  · refine (List.pairwise_mergeSort ?_ ?_ _).imp fun {a b} hab => by simpa using hab
    · intro a b c hab hbc
      simp only [decide_eq_true_eq] at *
      exact hab.trans hbc
    · intro a b
      simpa using le_total a.order b.order

omit [Zero T] [Inhabited F] in
theorem filter_flushed {l m : List (Node T F A)}
    (hcoe : (l : Multiset (Node T F A)) = retag 0 m)
    (hl : l.Pairwise fun x y => x.key < y.key) (t : T) :
    (l.filter (·.time = t)).map Node.content = (m.filter (·.time = t)).map Node.content := by
  have hfilter : l.filter (·.time = t) = (retag 0 m).filter (·.time = t) := by
    refine eq_of_order_sorted ?_ (order_sorted_of_time hl t) ?_
    · exact Multiset.coe_eq_coe.mpr ((Multiset.coe_eq_coe.mp hcoe).filter _)
    · exact ((retag_orders m 0).2.imp le_of_lt).filter _
  rw [hfilter, ← filter_content, retag_content, filter_content]

theorem flushKeepsCrucial_iff {crucial : F → Bool} {heapSize : ℕ} {h : Heap T F A} (hv : h.Valid)
    (hroom : h.nextNode ≤ heapSize) (htag : h.orderingTag < tagModulus) :
    FlushKeepsCrucial crucial h (ignoreNonCrucialEvents crucial heapSize h) ↔
      TiesInArrayOrder crucial h := by
  obtain ⟨hgv, hgnodes⟩ := ignoreNonCrucialEvents_nodes crucial hroom hv.pos
    (lt_of_le_of_lt hv.heapCount_le htag)
  generalize ignoreNonCrucialEvents crucial heapSize h = g at *
  have hcount : ∀ h : Heap T F A, h.Valid → h.nextNode = h.heapCount + 1 := by
    intro h hv
    have := hv.pos
    unfold Heap.heapCount
    omega
  have hsorted := (dispatch_sorted _ hv (hcount h hv)).filter (forceScheduledEvent crucial)
  have hgsorted := dispatch_sorted _ hgv (hcount g hgv)
  have hnodes := dispatch_nodes _ (hcount h hv)
  have hgdispatch := dispatch_nodes _ (hcount g hgv)
  have hcrucial : (((dispatch h.heapCount h).filter (forceScheduledEvent crucial) :
      List (Node T F A)) : Multiset (Node T F A)) = crucialEvents crucial h := by
    rw [coe_crucialEvents, ← hnodes, Multiset.filter_coe]
    simp
  rw [hgnodes] at hgdispatch
  have hevents : g.nodes.map Node.content =
      (h.nodes.filter fun n => forceScheduledEvent crucial n = true).map Node.content := by
    rw [hgnodes, ← coe_crucialEvents, Multiset.map_coe, Multiset.map_coe, retag_content]
  refine ⟨fun hkeeps => ?_, fun hties => ⟨hevents, ?_⟩⟩
  · intro t
    rw [← filter_dispatched hcrucial hsorted t, ← filter_flushed hgdispatch hgsorted t,
      ← filter_content, ← filter_content, hkeeps.order]
  · refine eq_of_filter_time_eq Prod.fst (time_sorted hgsorted) (time_sorted hsorted) fun t => ?_
    rw [filter_content, filter_content, filter_flushed hgdispatch hgsorted t,
      filter_dispatched hcrucial hsorted t, hties t]

/-- The heap is not taken from the pool, no resize loses an event and no tag is masked. -/
def Regular (v : HeapVector T F A) (op : HeapVector.Op T F A) : Prop :=
  KeepsPending v op ∧ op ≠ .heapPoolPop ∧
    ∀ heapSize t f a, op = .scheduleAt heapSize t f a → v.orderingTag + 1 < tagModulus

omit [Zero T] [Inhabited F] in
theorem Heap.Valid.congr {h g : Heap T F A} (hv : h.Valid) (hs : SameEvents h g)
    (htag : g.orderingTag = h.orderingTag) : g.Valid := by
  have hnodes : g.nodes = h.nodes := by
    rw [Heap.nodes, Heap.nodes, ← hs.nextNode_eq]
    exact entries_congr fun i h₁ hi => (hs.data_eq i h₁ hi).symm
  refine ⟨hs.nextNode_eq ▸ hv.pos, ?_, ?_, hnodes ▸ hv.distinct, ?_⟩
  · have hord := hv.ordered.congr fun i h₁ hi => (hs.data_eq i h₁ hi).symm
    rw [hs.nextNode_eq] at hord
    exact hord
  · rw [hnodes, htag]
    exact hv.used
  · rw [← hs.nextNode_eq, htag]
    exact hv.idle

theorem regular_valid {crucial : F → Bool} {v : HeapVector T F A}
    (hr : Reached crucial Regular v) :
    v.InBounds ∧ v.heap.Valid ∧ v.orderingTag < tagModulus := by
  induction hr with
  | makeHeap size =>
    refine ⟨makeHeap_inBounds size, ⟨le_rfl, fun i h₂ hi => ?_, fun x hx => ?_, ?_, fun _ => rfl⟩,
      Nat.two_pow_pos _⟩
    · change i < 1 at hi
      omega
    · exact absurd hx (by simp [Heap.nodes, HeapVector.makeHeap, rootNode])
    · simp [Heap.nodes, HeapVector.makeHeap, rootNode]
  | @step v op w _ hop hs ih =>
    obtain ⟨hv, hvalid, htag⟩ := ih
    refine ⟨hs.inBounds hv, ?_⟩
    rw [← heap_orderingTag] at htag
    cases hs with
    | scheduleAt heapSize t f a h =>
      have hc := (scheduleAt_some hv h).2
      rw [← heap_orderingTag, hc.heap_eq]
      exact scheduleAt_valid_of_tag hvalid (hop.2.2 heapSize t f a rfl) t f a
    | getHeap h =>
      have hc := (getHeap_some hv h).2
      rw [← heap_orderingTag, hc.heap_eq]
      exact ⟨getHeap_valid hvalid, lt_of_le_of_lt (getHeap_orderingTag_le v.heap) htag⟩
    | unscheduleIf test hc =>
      rw [← heap_orderingTag, hc.heap_eq]
      exact ⟨(scanLoop_sound _ v.heap rootNode le_rfl hvalid).1,
        lt_of_le_of_lt (scanLoop_orderingTag_le _ v.heap rootNode) htag⟩
    | flushPending heapSize hc =>
      rw [← heap_orderingTag, hc.heap_eq]
      exact ignoreNonCrucialEvents_valid crucial heapSize hvalid htag
    | resizeHeap size hadmits =>
      have hsame : SameEvents v.heap (v.resizeHeap size).heap :=
        ⟨resizeHeap_nextNode.symm, fun i h₁ hi =>
          (resizeHeap_pending hv hadmits (hop.1 size rfl) i h₁ hi).symm⟩
      rw [resizeHeap_orderingTag]
      exact ⟨hvalid.congr hsame resizeHeap_orderingTag, htag⟩
    | heapPoolPop => exact absurd rfl hop.2.1

/-- A flush of the realtime heap, whose size is the length of its vector, keeps the crucial events
in order if and only if the array has the ones at the same time in the order of scheduling. -/
theorem flush_keeps_crucial_iff {crucial : F → Bool} {v : HeapVector T F A}
    (hr : Reached crucial Regular v) :
    FlushKeepsCrucial crucial v.heap (ignoreNonCrucialEvents crucial v.data.length v.heap) ↔
      TiesInArrayOrder crucial v.heap := by
  obtain ⟨hv, hvalid, htag⟩ := regular_valid hr
  exact flushKeepsCrucial_iff hvalid hv.bounded htag

end Order

def crucialFrom (f : ℕ) : Bool := 2 ≤ f

def emptyHeap : HeapVector ℕ ℕ Unit := HeapVector.makeHeap 8

theorem regular_schedule {v w : HeapVector ℕ ℕ Unit} (hr : Reached crucialFrom Regular v)
    (t f : ℕ) (htag : v.orderingTag + 1 < tagModulus) (hw : v.scheduleAt 8 t f [] = some w) :
    Reached crucialFrom Regular w := by
  have hs : Step crucialFrom v (.scheduleAt 8 t f []) w := .scheduleAt 8 t f [] hw
  have hop : Regular v (.scheduleAt 8 t f []) :=
    ⟨fun _ h => (nomatch h), fun h => (nomatch h), fun _ _ _ _ _ => htag⟩
  exact .step hr hop hs

theorem regular_getHeap {v w : HeapVector ℕ ℕ Unit} {n : Node ℕ ℕ Unit}
    (hr : Reached crucialFrom Regular v) (hw : v.getHeap = some (n, w)) :
    Reached crucialFrom Regular w := by
  have hs : Step crucialFrom v .getHeap w := .getHeap hw
  have hop : Regular v .getHeap :=
    ⟨fun _ h => (nomatch h), fun h => (nomatch h), fun _ _ _ _ h => (nomatch h)⟩
  exact .step hr hop hs

theorem flush_keeps_crucial_iff_pair :
    ∃ v w, emptyHeap.scheduleAt 8 5 2 [] = some v ∧ v.scheduleAt 8 5 3 [] = some w ∧
      (FlushKeepsCrucial crucialFrom w.heap
        (ignoreNonCrucialEvents crucialFrom w.data.length w.heap) ↔
      TiesInArrayOrder crucialFrom w.heap) := by
  have hv := regular_schedule (v := emptyHeap) (.makeHeap 8) 5 2 (by decide) rfl
  exact ⟨_, _, rfl, rfl, flush_keeps_crucial_iff (regular_schedule hv 5 3 (by decide) rfl)⟩

/-- Two crucial events at the same time come after two other events. When the first one is
removed, the last node of the array rises above the node scheduled before it. -/
theorem flush_not_keeps_crucial :
    ∃ v₁ v₂ v₃ v₄ n v₅, emptyHeap.scheduleAt 8 0 1 [] = some v₁ ∧
      v₁.scheduleAt 8 1 1 [] = some v₂ ∧ v₂.scheduleAt 8 9 2 [] = some v₃ ∧
      v₃.scheduleAt 8 9 3 [] = some v₄ ∧ v₄.getHeap = some (n, v₅) ∧
      Reached crucialFrom Regular v₅ ∧ ¬ FlushKeepsCrucial crucialFrom v₅.heap
        (ignoreNonCrucialEvents crucialFrom v₅.data.length v₅.heap) := by
  have h₁ := regular_schedule (v := emptyHeap) (.makeHeap 8) 0 1 (by decide) rfl
  have h₂ := regular_schedule h₁ 1 1 (by decide) rfl
  have h₃ := regular_schedule h₂ 9 2 (by decide) rfl
  have h₄ := regular_schedule h₃ 9 3 (by decide) rfl
  refine ⟨_, _, _, _, _, _, rfl, rfl, rfl, rfl, rfl, regular_getHeap h₄ rfl, fun hkeeps => ?_⟩
  exact absurd hkeeps.order (by decide)

end Incudine.EdfHeap

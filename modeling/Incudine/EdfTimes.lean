import Incudine.FunctionFifo
import Incudine.UnscheduleIf

/-!
# The times of the pending events

`nextTime` searches the heap from the root and leaves a branch at the first node that is searched,
`lastTime` scans the nodes from an index computed from the number of the events. They only rest on
the order of the times.
-/

namespace Incudine.EdfHeap

open Function SiftedHeap

variable {T F A : Type*} [LinearOrder T]

def Heap.TimeOrdered (h : Heap T F A) : Prop := Ordered Node.time h.data h.nextNode

variable {h : Heap T F A}

section Kept

variable {κ : Type*} [LinearOrder κ] {key : Node T F A → κ}

/-- The nodes are ordered by a function of their times. -/
structure Heap.OrderedBy (h : Heap T F A) (key : Node T F A → κ) : Prop where
  mono : ∀ x y : Node T F A, x.time ≤ y.time → key x ≤ key y
  pos : 1 ≤ h.nextNode
  ordered : Ordered key h.data h.nextNode

theorem Heap.orderedBy_const (hpos : 1 ≤ h.nextNode) : h.OrderedBy (fun _ => ()) where
  mono _ _ _ := le_rfl
  pos := hpos
  ordered _ _ _ := le_rfl

theorem Heap.OrderedBy.of_empty {g : Heap T F A} (hord : h.OrderedBy key) (he : g.nextNode = 1) :
    g.OrderedBy key where
  mono := hord.mono
  pos := he.ge
  ordered i h₂ hi := by omega

theorem Heap.OrderedBy.of_key (hord : h.OrderedBy key) (x y : Node T F A) (hle : x.key ≤ y.key) :
    key x ≤ key y := by
  rw [Node.key, Node.key, Prod.Lex.toLex_le_toLex] at hle
  rcases hle with hlt | ⟨heq, -⟩
  · exact hord.mono x y (le_of_lt hlt)
  · exact hord.mono x y (le_of_eq heq)

theorem Heap.OrderedBy.scheduleAt {h : Heap T F A} (hord : h.OrderedBy key) (heapSize : ℕ)
    (t : T) (f : F) (a : List A) :
    (scheduleAt heapSize h t f a).OrderedBy key ∧
      (scheduleAt heapSize h t f a).nextNode ≤ h.nextNode + 1 := by
  rcases Nat.lt_or_ge h.nextNode heapSize with hroom | hfull
  · obtain ⟨hnext, -, hkept, -⟩ := scheduleAt_ordered hroom hord.pos hord.ordered t f a
      (fun x hlt => hord.mono _ _ (le_of_lt hlt)) (fun x _ hle => hord.mono _ _ hle)
    exact ⟨⟨hord.mono, by omega, hkept⟩, by omega⟩
  · rw [scheduleAt_full hfull]
    exact ⟨hord, Nat.le_succ _⟩

theorem Heap.OrderedBy.reinsertLoop (crucial : F → Bool) (heapSize count : ℕ) :
    ∀ fuel {h : Heap T F A} i, h.OrderedBy key →
      (reinsertLoop crucial heapSize count fuel h i).OrderedBy key ∧
      (reinsertLoop crucial heapSize count fuel h i).nextNode ≤ h.nextNode + fuel := by
  intro fuel
  induction fuel with
  | zero => exact fun i hord => ⟨hord, le_rfl⟩
  | succ fuel ih =>
    intro h i hord
    simp only [EdfHeap.reinsertLoop]
    split_ifs with hend hcrucial
    · exact ⟨hord, by omega⟩
    · obtain ⟨hord₁, hle₁⟩ := hord.scheduleAt heapSize (h.data i).time (h.data i).function
        (h.data i).args
      obtain ⟨hord₂, hle₂⟩ := ih (i + 1) hord₁
      exact ⟨hord₂, by omega⟩
    · obtain ⟨hord₁, hle₁⟩ := ih (i + 1) hord
      exact ⟨hord₁, by omega⟩

theorem Heap.OrderedBy.ignoreNonCrucialEvents {h : Heap T F A} (hord : h.OrderedBy key)
    (crucial : F → Bool) (heapSize : ℕ) :
    (ignoreNonCrucialEvents crucial heapSize h).OrderedBy key ∧
      (ignoreNonCrucialEvents crucial heapSize h).nextNode ≤ h.nextNode := by
  have hreset : ({ h with nextNode := rootNode, orderingTag := 0 } : Heap T F A).OrderedBy key :=
    hord.of_empty rfl
  obtain ⟨hkept, hle⟩ := Heap.OrderedBy.reinsertLoop crucial heapSize h.heapCount h.heapCount
    rootNode hreset
  refine ⟨hkept, hle.trans ?_⟩
  have hpos := hord.pos
  unfold Heap.heapCount rootNode
  dsimp only
  omega

variable [Zero T] [Inhabited F]

theorem Heap.OrderedBy.getHeap {h : Heap T F A} (hord : h.OrderedBy key) :
    (getHeap h).2.OrderedBy key ∧ (getHeap h).2.nextNode ≤ h.nextNode := by
  rcases Nat.eq_or_lt_of_le hord.pos with hone | hne
  · rw [getHeap_empty hone.symm]
    exact ⟨hord, le_rfl⟩
  · obtain ⟨-, hnext, -, hkept, -⟩ := getHeap_ordered hord.of_key hne hord.ordered
    exact ⟨⟨hord.mono, by omega, hkept⟩, by omega⟩

theorem Heap.OrderedBy.scanLoop (doomed : Node T F A → Bool) {i : ℕ} (hord : h.OrderedBy key)
    (h₁ : 1 ≤ i) :
    (scanLoop doomed h i).OrderedBy key ∧ (scanLoop doomed h i).nextNode ≤ h.nextNode := by
  induction h, i using scanLoop.induct doomed with
  | case1 h i hend =>
    rw [EdfHeap.scanLoop, if_pos hend]
    exact ⟨hord, le_rfl⟩
  | case2 h i hend hdel ih =>
    have hi : i < h.nextNode := not_le.mp hend
    have hnext := deleteEvent_nextNode h i
    have hkept := (deleteEvent_ordered hord.of_key h₁ hi hord.ordered).1
    obtain ⟨hord', hle⟩ := ih ⟨hord.mono, by omega, hkept⟩ (restartIndex_pos i)
    rw [EdfHeap.scanLoop, if_neg hend, if_pos hdel]
    exact ⟨hord', by omega⟩
  | case3 h i hend hkeep ih =>
    rw [EdfHeap.scanLoop, if_neg hend, if_neg hkeep]
    exact ih hord (by omega)

end Kept

section NextTime

variable [DecidableEq F]

/-- The test of `next-time`. -/
def searched (function : Option F) (startTime : Option T) (n : Node T F A) : Bool :=
  function.all (· == n.function) && startTime.all (· ≤ n.time)

/-- The choice between the nodes found on the left and on the right. -/
def test : Option (Node T F A) → Option (Node T F A) → Option (Node T F A)
  | some left, some right => if nodeTimeGt right left then some left else some right
  | left, right => left.or right

/-- The node found from index `i` on. The index at least doubles at every call. -/
def next (function : Option F) (startTime : Option T) (h : Heap T F A) :
    ℕ → ℕ → Option (Node T F A)
  | 0, _ => none
  | fuel + 1, i =>
    if i < h.nextNode then
      if searched function startTime (h.data i) then some (h.data i)
      else
        let left := i <<< 1
        test (next function startTime h fuel left) (next function startTime h fuel (left + 1))
    else none

/-- The time of the next scheduled `function`, starting its search at `startTime`. It is zero if
the searched event is not available. -/
def nextTime [Zero T] (h : Heap T F A) (function : Option F) (startTime : Option T) : T :=
  match next function startTime h h.nextNode rootNode with
  | some node => node.time
  | none => 0

omit [DecidableEq F] in
theorem test_eq_none {left right : Option (Node T F A)} :
    test left right = none ↔ left = none ∧ right = none := by
  cases left with
  | none => simp [test]
  | some l =>
    cases right with
    | none => simp [test]
    | some r =>
      simp only [test]
      split_ifs <;> simp

omit [DecidableEq F] in
theorem test_spec {left right : Option (Node T F A)} {x : Node T F A}
    (h : test left right = some x) :
    (left = some x ∨ right = some x) ∧
    (∀ y, left = some y → x.time ≤ y.time) ∧ (∀ y, right = some y → x.time ≤ y.time) := by
  cases left with
  | none =>
    have hr : right = some x := by simpa [test] using h
    exact ⟨Or.inr hr, fun y hy => absurd hy (by simp), fun y hy => by
      rw [hr] at hy
      exact le_of_eq (congrArg Node.time (Option.some.inj hy))⟩
  | some l =>
    cases right with
    | none =>
      have hl : l = x := by simpa [test] using h
      subst hl
      exact ⟨Or.inl rfl, fun y hy => le_of_eq (congrArg Node.time (Option.some.inj hy)),
        fun y hy => absurd hy (by simp)⟩
    | some r =>
      simp only [test] at h
      split_ifs at h with hgt
      · obtain rfl := Option.some.inj h
        refine ⟨Or.inl rfl, fun y hy => le_of_eq (congrArg Node.time (Option.some.inj hy)),
          fun y hy => ?_⟩
        obtain rfl := Option.some.inj hy
        rcases hgt with hlt | ⟨heq, -⟩
        · exact le_of_lt hlt
        · exact le_of_eq heq.symm
      · obtain rfl := Option.some.inj h
        refine ⟨Or.inr rfl, fun y hy => ?_,
          fun y hy => le_of_eq (congrArg Node.time (Option.some.inj hy))⟩
        obtain rfl := Option.some.inj hy
        exact not_lt.mp fun hlt => hgt (Or.inl hlt)

omit [LinearOrder T] [DecidableEq F] in
theorem branch_cases {i j m : ℕ} (h : j / 2 ^ m = i) :
    j = i ∨ ∃ k, j / 2 ^ k = 2 * i ∨ j / 2 ^ k = 2 * i + 1 := by
  cases m with
  | zero => exact Or.inl (by simpa using h)
  | succ m =>
    rw [pow_succ, ← Nat.div_div_eq_div_mul] at h
    exact Or.inr ⟨m, by omega⟩

theorem next_spec {function : Option F} {startTime : Option T} {h : Heap T F A}
    (hord : h.TimeOrdered) :
    ∀ fuel i, 1 ≤ i → h.nextNode ≤ i + fuel →
      (next function startTime h fuel i = none → ∀ m j, j < h.nextNode → j / 2 ^ m = i →
        searched function startTime (h.data j) = false) ∧
      ∀ x, next function startTime h fuel i = some x →
        searched function startTime x = true ∧ x ∈ h.nodes ∧
        ∀ m j, j < h.nextNode → j / 2 ^ m = i →
          searched function startTime (h.data j) = true → x.time ≤ (h.data j).time := by
  intro fuel
  induction fuel with
  | zero =>
    intro i h₁ hf
    refine ⟨fun _ m j hj hbranch => ?_, fun x hx => by simp [next] at hx⟩
    have hle : i ≤ j := hbranch ▸ Nat.div_le_self j (2 ^ m)
    omega
  | succ fuel ih =>
    intro i h₁ hf
    simp only [next]
    split_ifs with hi hfound
    · refine ⟨fun hnone => absurd hnone (by simp), fun x hx => ?_⟩
      obtain rfl := Option.some.inj hx
      exact ⟨hfound, mem_entries.mpr ⟨i, h₁, hi, rfl⟩,
        fun m j hj hbranch _ => hord.branch_le h₁ m j hj hbranch⟩
    · have hleft : i <<< 1 = 2 * i := by rw [Nat.shiftLeft_eq, pow_one, mul_comm]
      rw [hleft]
      obtain ⟨hlnone, hlsome⟩ := ih (2 * i) (by omega) (by omega)
      obtain ⟨hrnone, hrsome⟩ := ih (2 * i + 1) (by omega) (by omega)
      refine ⟨fun hnone m j hj hbranch => ?_, fun x hx => ?_⟩
      · obtain ⟨hl, hr⟩ := test_eq_none.mp hnone
        rcases branch_cases hbranch with rfl | ⟨k, hk | hk⟩
        · simpa using hfound
        · exact hlnone hl k j hj hk
        · exact hrnone hr k j hj hk
      · obtain ⟨hx', hleast, hleast'⟩ := test_spec hx
        refine ⟨?_, ?_, fun m j hj hbranch hsearched => ?_⟩
        · rcases hx' with hl | hr
          · exact (hlsome x hl).1
          · exact (hrsome x hr).1
        · rcases hx' with hl | hr
          · exact (hlsome x hl).2.1
          · exact (hrsome x hr).2.1
        · rcases branch_cases hbranch with rfl | ⟨k, hk | hk⟩
          · exact absurd hsearched hfound
          · cases hl : next function startTime h fuel (2 * i) with
            | none => rw [hlnone hl k j hj hk] at hsearched; cases hsearched
            | some y => exact (hleast y hl).trans ((hlsome y hl).2.2 k j hj hk hsearched)
          · cases hr : next function startTime h fuel (2 * i + 1) with
            | none => rw [hrnone hr k j hj hk] at hsearched; cases hsearched
            | some y => exact (hleast' y hr).trans ((hrsome y hr).2.2 k j hj hk hsearched)
    · refine ⟨fun _ m j hj hbranch => ?_, fun x hx => by simp at hx⟩
      have hle : i ≤ j := hbranch ▸ Nat.div_le_self j (2 ^ m)
      omega

/-- The event is of the searched function, if any, and not earlier than the start time, if any. -/
def Matches (function : Option F) (startTime : Option T) (n : Node T F A) : Prop :=
  (∀ f, function = some f → n.function = f) ∧ ∀ t, startTime = some t → t ≤ n.time

theorem searched_iff {function : Option F} {startTime : Option T} {n : Node T F A} :
    searched function startTime n = true ↔ Matches function startTime n := by
  unfold searched Matches
  rw [Bool.and_eq_true]
  refine and_congr ?_ ?_
  · cases function with
    | none => simp
    | some f => simpa using eq_comm
  · cases startTime <;> simp

def NextTimeIsLeast [Zero T] (h : Heap T F A) (function : Option F) (startTime : Option T) :
    Prop :=
  (∃ x ∈ h.nodes, Matches function startTime x ∧ nextTime h function startTime = x.time ∧
    ∀ y ∈ h.nodes, Matches function startTime y → x.time ≤ y.time) ∨
  (∀ x ∈ h.nodes, ¬ Matches function startTime x) ∧ nextTime h function startTime = 0

theorem Heap.TimeOrdered.nextTimeIsLeast [Zero T] (hord : h.TimeOrdered) (function : Option F)
    (startTime : Option T) : NextTimeIsLeast h function startTime := by
  have hroot : ∀ y ∈ h.nodes, ∃ m j, j < h.nextNode ∧ j / 2 ^ m = rootNode ∧ h.data j = y := by
    intro y hy
    obtain ⟨j, hj₁, hj, hjy⟩ := mem_entries.mp hy
    refine ⟨j.log2, j, hj, Nat.div_eq_of_lt_le ?_ ?_, hjy⟩
    · simpa [rootNode] using Nat.log2_self_le (by omega : j ≠ 0)
    · simpa [rootNode, pow_succ, mul_comm] using Nat.lt_log2_self (n := j)
  obtain ⟨hnone, hsome⟩ := @next_spec T F A _ _ function startTime h hord
    h.nextNode rootNode le_rfl (Nat.le_add_left _ _)
  unfold NextTimeIsLeast nextTime
  cases hfound : next function startTime h h.nextNode rootNode with
  | none =>
    refine Or.inr ⟨fun x hx hmatch => ?_, rfl⟩
    obtain ⟨m, j, hj, hbranch, rfl⟩ := hroot x hx
    have hnot := hnone hfound m j hj hbranch
    rw [searched_iff.mpr hmatch] at hnot
    cases hnot
  | some x =>
    obtain ⟨hsearched, hmem, hleast⟩ := hsome x hfound
    refine Or.inl ⟨x, hmem, searched_iff.mp hsearched, rfl, fun y hy hmatch => ?_⟩
    obtain ⟨m, j, hj, hbranch, rfl⟩ := hroot y hy
    exact hleast m j hj hbranch (searched_iff.mpr hmatch)

end NextTime

section LastTime

def powerOfTwo (n : ℕ) : Bool := n &&& (n - 1) == 0

def lastTimeStart (nextNode : ℕ) : ℕ :=
  if powerOfTwo nextNode then nextNode >>> 1
  else
    let n := nextNode >>> 2
    if n < 2 then n + 1 else FunctionFifo.nextPowerOfTwo n

/-- The scan ends at the first free node, which it has to meet. -/
def lastTimeLoop (h : Heap T F A) : ℕ → ℕ → T → Option T
  | 0, _, _ => none
  | fuel + 1, i, t₀ =>
    if i = h.nextNode then some t₀ else lastTimeLoop h fuel (i + 1) (max t₀ (h.data i).time)

def lastTime (h : Heap T F A) : Option T :=
  let start := lastTimeStart h.nextNode
  lastTimeLoop h (h.nextNode + 1) (start + 1) (h.data start).time

theorem lastTimeLoop_spec (h : Heap T F A) :
    ∀ fuel i t₀, i ≤ h.nextNode → h.nextNode < i + fuel →
      ∃ t, lastTimeLoop h fuel i t₀ = some t ∧ t₀ ≤ t ∧
        (∀ j, i ≤ j → j < h.nextNode → (h.data j).time ≤ t) ∧
        (t = t₀ ∨ ∃ j, i ≤ j ∧ j < h.nextNode ∧ (h.data j).time = t) := by
  intro fuel
  induction fuel with
  | zero => intro i t₀ hi hf; omega
  | succ fuel ih =>
    intro i t₀ hi hf
    simp only [lastTimeLoop]
    split_ifs with hend
    · exact ⟨t₀, rfl, le_rfl, fun j hj hjn => by omega, Or.inl rfl⟩
    · obtain ⟨t, hloop, hle, hall, hsome⟩ :=
        ih (i + 1) (max t₀ (h.data i).time) (by omega) (by omega)
      refine ⟨t, hloop, (le_max_left _ _).trans hle, fun j hj hjn => ?_, ?_⟩
      · rcases Nat.eq_or_lt_of_le hj with rfl | hlt
        · exact (le_max_right _ _).trans hle
        · exact hall j hlt hjn
      · rcases hsome with hmax | ⟨j, hj, hjn, hjt⟩
        · rcases max_choice t₀ (h.data i).time with hl | hr
          · exact Or.inl (hmax.trans hl)
          · exact Or.inr ⟨i, le_rfl, by omega, (hmax.trans hr).symm⟩
        · exact Or.inr ⟨j, by omega, hjn, hjt⟩

theorem lastTimeStart_spec {n : ℕ} (hn : 2 ≤ n) :
    1 ≤ lastTimeStart n ∧ lastTimeStart n < n ∧ 2 * lastTimeStart n < n + 2 := by
  simp only [lastTimeStart, Nat.shiftRight_eq_div_pow]
  split_ifs with hpow hsmall
  · omega
  · have hthree : n ≠ 2 := by
      rintro rfl
      exact hpow (by decide)
    omega
  · have hge : 2 ≤ n / 2 ^ 2 := not_lt.mp hsmall
    have hle : FunctionFifo.nextPowerOfTwo (n / 2 ^ 2) ≤ 2 * (n / 2 ^ 2 - 1) := by
      rw [FunctionFifo.nextPowerOfTwo_eq]
      have hsize : 0 < (n / 2 ^ 2 - 1).size := Nat.size_pos.mpr (by omega)
      obtain ⟨k, hk⟩ := Nat.exists_eq_add_of_lt hsize
      have hself : 2 ^ k ≤ n / 2 ^ 2 - 1 := Nat.lt_size.mp (by omega)
      rw [hk, zero_add, pow_succ]
      omega
    have hone : 1 ≤ FunctionFifo.nextPowerOfTwo (n / 2 ^ 2) := by
      rw [FunctionFifo.nextPowerOfTwo_eq]
      exact Nat.one_le_two_pow
    omega

def LastTimeIsGreatest [Zero T] (h : Heap T F A) : Prop :=
  ∃ t, lastTime h = some t ∧ (∀ x ∈ h.nodes, x.time ≤ t) ∧
    ((∃ x ∈ h.nodes, x.time = t) ∨ h.heapEmpty ∧ t = 0)

theorem Heap.TimeOrdered.lastTime_spec (hord : h.TimeOrdered) (hne : 2 ≤ h.nextNode) :
    ∃ t, lastTime h = some t ∧ (∀ x ∈ h.nodes, x.time ≤ t) ∧ ∃ x ∈ h.nodes, x.time = t := by
  obtain ⟨h₁, hn, hleaf⟩ := lastTimeStart_spec hne
  obtain ⟨t, hloop, hle, hall, hsome⟩ := lastTimeLoop_spec h (h.nextNode + 1)
    (lastTimeStart h.nextNode + 1) (h.data (lastTimeStart h.nextNode)).time (by omega) (by omega)
  refine ⟨t, hloop, fun x hx => ?_, ?_⟩
  · obtain ⟨i, hi₁, hi, rfl⟩ := mem_entries.mp hx
    obtain ⟨j, hj, hjn, hij⟩ := hord.exists_later hleaf hi₁ hi
    rcases Nat.eq_or_lt_of_le hj with rfl | hlt
    · exact hij.trans hle
    · exact hij.trans (hall j hlt hjn)
  · rcases hsome with rfl | ⟨j, hj, hjn, hjt⟩
    · exact ⟨_, mem_entries.mpr ⟨_, h₁, hn, rfl⟩, rfl⟩
    · exact ⟨_, mem_entries.mpr ⟨j, by omega, hjn, rfl⟩, hjt⟩

theorem lastTime_empty (he : h.nextNode = 1) : lastTime h = some (h.data 0).time := by
  have hstart : lastTimeStart 1 = 0 := by decide
  simp [lastTime, he, hstart, lastTimeLoop]

theorem Heap.TimeOrdered.lastTimeIsGreatest_iff [Zero T] (hord : h.TimeOrdered)
    (hpos : 1 ≤ h.nextNode) : LastTimeIsGreatest h ↔ ¬ h.heapEmpty ∨ (h.data 0).time = 0 := by
  rcases Nat.eq_or_lt_of_le hpos with hone | hne
  · have hnodes : h.nodes = 0 := by rw [Heap.nodes, ← hone, entries_one]
    have hempty : h.heapEmpty := hone.symm
    simp [LastTimeIsGreatest, lastTime_empty hone.symm, hnodes, hempty]
  · have hnot : ¬ h.heapEmpty := by
      unfold Heap.heapEmpty rootNode
      omega
    obtain ⟨t, ht, hall, hsome⟩ := hord.lastTime_spec hne
    exact ⟨fun _ => Or.inl hnot, fun _ => ⟨t, ht, hall, Or.inl hsome⟩⟩

end LastTime

end Incudine.EdfHeap

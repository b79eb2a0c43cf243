import Incudine.EdfOrder

/-!
# Cancelling the events that satisfy a test

The scan of `unscheduleIf` deletes while it visits: a deletion shifts the ancestors of the index
down, sifts the last event from the root, and the scan resumes at an index computed from the level.
The last event can come to rest on an ancestor below that index.
-/

namespace Incudine.EdfHeap

open Function SiftedHeap

variable {T F A : Type*} [LinearOrder T] [Zero T] [Inhabited F]

/-- The parents are copied down along the branch of `child`: the hole moves to the root. -/
def moveHole : ℕ → (ℕ → Node T F A) → ℕ → (ℕ → Node T F A)
  | 0, data, _ => data
  | fuel + 1, data, child =>
    if child < 2 then data
    else moveHole fuel (update data child (data (child / 2))) (child / 2)

/-- Remove the event at `index`, which is less than the index of the next free node. -/
def deleteEvent (h : Heap T F A) (index : ℕ) : Heap T F A :=
  let data := if rootNode < index then moveHole index h.data index else h.data
  reorderHeap { h with data := data, nextNode := h.nextNode - 1 }

@[simp] theorem deleteEvent_nextNode (h : Heap T F A) (i : ℕ) :
    (deleteEvent h i).nextNode = h.nextNode - 1 := rfl

theorem deleteEvent_orderingTag (h : Heap T F A) (i : ℕ) :
    (deleteEvent h i).orderingTag = if h.nextNode - 1 = 1 then 0 else h.orderingTag := rfl

omit [LinearOrder T] [Zero T] [Inhabited F] in
theorem moveHole_spec {κ : Type*} [LinearOrder κ] {key : Node T F A → κ} (n : ℕ) :
    ∀ fuel (d : ℕ → Node T F A) hole, hole ≤ fuel → 1 ≤ hole → hole < n →
      Punctured key d n hole →
      Punctured key (moveHole fuel d hole) n rootNode ∧
      ∀ e, entries (update (moveHole fuel d hole) rootNode e) n = entries (update d hole e) n := by
  intro fuel
  induction fuel with
  | zero => intro d hole hf h₁; omega
  | succ fuel ih =>
    intro d hole hf h₁ hn hp
    simp only [moveHole]
    split_ifs with hlt
    · have hone : hole = rootNode := by unfold rootNode; omega
      subst hone
      exact ⟨hp, fun e => rfl⟩
    · obtain ⟨hp', he⟩ := ih (update d hole (d (hole / 2))) (hole / 2) (by omega) (by omega)
        (by omega) (hp.moveUp (by omega))
      refine ⟨hp', fun e => (he e).trans ?_⟩
      exact entries_move d e (by omega) h₁ hn (by omega) (by omega)

variable {i : ℕ}

theorem deleteEvent_ordered {κ : Type*} [LinearOrder κ] {key : Node T F A → κ}
    (hkey : ∀ x y : Node T F A, x.key ≤ y.key → key x ≤ key y) {h : Heap T F A} (h₁ : 1 ≤ i)
    (hi : i < h.nextNode) (hord : Ordered key h.data h.nextNode) :
    Ordered key (deleteEvent h i).data (deleteEvent h i).nextNode ∧
    h.nodes = h.data i ::ₘ (deleteEvent h i).nodes := by
  have hfilled : ∀ d hole, Punctured key d h.nextNode rootNode →
      (∀ e, entries (update d rootNode e) h.nextNode = entries (update h.data hole e) h.nextNode) →
      hole = i →
      Ordered key (reorderHeap { h with data := d, nextNode := h.nextNode - 1 }).data
        (h.nextNode - 1) ∧
      h.nodes = h.data i ::ₘ
        (reorderHeap { h with data := d, nextNode := h.nextNode - 1 }).nodes := by
    rintro d hole hp he rfl
    have hsucc : h.nextNode - 1 + 1 = h.nextNode := by omega
    obtain ⟨ho, hx⟩ := reorderHeap_spec hkey { h with data := d, nextNode := h.nextNode - 1 }
      (by change 1 ≤ h.nextNode - 1; omega) (by simpa only [hsucc] using hp)
    refine ⟨ho, ?_⟩
    have hx' := hx (h.data hole)
    simp only [hsucc] at hx'
    rw [Heap.nodes, Heap.nodes, reorderHeap_nextNode, ← hx', he, update_eq_self]
  unfold deleteEvent
  split_ifs with hroot
  · obtain ⟨hp, he⟩ := moveHole_spec h.nextNode i h.data i le_rfl h₁ hi (hord.puncture i)
    exact hfilled _ i hp he rfl
  · have hone : rootNode = i := by unfold rootNode at *; omega
    exact hfilled h.data rootNode (hord.puncture _) (fun _ => rfl) hone

theorem deleteEvent_spec {h : Heap T F A} (h₁ : 1 ≤ i) (hi : i < h.nextNode)
    (hord : h.HeapProperty) :
    (deleteEvent h i).HeapProperty ∧ h.nodes = h.data i ::ₘ (deleteEvent h i).nodes :=
  deleteEvent_ordered (fun _ _ => id) h₁ hi hord

theorem deleteEvent_valid {h : Heap T F A} (h₁ : 1 ≤ i) (hi : i < h.nextNode) (hv : h.Valid) :
    (deleteEvent h i).Valid := by
  obtain ⟨hord, hnodes⟩ := deleteEvent_spec h₁ hi hv.ordered
  have hdistinct := hv.distinct
  rw [hnodes, Multiset.map_cons, Multiset.nodup_cons] at hdistinct
  refine ⟨by rw [deleteEvent_nextNode]; omega, hord, fun x hx => ?_, hdistinct.2, fun hone => ?_⟩
  · have hused := hv.used x (by rw [hnodes]; exact Multiset.mem_cons_of_mem hx)
    rw [deleteEvent_orderingTag]
    split_ifs with hlast
    · have hempty : (deleteEvent h i).nodes = 0 := by
        rw [Heap.nodes, deleteEvent_nextNode, hlast, entries_one]
      simp [hempty] at hx
    · exact hused
  · rw [deleteEvent_orderingTag, if_pos (by simpa using hone)]

/-- The number of bits of the two's complement representation, sign bit apart. -/
def integerLength (n : ℕ) : ℕ := if n = 0 then 0 else n.log2 + 1

/-- Where the scan resumes after a deletion at `i`. -/
def restartIndex (i : ℕ) : ℕ := integerLength (i ||| 2) - 1

theorem restartIndex_pos (i : ℕ) : 1 ≤ restartIndex i := by
  have hne : i ||| 2 ≠ 0 := by
    have := @Nat.right_le_or i 2
    omega
  have hlog : 1 ≤ (i ||| 2).log2 := (Nat.le_log2 hne).mpr Nat.right_le_or
  simpa [restartIndex, integerLength, hne] using hlog

theorem two_mul_restartIndex_le (h₁ : 1 ≤ i) : 2 * restartIndex i ≤ i + 1 := by
  have hne : i ||| 2 ≠ 0 := by
    have := @Nat.right_le_or i 2
    omega
  have hdef : restartIndex i = (i ||| 2).log2 := by simp [restartIndex, integerLength, hne]
  rw [hdef]
  have hself : 2 ^ (i ||| 2).log2 ≤ i ||| 2 := Nat.log2_self_le hne
  generalize (i ||| 2).log2 = k at hself ⊢
  rcases Nat.lt_or_ge k 2 with hk | hk
  · omega
  · have hpow : 2 ^ k ≤ i := by
      by_contra hlt
      have htwo : 2 < 2 ^ k := lt_of_lt_of_le (by decide) (Nat.pow_le_pow_right (by decide) hk)
      exact absurd (Nat.or_lt_two_pow (not_le.mp hlt) htwo) (not_lt.mpr hself)
    have hlin : 2 * k ≤ 2 ^ k + 1 := by
      clear hself hpow
      induction k, hk using Nat.le_induction with
      | base => decide
      | succ k hk ih =>
        rw [pow_succ]
        omega
    omega

def scanLoop (doomed : Node T F A → Bool) (h : Heap T F A) (i : ℕ) : Heap T F A :=
  if h.nextNode ≤ i then h
  else if doomed (h.data i) then
    scanLoop doomed (deleteEvent h i) (restartIndex i)
  else scanLoop doomed h (i + 1)
termination_by (h.nextNode, h.nextNode - i)
decreasing_by
  · rw [deleteEvent_nextNode]
    exact Prod.Lex.left _ _ (by omega)
  · exact Prod.Lex.right _ (by omega)

/-- The events that are not crucial and satisfy the test. -/
def doomed (crucial : F → Bool) (test : T → F → List A → Bool) (n : Node T F A) : Bool :=
  !crucial n.function && test n.time n.function n.args

/-- Cancel the scheduled events that satisfy the test. -/
def unscheduleIf (crucial : F → Bool) (test : T → F → List A → Bool) (h : Heap T F A) :
    Heap T F A :=
  scanLoop (doomed crucial test) h rootNode

inductive ScanReaches (doomed : Node T F A → Bool) :
    Heap T F A → ℕ → Heap T F A → ℕ → Prop
  | refl (h i) : ScanReaches doomed h i h i
  | keep {h i g k} (hi : i < h.nextNode) (hkeep : doomed (h.data i) = false)
      (tail : ScanReaches doomed h (i + 1) g k) : ScanReaches doomed h i g k
  | delete {h i g k} (hi : i < h.nextNode) (hdel : doomed (h.data i) = true)
      (tail : ScanReaches doomed (deleteEvent h i) (restartIndex i) g k) :
      ScanReaches doomed h i g k

theorem scanLoop_sound (doomed : Node T F A → Bool) (h : Heap T F A) (i : ℕ) (h₁ : 1 ≤ i)
    (hv : h.Valid) :
    (scanLoop doomed h i).Valid ∧
    ∃ removed, h.nodes = removed + (scanLoop doomed h i).nodes ∧
      ∀ x ∈ removed, doomed x = true := by
  induction h, i using scanLoop.induct doomed with
  | case1 h i hend =>
    rw [scanLoop, if_pos hend]
    exact ⟨hv, 0, by simp, by simp⟩
  | case2 h i hend hdel ih =>
    rw [scanLoop, if_neg hend, if_pos hdel]
    have hi : i < h.nextNode := not_le.mp hend
    obtain ⟨hvalid, removed, hnodes, hremoved⟩ :=
      ih (restartIndex_pos i) (deleteEvent_valid h₁ hi hv)
    refine ⟨hvalid, h.data i ::ₘ removed, ?_, ?_⟩
    · rw [(deleteEvent_spec h₁ hi hv.ordered).2, hnodes, Multiset.cons_add]
    · intro x hx
      rcases Multiset.mem_cons.mp hx with rfl | hx
      · exact hdel
      · exact hremoved x hx
  | case3 h i hend hkeep ih =>
    rw [scanLoop, if_neg hend, if_neg hkeep]
    exact ih (by omega) hv

omit [LinearOrder T] [Zero T] [Inhabited F] in
theorem moveHole_ancestor :
    ∀ fuel (d : ℕ → Node T F A) i, i ≤ fuel →
      (∀ m, 2 ≤ i / 2 ^ m → moveHole fuel d i (i / 2 ^ m) = d (i / 2 ^ (m + 1))) ∧
      ∀ j, (∀ m, j ≠ i / 2 ^ m) → moveHole fuel d i j = d j := by
  intro fuel
  induction fuel with
  | zero =>
    intro d i hf
    have hz : i = 0 := by omega
    subst hz
    exact ⟨fun m h₂ => by simp at h₂, fun j _ => rfl⟩
  | succ fuel ih =>
    intro d i hf
    simp only [moveHole]
    have hhalf : ∀ m, i / 2 ^ (m + 1) = i / 2 / 2 ^ m := fun m => by
      rw [Nat.div_div_eq_div_mul, pow_succ, mul_comm]
    split_ifs with hlt
    · refine ⟨fun m h₂ => ?_, fun j _ => rfl⟩
      have := Nat.div_le_self i (2 ^ m)
      omega
    · obtain ⟨hanc, hoff⟩ := ih (update d i (d (i / 2))) (i / 2) (by omega)
      have hsmall : ∀ m, i / 2 / 2 ^ m < i := fun m =>
        lt_of_le_of_lt (Nat.div_le_self _ _) (by omega)
      refine ⟨fun m h₂ => ?_, fun j hj => ?_⟩
      · cases m with
        | zero =>
          simp only [pow_zero, Nat.div_one, zero_add, pow_one]
          rw [hoff i (fun m => (hsmall m).ne'), update_self]
        | succ m =>
          rw [hhalf] at h₂ ⊢
          rw [hanc m h₂, hhalf, update_of_ne (hsmall (m + 1)).ne]
      · rw [hoff j fun m => hhalf m ▸ hj (m + 1), update_of_ne (by simpa using hj 0)]

omit [LinearOrder T] [Zero T] [Inhabited F] in
theorem moveHole_eq (d : ℕ → Node T F A) (i : ℕ) {j : ℕ} (h₂ : 2 ≤ j) :
    ∃ j', moveHole i d i j = d j' ∧ 1 ≤ j' ∧ j' ≤ j ∧ (j = i → j' < i) := by
  obtain ⟨hanc, hoff⟩ := moveHole_ancestor i d i le_rfl
  by_cases hj : ∃ m, j = i / 2 ^ m
  · obtain ⟨m, rfl⟩ := hj
    have hhalf : i / 2 ^ (m + 1) = i / 2 ^ m / 2 := by
      rw [Nat.div_div_eq_div_mul, pow_succ]
    refine ⟨_, hanc m h₂, ?_, ?_, ?_⟩
    all_goals
      rw [hhalf]
      omega
  · refine ⟨j, hoff j fun m hm => hj ⟨m, hm⟩, by omega, le_rfl, fun hji => ?_⟩
    exact absurd ⟨0, by simpa using hji⟩ hj

omit [Zero T] [Inhabited F] in
theorem siftDownLoop_apply (n : ℕ) (e : Node T F A) :
    ∀ fuel (d : ℕ → Node T F A) parent, 1 ≤ parent →
      let r := siftDownLoop n e fuel d parent (2 * parent)
      ∀ j, j ≠ r.2 → (r.1 j = d j ∧ j ≠ parent) ∨
        ∃ c, c / 2 = j ∧ parent < c ∧ c < n ∧ r.1 j = d c := by
  intro fuel
  induction fuel with
  | zero => exact fun d parent _ j hj => Or.inl ⟨rfl, hj⟩
  | succ fuel ih =>
    intro d parent h₁
    simp only [siftDownLoop_succ]
    have hchild := leastChild_eq n d (2 * parent)
    split_ifs with hcurr hgt
    · generalize leastChild n d (2 * parent) = c at hchild ⊢
      intro j hj
      rcases ih (update d parent (d c)) c (by omega) j hj with ⟨hr, hjc⟩ | ⟨c', hp, hlt, hn, hr⟩
      · by_cases hjp : j = parent
        · refine Or.inr ⟨c, by omega, by omega, by omega, ?_⟩
          rw [hr, hjp, update_self]
        · exact Or.inl ⟨by rw [hr, update_of_ne hjp], hjp⟩
      · refine Or.inr ⟨c', hp, by omega, hn, ?_⟩
        rw [hr, update_of_ne (by omega)]
    · exact fun j hj => Or.inl ⟨rfl, hj⟩
    · exact fun j hj => Or.inl ⟨rfl, hj⟩

theorem branch_lt {a b : ℕ} (hab : a < b) (hpos : 1 ≤ i / 2 ^ a) : i / 2 ^ b < i / 2 ^ a := by
  have hsplit : i / 2 ^ b = i / 2 ^ a / 2 ^ (b - a) := by
    rw [Nat.div_div_eq_div_mul, ← pow_add, Nat.add_sub_cancel' hab.le]
  rw [hsplit]
  exact Nat.div_lt_self hpos (Nat.one_lt_two_pow (by omega))

omit [Zero T] [Inhabited F] in
/-- After the shift along the branch of `i`, the hole follows the branch: it stops at an ancestor
of `i` that the temporary node precedes, or it reaches `i`. -/
theorem siftDownLoop_branch {old : ℕ → Node T F A} {n i : ℕ} (e : Node T F A)
    (hi : i < n) (hstrict : ∀ j, 2 ≤ j → j < n → (old (j / 2)).key < (old j).key) :
    ∀ fuel (d : ℕ → Node T F A) m, n ≤ i / 2 ^ m + fuel → 1 ≤ i / 2 ^ m →
      (∀ j, i / 2 ^ m < j → j < n → d j = moveHole i old i j) →
      let r := siftDownLoop n e fuel d (i / 2 ^ m) (2 * (i / 2 ^ m))
      i ≤ r.2 ∨ ∃ m', 1 ≤ m' ∧ r.2 = i / 2 ^ m' ∧ 1 ≤ i / 2 ^ m' ∧
        e.key ≤ (old (i / 2 ^ m')).key := by
  obtain ⟨hanc, hoff⟩ := moveHole_ancestor i old i le_rfl
  have hhalf : ∀ m, i / 2 ^ (m + 1) = i / 2 ^ m / 2 := fun m => by
    rw [Nat.div_div_eq_div_mul, pow_succ]
  have hself : ∀ m, i / 2 ^ m ≤ i := fun m => Nat.div_le_self _ _
  intro fuel
  induction fuel with
  | zero =>
    intro d m hf
    have := hself m
    omega
  | succ fuel ih =>
    intro d m hf hpos hd
    simp only [siftDownLoop_succ]
    cases m with
    | zero =>
      -- the hole is at the index itself and can only descend
      simp only [pow_zero, Nat.div_one] at *
      have hge : ∀ fuel (d : ℕ → Node T F A) parent, i ≤ parent →
          i ≤ (siftDownLoop n e fuel d parent (2 * parent)).2 := by
        intro fuel
        induction fuel with
        | zero => exact fun d parent hp => hp
        | succ fuel ihf =>
          intro d parent hp
          rw [siftDownLoop_succ]
          have hchild := leastChild_eq n d (2 * parent)
          split_ifs
          · exact ihf _ _ (by omega)
          · exact hp
          · exact hp
      have hchild := leastChild_eq n d (2 * i)
      refine Or.inl ?_
      split_ifs
      · exact hge _ _ _ (by omega)
      · exact le_rfl
      · exact le_rfl
    | succ m =>
      generalize hp : i / 2 ^ (m + 1) = p at *
      have hq : i / 2 ^ m / 2 = p := (hhalf m).symm.trans hp
      have hqn : i / 2 ^ m < n := lt_of_le_of_lt (hself m) hi
      have hbranch : d (i / 2 ^ m) = old p := by
        rw [hd _ (by omega) hqn, hanc m (by omega), hp]
      have hside : ∀ s, s < n → s / 2 = p → s ≠ i / 2 ^ m → (d (i / 2 ^ m)).key < (d s).key := by
        intro s hs hsp hne
        have hoffBranch : ∀ m', s ≠ i / 2 ^ m' := by
          rintro m' rfl
          rw [← hhalf, ← hp] at hsp
          rcases Nat.lt_trichotomy m' m with hlt | rfl | hgt
          · exact absurd hsp (branch_lt (by omega) (by omega)).ne'
          · exact hne rfl
          · exact absurd hsp (branch_lt (by omega) (by omega)).ne
        rw [hbranch, hd s (by omega) hs, hoff s hoffBranch, ← hsp]
        exact hstrict s (by omega) hs
      have hleast : leastChild n d (2 * p) = i / 2 ^ m := by
        unfold leastChild
        simp only [nodeTimeGt_iff]
        split_ifs with h
        · by_contra hne
          have heq : i / 2 ^ m = 2 * p := by omega
          exact lt_asymm h.2 (heq ▸ hside (2 * p + 1) h.1 (by omega) (by omega))
        · by_contra hne
          have heq : i / 2 ^ m = 2 * p + 1 := by omega
          exact h ⟨by omega, heq ▸ hside (2 * p) (by omega) (by omega) (by omega)⟩
      rw [hleast, if_pos (by omega : 2 * p < n)]
      split_ifs with hgt
      · refine ih (update d p (d (i / 2 ^ m))) m (by omega) (by omega) fun j hj hjn => ?_
        rw [update_of_ne (by omega)]
        exact hd j (by omega) hjn
      · rw [nodeTimeGt_iff, not_lt, hbranch] at hgt
        exact Or.inr ⟨m + 1, by omega, hp.symm, by omega, by rw [hp]; exact hgt⟩

/-- The last pending event does not precede an ancestor of `i` that lies below the index where
the scan resumes, unless it is an event to keep. -/
def LastStaysAhead (doomed : Node T F A → Bool) (h : Heap T F A) (i : ℕ) : Prop :=
  doomed (h.data (h.nextNode - 1)) = true →
    ∀ m, 1 ≤ m → 1 ≤ i / 2 ^ m → i / 2 ^ m < restartIndex i →
      (h.data (i / 2 ^ m)).key < (h.data (h.nextNode - 1)).key

omit [Zero T] [Inhabited F] in
theorem Heap.Valid.edge_lt {h : Heap T F A} (hv : h.Valid) {j : ℕ} (h₂ : 2 ≤ j)
    (hj : j < h.nextNode) : (h.data (j / 2)).key < (h.data j).key := by
  refine lt_of_le_of_ne (hv.ordered j h₂ hj) fun heq => ?_
  have horder : (h.data (j / 2)).order = (h.data j).order :=
    congrArg Prod.snd (toLex.injective heq)
  have hdistinct := hv.distinct
  rw [Heap.nodes, entries, Multiset.map_map] at hdistinct
  have hmem : ∀ k, 1 ≤ k → k < h.nextNode → k ∈ (Finset.Ico 1 h.nextNode).val := fun k hk hkn => by
    simp [hk, hkn]
  have hidx := Multiset.inj_on_of_nodup_map hdistinct _ (hmem (j / 2) (by omega) (by omega)) _
    (hmem j (by omega) hj) horder
  omega

theorem deleteEvent_behind {doomed : Node T F A → Bool} {h : Heap T F A} (h₁ : 1 ≤ i)
    (hi : i < h.nextNode) (hv : h.Valid) (hcond : LastStaysAhead doomed h i)
    (hbehind : ∀ j, 1 ≤ j → j < i → doomed (h.data j) = false) :
    ∀ j, 1 ≤ j → j < restartIndex i → j < h.nextNode - 1 →
      doomed ((deleteEvent h i).data j) = false := by
  intro j hj₁ hjr hjn
  have hrestart := two_mul_restartIndex_le h₁
  obtain ⟨hanc, hoff⟩ := moveHole_ancestor i h.data i le_rfl
  have hkept : ∀ k, 2 ≤ k → k ≤ i → doomed (moveHole i h.data i k) = false := by
    intro k h₂ hk
    obtain ⟨k', hdata, hk₁, hle, hlt⟩ := moveHole_eq h.data i h₂
    rw [hdata]
    exact hbehind k' hk₁ (by omega)
  have hshift : (if rootNode < i then moveHole i h.data i else h.data) =
      moveHole i h.data i := by
    split_ifs with hroot
    · rfl
    · have hone : i = 1 := by unfold rootNode at hroot; omega
      rw [hone]
      rfl
  simp only [deleteEvent, reorderHeap, hshift]
  generalize hM : moveHole i h.data i = M at *
  generalize hn : h.nextNode - 1 = n at *
  have htemp : update (update M rootNode (M n)) n makeNode rootNode = M n := by
    rw [update_of_ne (by unfold rootNode; omega), update_self]
  rw [htemp]
  generalize hd : update (update M rootNode (M n)) n makeNode = d
  have hdM : ∀ k, 1 < k → k < n → d k = M k := fun k hk hkn => by
    rw [← hd, update_of_ne (by omega), update_of_ne (by unfold rootNode; omega)]
  by_cases hjrest : j = (siftDownLoop n (M n) n d rootNode firstParent).2
  · rw [← hjrest, update_self]
    rcases Nat.lt_or_ge i n with hin | hin
    · have hlast : M n = h.data n := hoff n fun m hm => by
        have := Nat.div_le_self i (2 ^ m)
        omega
      by_contra hdoomed
      rw [hlast, Bool.not_eq_false] at hdoomed
      have hroot : i / 2 ^ i.log2 = 1 :=
        Nat.div_eq_of_lt_le (by simpa using Nat.log2_self_le (by omega : i ≠ 0))
          (by simpa [pow_succ, mul_comm] using Nat.lt_log2_self (n := i))
      have hbranch := siftDownLoop_branch (M n) hin
        (fun k h₂ hk => hv.edge_lt h₂ (by omega)) n d i.log2 (by omega) (by omega)
        (fun k hk hkn => by rw [hdM k (by omega) hkn, hM])
      rw [hroot] at hbranch
      change i ≤ (siftDownLoop n (M n) n d rootNode firstParent).2 ∨ ∃ m', 1 ≤ m' ∧
        (siftDownLoop n (M n) n d rootNode firstParent).2 = i / 2 ^ m' ∧ 1 ≤ i / 2 ^ m' ∧
        (M n).key ≤ (h.data (i / 2 ^ m')).key at hbranch
      rw [← hjrest] at hbranch
      rcases hbranch with hle | ⟨m, hm, hjm, hpos, hkey⟩
      · omega
      · have hahead := hcond (by rw [hn]; exact hdoomed) m hm hpos (by omega)
        rw [hn, ← hlast] at hahead
        exact absurd hahead (not_lt.mpr hkey)
    · have hni : n = i := by omega
      rw [hni]
      exact hkept i (by omega) le_rfl
  · rw [update_of_ne hjrest]
    rcases siftDownLoop_apply n (M n) n d rootNode le_rfl j hjrest with
      ⟨hr, hne⟩ | ⟨c, hc, hlt, hcn, hr⟩
    · rw [show firstParent = 2 * rootNode from rfl, hr, hdM j (by unfold rootNode at hne; omega) hjn]
      exact hkept j (by unfold rootNode at hne; omega) (by omega)
    · rw [show firstParent = 2 * rootNode from rfl, hr, hdM c hlt hcn]
      exact hkept c hlt (by omega)

/-- The pending events are those that were pending and are crucial or do not satisfy the test,
each kept once, and the heap property holds. -/
def UnscheduledExactly (crucial : F → Bool) (test : T → F → List A → Bool)
    (h h' : Heap T F A) : Prop :=
  h'.nodes = h.nodes.filter (fun n => crucial n.function = true ∨
    test n.time n.function n.args = false) ∧ h'.HeapProperty

theorem scanLoop_complete (doomed : Node T F A → Bool) (h : Heap T F A) (i : ℕ) (h₁ : 1 ≤ i)
    (hv : h.Valid) (hbehind : ∀ j, 1 ≤ j → j < i → j < h.nextNode → doomed (h.data j) = false)
    (hcond : ∀ g k, ScanReaches doomed h i g k → k < g.nextNode → doomed (g.data k) = true →
      LastStaysAhead doomed g k) :
    ∀ x ∈ (scanLoop doomed h i).nodes, doomed x = false := by
  induction h, i using scanLoop.induct doomed with
  | case1 h i hend =>
    rw [scanLoop, if_pos hend]
    intro x hx
    obtain ⟨j, hj₁, hj, rfl⟩ := mem_entries.mp hx
    exact hbehind j hj₁ (by omega) hj
  | case2 h i hend hdel ih =>
    have hi : i < h.nextNode := not_le.mp hend
    rw [scanLoop, if_neg hend, if_pos hdel]
    refine ih (restartIndex_pos i) (deleteEvent_valid h₁ hi hv) ?_ ?_
    · exact deleteEvent_behind h₁ hi hv (hcond h i (.refl h i) hi hdel)
        fun j hj₁ hj => hbehind j hj₁ hj (by omega)
    · exact fun g k hreach => hcond g k (.delete hi hdel hreach)
  | case3 h i hend hkeep ih =>
    have hi : i < h.nextNode := not_le.mp hend
    have hkeep' : doomed (h.data i) = false := by simpa using hkeep
    rw [scanLoop, if_neg hend, if_neg hkeep]
    refine ih (by omega) hv (fun j hj₁ hj hjn => ?_) fun g k hreach =>
      hcond g k (.keep hi hkeep' hreach)
    rcases Nat.lt_or_ge j i with hlt | hge
    · exact hbehind j hj₁ hlt hjn
    · rw [show j = i by omega]
      exact hkeep'

/-- The loop of `ignoreNonCrucialEvents` over the old events from index `i` to `count`. -/
def reinsertLoop (crucial : F → Bool) (heapSize count : ℕ) : ℕ → Heap T F A → ℕ → Heap T F A
  | 0, h, _ => h
  | fuel + 1, h, i =>
    if count < i then h
    else
      let node := h.data i
      reinsertLoop crucial heapSize count fuel
        (if crucial node.function then scheduleAt heapSize h node.time node.function node.args
          else h) (i + 1)

def ignoreNonCrucialEvents (crucial : F → Bool) (heapSize : ℕ) (h : Heap T F A) : Heap T F A :=
  reinsertLoop crucial heapSize h.heapCount h.heapCount
    { h with nextNode := rootNode, orderingTag := 0 } rootNode

omit [LinearOrder T] [Zero T] [Inhabited F] in
theorem Heap.Valid.heapCount_le [LinearOrder T] {h : Heap T F A} (hv : h.Valid) :
    h.heapCount ≤ h.orderingTag := by
  classical
  have hsub : (h.nodes.map Node.order).toFinset ⊆ Finset.range h.orderingTag := by
    intro o ho
    obtain ⟨x, hx, rfl⟩ := Multiset.mem_map.mp (Multiset.mem_toFinset.mp ho)
    exact Finset.mem_range.mpr (hv.used x hx)
  have hcard := Finset.card_le_card hsub
  rwa [Multiset.toFinset_card_of_nodup hv.distinct, Multiset.card_map, card_nodes,
    Finset.card_range] at hcard

omit [Zero T] [Inhabited F] in
theorem reinsertLoop_valid (crucial : F → Bool) (heapSize count : ℕ) (hcount : count < tagModulus) :
    ∀ fuel (h : Heap T F A) i, h.Valid → h.orderingTag + 1 ≤ i →
      (reinsertLoop crucial heapSize count fuel h i).Valid ∧
      (i ≤ count + 1 → (reinsertLoop crucial heapSize count fuel h i).orderingTag ≤ count) := by
  intro fuel
  induction fuel with
  | zero => exact fun h i hv htag => ⟨hv, fun hi => by simp only [reinsertLoop]; omega⟩
  | succ fuel ih =>
    intro h i hv htag
    simp only [reinsertLoop]
    split_ifs with hend hcrucial
    · exact ⟨hv, fun hi => by omega⟩
    · rcases Nat.lt_or_ge h.nextNode heapSize with hroom | hfull
      · obtain ⟨-, hnewTag, -, -⟩ := scheduleAt_spec hroom hv.pos hv.ordered hv.used
          (h.data i).time (h.data i).function (h.data i).args
        rw [Nat.mod_eq_of_lt (by omega)] at hnewTag
        have hrest := ih _ (i + 1) (scheduleAt_valid hv hroom (by omega) (h.data i).time
          (h.data i).function (h.data i).args) (by omega)
        exact ⟨hrest.1, fun _ => hrest.2 (by omega)⟩
      · rw [scheduleAt_full hfull]
        exact ⟨(ih h (i + 1) hv (by omega)).1, fun _ => (ih h (i + 1) hv (by omega)).2 (by omega)⟩
    · exact ⟨(ih h (i + 1) hv (by omega)).1, fun _ => (ih h (i + 1) hv (by omega)).2 (by omega)⟩

/-- The heaps obtained from an empty one. The ordering tag is never masked. -/
inductive Reachable (crucial : F → Bool) (heapSize : ℕ) : Heap T F A → Prop
  | makeHeap : Reachable crucial heapSize makeHeap
  | scheduleAt {h} (hr : Reachable crucial heapSize h) (htag : h.orderingTag + 1 < tagModulus)
      (t f a) : Reachable crucial heapSize (scheduleAt heapSize h t f a)
  | getHeap {h} (hr : Reachable crucial heapSize h) : Reachable crucial heapSize (getHeap h).2
  | unscheduleIf {h} (hr : Reachable crucial heapSize h) (test) :
      Reachable crucial heapSize (unscheduleIf crucial test h)
  | ignoreNonCrucialEvents {h} (hr : Reachable crucial heapSize h) :
      Reachable crucial heapSize (ignoreNonCrucialEvents crucial heapSize h)

theorem getHeap_orderingTag_le (h : Heap T F A) :
    (getHeap h).2.orderingTag ≤ h.orderingTag := by
  unfold getHeap
  split_ifs
  · rw [reorderHeap_orderingTag]
    split_ifs
    · exact Nat.zero_le _
    · exact le_rfl
  · exact le_rfl

theorem scanLoop_orderingTag_le (doomed : Node T F A → Bool) (h : Heap T F A) (i : ℕ) :
    (scanLoop doomed h i).orderingTag ≤ h.orderingTag := by
  induction h, i using scanLoop.induct doomed with
  | case1 h i hend => rw [scanLoop, if_pos hend]
  | case2 h i hend hdel ih =>
    rw [scanLoop, if_neg hend, if_pos hdel]
    refine ih.trans ?_
    rw [deleteEvent_orderingTag]
    split_ifs <;> omega
  | case3 h i hend hkeep ih => rwa [scanLoop, if_neg hend, if_neg hkeep]

omit [Zero T] [Inhabited F] in
theorem scheduleAt_valid_of_tag {heapSize : ℕ} {h : Heap T F A} (hv : h.Valid)
    (htag : h.orderingTag + 1 < tagModulus) (t : T) (f : F) (a : List A) :
    (scheduleAt heapSize h t f a).Valid ∧
      (scheduleAt heapSize h t f a).orderingTag < tagModulus := by
  rcases Nat.lt_or_ge h.nextNode heapSize with hroom | hfull
  · obtain ⟨-, hnewTag, -, -⟩ := scheduleAt_spec hroom hv.pos hv.ordered hv.used t f a
    rw [Nat.mod_eq_of_lt htag] at hnewTag
    exact ⟨scheduleAt_valid hv hroom htag t f a, by omega⟩
  · rw [scheduleAt_full hfull]
    exact ⟨hv, by omega⟩

omit [Zero T] [Inhabited F] in
theorem Heap.reset_valid (h : Heap T F A) :
    ({ h with nextNode := rootNode, orderingTag := 0 } : Heap T F A).Valid where
  pos := le_rfl
  ordered i h₂ hi := absurd hi (by simp [rootNode]; omega)
  used x hx := by simp [Heap.nodes, rootNode] at hx
  distinct := by simp [Heap.nodes, rootNode]
  idle _ := rfl

omit [Zero T] [Inhabited F] in
theorem ignoreNonCrucialEvents_valid (crucial : F → Bool) (heapSize : ℕ) {h : Heap T F A}
    (hv : h.Valid) (htag : h.orderingTag < tagModulus) :
    (ignoreNonCrucialEvents crucial heapSize h).Valid ∧
      (ignoreNonCrucialEvents crucial heapSize h).orderingTag < tagModulus := by
  have hcount : h.heapCount < tagModulus := lt_of_le_of_lt hv.heapCount_le htag
  have hloop := reinsertLoop_valid crucial heapSize h.heapCount hcount h.heapCount _ rootNode
    h.reset_valid le_rfl
  exact ⟨hloop.1, lt_of_le_of_lt (hloop.2 (by unfold rootNode; omega)) hcount⟩

theorem Reachable.valid {crucial : F → Bool} {heapSize : ℕ} {h : Heap T F A}
    (hr : Reachable crucial heapSize h) : h.Valid ∧ h.orderingTag < tagModulus := by
  induction hr with
  | makeHeap => exact ⟨makeHeap_valid, Nat.two_pow_pos _⟩
  | @scheduleAt h _ htag t f a ih => exact scheduleAt_valid_of_tag ih.1 htag t f a
  | @getHeap h _ ih =>
    exact ⟨getHeap_valid ih.1, lt_of_le_of_lt (getHeap_orderingTag_le h) ih.2⟩
  | @unscheduleIf h _ test ih =>
    exact ⟨(scanLoop_sound _ h rootNode le_rfl ih.1).1,
      lt_of_le_of_lt (scanLoop_orderingTag_le _ h rootNode) ih.2⟩
  | @ignoreNonCrucialEvents h _ ih =>
    exact ignoreNonCrucialEvents_valid crucial heapSize ih.1 ih.2

/-- If no deletion of the scan leaves a doomed last event behind it, exactly the events that
satisfy the test and are not crucial are cancelled. -/
theorem unscheduleIf_exact {crucial : F → Bool} {heapSize : ℕ} {h : Heap T F A}
    (hr : Reachable crucial heapSize h) (test : T → F → List A → Bool)
    (hcond : ∀ g i, ScanReaches (doomed crucial test) h rootNode g i → i < g.nextNode →
      doomed crucial test (g.data i) = true → LastStaysAhead (doomed crucial test) g i) :
    UnscheduledExactly crucial test h (unscheduleIf crucial test h) := by
  have hv := hr.valid.1
  obtain ⟨hvalid, removed, hnodes, hremoved⟩ :=
    scanLoop_sound (doomed crucial test) h rootNode le_rfl hv
  have hkept := scanLoop_complete (doomed crucial test) h rootNode le_rfl hv
    (fun j hj₁ hj => by unfold rootNode at hj; omega) hcond
  refine ⟨?_, hvalid.ordered⟩
  have hpred : ∀ n : Node T F A, (crucial n.function = true ∨
      test n.time n.function n.args = false) ↔ doomed crucial test n = false := by
    intro n
    unfold doomed
    cases crucial n.function <;> cases test n.time n.function n.args <;> simp
  simp only [hpred]
  rw [hnodes, Multiset.filter_add, Multiset.filter_eq_nil.mpr, zero_add,
    Multiset.filter_eq_self.mpr hkept]
  · rfl
  · intro x hx
    rw [hremoved x hx]
    exact Bool.noConfusion

theorem ScanReaches.valid {doomed : Node T F A → Bool} {h g : Heap T F A} {k : ℕ}
    (hreach : ScanReaches doomed h i g k) (h₁ : 1 ≤ i) (hv : h.Valid) :
    g.Valid ∧ 1 ≤ k ∧ g.nextNode ≤ h.nextNode := by
  induction hreach with
  | refl h i => exact ⟨hv, h₁, le_rfl⟩
  | keep hi hkeep tail ih => exact ih (by omega) hv
  | @delete h i g k hi hdel tail ih =>
    obtain ⟨hg, hk, hle⟩ := ih (restartIndex_pos i) (deleteEvent_valid h₁ hi hv)
    rw [deleteEvent_nextNode] at hle
    exact ⟨hg, hk, by omega⟩

omit [Zero T] [Inhabited F] in
theorem lastStaysAhead_of_small (doomed : Node T F A → Bool) {h : Heap T F A} {i : ℕ}
    (hv : h.Valid) (h₁ : 1 ≤ i) (hi : i < h.nextNode) (hsmall : h.nextNode ≤ 4) :
    LastStaysAhead doomed h i := by
  intro _ m hm hpos hlt
  have hrestart : ∀ k < 4, restartIndex k ≤ 2 := by decide
  have hr := hrestart i (by omega)
  have hbranch : i / 2 ^ m < i := Nat.div_lt_self h₁ (Nat.one_lt_two_pow (by omega))
  have hroot : i / 2 ^ m = (h.nextNode - 1) / 2 := by omega
  rw [hroot]
  exact hv.edge_lt (by omega) (by omega)

theorem run_reachable {crucial : F → Bool} {heapSize : ℕ} (ops : List (Op T F A)) :
    ∀ {h : Heap T F A}, Reachable crucial heapSize h → h.orderingTag + ops.length < tagModulus →
      Reachable crucial heapSize (run heapSize h ops).2 := by
  induction ops with
  | nil => exact fun hr _ => hr
  | cons op ops ih =>
    intro h hr htag
    rw [List.length_cons] at htag
    have hv := hr.valid.1
    cases op with
    | scheduleAt t f a =>
      refine ih (hr.scheduleAt (by omega) t f a) ?_
      change (scheduleAt heapSize h t f a).orderingTag + ops.length < tagModulus
      rcases Nat.lt_or_ge h.nextNode heapSize with hroom | hfull
      · obtain ⟨-, hnewTag, -, -⟩ := scheduleAt_spec hroom hv.pos hv.ordered hv.used t f a
        rw [Nat.mod_eq_of_lt (by omega)] at hnewTag
        omega
      · rw [scheduleAt_full hfull]
        omega
    | getHeap =>
      refine ih hr.getHeap ?_
      change (getHeap h).2.orderingTag + ops.length < tagModulus
      have := getHeap_orderingTag_le h
      omega

def heapOfTimes (times : List ℕ) : Heap ℕ Unit Unit :=
  (run 16 makeHeap (times.map fun t => .scheduleAt t () [])).2

theorem unscheduleIf_exact_pair :
    UnscheduledExactly (fun _ => false) (fun t _ _ => t == 5) (heapOfTimes [5, 7])
      (unscheduleIf (fun _ => false) (fun t _ _ => t == 5) (heapOfTimes [5, 7])) := by
  have hr : Reachable (fun _ => false) 16 (heapOfTimes [5, 7]) :=
    run_reachable _ .makeHeap (by decide)
  refine unscheduleIf_exact hr _ fun g i hreach hi _ => ?_
  obtain ⟨hg, h₁, hle⟩ := hreach.valid le_rfl hr.valid.1
  exact lastStaysAhead_of_small _ hg h₁ hi (hle.trans (by decide))

theorem scanLoop_skip {doomed : Node T F A → Bool} {h : Heap T F A} {k : ℕ}
    (hk : k ≤ h.nextNode) (n i : ℕ) (hn : i + n = k)
    (hkeep : ∀ j, i ≤ j → j < k → doomed (h.data j) = false) :
    scanLoop doomed h i = scanLoop doomed h k := by
  induction n generalizing i with
  | zero => rw [← hn, add_zero]
  | succ n ih =>
    rw [scanLoop, if_neg (by omega), if_neg (by simp [hkeep i le_rfl (by omega)])]
    exact ih (i + 1) (by omega) fun j hj => hkeep j (by omega)

/-- Twelve events, the first of which in the fourth level is cancelled together with the last
one, which comes to rest at index 2 while the scan resumes at index 3. -/
def strandingTimes : List ℕ := [0, 100, 1, 101, 102, 2, 50, 103, 104, 105, 106, 3]

def strandingTest (t : ℕ) (_ : Unit) (_ : List Unit) : Bool := t == 103 || t == 3

theorem unscheduleIf_not_exact :
    Reachable (fun _ => false) 16 (heapOfTimes strandingTimes) ∧
    ¬ UnscheduledExactly (fun _ => false) strandingTest (heapOfTimes strandingTimes)
      (unscheduleIf (fun _ => false) strandingTest (heapOfTimes strandingTimes)) := by
  refine ⟨run_reachable _ .makeHeap (by decide +kernel), fun hexact => ?_⟩
  have hnext : (heapOfTimes strandingTimes).nextNode = 13 := by decide +kernel
  have hscan : unscheduleIf (fun _ => false) strandingTest (heapOfTimes strandingTimes) =
      deleteEvent (heapOfTimes strandingTimes) 8 := by
    unfold unscheduleIf
    rw [scanLoop_skip (k := 8) (by omega) 7 rootNode rfl (by decide +kernel), scanLoop,
      if_neg (by omega), if_pos (by decide +kernel), show restartIndex 8 = 3 by decide,
      scanLoop_skip (k := 12) (by rw [deleteEvent_nextNode]; omega) 9 3 rfl (by decide +kernel), scanLoop,
      if_pos (by rw [deleteEvent_nextNode]; omega)]
  have hmem : (deleteEvent (heapOfTimes strandingTimes) 8).data 2 ∈
      (deleteEvent (heapOfTimes strandingTimes) 8).nodes :=
    mem_entries.mpr ⟨2, by decide, by rw [deleteEvent_nextNode]; omega, rfl⟩
  rw [← hscan, hexact.1, hscan, Multiset.mem_filter] at hmem
  exact absurd hmem.2 (by decide +kernel)

end Incudine.EdfHeap

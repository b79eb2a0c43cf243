import Incudine.ProbeRepair

/-!
# Look-up of the nodes

Nodes are added to the table and freed in any order. A look-up finds every node as long as the index
cached in a freed node is that of its slot.
-/

namespace Incudine.NodeGraph.NodeTable

open Function LinearProbing

variable {ι : Type} [DecidableEq ι]

section Source

variable (t : NodeTable ι)

/-- The part of a new node or group in the table. A node that has the identifier is not changed. -/
def addNode (id : ℕ) : Result (NodeTable ι) := do
  let (n, t) ← t.updatedNode id
  pure (if t.nullNodeP n then ((t.setId n (some id)).setHash n (t.intHash id)).incCount else t)

def freeNode (fuel : ℕ) (n : ι) : Result (NodeTable ι) :=
  fixCollisionsFromKey fuel (t.removeNodeFromHash n) (t.index n)

end Source

/-- The slot of a node is the one of its cached index. -/
def Indexed (t : NodeTable ι) (n : ι) : Prop := t.index n < t.slotCount ∧ t.items (t.index n) = n

/-- The tables reached from one without nodes by new nodes and by frees of indexed nodes. -/
inductive LookupRun : NodeTable ι → Prop
  | start {t} (hpow : ∃ k, t.slotCount = 2 ^ k) (hitems : Set.InjOn t.items {i | i < t.slotCount})
      (hid : ∀ n, t.id n = none) (hcount : t.count = 0) : LookupRun t
  | add {t t' id} (h : LookupRun t) (hadd : t.addNode id = .ok t') : LookupRun t'
  | free {t t' n fuel} (h : LookupRun t) (hlive : (t.id n).isSome) (hindex : t.Indexed n)
      (hfree : t.freeNode fuel n = .ok t') : LookupRun t'

def used (t : NodeTable ι) : Finset ℕ :=
  (Finset.range t.slotCount).filter fun i => (t.id (t.items i)).isSome

structure Kept (t : NodeTable ι) : Prop where
  table : t.Table
  injOn : Set.InjOn t.items {i | i < t.slotCount}
  reachable : ∀ i < t.slotCount, Reachable t.slotCount t.home t.contents i
  hash : ∀ n id, t.id n = some id → t.hash n = t.intHash id
  listed : ∀ n id, t.id n = some id → ∃ i < t.slotCount, t.items i = n
  count : t.count = t.used.card
  le : t.count ≤ t.size

variable {t t' : NodeTable ι} {n : ι} {id : ℕ}

omit [DecidableEq ι] in
theorem mem_used {i : ℕ} : i ∈ t.used ↔ i < t.slotCount ∧ (t.id (t.items i)).isSome := by
  rw [used, Finset.mem_filter, Finset.mem_range]

omit [DecidableEq ι] in
theorem Table.and_mask_lt (ht : t.Table) (hashId : ℕ) : hashId &&& t.mask < t.slotCount := by
  rw [ht.and_mask]
  exact Nat.mod_lt _ ht.slotCount_pos

omit [DecidableEq ι] in
theorem Table.indexFor_spec (ht : t.Table) {hashId key i : ℕ}
    (h : t.indexFor hashId key = .ok i) : i < t.slotCount ∧ t.Stops hashId key i ∧
      ∀ r < t.slotCount, OnPath t.slotCount (hashId &&& t.mask) i r → ¬ t.Stops hashId key r := by
  rw [indexFor, ht.indexForLoop_eq] at h
  cases hprobe : probe (t.Stops hashId key) t.slotCount (2 * t.size) (hashId &&& t.mask) with
  | none =>
    rw [hprobe] at h
    cases h
  | some j =>
    rw [hprobe] at h
    obtain rfl : j = i := Except.ok.inj h
    exact probe_path (ht.and_mask_lt hashId) hprobe

omit [DecidableEq ι] in
theorem fixCollisionsLoop_unique {fuel fuel' i : ℕ} {t₁ t₂ : NodeTable ι}
    (h : fixCollisionsLoop fuel t i = .ok t₁) (h' : fixCollisionsLoop fuel' t i = .ok t₂) :
    t₁ = t₂ := by
  induction fuel generalizing fuel' t i with
  | zero => cases h
  | succ fuel ih =>
    cases fuel' with
    | zero => cases h'
    | succ fuel' =>
      rw [fixCollisionsLoop] at h h'
      cases hid : t.id (t.items i) with
      | none =>
        simp only [hid] at h h'
        exact (Except.ok.inj h).symm.trans (Except.ok.inj h')
      | some key =>
        cases hindex : t.indexFor (t.hash (t.items i)) key with
        | error e =>
          simp only [hid, hindex] at h
          cases h
        | ok j =>
          simp only [hid, hindex] at h h'
          exact ih h h'

theorem updatedNode_spec {t' : NodeTable ι} (h : t.updatedNode id = .ok (n, t')) :
    ∃ i, n = t.items i ∧ t.indexFor (t.intHash id) id = .ok i ∧
      ∃ index, t' = { t with index := index } := by
  obtain ⟨index, hindex, hfull⟩ := updatedNode_eq h
  rw [updatedNode, getihash, if_neg hfull] at h
  cases hfor : t.indexFor (t.intHash id) id with
  | error e =>
    rw [hfor] at h
    cases h
  | ok i =>
    rw [hfor] at h
    exact ⟨i, congrArg Prod.fst (Except.ok.inj h).symm, rfl, index, hindex⟩

namespace Kept

variable (h : t.Kept)

include h

omit [DecidableEq ι] in
theorem indexFor_live (hid : t.id n = some id) :
    ∃ i < t.slotCount, t.items i = n ∧ t.indexFor (t.intHash id) id = .ok i := by
  obtain ⟨i, hi, rfl⟩ := h.listed n id hid
  refine ⟨i, hi, rfl, ?_⟩
  rw [← h.hash _ id hid]
  exact (h.table.found_iff hi).mpr (h.reachable i hi) id hid

omit [DecidableEq ι] in
theorem exists_empty : ∃ i < t.slotCount, t.id (t.items i) = none := by
  by_contra hnone
  have hall : t.used = Finset.range t.slotCount := by
    refine Finset.filter_true_of_mem fun i hi => Option.isSome_iff_ne_none.mpr fun hid => ?_
    exact hnone ⟨i, Finset.mem_range.mp hi, hid⟩
  have hcount := h.count
  have hle := h.le
  have hpos := h.table.slotCount_pos
  rw [hall, Finset.card_range] at hcount
  rw [slotCount] at hcount hpos
  omega

omit [DecidableEq ι] in
/-- The search for an identifier without a node ends at an empty slot. -/
theorem indexFor_unused (hid : ∀ n, t.id n ≠ some id) :
    ∃ i, t.indexFor (t.intHash id) id = .ok i ∧ t.id (t.items i) = none := by
  obtain ⟨s, hs, hnull⟩ := h.exists_empty
  have hhome := h.table.and_mask_lt (t.intHash id)
  obtain ⟨i, hprobe⟩ := exists_probe hhome hs
    (show t.Stops (t.intHash id) id s from .inl (Option.isNone_iff_eq_none.mpr hnull))
  obtain ⟨-, hstop, -⟩ := probe_path hhome hprobe
  have hindex : t.indexFor (t.intHash id) id = .ok i := by
    rw [indexFor, h.table.indexForLoop_eq]
    change (probe _ t.slotCount t.slotCount _).elim _ _ = _
    rw [hprobe, Option.elim_some]
  refine ⟨i, hindex, ?_⟩
  rcases hstop with hnull | ⟨-, hkey⟩
  · exact Option.isNone_iff_eq_none.mp hnull
  · exact absurd hkey (hid _)

omit [DecidableEq ι] in
theorem setIndex (index : ι → ℕ) : ({ t with index := index } : NodeTable ι).Kept :=
  ⟨⟨h.table.pow, h.table.distinct⟩, h.injOn, h.reachable, h.hash, h.listed, h.count, h.le⟩

theorem insert {i : ℕ} (hi : i < t.slotCount) (hnull : t.id (t.items i) = none)
    (hunused : ∀ n, t.id n ≠ some id) (hfull : ¬ t.Full)
    (hpath : ∀ r < t.slotCount, OnPath t.slotCount (t.intHash id &&& t.mask) i r →
      ¬ t.Stops (t.intHash id) id r) :
    (((t.setId (t.items i) (some id)).setHash (t.items i) (t.intHash id)).incCount).Kept := by
  have hne {j : ℕ} (hj : j < t.slotCount) (hji : j ≠ i) : t.items j ≠ t.items i :=
    fun heq => hji (h.injOn hj hi heq)
  set t' := ((t.setId (t.items i) (some id)).setHash (t.items i) (t.intHash id)).incCount
  have hidi : t'.id (t.items i) = some id := update_self ..
  have hid {m : ι} (hm : m ≠ t.items i) : t'.id m = t.id m := update_of_ne hm ..
  have hhash {m : ι} (hm : m ≠ t.items i) : t'.hash m = t.hash m := update_of_ne hm ..
  have hcontents {j : ℕ} (hj : j < t.slotCount) (hji : j ≠ i) : t'.contents j = t.contents j := by
    change (if (t'.id (t.items j)).isSome then _ else _) = _
    rw [hid (hne hj hji)]
    rfl
  have hcontentsi : t'.contents i = some (t.items i) := by
    change (if (t'.id (t.items i)).isSome then _ else _) = _
    rw [hidi]
    rfl
  have hkept {r : ℕ} (hr : r < t.slotCount) (hsome : t.contents r ≠ none) :
      t'.contents r ≠ none := by
    by_cases hri : r = i
    · rw [hri, hcontentsi]
      exact Option.some_ne_none _
    · rwa [hcontents hr hri]
  have hused : t'.used = Insert.insert i t.used := by
    ext j
    rw [Finset.mem_insert, mem_used, mem_used]
    change j < t.slotCount ∧ (t'.id (t.items j)).isSome ↔ _
    by_cases hji : j = i
    · rw [hji, hidi]
      exact iff_of_true ⟨hi, rfl⟩ (.inl rfl)
    · rw [or_iff_right hji]
      exact and_congr_right fun hj => by rw [hid (hne hj hji)]
  refine ⟨⟨h.table.pow, fun j hj k hk key hkj hkk => ?_⟩, h.injOn, fun j hj a ha r hr hon => ?_,
    fun m key hm => ?_, fun m key hm => ?_, ?_, ?_⟩
  · change t'.id (t.items j) = some key at hkj
    change t'.id (t.items k) = some key at hkk
    by_cases hji : j = i
    · by_contra hjk
      rw [hji, hidi] at hkj
      rw [hid (hne hk fun hki => hjk (hji.trans hki.symm)), ← hkj] at hkk
      exact hunused _ hkk
    · rw [hid (hne hj hji)] at hkj
      by_cases hki : k = i
      · rw [hki, hidi] at hkk
        rw [← hkk] at hkj
        exact absurd hkj (hunused _)
      · rw [hid (hne hk hki)] at hkk
        exact h.table.distinct j hj k hk key hkj hkk
  · by_cases hji : j = i
    · rw [hji, hcontentsi] at ha
      obtain rfl := Option.some.inj ha
      have hhome : t'.home (t.items i) = t.intHash id &&& t.mask :=
        congrArg (· &&& t.mask) (update_self ..)
      rw [hji, hhome] at hon
      refine hkept hr fun hnone => hpath r hr hon (.inl ?_)
      exact Option.isNone_iff_eq_none.mpr (contents_eq_none.mp hnone)
    · rw [hcontents hj hji] at ha
      obtain ⟨rfl, -⟩ := id_of_contents ha
      have hhome : t'.home (t.items j) = t.home (t.items j) :=
        congrArg (· &&& t.mask) (hhash (hne hj hji))
      rw [hhome] at hon
      exact hkept hr (h.reachable j hj _ ha r hr hon)
  · by_cases hmi : m = t.items i
    · rw [hmi, hidi] at hm
      obtain rfl := Option.some.inj hm
      rw [hmi]
      exact update_self ..
    · rw [hid hmi] at hm
      exact (hhash hmi).trans (h.hash m key hm)
  · by_cases hmi : m = t.items i
    · exact ⟨i, hi, hmi.symm⟩
    · rw [hid hmi] at hm
      exact h.listed m key hm
  · rw [hused, Finset.card_insert_of_notMem, ← h.count]
    · rfl
    · rw [mem_used, hnull]
      exact fun hmem => absurd hmem.2 Bool.false_ne_true
  · exact Nat.succ_le_of_lt (lt_of_le_of_ne h.le hfull)

theorem addNode (hadd : t.addNode id = .ok t') : t'.Kept := by
  rw [NodeTable.addNode] at hadd
  cases hnode : t.updatedNode id with
  | error e =>
    rw [hnode] at hadd
    cases hadd
  | ok r =>
    obtain ⟨n, t₁⟩ := r
    have hfull := (updatedNode_eq hnode).choose_spec.2
    obtain ⟨i, rfl, hfor, index, rfl⟩ := updatedNode_spec hnode
    obtain ⟨hi, -, hpath⟩ := h.table.indexFor_spec hfor
    rw [hnode] at hadd
    obtain rfl := Except.ok.inj hadd
    have h' := h.setIndex index
    by_cases hnull : t.id (t.items i) = none
    · have hunused (m : ι) : t.id m ≠ some id := by
        intro hm
        obtain ⟨j, -, rfl, hj⟩ := h.indexFor_live hm
        obtain rfl := Except.ok.inj (hfor.symm.trans hj)
        rw [hnull] at hm
        cases hm
      have hinsert := h'.insert hi hnull hunused hfull hpath
      split
      · exact hinsert
      · exact h'
    · split
      · exact absurd (Option.isNone_iff_eq_none.mp ‹_›) hnull
      · exact h'

theorem emptied {key : ℕ} (hkey : key < t.slotCount) (hlive : (t.id (t.items key)).isSome) :
    ∃ fuel t', fixCollisionsFromKey fuel (t.emptied key t.index) key = .ok t' ∧ t'.Kept := by
  have hfound := fun i hi => (h.table.found_iff (i := i) hi).mpr (h.reachable i hi)
  have htable := h.table.emptied key t.index
  obtain ⟨fuel, t', hfix, hmoves, hfound'⟩ := fixCollisionsFromKey_gap htable
    (gap_emptied h.table hfound hkey hlive)
  have htable' := hmoves.table htable
  refine ⟨fuel, t', hfix, ?_⟩
  have hempty : (t.emptied key t.index).id (t.items key) = none := update_self ..
  have hid {m : ι} (hm : m ≠ t.items key) : (t.emptied key t.index).id m = t.id m :=
    update_of_ne hm ..
  have hne {m : ι} {id : ℕ} (hm : (t.emptied key t.index).id m = some id) : m ≠ t.items key := by
    rintro rfl
    rw [hempty] at hm
    cases hm
  obtain ⟨σ, hσ, rfl⟩ := hmoves
  have hσ : ∀ i, σ i < t.slotCount ↔ i < t.slotCount := hσ
  refine ⟨htable', fun i hi j hj heq => ?_, fun i hi => (htable'.found_iff hi).mp (hfound' i hi),
    fun m id hm => ?_, fun m id hm => ?_, ?_, (Nat.sub_le ..).trans h.le⟩
  · exact σ.injective (h.injOn ((hσ i).mpr hi) ((hσ j).mpr hj) heq)
  · exact h.hash m id ((hid (hne hm)).symm.trans hm)
  · obtain ⟨i, hi, rfl⟩ := h.listed m id ((hid (hne hm)).symm.trans hm)
    refine ⟨σ.symm i, (hσ _).mp (by rwa [Equiv.apply_symm_apply]), ?_⟩
    change t.items (σ (σ.symm i)) = t.items i
    rw [Equiv.apply_symm_apply]
  · have hcard : (NodeTable.used { t.emptied key t.index with items := t.items ∘ σ }).card =
        (t.used.erase key).card := by
      refine Finset.card_equiv σ fun i => ?_
      rw [Finset.mem_erase, mem_used, mem_used]
      change i < t.slotCount ∧ ((t.emptied key t.index).id (t.items (σ i))).isSome ↔ _
      rw [← hσ i]
      by_cases hik : σ i = key
      · rw [hik, hempty]
        exact iff_of_false (fun hmem => absurd hmem.2 Bool.false_ne_true) fun hmem => hmem.1 rfl
      · rw [and_iff_right hik]
        refine and_congr_right fun hi => ?_
        rw [hid fun heq => hik (h.injOn hi hkey heq)]
    exact (congrArg (· - 1) h.count).trans
      (hcard.trans (Finset.card_erase_of_mem (mem_used.mpr ⟨hkey, hlive⟩))).symm

theorem freeNode (hlive : (t.id n).isSome) (hindex : t.Indexed n) :
    ∃ fuel t', t.freeNode fuel n = .ok t' ∧ t'.Kept := by
  obtain ⟨hkey, hitem⟩ := hindex
  obtain ⟨fuel, t', hfix, hkept⟩ := h.emptied hkey (by rwa [hitem])
  refine ⟨fuel, t', ?_, hkept⟩
  rw [NodeTable.emptied, hitem] at hfix
  exact hfix

omit [DecidableEq ι] in
theorem getihash_live (hid : t.id n = some id) :
    ∃ index, t.getihash id = .ok (n, index) := by
  obtain ⟨i, hi, rfl, hfor⟩ := h.indexFor_live hid
  rw [getihash]
  split
  · cases hfind : (List.range (2 * t.size)).find? fun i => t.id (t.items i) = some id with
    | none =>
      rw [List.find?_eq_none] at hfind
      exact absurd (decide_eq_true hid) (hfind i (List.mem_range.mpr hi))
    | some j =>
      have hj := List.mem_range.mp (List.mem_of_find?_eq_some hfind)
      have hjd : t.id (t.items j) = some id := by simpa using List.find?_some hfind
      obtain rfl := h.table.distinct i hi j hj id hid hjd
      exact ⟨none, rfl⟩
  · exact ⟨some i, by rw [hfor]; rfl⟩

omit [DecidableEq ι] in
theorem getihash_unused (hid : ∀ n, t.id n ≠ some id) :
    if t.Full then t.getihash id = .error (.nodeError .noMoreNodes)
    else ∃ i < t.slotCount, t.getihash id = .ok (t.items i, some i) ∧ t.id (t.items i) = none := by
  split
  · rename_i hfull
    rw [getihash, if_pos hfull]
    have hfind : ((List.range (2 * t.size)).find? fun i => t.id (t.items i) = some id) = none :=
      List.find?_eq_none.mpr fun i _ hi => hid _ (of_decide_eq_true hi)
    rw [hfind]
    rfl
  · rename_i hfull
    obtain ⟨i, hfor, hnull⟩ := h.indexFor_unused hid
    refine ⟨i, (h.table.indexFor_spec hfor).1, ?_, hnull⟩
    rw [getihash, if_neg hfull, hfor]
    rfl

end Kept

theorem LookupRun.kept (h : LookupRun t) : t.Kept := by
  induction h with
  | @start t hpow hitems hid hcount =>
    have hcontents (i : ℕ) : t.contents i = none := contents_eq_none.mpr (hid _)
    refine ⟨⟨hpow, fun i _ j _ key hi => ?_⟩, hitems, fun i _ a ha => ?_, fun n id h => ?_,
      fun n id h => ?_, ?_, ?_⟩
    · rw [hid] at hi
      cases hi
    · rw [hcontents] at ha
      cases ha
    · rw [hid] at h
      cases h
    · rw [hid] at h
      cases h
    · rw [hcount, used, Finset.filter_false_of_mem, Finset.card_empty]
      intro i _
      rw [hid]
      exact Bool.false_ne_true
    · rw [hcount]
      exact Nat.zero_le _
  | add _ hadd ih => exact ih.addNode hadd
  | free _ hlive hindex hfree ih =>
    obtain ⟨fuel, t', hfree', hkept⟩ := ih.freeNode hlive hindex
    exact fixCollisionsLoop_unique hfree' hfree ▸ hkept

/-- After any run of new nodes and frees the nodes are found by their identifiers, an unused
identifier gives an empty slot while there is a place, and an indexed node can be freed. -/
theorem LookupRun.lookup (h : LookupRun t) :
    (∀ n id, t.id n = some id → ∃ index, t.getihash id = .ok (n, index)) ∧
    (∀ id, (∀ n, t.id n ≠ some id) →
      if t.Full then t.getihash id = .error (.nodeError .noMoreNodes)
      else ∃ i < t.slotCount, t.getihash id = .ok (t.items i, some i) ∧ t.id (t.items i) = none) ∧
    (∀ n, (t.id n).isSome → t.Indexed n → ∃ fuel t', t.freeNode fuel n = .ok t') ∧
    t.count = t.used.card ∧ t.count ≤ t.size := by
  have hkept := h.kept
  refine ⟨fun n id hid => hkept.getihash_live hid, fun id hid => hkept.getihash_unused hid,
    fun n hlive hindex => ?_, hkept.count, hkept.le⟩
  obtain ⟨fuel, t', hfree, -⟩ := hkept.freeNode hlive hindex
  exact ⟨fuel, t', hfree⟩

def noNodes : NodeTable ℕ where
  intHash i := i
  size := 2
  count := 0
  items i := i
  id := fun _ => none
  hash := fun _ => 0
  index := fun _ => 0

theorem lookup_noNodes : ∃ t₁ t₂ t₃ index, noNodes.addNode 1 = .ok t₁ ∧ t₁.addNode 5 = .ok t₂ ∧
    t₂.freeNode 4 1 = .ok t₃ ∧ t₃.getihash 5 = .ok (2, index) := by
  have hstart : LookupRun noNodes := .start ⟨2, rfl⟩ (fun _ _ _ _ h => h) (fun _ => rfl) rfl
  have hadd := @LookupRun.add ℕ _ _ _ 5 (@LookupRun.add ℕ _ _ _ 1 hstart rfl) rfl
  have hfree := @LookupRun.free ℕ _ _ _ 1 4 hadd rfl ⟨by decide, rfl⟩ rfl
  obtain ⟨index, hfound⟩ := hfree.lookup.1 2 5 rfl
  exact ⟨_, _, _, index, rfl, rfl, rfl, hfound⟩

end Incudine.NodeGraph.NodeTable

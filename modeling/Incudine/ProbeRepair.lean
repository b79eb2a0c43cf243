import Incudine.LinearProbing
import Incudine.NodeTable
import Mathlib.Algebra.Group.Nat.Even
import Mathlib.Order.Interval.Finset.Nat

/-!
# Repair of the probe chains

The loop of `%fix-collisions-from` started at a slot that has just been emptied. The items are again
found from their home slots, but the index cached in a moved item is that of its former slot.
-/

namespace Incudine.NodeGraph.NodeTable

open Function LinearProbing

variable {ι : Type}

def fixCollisionsFromKey (fuel : ℕ) (t : NodeTable ι) (key : ℕ) : Result (NodeTable ι) :=
  fixCollisionsLoop fuel t ((key + 1) &&& t.mask)

def slotCount (t : NodeTable ι) : ℕ := 2 * t.size

/-- The number of slots is a power of two and the items have different keys. -/
structure Table (t : NodeTable ι) : Prop where
  pow : ∃ k, t.slotCount = 2 ^ k
  distinct : ∀ i < t.slotCount, ∀ j < t.slotCount, ∀ key,
    t.id (t.items i) = some key → t.id (t.items j) = some key → i = j

/-- The item of a slot is found from its home slot. -/
def Found (t : NodeTable ι) (i : ℕ) : Prop :=
  ∀ key, t.id (t.items i) = some key → t.indexFor (t.hash (t.items i)) key = .ok i

def Moves (t t' : NodeTable ι) : Prop :=
  ∃ σ : Equiv.Perm ℕ, (∀ i, σ i < t.slotCount ↔ i < t.slotCount) ∧
    t' = { t with items := t.items ∘ σ }

/-- The loop terminates with the same items, the items are found and the indices of the moved ones
are updated. -/
def Repairs (t : NodeTable ι) (key : ℕ) : Prop :=
  ∃ fuel t', fixCollisionsFromKey fuel t key = .ok t' ∧ Moves t t' ∧
    (∀ i < t.slotCount, t'.Found i) ∧
    ∀ i < t.slotCount, (t'.id (t'.items i)).isSome → t'.items i ≠ t.items i →
      t'.index (t'.items i) = i

/-- The first slot where an item is looked for. -/
def home (t : NodeTable ι) (item : ι) : ℕ := t.hash item &&& t.mask

def contents (t : NodeTable ι) (i : ℕ) : Option ι :=
  if (t.id (t.items i)).isSome then some (t.items i) else none

variable {i gap : ℕ}

section Search

variable {t : NodeTable ι}

theorem contents_eq_none : t.contents i = none ↔ t.id (t.items i) = none := by
  rw [contents]
  cases t.id (t.items i) <;> simp

theorem contents_of_id {key : ℕ} (h : t.id (t.items i) = some key) :
    t.contents i = some (t.items i) := by
  rw [contents, h, Option.isSome_some, if_pos rfl]

theorem id_of_contents {item : ι} (h : t.contents i = some item) :
    item = t.items i ∧ ∃ key, t.id (t.items i) = some key := by
  rw [contents] at h
  cases hid : t.id (t.items i) with
  | none => simp [hid] at h
  | some key =>
    rw [hid, Option.isSome_some, if_pos rfl] at h
    exact ⟨(Option.some.inj h).symm, key, rfl⟩

theorem Table.and_mask (ht : t.Table) (i : ℕ) : i &&& t.mask = i % t.slotCount := by
  obtain ⟨k, hk⟩ := ht.pow
  rw [mask, show 2 * t.size = 2 ^ k from hk, Nat.and_two_pow_sub_one_eq_mod, hk]

theorem Table.slotCount_pos (ht : t.Table) : 0 < t.slotCount := by
  obtain ⟨k, hk⟩ := ht.pow
  rw [hk]
  exact Nat.two_pow_pos k

theorem Table.home_lt (ht : t.Table) (item : ι) : t.home item < t.slotCount := by
  rw [home, ht.and_mask]
  exact Nat.mod_lt _ ht.slotCount_pos

def Stops (t : NodeTable ι) (hashId key i : ℕ) : Prop :=
  t.nullNodeP (t.items i) ∨ hashId = t.hash (t.items i) ∧ t.id (t.items i) = some key

instance (hashId key i : ℕ) : Decidable (t.Stops hashId key i) :=
  inferInstanceAs (Decidable (_ ∨ _))

theorem Table.indexForLoop_eq (ht : t.Table) (hashId key : ℕ) (fuel index : ℕ) :
    t.indexForLoop hashId key fuel index =
      (probe (t.Stops hashId key) t.slotCount fuel index).elim (throw .diverges) .ok := by
  induction fuel generalizing index with
  | zero => rfl
  | succ fuel ih =>
    rw [indexForLoop, probe]
    by_cases hstop : t.Stops hashId key index
    · rw [if_pos hstop]
      exact if_pos hstop
    · rw [if_neg hstop, next, ← ht.and_mask, ← ih]
      exact if_neg hstop

theorem Table.indexFor_eq (ht : t.Table) (item : ι) (key i : ℕ) :
    t.indexFor (t.hash item) key = .ok i ↔
      probe (t.Stops (t.hash item) key) t.slotCount t.slotCount (t.home item) = some i := by
  rw [indexFor, ht.indexForLoop_eq, home]
  change (probe (t.Stops (t.hash item) key) t.slotCount t.slotCount _).elim _ _ = _ ↔ _
  cases probe (t.Stops (t.hash item) key) t.slotCount t.slotCount (t.hash item &&& t.mask) with
  | none => simp [throw, throwThe, MonadExceptOf.throw]
  | some j => simp

theorem Table.not_stops (ht : t.Table) {r key : ℕ} (hi : i < t.slotCount) (hr : r < t.slotCount)
    (hkey : t.id (t.items i) = some key) (hne : r ≠ i) (hcontents : t.contents r ≠ none) :
    ¬ t.Stops (t.hash (t.items i)) key r := by
  rintro (hnull | ⟨-, hid⟩)
  · rw [nullNodeP, Option.isNone_iff_eq_none] at hnull
    exact hcontents (contents_eq_none.mpr hnull)
  · exact hne (ht.distinct r hr i hi key hid hkey)

theorem Table.found_iff (ht : t.Table) (hi : i < t.slotCount) :
    t.Found i ↔ Reachable t.slotCount t.home t.contents i := by
  constructor
  · intro h item hitem r hr hon hnone
    obtain ⟨rfl, key, hkey⟩ := id_of_contents hitem
    have hsearch := (ht.indexFor_eq _ _ _).mp (h key hkey)
    obtain ⟨-, -, hpath⟩ := probe_path (ht.home_lt _) hsearch
    exact hpath r hr hon (Or.inl (Option.isNone_iff_eq_none.mpr (contents_eq_none.mp hnone)))
  · intro h key hkey
    refine (ht.indexFor_eq _ _ _).mpr ?_
    refine probe_eq_some (ht.home_lt _) hi (steps_lt (ht.home_lt _) hi) (Or.inr ⟨rfl, hkey⟩) ?_
    intro r hr hon
    refine ht.not_stops hi hr hkey ?_ (h _ (contents_of_id hkey) r hr hon)
    rintro rfl
    exact lt_irrefl _ hon

section

variable {c key : ℕ} (ht : t.Table) (hgap : Gap t.slotCount t.home t.contents gap c)
  (hi : i < t.slotCount) (hkey : t.id (t.items i) = some key)
include ht hgap hi hkey

theorem Table.indexFor_gap (hon : OnPath t.slotCount (t.home (t.items i)) i gap) :
    t.indexFor (t.hash (t.items i)) key = .ok gap := by
  refine (ht.indexFor_eq _ _ _).mpr ?_
  have hnull : t.id (t.items gap) = none := contents_eq_none.mp hgap.empty
  refine probe_eq_some (ht.home_lt _) hgap.gap_lt (steps_lt (ht.home_lt _) hgap.gap_lt)
    (Or.inl (Option.isNone_iff_eq_none.mpr hnull)) ?_
  intro r hr hr'
  have hri : OnPath t.slotCount (t.home (t.items i)) i r := lt_trans hr' hon
  refine ht.not_stops hi hr hkey ?_ ?_
  · rintro rfl
    exact lt_irrefl _ hri
  · intro hnone
    rw [hgap.only i hi _ (contents_of_id hkey) r hr hri hnone] at hr'
    exact lt_irrefl _ hr'

theorem Table.indexFor_keep (hon : ¬ OnPath t.slotCount (t.home (t.items i)) i gap) :
    t.indexFor (t.hash (t.items i)) key = .ok i := by
  refine (ht.found_iff hi).mpr ?_ key hkey
  intro item hitem r hr hr' hnone
  obtain rfl := hgap.only i hi item hitem r hr hr' hnone
  obtain ⟨rfl, -⟩ := id_of_contents hitem
  exact hon hr'

end

end Search

section Moves

variable {t t' t'' : NodeTable ι}

theorem Moves.refl (t : NodeTable ι) : Moves t t := ⟨Equiv.refl ℕ, fun _ => Iff.rfl, rfl⟩

theorem Moves.trans (h : Moves t t') (h' : Moves t' t'') : Moves t t'' := by
  obtain ⟨σ, hσ, rfl⟩ := h
  obtain ⟨τ, hτ, rfl⟩ := h'
  exact ⟨τ.trans σ, fun i => (hσ (τ i)).trans (hτ i), rfl⟩

theorem Moves.table (h : Moves t t') (ht : t.Table) : t'.Table := by
  obtain ⟨σ, hσ, rfl⟩ := h
  refine ⟨ht.pow, fun i hi j hj key hid hid' => ?_⟩
  exact σ.injective (ht.distinct (σ i) ((hσ i).mpr hi) (σ j) ((hσ j).mpr hj) key hid hid')

def exchange (t : NodeTable ι) (i j : ℕ) : NodeTable ι :=
  (t.setItem i (t.items j)).setItem j (t.items i)

theorem exchange_items (t : NodeTable ι) (i j k : ℕ) : (t.exchange i j).items k =
    if k = j then t.items i else if k = i then t.items j else t.items k := by
  simp only [exchange, setItem, update_apply]

theorem moves_exchange {j : ℕ} (hi : i < t.slotCount) (hj : j < t.slotCount) :
    Moves t (t.exchange i j) := by
  refine ⟨Equiv.swap i j, fun k => ?_, ?_⟩
  · rw [Equiv.swap_apply_def]
    split
    · rename_i hk
      rw [hk]
      exact iff_of_true hj hi
    · split
      · rename_i hk
        rw [hk]
        exact iff_of_true hi hj
      · exact Iff.rfl
  · have hitems : (t.exchange i j).items = t.items ∘ Equiv.swap i j := by
      funext k
      rw [exchange_items, comp_apply, Equiv.swap_apply_def]
      by_cases hki : k = i
      · rw [if_pos hki, if_pos hki]
        split
        · rename_i hkj
          rw [← hki, hkj]
        · rfl
      · rw [if_neg hki, if_neg hki]
        split <;> rfl
    rw [← hitems]
    rfl

theorem contents_exchange {j : ℕ} (hnull : t.contents gap = none) :
    (t.exchange j gap).contents = moveItem t.contents gap j := by
  have hid : (t.exchange j gap).id = t.id := rfl
  funext k
  rw [contents, hid, exchange_items]
  by_cases hkg : k = gap
  · rw [if_pos hkg, hkg, moveItem, update_self, contents]
  · rw [if_neg hkg, moveItem, update_of_ne hkg]
    by_cases hkj : k = j
    · rw [if_pos hkj, hkj, update_self, contents_eq_none.mp hnull]
      rfl
    · rw [if_neg hkj, update_of_ne hkj, contents]

end Moves

variable {fuel : ℕ}

section Loop

variable {t t' : NodeTable ι}

/-- The bound of the iterations: an item is moved, or a slot is scanned. -/
def bound (t : NodeTable ι) (c : ℕ) : ℕ :=
  displacement t.slotCount t.home t.contents * t.slotCount + (t.slotCount - c)

theorem fixCollisionsLoop_null (h : t.id (t.items i) = none) :
    fixCollisionsLoop (fuel + 1) t i = .ok t := by
  rw [fixCollisionsLoop]
  simp only [h]
  rfl

theorem fixCollisionsLoop_keep {key : ℕ} (hid : t.id (t.items i) = some key)
    (hindex : t.indexFor (t.hash (t.items i)) key = .ok i) :
    fixCollisionsLoop (fuel + 1) t i = fixCollisionsLoop fuel t ((i + 1) &&& t.mask) := by
  rw [fixCollisionsLoop]
  simp only [hid, hindex]
  exact congrArg (fun s => fixCollisionsLoop fuel s ((i + 1) &&& s.mask)) (if_pos rfl)

theorem fixCollisionsLoop_move {key : ℕ} (hid : t.id (t.items i) = some key)
    (hindex : t.indexFor (t.hash (t.items i)) key = .ok gap) (hne : i ≠ gap) :
    fixCollisionsLoop (fuel + 1) t i =
      fixCollisionsLoop fuel (t.exchange i gap) ((i + 1) &&& t.mask) := by
  rw [fixCollisionsLoop]
  simp only [hid, hindex]
  exact congrArg (fun s => fixCollisionsLoop fuel s ((i + 1) &&& s.mask)) (if_neg hne)

theorem fixCollisionsLoop_gap {c : ℕ} (ht : t.Table)
    (hgap : Gap t.slotCount t.home t.contents gap c) (hfuel : t.bound c < fuel) :
    ∃ t', fixCollisionsLoop fuel t (ahead t.slotCount gap c) = .ok t' ∧ Moves t t' ∧
      ∀ i < t.slotCount, t'.Found i := by
  induction fuel generalizing t gap c with
  | zero => exact absurd hfuel (Nat.not_lt_zero _)
  | succ fuel ih =>
    have hj := ahead_lt ht.slotCount_pos gap c
    cases hid : t.id (t.items (ahead t.slotCount gap c)) with
    | none =>
      refine ⟨t, fixCollisionsLoop_null hid, .refl t, fun i hi => (ht.found_iff hi).mpr ?_⟩
      exact hgap.reachable ht.home_lt (contents_eq_none.mpr hid) i hi
    | some key =>
      have hitem := contents_of_id hid
      obtain ⟨hc, hne⟩ := hgap.slot_ne hitem
      by_cases hon : OnPath t.slotCount (t.home (t.items (ahead t.slotCount gap c)))
          (ahead t.slotCount gap c) gap
      · have hmoves := moves_exchange hj hgap.gap_lt
        have hgap' := hgap.move hitem hon
        have hless := displacement_moveItem hgap.gap_lt hj hgap.empty hitem hon
        have hcontents := contents_exchange (j := ahead t.slotCount gap c) hgap.empty
        rw [fixCollisionsLoop_move hid (ht.indexFor_gap hgap hj hid hon) hne, ht.and_mask]
        generalize ahead t.slotCount gap c = j at hmoves hgap' hless hcontents
        rw [← hcontents] at hgap' hless
        have hbound : (t.exchange j gap).bound 1 < fuel := by
          have hmul := Nat.mul_le_mul_right t.slotCount (Nat.succ_le_of_lt hless)
          rw [Nat.succ_mul] at hmul
          change _ * t.slotCount + (t.slotCount - 1) < fuel
          rw [bound] at hfuel
          have hpos := ht.slotCount_pos
          change displacement t.slotCount t.home _ * t.slotCount + _ < fuel
          omega
        obtain ⟨t', hloop, hmoves', hfound⟩ := ih (hmoves.table ht) hgap' hbound
        exact ⟨t', hloop, hmoves.trans hmoves', hfound⟩
      · have hbound : t.bound (c + 1) < fuel := by
          rw [bound] at hfuel ⊢
          omega
        obtain ⟨t', hloop, hmoves, hfound⟩ := ih ht (hgap.keep hitem hon) hbound
        refine ⟨t', ?_, hmoves, hfound⟩
        rw [fixCollisionsLoop_keep hid (ht.indexFor_keep hgap hj hid hon), ht.and_mask]
        rwa [← next_ahead] at hloop

theorem fixCollisionsLoop_found (ht : t.Table) (hi : i < t.slotCount)
    (hfound : ∀ i < t.slotCount, t.Found i) (h : fixCollisionsLoop fuel t i = .ok t') : t' = t := by
  induction fuel generalizing i with
  | zero => cases h
  | succ fuel ih =>
    cases hid : t.id (t.items i) with
    | none =>
      rw [fixCollisionsLoop_null hid] at h
      exact (Except.ok.inj h).symm
    | some key =>
      rw [fixCollisionsLoop_keep hid (hfound i hi key hid), ht.and_mask] at h
      exact ih (Nat.mod_lt _ ht.slotCount_pos) h

theorem fixCollisionsFromKey_gap {key : ℕ} (ht : t.Table)
    (hgap : Gap t.slotCount t.home t.contents key 1) :
    ∃ fuel t', fixCollisionsFromKey fuel t key = .ok t' ∧ Moves t t' ∧
      ∀ i < t.slotCount, t'.Found i := by
  obtain ⟨t', hloop, hrest⟩ := fixCollisionsLoop_gap ht hgap (Nat.lt_succ_self _)
  refine ⟨t.bound 1 + 1, t', ?_, hrest⟩
  rwa [fixCollisionsFromKey, ht.and_mask]

end Loop

section Cached

variable {t : NodeTable ι} {key : ℕ}

theorem Repairs.found (h : Repairs t key) (ht : t.Table)
    (hindex : ∀ i < t.slotCount, ∀ j < t.slotCount, (t.id (t.items j)).isSome →
      t.index (t.items j) = i → i = j) : ∀ i < t.slotCount, t.Found i := by
  obtain ⟨fuel, t', -, ⟨σ, hσ, rfl⟩, hfound, hcached⟩ := h
  have hkept : ∀ i < t.slotCount, (t.id (t.items i)).isSome → σ i = i := by
    intro i hi hitem
    have hj : σ.symm i < t.slotCount := (hσ _).mp (by rwa [Equiv.apply_symm_apply])
    have hsame : t.items (σ (σ.symm i)) = t.items i := by rw [Equiv.apply_symm_apply]
    by_cases hmoved : t.items (σ (σ.symm i)) = t.items (σ.symm i)
    · obtain ⟨id, hid⟩ := Option.isSome_iff_exists.mp hitem
      have heq : σ.symm i = i :=
        ht.distinct _ hj i hi id (by rw [← hmoved, hsame, hid]) hid
      rw [← heq, Equiv.apply_symm_apply, heq]
    · have hnew := hcached (σ.symm i) hj (by
        change (t.id (t.items (σ (σ.symm i)))).isSome
        rwa [hsame]) hmoved
      have heq : σ.symm i = i := hindex _ hj i hi hitem (by rw [← hsame]; exact hnew)
      rw [← heq, Equiv.apply_symm_apply, heq]
  have hcontents : ∀ i < t.slotCount,
      ({ t with items := t.items ∘ σ } : NodeTable ι).contents i = t.contents i := by
    intro i hi
    have hσi := (hσ i).mpr hi
    change (if (t.id (t.items (σ i))).isSome then some (t.items (σ i)) else none) = _
    by_cases hitem : (t.id (t.items (σ i))).isSome
    · have heq : σ i = i := σ.injective (hkept (σ i) hσi hitem)
      rw [heq]
      rfl
    · rw [if_neg hitem, eq_comm, contents_eq_none]
      by_contra hsome
      rw [hkept i hi (Option.isSome_iff_ne_none.mpr hsome)] at hitem
      exact hitem (Option.isSome_iff_ne_none.mpr hsome)
  have ht' : ({ t with items := t.items ∘ σ } : NodeTable ι).Table := Moves.table ⟨σ, hσ, rfl⟩ ht
  intro i hi
  refine (ht.found_iff hi).mpr fun item hitem r hr hon => ?_
  rw [← hcontents r hr]
  rw [← hcontents i hi] at hitem
  exact (ht'.found_iff hi).mp (hfound i hi) item hitem r hr hon

end Cached

section Emptied

variable [DecidableEq ι] {t : NodeTable ι} {key : ℕ} {index : ι → ℕ}

/-- The table after the removal of the item of a slot, with the cached indices `index`. -/
def emptied (t : NodeTable ι) (key : ℕ) (index : ι → ℕ) : NodeTable ι :=
  { t.removeNodeFromHash (t.items key) with index := index }

theorem id_emptied (item : ι) : (t.emptied key index).id item =
    if item = t.items key then none else t.id item := update_apply ..

theorem Table.emptied (ht : t.Table) (key : ℕ) (index : ι → ℕ) : (t.emptied key index).Table where
  pow := ht.pow
  distinct i hi j hj id hid hid' := by
    rw [id_emptied] at hid hid'
    split at hid
    · cases hid
    · split at hid'
      · cases hid'
      · exact ht.distinct i hi j hj id hid hid'

theorem contents_emptied (ht : t.Table) (hkey : key < t.slotCount) (hi : i < t.slotCount)
    (hitem : (t.id (t.items key)).isSome) :
    (t.emptied key index).contents i = update t.contents key none i := by
  obtain ⟨id, hid⟩ := Option.isSome_iff_exists.mp hitem
  by_cases hik : i = key
  · rw [hik, update_self, contents_eq_none]
    exact (id_emptied _).trans (if_pos rfl)
  · have hne : t.items i ≠ t.items key := fun heq =>
      hik (ht.distinct i hi key hkey id (by rw [heq, hid]) hid)
    have hsame : (t.emptied key index).id (t.items i) = t.id (t.items i) :=
      (id_emptied _).trans (if_neg hne)
    rw [update_of_ne hik, contents, contents]
    change (if ((t.emptied key index).id (t.items i)).isSome then _ else _) = _
    rw [hsame]
    rfl

theorem gap_emptied (ht : t.Table) (hfound : ∀ i < t.slotCount, t.Found i)
    (hkey : key < t.slotCount) (hitem : (t.id (t.items key)).isSome) :
    Gap t.slotCount t.home (t.emptied key index).contents key 1 := by
  refine (Gap.start hkey fun i hi => (ht.found_iff hi).mp (hfound i hi)).congr fun i hi => ?_
  exact contents_emptied ht hkey hi hitem

theorem found_emptied_iff (ht : t.Table) (hfound : ∀ i < t.slotCount, t.Found i)
    (hkey : key < t.slotCount) (hitem : (t.id (t.items key)).isSome) :
    (∀ i < t.slotCount, (t.emptied key index).Found i) ↔
      ∀ i < t.slotCount, i ≠ key → (t.id (t.items i)).isSome →
        ¬ OnPath t.slotCount (t.home (t.items i)) i key := by
  have ht' := ht.emptied key index
  have hgap := @gap_emptied ι _ t key index ht hfound hkey hitem
  constructor
  · intro h i hi hne hsome hon
    have hcontents : (t.emptied key index).contents i = some (t.items i) := by
      rw [contents_emptied ht hkey hi hitem, update_of_ne hne, contents, if_pos hsome]
    exact (ht'.found_iff hi).mp (h i hi) _ hcontents key hkey hon hgap.empty
  · intro h i hi
    refine (ht'.found_iff hi).mpr fun item hi' r hr hon hnone => ?_
    obtain rfl := hgap.only i hi item hi' r hr hon hnone
    have hne : i ≠ r := by
      rintro rfl
      rw [hgap.empty] at hi'
      cases hi'
    rw [contents_emptied ht hkey hi hitem, update_of_ne hne] at hi'
    obtain ⟨rfl, id, hid⟩ := id_of_contents hi'
    exact h i hi hne (Option.isSome_iff_exists.mpr ⟨id, hid⟩) hon

end Emptied

/-- The chains are repaired for any cached indices exactly if the emptied slot is not on the way of
an item. -/
theorem repairs_iff [DecidableEq ι] {t : NodeTable ι} (ht : t.Table)
    (hfound : ∀ i < t.slotCount, t.Found i) {key : ℕ} (hkey : key < t.slotCount)
    (hitem : (t.id (t.items key)).isSome) :
    (∀ index, Repairs (t.emptied key index) key) ↔
      ∀ i < t.slotCount, i ≠ key → (t.id (t.items i)).isSome →
        ¬ OnPath t.slotCount (t.home (t.items i)) i key := by
  constructor
  · intro h
    refine (@found_emptied_iff ι _ t key (fun _ => t.slotCount) ht hfound hkey hitem).mp ?_
    refine (h fun _ => t.slotCount).found (ht.emptied key _) fun i hi j hj _ heq => ?_
    exact absurd heq (Nat.ne_of_gt hi)
  · intro h index
    have ht' := ht.emptied key index
    have hkept := (@found_emptied_iff ι _ t key index ht hfound hkey hitem).mpr h
    obtain ⟨fuel, t', hloop, hmoves, hfound'⟩ :=
      fixCollisionsFromKey_gap ht' (gap_emptied ht hfound hkey hitem)
    refine ⟨fuel, t', hloop, hmoves, hfound', fun i hi _ hne => ?_⟩
    have hsame : t' = t.emptied key index := by
      rw [fixCollisionsFromKey, ht'.and_mask] at hloop
      exact fixCollisionsLoop_found ht' (Nat.mod_lt _ ht'.slotCount_pos) hkept hloop
    rw [hsame] at hne
    exact absurd rfl hne

/-- Two items in the first slots of a table, the second one with the home slot `home`. -/
def twoItems (home : ℕ) : NodeTable (Fin 4) where
  intHash := fun _ => 0
  size := 2
  count := 2
  items := fun i => ⟨i % 4, Nat.mod_lt _ (by decide)⟩
  id := fun i => if i = 0 then some 10 else if i = 1 then some 20 else none
  hash := fun i => if i = 1 then home else 0
  index := fun i => i

theorem table_twoItems (home : ℕ) : (twoItems home).Table where
  pow := ⟨2, rfl⟩
  distinct := by
    intro i hi j hj key hid hid'
    have hall : ∀ i < 4, ∀ j < 4, (twoItems 0).id ((twoItems 0).items i) =
        (twoItems 0).id ((twoItems 0).items j) →
        ((twoItems 0).id ((twoItems 0).items i)).isSome → i = j := by decide
    exact hall i hi j hj (hid.trans hid'.symm) (Option.isSome_iff_exists.mpr ⟨key, hid⟩)

theorem found_twoItems {home : ℕ} (hhome : home = 0 ∨ home = 1) :
    ∀ i < (twoItems home).slotCount, (twoItems home).Found i := by
  intro i hi key hkey
  have hcases : i = 0 ∨ i = 1 ∨ i = 2 ∨ i = 3 := by
    have hi' : i < 4 := hi
    omega
  rcases hhome with rfl | rfl <;> rcases hcases with rfl | rfl | rfl | rfl <;> cases hkey <;> rfl

theorem repairs_iff_twoItems : Repairs ((twoItems 1).emptied 0 (fun i => i)) 0 := by
  have hzero : 0 < (twoItems 1).slotCount := by decide
  refine (repairs_iff (table_twoItems 1) (found_twoItems (.inr rfl)) hzero rfl).mpr ?_ fun i => i
  exact (by decide : ∀ i < 4, i ≠ 0 → ((twoItems 1).id ((twoItems 1).items i)).isSome →
    ¬ OnPath 4 ((twoItems 1).home ((twoItems 1).items i)) i 0)

/-- The second item moves to its home slot. -/
theorem not_repairs : (twoItems 0).Table ∧ (∀ i < (twoItems 0).slotCount, (twoItems 0).Found i) ∧
    ¬ Repairs ((twoItems 0).emptied 0 (fun i => i)) 0 := by
  refine ⟨table_twoItems 0, found_twoItems (.inl rfl), fun h => ?_⟩
  have hfound := h.found ((table_twoItems 0).emptied 0 _) (fun i _ j hj _ heq => by
    have hj' : j < 4 := hj
    have hmod : j % 4 = i := heq
    omega) 1 (by decide) 20 rfl
  have hzero : (.ok 0 : Result ℕ) = .ok 1 := hfound
  cases hzero

end Incudine.NodeGraph.NodeTable

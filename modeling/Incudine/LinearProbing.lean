import Mathlib.Algebra.Order.BigOperators.Group.Finset
import Mathlib.Data.Finset.Max

/-!
# Linear probing

The items of a table are in `n` slots and are looked for from their home slot on, around the table.
After a removal, an item behind the gap is moved there, and its slot is the new gap. A table is the
contents of its slots.
-/

namespace LinearProbing

open Function

section Steps

variable {n a b c : ℕ}

/-- The number of steps from the slot `a` to the slot `b`. -/
def steps (n a b : ℕ) : ℕ := if a ≤ b then b - a else n + b - a

def next (n a : ℕ) : ℕ := (a + 1) % n

/-- The slot `r` precedes the slot `s` on the way from `home`. -/
def OnPath (n home s r : ℕ) : Prop := steps n home r < steps n home s

instance (home s r : ℕ) : Decidable (OnPath n home s r) := inferInstanceAs (Decidable (_ < _))

@[simp] theorem steps_self (n a : ℕ) : steps n a a = 0 := by simp [steps]

theorem steps_lt (ha : a < n) (hb : b < n) : steps n a b < n := by
  unfold steps
  split <;> omega

theorem steps_pos (ha : a < n) (hne : a ≠ b) : 0 < steps n a b := by
  unfold steps
  split <;> omega

theorem next_lt (hn : 0 < n) (a : ℕ) : next n a < n := Nat.mod_lt _ hn

theorem next_eq (ha : a < n) : next n a = if a + 1 < n then a + 1 else 0 := by
  unfold next
  split
  · exact Nat.mod_eq_of_lt ‹_›
  · rw [show a + 1 = n by omega, Nat.mod_self]

theorem steps_next (ha : a < n) (hb : b < n) (hne : a ≠ b) :
    steps n (next n a) b + 1 = steps n a b := by
  rw [next_eq ha]
  unfold steps
  split <;> split <;> split <;> omega

def ahead (n a k : ℕ) : ℕ := (a + k) % n

theorem ahead_lt (hn : 0 < n) (a k : ℕ) : ahead n a k < n := Nat.mod_lt _ hn

theorem next_ahead (n a k : ℕ) : next n (ahead n a k) = ahead n a (k + 1) := by
  rw [next, ahead, ahead, Nat.mod_add_mod, Nat.add_assoc]

theorem ahead_self (ha : a < n) : ahead n a n = a := by
  rw [ahead, Nat.add_mod_right, Nat.mod_eq_of_lt ha]

theorem steps_ahead {k : ℕ} (ha : a < n) (hk : k < n) : steps n a (ahead n a k) = k := by
  unfold ahead steps
  rcases Nat.lt_or_ge (a + k) n with hlt | hge
  · rw [Nat.mod_eq_of_lt hlt]
    split <;> omega
  · rw [show a + k = a + k - n + n by omega, Nat.add_mod_right, Nat.mod_eq_of_lt (by omega)]
    split <;> omega

theorem steps_add {c : ℕ} (ha : a < n) (hb : b < n) :
    steps n a b + steps n b c = steps n a c ∨ steps n a b + steps n b c = steps n a c + n := by
  unfold steps
  split <;> split <;> split <;> omega

theorem OnPath.between {home s r t : ℕ} (hhome : home < n) (hs : s < n) (hr : r < n)
    (h : OnPath n home s r) (hlt : steps n r t < steps n r s) : OnPath n home s t := by
  have hadd := @steps_add n home r s hhome hr
  have hadd' := @steps_add n home r t hhome hr
  have hlt' := steps_lt hr hs
  unfold OnPath at *
  omega

end Steps

section Search

variable (stop : ℕ → Prop) [DecidablePred stop] {n : ℕ}

/-- The first slot from `index` where the search stops. -/
def probe (n : ℕ) : ℕ → ℕ → Option ℕ
  | 0, _ => none
  | fuel + 1, index => if stop index then some index else probe n fuel (next n index)

variable {stop}

theorem probe_eq_some {fuel index s : ℕ} (hindex : index < n) (hs : s < n)
    (hfuel : steps n index s < fuel) (hstop : stop s)
    (hpath : ∀ r < n, OnPath n index s r → ¬ stop r) : probe stop n fuel index = some s := by
  induction fuel generalizing index with
  | zero => exact absurd hfuel (Nat.not_lt_zero _)
  | succ fuel ih =>
    by_cases heq : index = s
    · rw [probe, heq, if_pos hstop]
    · have hself : OnPath n index s index := by
        rw [OnPath, steps_self]
        exact steps_pos hindex heq
      have hstep := steps_next hindex hs heq
      rw [probe, if_neg (hpath index hindex hself)]
      refine ih (next_lt (Nat.zero_lt_of_lt hs) index) (by omega) fun r hr hon => hpath r hr ?_
      by_cases hri : r = index
      · rwa [hri]
      · have hrstep := steps_next hindex hr (Ne.symm hri)
        unfold OnPath at hon ⊢
        omega

theorem exists_probe {index s : ℕ} (hindex : index < n) (hs : s < n) (hstop : stop s) :
    ∃ r, probe stop n n index = some r := by
  have hmem : s ∈ (Finset.range n).filter stop := by simp [hs, hstop]
  obtain ⟨r, hr, hmin⟩ := ((Finset.range n).filter stop).exists_min_image (steps n index) ⟨s, hmem⟩
  rw [Finset.mem_filter, Finset.mem_range] at hr
  refine ⟨r, probe_eq_some hindex hr.1 (steps_lt hindex hr.1) hr.2 fun q hq hon hstop' => ?_⟩
  exact Nat.not_le.mpr hon (hmin q (by simp [hq, hstop']))

theorem probe_path {fuel index s : ℕ} (hindex : index < n)
    (h : probe stop n fuel index = some s) : s < n ∧ stop s ∧
      ∀ r < n, OnPath n index s r → ¬ stop r := by
  induction fuel generalizing index with
  | zero => cases h
  | succ fuel ih =>
    rw [probe] at h
    by_cases hstop : stop index
    · rw [if_pos hstop] at h
      obtain rfl := Option.some.inj h
      refine ⟨hindex, hstop, fun r _ hon => ?_⟩
      rw [OnPath, steps_self] at hon
      exact absurd hon (Nat.not_lt_zero _)
    · rw [if_neg hstop] at h
      obtain ⟨hs, hstops, hpath⟩ := ih (next_lt (Nat.zero_lt_of_lt hindex) index) h
      have hne : index ≠ s := fun heq => hstop (heq ▸ hstops)
      refine ⟨hs, hstops, fun r hr hon => ?_⟩
      by_cases hri : r = index
      · rwa [hri]
      · have hstep := steps_next hindex hs hne
        have hrstep := steps_next hindex hr (Ne.symm hri)
        refine hpath r hr ?_
        unfold OnPath at hon ⊢
        omega

end Search

section Repair

variable {α : Type*} (n : ℕ) (home : α → ℕ)

/-- The item of a slot, if any, is found from its home: there is no empty slot on the way. -/
def Reachable (slots : ℕ → Option α) (i : ℕ) : Prop :=
  ∀ a, slots i = some a → ∀ r < n, OnPath n (home a) i r → slots r ≠ none

/-- The table when `c - 1` items after the gap have been scanned. The gap is the only empty slot on
the way of an item, and it is not on the way of a scanned item. -/
structure Gap (slots : ℕ → Option α) (gap c : ℕ) : Prop where
  gap_lt : gap < n
  empty : slots gap = none
  pos : 1 ≤ c
  le : c ≤ n
  only : ∀ i < n, ∀ a, slots i = some a → ∀ r < n, OnPath n (home a) i r → slots r = none → r = gap
  scanned : ∀ i < n, ∀ a, slots i = some a → steps n gap i < c → ¬ OnPath n (home a) i gap

/-- The table after an item goes from the slot `j` to the gap. -/
def moveItem (slots : ℕ → Option α) (gap j : ℕ) : ℕ → Option α :=
  update (update slots j none) gap (slots j)

/-- The total number of steps from the homes of the items. -/
def displacement (slots : ℕ → Option α) : ℕ :=
  ∑ i ∈ Finset.range n, (slots i).elim 0 fun a => steps n (home a) i

variable {n home} {slots : ℕ → Option α} {gap c : ℕ}

theorem Gap.start (hgap : gap < n) (h : ∀ i < n, Reachable n home slots i) :
    Gap n home (update slots gap none) gap 1 where
  gap_lt := hgap
  empty := update_self ..
  pos := le_rfl
  le := Nat.succ_le_of_lt (Nat.zero_lt_of_lt hgap)
  only i hi a ha r hr hon hnone := by
    by_contra hne
    have hig : i ≠ gap := by
      rintro rfl
      rw [update_self] at ha
      cases ha
    rw [update_of_ne hig] at ha
    rw [update_of_ne hne] at hnone
    exact h i hi a ha r hr hon hnone
  scanned i hi a ha hlt := by
    have hig : i = gap := by
      by_contra hne
      have hpos := steps_pos hgap (Ne.symm hne)
      omega
    rw [hig, update_self] at ha
    cases ha

section

variable (h : Gap n home slots gap c)
include h

theorem Gap.congr {slots' : ℕ → Option α} (heq : ∀ i < n, slots' i = slots i) :
    Gap n home slots' gap c where
  gap_lt := h.gap_lt
  empty := (heq gap h.gap_lt).trans h.empty
  pos := h.pos
  le := h.le
  only i hi a ha r hr hon hnone :=
    h.only i hi a ((heq i hi).symm.trans ha) r hr hon ((heq r hr).symm.trans hnone)
  scanned i hi a ha := h.scanned i hi a ((heq i hi).symm.trans ha)

theorem Gap.slot_ne {a : α} (ha : slots (ahead n gap c) = some a) :
    c < n ∧ ahead n gap c ≠ gap := by
  have hne : ahead n gap c ≠ gap := by
    intro heq
    rw [heq, h.empty] at ha
    cases ha
  refine ⟨lt_of_le_of_ne h.le ?_, hne⟩
  rintro rfl
  exact hne (ahead_self h.gap_lt)

theorem Gap.keep {a : α} (ha : slots (ahead n gap c) = some a)
    (hpath : ¬ OnPath n (home a) (ahead n gap c) gap) : Gap n home slots gap (c + 1) where
  gap_lt := h.gap_lt
  empty := h.empty
  pos := Nat.succ_le_succ (Nat.zero_le c)
  le := (h.slot_ne ha).1
  only := h.only
  scanned i hi b hb hlt := by
    have hc := steps_ahead h.gap_lt (h.slot_ne ha).1
    rcases Nat.lt_succ_iff_lt_or_eq.mp hlt with hlt | heq
    · exact h.scanned i hi b hb hlt
    · have hsame : i = ahead n gap c := by
        have hj := ahead_lt (Nat.zero_lt_of_lt hi) gap c
        have hgap := h.gap_lt
        revert heq hc
        generalize ahead n gap c = j at hj ⊢
        unfold steps
        split <;> split <;> omega
      subst hsame
      obtain rfl := Option.some.inj (ha.symm.trans hb)
      exact hpath

theorem Gap.move {a : α} (ha : slots (ahead n gap c) = some a)
    (hpath : OnPath n (home a) (ahead n gap c) gap) :
    Gap n home (moveItem slots gap (ahead n gap c)) (ahead n gap c) 1 := by
  have hj := ahead_lt (Nat.zero_lt_of_lt h.gap_lt) gap c
  obtain ⟨-, hne⟩ := h.slot_ne ha
  generalize ahead n gap c = j at ha hpath hj hne ⊢
  have hempty : moveItem slots gap j j = none := by
    rw [moveItem, update_of_ne hne, update_self]
  have hnone (r : ℕ) (hr : moveItem slots gap j r = none) : r = j ∨ slots r = none := by
    by_cases hrg : r = gap
    · rw [hrg, moveItem, update_self, ha] at hr
      cases hr
    · by_cases hrj : r = j
      · exact Or.inl hrj
      · rw [moveItem, update_of_ne hrg, update_of_ne hrj] at hr
        exact Or.inr hr
  refine ⟨hj, hempty, le_rfl, Nat.succ_le_of_lt (Nat.zero_lt_of_lt hj), ?_, ?_⟩
  · intro i hi b hb r hr hon hr'
    by_contra hrj
    rcases hnone r hr' with heq | hslot
    · exact hrj heq
    · by_cases hig : i = gap
      · rw [hig, moveItem, update_self, ha] at hb
        obtain rfl := Option.some.inj hb
        rw [hig] at hon
        have hgap : r = gap := h.only j hj a ha r hr (lt_trans hon hpath) hslot
        rw [hgap] at hon
        exact lt_irrefl _ hon
      · by_cases hij : i = j
        · rw [hij, hempty] at hb
          cases hb
        · rw [moveItem, update_of_ne hig, update_of_ne hij] at hb
          have hgap : r = gap := h.only i hi b hb r hr hon hslot
          rw [hgap, moveItem, update_self, ha] at hr'
          cases hr'
  · intro i hi b hb hlt
    have hij : i = j := by
      by_contra hne
      have hpos := steps_pos hj (Ne.symm hne)
      omega
    rw [hij, hempty] at hb
    cases hb

theorem Gap.reachable (hhome : ∀ a, home a < n) (hnone : slots (ahead n gap c) = none) :
    ∀ i < n, Reachable n home slots i := by
  intro i hi a ha r hr hon hempty
  obtain rfl := h.only i hi a ha r hr hon hempty
  by_cases hlt : steps n r i < c
  · exact h.scanned i hi a ha hlt hon
  · have hlti : steps n r i < n := steps_lt hr hi
    have hc : c < n := by omega
    have hsteps := steps_ahead hr hc
    have hj := ahead_lt (Nat.zero_lt_of_lt hi) r c
    have hne : ahead n r c ≠ i := by
      intro heq
      rw [heq, ha] at hnone
      cases hnone
    have hless : steps n r (ahead n r c) < steps n r i := by
      refine lt_of_le_of_ne (by omega) fun heq => hne ?_
      revert heq
      generalize ahead n r c = j at hj ⊢
      unfold steps
      split <;> split <;> omega
    have hgap := h.only i hi a ha _ hj (hon.between (hhome a) hi hr hless) hnone
    have hpos := h.pos
    rw [hgap, steps_self] at hsteps
    omega

end

theorem displacement_moveItem {j : ℕ} {a : α} (hgap : gap < n) (hj : j < n) (hempty : slots gap = none)
    (ha : slots j = some a) (hpath : OnPath n (home a) j gap) :
    displacement n home (moveItem slots gap j) < displacement n home slots := by
  have hne : gap ≠ j := by
    rintro rfl
    rw [hempty] at ha
    cases ha
  have hsplit (f : ℕ → ℕ) : ∑ i ∈ Finset.range n, f i =
      f j + (f gap + ∑ i ∈ ((Finset.range n).erase j).erase gap, f i) := by
    rw [Finset.add_sum_erase _ f (Finset.mem_erase.mpr ⟨hne, Finset.mem_range.mpr hgap⟩),
      Finset.add_sum_erase _ f (Finset.mem_range.mpr hj)]
  have hrest : ∑ i ∈ ((Finset.range n).erase j).erase gap,
        (moveItem slots gap j i).elim 0 (fun a => steps n (home a) i) =
      ∑ i ∈ ((Finset.range n).erase j).erase gap,
        (slots i).elim 0 fun a => steps n (home a) i := by
    refine Finset.sum_congr rfl fun i hi => ?_
    obtain ⟨hig, hij, -⟩ := Finset.mem_erase.mp hi |>.imp_right Finset.mem_erase.mp
    rw [moveItem, update_of_ne hig, update_of_ne hij]
  have hgap' : moveItem slots gap j gap = some a := by rw [moveItem, update_self, ha]
  have hj' : moveItem slots gap j j = none := by rw [moveItem, update_of_ne hne.symm, update_self]
  rw [displacement, displacement, hsplit, hsplit, hrest, hgap', hj', hempty, ha]
  simp only [Option.elim_none, Option.elim_some]
  unfold OnPath at hpath
  omega

end Repair

end LinearProbing

import Mathlib.Algebra.Order.Interval.Finset.Basic
import Mathlib.Order.Interval.Finset.Nat

/-!
# One-based binary heaps with a hole

A heap is the part `[1, n)` of a sequence, the parent of index `i` being `i / 2`. Sifting copies one
entry over a hole, so the hole travels along a branch and is filled at the end. `Punctured` is what
holds while the hole travels, whatever will fill it.
-/

namespace Incudine.SiftedHeap

open Function

variable {α κ : Type*}

/-- The entries stored at the indices below `n`, the unused index zero apart. -/
def entries (d : ℕ → α) (n : ℕ) : Multiset α := (Finset.Ico 1 n).val.map d

@[simp] theorem entries_one (d : ℕ → α) : entries d 1 = 0 := by simp [entries]

variable {d : ℕ → α} {n : ℕ}

theorem mem_entries {x : α} : x ∈ entries d n ↔ ∃ i, 1 ≤ i ∧ i < n ∧ d i = x := by
  simp [entries, and_assoc]

@[simp] theorem card_entries (d : ℕ → α) (n : ℕ) : (entries d n).card = n - 1 := by
  simp [entries]

theorem entries_congr {d' : ℕ → α} (h : ∀ i, 1 ≤ i → i < n → d i = d' i) :
    entries d n = entries d' n := by
  refine Multiset.map_congr rfl fun i hi => ?_
  have hi' : 1 ≤ i ∧ i < n := by simpa using hi
  exact h i hi'.1 hi'.2

theorem entries_succ (d : ℕ → α) (h : 1 ≤ n) : entries d (n + 1) = d n ::ₘ entries d n := by
  have hins : Finset.Ico 1 (n + 1) = insert n (Finset.Ico 1 n) := by
    ext i
    simp only [Finset.mem_Ico, Finset.mem_insert]
    omega
  have hn : n ∉ (Finset.Ico 1 n).val := by simp
  rw [entries, hins, Finset.insert_val_of_notMem hn, Multiset.map_cons, entries]

theorem entries_update (d : ℕ → α) {i : ℕ} (x : α) (h₁ : 1 ≤ i) (hn : i < n) :
    d i ::ₘ entries (update d i x) n = x ::ₘ entries d n := by
  have hi : i ∈ Finset.Ico 1 n := by simp [h₁, hn]
  have hsplit : (Finset.Ico 1 n).val = i ::ₘ ((Finset.Ico 1 n).erase i).val := by
    rw [← Finset.insert_val_of_notMem (Finset.notMem_erase i _), Finset.insert_erase hi]
  have hrest : ((Finset.Ico 1 n).erase i).val.map (update d i x) =
      ((Finset.Ico 1 n).erase i).val.map d := by
    refine Multiset.map_congr rfl fun j hj => ?_
    have hj' : j ∈ (Finset.Ico 1 n).erase i := hj
    exact update_of_ne (Finset.ne_of_mem_erase hj') _ _
  rw [entries, entries, hsplit, Multiset.map_cons, Multiset.map_cons, update_self, hrest,
    Multiset.cons_swap]

theorem entries_move (d : ℕ → α) {i j : ℕ} (e : α) (hij : i ≠ j) (hi : 1 ≤ i) (hin : i < n)
    (hj : 1 ≤ j) (hjn : j < n) :
    entries (update (update d i (d j)) j e) n = entries (update d i e) n := by
  have h₁ := entries_update (update d i (d j)) e hj hjn
  rw [update_of_ne hij.symm] at h₁
  have h₂ := entries_update d (d j) hi hin
  have h₃ := entries_update d e hi hin
  have hboth : d i ::ₘ d j ::ₘ entries (update (update d i (d j)) j e) n =
      d i ::ₘ d j ::ₘ entries (update d i e) n := by
    calc d i ::ₘ d j ::ₘ entries (update (update d i (d j)) j e) n
        = e ::ₘ d i ::ₘ entries (update d i (d j)) n := by rw [h₁, Multiset.cons_swap]
      _ = e ::ₘ d j ::ₘ entries d n := by rw [h₂]
      _ = d j ::ₘ d i ::ₘ entries (update d i e) n := by rw [Multiset.cons_swap, h₃]
      _ = d i ::ₘ d j ::ₘ entries (update d i e) n := by rw [Multiset.cons_swap]
  exact (Multiset.cons_inj_right _).mp ((Multiset.cons_inj_right _).mp hboth)

variable [LinearOrder κ] (key : α → κ)

def Ordered (d : ℕ → α) (n : ℕ) : Prop :=
  ∀ i, 2 ≤ i → i < n → key (d (i / 2)) ≤ key (d i)

/-- The edges that do not touch the hole are in order, and so are the edges that would join the
parent of the hole to the children of the hole. -/
structure Punctured (d : ℕ → α) (n hole : ℕ) : Prop where
  edge : ∀ i, 2 ≤ i → i < n → i ≠ hole → i / 2 ≠ hole → key (d (i / 2)) ≤ key (d i)
  grand : 2 ≤ hole → ∀ c, c < n → c / 2 = hole → key (d (hole / 2)) ≤ key (d c)

variable {key}

section

variable (h : Ordered key d n)
include h

theorem Ordered.congr {d' : ℕ → α} (hd : ∀ i, 1 ≤ i → i < n → d' i = d i) : Ordered key d' n := by
  intro i h₂ hi
  rw [hd i (by omega) hi, hd (i / 2) (by omega) (by omega)]
  exact h i h₂ hi

theorem Ordered.root_le : ∀ i, 1 ≤ i → i < n → key (d 1) ≤ key (d i) := by
  intro i
  induction i using Nat.strong_induction_on with
  | _ i ih =>
    intro h₁ hi
    rcases Nat.lt_or_ge i 2 with hlt | h₂
    · have : i = 1 := by omega
      rw [this]
    · exact (ih (i / 2) (by omega) (by omega) (by omega)).trans (h i h₂ hi)

theorem Ordered.root_le_of_mem {x : α} (hx : x ∈ entries d n) : key (d 1) ≤ key x := by
  obtain ⟨i, h₁, hi, rfl⟩ := mem_entries.mp hx
  exact h.root_le i h₁ hi

theorem Ordered.branch_le {i : ℕ} (h₁ : 1 ≤ i) :
    ∀ m j, j < n → j / 2 ^ m = i → key (d i) ≤ key (d j) := by
  intro m
  induction m with
  | zero =>
    intro j _ hj
    rw [pow_zero, Nat.div_one] at hj
    rw [hj]
  | succ m ih =>
    intro j hn hj
    have hparent : j / 2 / 2 ^ m = i := by rw [Nat.div_div_eq_div_mul, ← pow_succ', hj]
    have h₂ : 2 ≤ j := by
      by_contra hlt
      have hz : j / 2 = 0 := by omega
      rw [hz, Nat.zero_div] at hparent
      omega
    exact (ih (j / 2) (by omega) hparent).trans (h j h₂ hn)

theorem Ordered.exists_later {s : ℕ} (hs : 2 * s < n + 2) {i : ℕ} (h₁ : 1 ≤ i) (hi : i < n) :
    ∃ j, s ≤ j ∧ j < n ∧ key (d i) ≤ key (d j) := by
  induction hk : n - i using Nat.strong_induction_on generalizing i with
  | _ k ih =>
    by_cases hsi : s ≤ i
    · exact ⟨i, hsi, hi, le_rfl⟩
    · obtain ⟨j, hsj, hj, hle⟩ := ih (n - 2 * i) (by omega) (i := 2 * i) (by omega)
        (by omega) rfl
      have hchild : key (d i) ≤ key (d (2 * i)) := by
        have := h (2 * i) (by omega) (by omega)
        rwa [Nat.mul_div_cancel_left i (by decide : 0 < 2)] at this
      exact ⟨j, hsj, hj, hchild.trans hle⟩

theorem Ordered.puncture (hole : ℕ) : Punctured key d n hole where
  edge i h₂ hi _ _ := h i h₂ hi
  grand h₂ c hc hp := by
    have hhole : key (d (hole / 2)) ≤ key (d hole) := h hole h₂ (by omega)
    have hchild : key (d hole) ≤ key (d c) := hp ▸ h c (by omega) hc
    exact hhole.trans hchild

theorem Ordered.puncture_last : Punctured key d (n + 1) n where
  edge i h₂ hi hne _ := h i h₂ (by omega)
  grand h₂ c hc hp := by omega

end

variable {hole : ℕ}

section

variable (h : Punctured key d n hole)
include h

theorem Punctured.mono {m : ℕ} (hm : m ≤ n) : Punctured key d m hole where
  edge i h₂ hi := h.edge i h₂ (by omega)
  grand h₂ c hc := h.grand h₂ c (by omega)

theorem Punctured.congr {d' : ℕ → α} (hd : ∀ i, 1 ≤ i → i < n → i ≠ hole → d' i = d i) :
    Punctured key d' n hole where
  edge i h₂ hi hne hpne := by
    rw [hd i (by omega) hi hne, hd (i / 2) (by omega) (by omega) hpne]
    exact h.edge i h₂ hi hne hpne
  grand h₂ c hc hp := by
    rw [hd c (by omega) hc (by omega), hd (hole / 2) (by omega) (by omega) (by omega)]
    exact h.grand h₂ c hc hp

theorem Punctured.moveUp (h₂ : 2 ≤ hole) :
    Punctured key (update d hole (d (hole / 2))) n (hole / 2) where
  edge i hi₂ hi hne hpne := by
    have hih : i ≠ hole := by
      rintro rfl
      exact hpne rfl
    rw [update_of_ne hih]
    by_cases hp : i / 2 = hole
    · rw [hp, update_self]
      exact h.grand h₂ i hi hp
    · rw [update_of_ne hp]
      exact h.edge i hi₂ hi hih hp
  grand hp₂ c hc hp := by
    have hup : key (d (hole / 2 / 2)) ≤ key (d (hole / 2)) :=
      h.edge (hole / 2) hp₂ (by omega) (by omega) (by omega)
    rw [update_of_ne (by omega : hole / 2 / 2 ≠ hole)]
    by_cases hch : c = hole
    · rw [hch, update_self]
      exact hup
    · rw [update_of_ne hch]
      have hside : key (d (hole / 2)) ≤ key (d c) :=
        hp ▸ h.edge c (by omega) hc hch (by omega)
      exact hup.trans hside

theorem Punctured.moveDown {c : ℕ} (h₁ : 1 ≤ hole) (hc : c / 2 = hole) (hcn : c < n)
    (hmin : ∀ s, s < n → s / 2 = hole → key (d c) ≤ key (d s)) :
    Punctured key (update d hole (d c)) n c where
  edge i hi₂ hi hne hpne := by
    by_cases hih : i = hole
    · subst hih
      rw [update_self, update_of_ne (by omega : i / 2 ≠ i)]
      exact h.grand hi₂ c hcn hc
    · rw [update_of_ne hih]
      by_cases hp : i / 2 = hole
      · rw [hp, update_self]
        exact hmin i hi hp
      · rw [update_of_ne hp]
        exact h.edge i hi₂ hi hih hp
  grand hc₂ s hs hp := by
    rw [hc, update_self, update_of_ne (by omega : s ≠ hole)]
    exact hp ▸ h.edge s (by omega) hs (by omega) (by omega)

theorem Punctured.fill {e : α} (habove : 2 ≤ hole → key (d (hole / 2)) ≤ key e)
    (hbelow : ∀ c, 2 ≤ c → c < n → c / 2 = hole → key e ≤ key (d c)) :
    Ordered key (update d hole e) n := by
  intro i h₂ hi
  by_cases hih : i = hole
  · subst hih
    rw [update_self, update_of_ne (by omega : i / 2 ≠ i)]
    exact habove h₂
  · rw [update_of_ne hih]
    by_cases hp : i / 2 = hole
    · rw [hp, update_self]
      exact hbelow i h₂ hi hp
    · rw [update_of_ne hp]
      exact h.edge i h₂ hi hih hp

end

end Incudine.SiftedHeap

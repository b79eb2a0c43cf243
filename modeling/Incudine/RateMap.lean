import Mathlib.Algebra.BigOperators.Intervals
import Mathlib.Algebra.Order.BigOperators.Group.Finset
import Mathlib.Tactic.Ring

/-!
# Rates that change at whole times

The integral of a rate that changes only at whole times, and a map of the changes with the
integral up to each of them.
-/

namespace Incudine.RateMap

open Finset

/-- The rate `f` before `t`, the rate `r` from `t` on. -/
def change {K : Type*} (f : ℕ → K) (t : ℕ) (r : K) : ℕ → K := fun p => if t ≤ p then r else f p

theorem change_of_le {K : Type*} {f : ℕ → K} {t p : ℕ} (h : t ≤ p) (r : K) :
    change f t r p = r :=
  if_pos h

theorem change_of_lt {K : Type*} {f : ℕ → K} {t p : ℕ} (h : p < t) (r : K) :
    change f t r p = f p :=
  if_neg (Nat.not_le.mpr h)

theorem getElem?_length {α : Type*} (init : List α) (last : α) :
    (init ++ [last])[init.length]? = some last := by
  rw [List.getElem?_append_right (Nat.le_refl _), Nat.sub_self]
  rfl

theorem getElem?_after {α : Type*} {init : List α} {last : α} {i : ℕ} (h : init.length < i) :
    (init ++ [last])[i]? = none := by
  apply List.getElem?_eq_none
  simp only [List.length_append, List.length_singleton]
  omega

variable {K : Type*} [CommRing K]

def integral (f : ℕ → K) (t : ℕ) : K := ∑ p ∈ range t, f p

theorem integral_const {f : ℕ → K} {r : K} {s t : ℕ} (h : s ≤ t)
    (hf : ∀ p, s ≤ p → p < t → f p = r) :
    integral f t = integral f s + r * ((t : K) - s) := by
  have hrest : ∑ p ∈ Ico s t, f p = ∑ p ∈ Ico s t, r := by
    apply sum_congr rfl
    intro p hp
    rw [mem_Ico] at hp
    exact hf p hp.1 hp.2
  rw [integral, integral, ← sum_range_add_sum_Ico f h, hrest, sum_const, Nat.card_Ico,
    nsmul_eq_mul, Nat.cast_sub h, mul_comm]

theorem integral_congr {f g : ℕ → K} {t : ℕ} (h : ∀ p < t, f p = g p) :
    integral f t = integral g t := by
  apply sum_congr rfl
  intro p hp
  exact h p (mem_range.mp hp)

theorem integral_change {f : ℕ → K} {s t : ℕ} (h : s ≤ t) (r : K) :
    integral (change f t r) s = integral f s :=
  integral_congr fun _ hp => change_of_lt (hp.trans_le h) r

/-- A change of the rate with the integral up to its time. -/
structure Entry (K : Type*) where
  time : ℕ
  total : K
  rate : K

/-- The entries are the changes of the rate in the order of their times, the first one at 0. -/
structure Caches (f : ℕ → K) (entries : List (Entry K)) : Prop where
  first : entries.head?.map Entry.time = some 0
  sorted : entries.Pairwise (·.time < ·.time)
  total : ∀ e ∈ entries, e.total = integral f e.time
  rate : ∀ i e, entries[i]? = some e → ∀ p, e.time ≤ p →
    (∀ next, entries[i + 1]? = some next → p < next.time) → f p = e.rate

namespace Caches

variable {f : ℕ → K} {entries : List (Entry K)} {e : Entry K} {i t : ℕ}

theorem constant (r : K) : Caches (fun _ => r) [⟨0, 0, r⟩] where
  first := rfl
  sorted := List.pairwise_singleton _ _
  total := by simp [integral]
  rate := by
    intro i e he p _ _
    obtain ⟨hi, rfl⟩ := List.getElem?_eq_some_iff.mp he
    obtain rfl : i = 0 := by simpa using hi
    rfl

theorem integral_eq (h : Caches f entries) (he : entries[i]? = some e) (hle : e.time ≤ t)
    (hnext : ∀ next, entries[i + 1]? = some next → t ≤ next.time) :
    integral f t = e.total + e.rate * ((t : K) - e.time) := by
  rw [h.total e (List.mem_of_getElem? he)]
  apply integral_const hle
  intro p hp hpt
  exact h.rate i e he p hp fun next hn => hpt.trans_le (hnext next hn)

variable {init : List (Entry K)} {last : Entry K}

section

variable (h : Caches f (init ++ [last]))
include h

theorem lt_last (he : e ∈ init) : e.time < last.time := by
  have hsorted := h.sorted
  rw [List.pairwise_append] at hsorted
  exact hsorted.2.2 e he last (List.mem_singleton_self last)

theorem le_last (he : e ∈ init ++ [last]) : e.time ≤ last.time := by
  rcases List.mem_append.mp he with he | he
  · exact (h.lt_last he).le
  · rw [List.mem_singleton.mp he]

theorem rate_last (ht : last.time ≤ t) : f t = last.rate := by
  apply h.rate init.length last (getElem?_length init last) t ht
  intro next hnext
  rw [getElem?_after (Nat.lt_succ_self _)] at hnext
  cases hnext

theorem integral_last (ht : last.time ≤ t) :
    integral f t = last.total + last.rate * ((t : K) - last.time) := by
  apply h.integral_eq (getElem?_length init last) ht
  intro next hnext
  rw [getElem?_after (Nat.lt_succ_self _)] at hnext
  cases hnext

theorem change_same (ht : last.time ≤ t) : change f t last.rate = f := by
  funext p
  by_cases hp : t ≤ p
  · rw [change_of_le hp, h.rate_last (ht.trans hp)]
  · rw [change_of_lt (Nat.not_le.mp hp)]

end

theorem total_change (h : Caches f entries) (he : e ∈ entries) (hle : e.time ≤ t) (r : K) :
    e.total = integral (change f t r) e.time := by
  rw [integral_change hle, h.total e he]

theorem rate_init (h : Caches f (init ++ [last])) (r : K) (he : init[i]? = some e) {p : ℕ}
    (hp : e.time ≤ p)
    (hnext : ∀ next, (init ++ [{ last with rate := r }])[i + 1]? = some next → p < next.time) :
    change f last.time r p = e.rate := by
  have hi : i < init.length := (List.getElem?_eq_some_iff.mp he).1
  have he' : (init ++ [last])[i]? = some e := by rwa [List.getElem?_append_left hi]
  by_cases hlast : i + 1 = init.length
  · have hlt : p < last.time :=
      hnext { last with rate := r } (by rw [hlast]; exact getElem?_length init _)
    rw [change_of_lt hlt]
    apply h.rate i e he' p hp
    intro next hn
    rw [hlast, getElem?_length] at hn
    cases hn
    exact hlt
  · have hsucc : i + 1 < init.length := by omega
    have hget := List.getElem?_eq_getElem hsucc
    have hlt : p < init[i + 1].time :=
      hnext init[i + 1] (by rw [List.getElem?_append_left hsucc, hget])
    rw [change_of_lt (hlt.trans (h.lt_last (List.getElem_mem hsucc)))]
    apply h.rate i e he' p hp
    intro next hn
    rw [List.getElem?_append_left hsucc, hget] at hn
    cases hn
    exact hlt

theorem replace (h : Caches f (init ++ [last])) (r : K) :
    Caches (change f last.time r) (init ++ [{ last with rate := r }]) where
  first := by
    have hfirst := h.first
    cases init with
    | nil => exact hfirst
    | cons => exact hfirst
  sorted := by
    rw [List.pairwise_append]
    refine ⟨(List.pairwise_append.mp h.sorted).1, List.pairwise_singleton _ _, ?_⟩
    intro e he e' he'
    rw [List.mem_singleton.mp he']
    exact h.lt_last he
  total := by
    intro e he
    rcases List.mem_append.mp he with he | he
    · exact h.total_change (List.mem_append_left _ he) (h.lt_last he).le r
    · rw [List.mem_singleton.mp he]
      exact h.total_change (List.mem_append_right _ (List.mem_singleton_self last)) le_rfl r
  rate := by
    intro i e he p hp hnext
    rcases Nat.lt_trichotomy i init.length with hi | rfl | hi
    · rw [List.getElem?_append_left hi] at he
      exact h.rate_init r he hp hnext
    · rw [getElem?_length] at he
      cases he
      exact change_of_le hp r
    · rw [getElem?_after hi] at he
      cases he

theorem push (h : Caches f (init ++ [last])) (ht : last.time < t) (r : K) :
    Caches (change f t r) (init ++ [last] ++ [⟨t, integral f t, r⟩]) where
  first := by
    have hfirst := h.first
    cases init with
    | nil => exact hfirst
    | cons => exact hfirst
  sorted := by
    rw [List.pairwise_append]
    refine ⟨h.sorted, List.pairwise_singleton _ _, ?_⟩
    intro e he e' he'
    rw [List.mem_singleton.mp he']
    exact (h.le_last he).trans_lt ht
  total := by
    intro e he
    rcases List.mem_append.mp he with he | he
    · exact h.total_change he ((h.le_last he).trans ht.le) r
    · rw [List.mem_singleton.mp he]
      exact (integral_change le_rfl r).symm
  rate := by
    intro i e he p hp hnext
    rcases Nat.lt_trichotomy i (init ++ [last]).length with hi | rfl | hi
    · rw [List.getElem?_append_left hi] at he
      have hnext' : ∀ next, (init ++ [last])[i + 1]? = some next → p < next.time := by
        intro next hn
        apply hnext next
        rw [List.getElem?_append_left (List.getElem?_eq_some_iff.mp hn).1]
        exact hn
      have hlt : p < t := by
        by_cases hlast : i + 1 = (init ++ [last]).length
        · exact hnext ⟨t, integral f t, r⟩ (by rw [hlast]; exact getElem?_length _ _)
        · have hsucc : i + 1 < (init ++ [last]).length := by omega
          have hn := hnext' _ (List.getElem?_eq_getElem hsucc)
          exact hn.trans ((h.le_last (List.getElem_mem hsucc)).trans_lt ht)
      rw [change_of_lt hlt]
      exact h.rate i e he p hp hnext'
    · rw [getElem?_length] at he
      cases he
      exact change_of_le hp r
    · rw [getElem?_after hi] at he
      cases he

end Caches

end Incudine.RateMap

import Incudine.Nearest

/-!
# Quantization to a vector

The search of the element of a sorted vector that is nearest to a value. The bisection narrows a
half-open interval of the indices that contains the nearest element.
-/

namespace Incudine.QuantizeVector

open Nearest

variable {K : Type} [CommRing K] [LinearOrder K]

/-- `rec`: the index of the nearest element from `start` to `stop`. A read outside the vector
fails. -/
def search (value : K) (data : Array K) (start stop : ℕ) : Option ℕ :=
  let i := start + (stop - start) / 2
  if hstart : i = start then some i
  else if hlast : i = stop - 1 then do
    let prev ← data[i - 1]?
    let curr ← data[i]?
    some (if |value - prev| < |value - curr| then i - 1 else i)
  else do
    let prev ← data[i - 1]?
    let curr ← data[i]?
    let next ← data[i + 1]?
    let currDelta := |value - curr|
    if prev < value ∧ prev ≠ curr ∧ value ≤ next then
      some (if value - prev < currDelta then i - 1
        else if next - value < currDelta then i + 1
        else i)
    else if value ≤ curr then search value data start i
    else search value data i stop
termination_by stop - start

def quantizeFromVector (value : K) (vec : Array K) : Option K := do
  let i ← search value vec 0 vec.size
  vec[i]?

section

variable [IsStrictOrderedRing K] {value : K} {data : Array K} {c : ℕ → K} {start stop : ℕ}

/-- The interval contains an element that is as near as any other one. -/
def Keeps (c : ℕ → K) (n : ℕ) (value : K) (start stop : ℕ) : Prop :=
  ∀ j < n, ∃ k, start ≤ k ∧ k < stop ∧ |value - c k| ≤ |value - c j|

omit [IsStrictOrderedRing K] in
theorem Keeps.narrow {n start' stop' : ℕ} (h : Keeps c n value start stop)
    (hnarrow : ∀ j, start ≤ j → j < stop →
      ∃ k, start' ≤ k ∧ k < stop' ∧ |value - c k| ≤ |value - c j|) :
    Keeps c n value start' stop' := by
  intro j hj
  obtain ⟨i, hstart, hstop, hi⟩ := h j hj
  obtain ⟨k, hstart', hstop', hk⟩ := hnarrow i hstart hstop
  exact ⟨k, hstart', hstop', hk.trans hi⟩

theorem Keeps.lower {n i : ℕ} (h : Keeps c n value start stop) (hc : Sorted c n) (hstop : stop ≤ n)
    (hstart : start < i) (hcurr : value ≤ c i) (hprev : value ≤ c (i - 1) ∨ c (i - 1) = c i) :
    Keeps c n value start i := by
  refine h.narrow fun j hj hlt => ?_
  rcases lt_or_ge j i with hji | hij
  · exact ⟨j, hj, hji, le_rfl⟩
  · have hle : value ≤ c (i - 1) := hprev.elim id fun heq => heq ▸ hcurr
    exact ⟨i - 1, by omega, by omega, abs_sub_le_of_le hle (hc _ _ (by omega) (by omega))⟩

theorem Keeps.upper {n i : ℕ} (h : Keeps c n value start stop) (hc : Sorted c n) (hi : i < stop)
    (hstop : stop ≤ n) (hcurr : c i ≤ value) : Keeps c n value i stop := by
  refine h.narrow fun j _ hlt => ?_
  rcases lt_or_ge j i with hji | hij
  · exact ⟨i, le_rfl, hi, abs_sub_le_of_ge (hc _ _ hji.le (by omega)) hcurr⟩
  · exact ⟨j, hij, hlt, le_rfl⟩

theorem isNearest_window {n i : ℕ} (hc : Sorted c n) (hpos : 0 < i) (hi : i + 1 < n)
    (hprev : c (i - 1) < value) (hnext : value ≤ c (i + 1)) :
    IsNearest c n value (if value - c (i - 1) < |value - c i| then i - 1
      else if c (i + 1) - value < |value - c i| then i + 1 else i) := by
  have hle : c (i - 1) ≤ c i := hc _ _ (Nat.sub_le i 1) (by omega)
  have hle' : c i ≤ c (i + 1) := hc _ _ (Nat.le_succ i) hi
  have hlower (j : ℕ) (hj : j < i) : |value - c (i - 1)| ≤ |value - c j| :=
    abs_sub_le_of_ge (hc _ _ (by omega) (by omega)) hprev.le
  have hupper (j : ℕ) (hij : i < j) (hj : j < n) : |value - c (i + 1)| ≤ |value - c j| :=
    abs_sub_le_of_le hnext (hc _ _ hij hj)
  have hprevAbs : |value - c (i - 1)| = value - c (i - 1) := abs_of_pos (sub_pos.mpr hprev)
  have hnextAbs : |value - c (i + 1)| = c (i + 1) - value := by
    rw [abs_sub_comm, abs_of_nonneg (sub_nonneg.mpr hnext)]
  have hreduce (k : ℕ) (hk : k < n) (hkprev : |value - c k| ≤ |value - c (i - 1)|)
      (hkcurr : |value - c k| ≤ |value - c i|) (hknext : |value - c k| ≤ |value - c (i + 1)|) :
      IsNearest c n value k := by
    refine ⟨hk, fun j hj => ?_⟩
    rcases lt_trichotomy j i with hlt | rfl | hgt
    · exact hkprev.trans (hlower j hlt)
    · exact hkcurr
    · exact hknext.trans (hupper j hgt hj)
  split_ifs with hfirst hlast
  · have hcurr : value ≤ c i := by
      by_contra hlt
      rw [abs_of_pos (by linarith)] at hfirst
      linarith
    have hnear := abs_sub_le_of_le hcurr hle'
    exact hreduce _ (by omega) le_rfl (by linarith) (by linarith)
  · have hcurr : c i ≤ value := by
      by_contra hlt
      rw [abs_of_neg (by linarith)] at hlast
      linarith
    have hnear := abs_sub_le_of_ge hle hcurr
    exact hreduce _ hi (by linarith) (by linarith) le_rfl
  · exact hreduce _ (by omega) (by linarith) le_rfl (by linarith)

theorem search_isNearest (hc : Sorted c data.size) (hdata : ∀ j < data.size, data[j]? = some (c j))
    (hstop : stop ≤ data.size) (hlt : start < stop) (hkeeps : Keeps c data.size value start stop) :
    ∃ k, search value data start stop = some k ∧ IsNearest c data.size value k := by
  fun_induction search value data start stop with
  | case1 start stop i hstart =>
    refine ⟨i, rfl, by omega, fun j hj => ?_⟩
    obtain ⟨k, hk, hk', hle⟩ := hkeeps j hj
    rwa [show k = i by omega] at hle
  | case2 start stop i hstart hlast =>
    rw [hdata _ (by omega), hdata _ (by omega)]
    refine ⟨_, rfl, by split_ifs <;> omega, fun j hj => ?_⟩
    obtain ⟨k, hk, hk', hle⟩ := hkeeps j hj
    refine le_trans ?_ hle
    have htwo : k = i - 1 ∨ k = i := by omega
    split_ifs with hnear
    · rcases htwo with rfl | rfl
      · exact le_rfl
      · exact hnear.le
    · rcases htwo with rfl | rfl
      · exact not_lt.mp hnear
      · exact le_rfl
  | case3 start stop i hstart hlast ihlower ihupper =>
    obtain ⟨hlow, hhigh⟩ : start < i ∧ i + 1 < stop := by omega
    clear_value i
    clear hstart hlast hlt
    rw [hdata _ (by omega), hdata _ (by omega), hdata _ (by omega)]
    simp only [Option.bind_eq_bind, Option.bind_some]
    by_cases hwindow : c (i - 1) < value ∧ c (i - 1) ≠ c i ∧ value ≤ c (i + 1)
    · rw [if_pos hwindow]
      exact ⟨_, rfl, isNearest_window hc (by omega) (by omega) hwindow.1 hwindow.2.2⟩
    rw [if_neg hwindow]
    by_cases hcurr : value ≤ c i
    · have hle := hc i (i + 1) (Nat.le_succ i) (by omega)
      have hprev : value ≤ c (i - 1) ∨ c (i - 1) = c i := by
        by_contra hnot
        exact hwindow ⟨not_le.mp fun h => hnot (.inl h), fun h => hnot (.inr h), hcurr.trans hle⟩
      rw [if_pos hcurr]
      exact ihlower (by omega) hlow (hkeeps.lower hc hstop (by omega) hcurr hprev)
    · rw [if_neg hcurr]
      exact ihupper hstop (by omega) (hkeeps.upper hc (by omega) hstop (not_le.mp hcurr).le)

/-- The element of a sorted vector that is found is at the minimal distance from the value. -/
theorem quantizeFromVector_nearest (value : K) (vec : Array K) (hne : vec.size ≠ 0)
    (hsorted : vec.toList.Pairwise (· ≤ ·)) :
    ∃ x, quantizeFromVector value vec = some x ∧ x ∈ vec ∧
      ∀ y ∈ vec, |value - x| ≤ |value - y| := by
  set c : ℕ → K := fun j => vec[j]?.getD 0 with hdef
  have hget (j : ℕ) (hj : j < vec.size) : c j = vec[j] := by
    rw [hdef]
    simp [hj]
  have hdata (j : ℕ) (hj : j < vec.size) : vec[j]? = some (c j) := by
    rw [hget j hj, Array.getElem?_eq_getElem hj]
  have hc : Sorted c vec.size := by
    intro i j hij hj
    rcases hij.eq_or_lt with rfl | hlt
    · exact le_rfl
    · rw [hget i (by omega), hget j hj]
      exact List.pairwise_iff_getElem.mp hsorted i j (by simp; omega) (by simpa using hj) hlt
  have hkeeps : Keeps c vec.size value 0 vec.size := fun j hj => ⟨j, Nat.zero_le j, hj, le_rfl⟩
  obtain ⟨k, hk, hlt, hmin⟩ := search_isNearest hc hdata le_rfl (by omega) hkeeps
  refine ⟨c k, ?_, ?_, fun y hy => ?_⟩
  · rw [quantizeFromVector, hk]
    exact hdata k hlt
  · rw [hget k hlt]
    exact Array.getElem_mem hlt
  · obtain ⟨j, hj, rfl⟩ := Array.mem_iff_getElem.mp hy
    rw [← hget j hj]
    exact hmin j hj

theorem quantizeFromVector_nearest_five : ∃ x : ℤ,
    quantizeFromVector 250 #[100, 200, 200, 300, 300] = some x ∧
      x ∈ #[100, 200, 200, 300, 300] ∧
        ∀ y ∈ #[100, 200, 200, 300, 300], |250 - x| ≤ |250 - y| :=
  quantizeFromVector_nearest 250 _ (by decide) (by decide)

end

end Incudine.QuantizeVector

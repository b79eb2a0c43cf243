import Mathlib.Data.Nat.Notation
import Mathlib.Logic.Function.Basic

/-!
# Counted loops

A loop over the numbers less than `n`, with a state.
-/

namespace CountedLoop

open Function

variable {σ α : Type*}

/-- The loop with the body `body`. -/
def dotimes (body : ℕ → σ → σ) (n : ℕ) (s : σ) : σ := n.fold (fun i _ s => body i s) s

theorem dotimes_succ (body : ℕ → σ → σ) (n : ℕ) (s : σ) :
    dotimes body (n + 1) s = body n (dotimes body n s) := rfl

theorem dotimes_update (value : ℕ → α) (memory : ℕ → α) (n i : ℕ) :
    dotimes (fun i memory => update memory i (value i)) n memory i =
      if i < n then value i else memory i := by
  induction n with
  | zero => rfl
  | succ n ih =>
    rw [dotimes_succ]
    by_cases hi : i = n
    · rw [hi, update_self, if_pos (Nat.lt_succ_self n)]
    · rw [update_of_ne hi, ih]
      apply if_congr ?_ rfl rfl
      omega

end CountedLoop

import Mathlib.Algebra.Order.Group.Nat

/-!
# Memory of interleaved frames

The sample of a channel of a frame is at the index `frame * channels + channel`. A store replaces
some channels of consecutive frames.
-/

namespace FrameMemory

open Function

variable {α : Type*} {channels frame channel : ℕ}

theorem div_index (h : channel < channels) : (frame * channels + channel) / channels = frame := by
  rw [Nat.mul_comm, Nat.mul_add_div (Nat.zero_lt_of_lt h), Nat.div_eq_of_lt h, Nat.add_zero]

theorem mod_index (h : channel < channels) : (frame * channels + channel) % channels = channel := by
  rw [Nat.mul_comm, Nat.mul_add_mod, Nat.mod_eq_of_lt h]

/-- The values of `n` frames replace the ones from the frame `start` on; the channels without a
value are unchanged. -/
def store (channels start n : ℕ) (value : ℕ → ℕ → Option α) (memory : ℕ → α) : ℕ → α := fun i =>
  if start ≤ i / channels ∧ i / channels < start + n then
    (value (i / channels - start) (i % channels)).getD (memory i)
  else memory i

variable {start n m k i : ℕ} {value value' : ℕ → ℕ → Option α} {memory : ℕ → α}

@[simp] theorem store_zero : store channels start 0 value memory = memory := by
  funext i
  exact if_neg (by omega)

theorem store_value (hk : k < n) (hc : channel < channels) {x : α} (hx : value k channel = some x) :
    store channels start n value memory ((start + k) * channels + channel) = x := by
  rw [store, div_index hc, mod_index hc, if_pos (by omega), Nat.add_sub_cancel_left, hx,
    Option.getD_some]

theorem store_none (hc : channel < channels) (hnone : ∀ k, value k channel = none) :
    store channels start n value memory (frame * channels + channel) =
      memory (frame * channels + channel) := by
  rw [store, div_index hc, mod_index hc, hnone, Option.getD_none, ite_self]

theorem store_outside (h : i / channels < start ∨ start + n ≤ i / channels) :
    store channels start n value memory i = memory i :=
  if_neg (by omega)

theorem store_congr (h : ∀ k < n, ∀ i, value k (i % channels) = value' k (i % channels)) :
    store channels start n value memory = store channels start n value' memory := by
  funext i
  unfold store
  split_ifs with hin
  · rw [h _ (by omega)]
  · rfl

theorem store_store :
    store channels (start + n) m (fun k => value (n + k)) (store channels start n value memory) =
      store channels start (n + m) value memory := by
  funext i
  by_cases hfirst : i / channels < start + n
  · rw [store_outside (.inl hfirst)]
    unfold store
    by_cases hstart : start ≤ i / channels
    · rw [if_pos ⟨hstart, hfirst⟩, if_pos ⟨hstart, by omega⟩]
    · rw [if_neg (by omega), if_neg (by omega)]
  · by_cases hlast : i / channels < start + n + m
    · have hshift : n + (i / channels - (start + n)) = i / channels - start := by omega
      have hin : start + n ≤ i / channels ∧ i / channels < start + n + m := ⟨by omega, hlast⟩
      have hsum : start ≤ i / channels ∧ i / channels < start + (n + m) := ⟨by omega, by omega⟩
      rw [store, if_pos hin, store_outside (.inr hin.1), store, if_pos hsum, hshift]
    · rw [store_outside (by omega), store_outside (by omega), store_outside (by omega)]

theorem store_one (start : ℕ) (value : ℕ → ℕ → Option α) {x : α} (hx : value 0 0 = some x) :
    store 1 start 1 value memory = update memory start x := by
  funext i
  by_cases hi : i = start
  · subst hi
    simp [store, hx, Nat.mod_one]
  · rw [update_of_ne hi, store_outside]
    omega

theorem store_succ (start : ℕ) (value : ℕ → ℕ → Option α) {x : α} (hx : value 0 0 = some x) :
    store 1 start (n + 1) value memory =
      store 1 (start + 1) n (fun k => value (k + 1)) (update memory start x) := by
  rw [Nat.add_comm n 1, ← store_store, store_one start value hx]
  simp only [Nat.add_comm 1]

theorem store_append (value : ℕ → α) :
    store 1 (start + n) m (fun k _ => some (value (n + k)))
        (store 1 start n (fun k _ => some (value k)) memory) =
      store 1 start (n + m) (fun k _ => some (value k)) memory :=
  @store_store α 1 start n m (fun k _ => some (value k)) memory

theorem store_samples (hpos : 0 < channels) (value : ℕ → α) :
    store channels start n (fun k c => some (value (k * channels + c))) memory =
      store 1 (start * channels) (n * channels) (fun k _ => some (value k)) memory := by
  funext i
  have hstart : start ≤ i / channels ↔ start * channels ≤ i := Nat.le_div_iff_mul_le hpos
  have hend : i / channels < start + n ↔ i < start * channels + n * channels := by
    rw [Nat.div_lt_iff_lt_mul hpos, Nat.add_mul]
  simp only [store, hstart, hend, Nat.div_one, Option.getD_some]
  by_cases hin : start * channels ≤ i ∧ i < start * channels + n * channels
  · have hindex : (i / channels - start) * channels + i % channels = i - start * channels := by
      have hdiv := Nat.div_add_mod' i channels
      have hle : start * channels ≤ i / channels * channels :=
        Nat.mul_le_mul_right _ (hstart.mpr hin.1)
      rw [Nat.sub_mul]
      omega
    rw [if_pos hin, if_pos hin, hindex]
  · rw [if_neg hin, if_neg hin]

end FrameMemory

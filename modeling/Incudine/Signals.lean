import Mathlib.Order.Defs.Unbundled
import Mathlib.Tactic.Common

/-!
# Computations that change an object and can signal an error

The rules for `EStateM`: the object keeps the changes made before the error.
-/

namespace Signals

variable {ε σ α β : Type} {x : EStateM ε σ α} {s s' : σ}

theorem bind_ok {a : α} (h : x s = .ok a s') (f : α → EStateM ε σ β) : (x >>= f) s = f a s' := by
  simp only [bind, EStateM.bind, h]

theorem bind_error {e : ε} (h : x s = .error e s') (f : α → EStateM ε σ β) :
    (x >>= f) s = .error e s' := by
  simp only [bind, EStateM.bind, h]

theorem bind_eq_ok {f : α → EStateM ε σ β} {s'' : σ} {b : β} :
    (x >>= f) s = .ok b s'' ↔ ∃ a s', x s = .ok a s' ∧ f a s' = .ok b s'' := by
  constructor
  · intro h
    cases hx : x s with
    | ok a s' => exact ⟨a, s', rfl, by rwa [bind_ok hx] at h⟩
    | error e s' => rw [bind_error hx] at h; cases h
  · rintro ⟨a, s', hx, hf⟩
    rw [bind_ok hx, hf]

theorem bind_of_eq {y : EStateM ε σ α} (h : x s = y s') (f : α → EStateM ε σ β) :
    (x >>= f) s = (y >>= f) s' := by
  simp only [bind, EStateM.bind, h]

@[simp] theorem get_bind (f : σ → EStateM ε σ β) (s : σ) : (get >>= f) s = f s s := rfl

@[simp] theorem modify_bind (g : σ → σ) (f : PUnit → EStateM ε σ β) (s : σ) :
    (modify g >>= f) s = f ⟨⟩ (g s) := rfl

@[simp] theorem pure_apply (a : α) (s : σ) : (pure a : EStateM ε σ α) s = .ok a s := rfl

@[simp] theorem modify_apply (g : σ → σ) (s : σ) :
    (modify g : EStateM ε σ PUnit) s = .ok ⟨⟩ (g s) := rfl

@[simp] theorem throw_apply (e : ε) (s : σ) : (throw e : EStateM ε σ α) s = .error e s := rfl

@[simp] theorem throw_bind (e : ε) (f : α → EStateM ε σ β) (s : σ) :
    ((throw e : EStateM ε σ α) >>= f) s = .error e s := rfl

def Fails (x : EStateM ε σ α) (s : σ) : Prop := ∃ e s', x s = .error e s'

theorem Fails.bind (h : Fails x s) (f : α → EStateM ε σ β) : Fails (x >>= f) s := by
  obtain ⟨e, s', h⟩ := h
  exact ⟨e, s', bind_error h f⟩

theorem Fails.bind_of_ok {a : α} (h : x s = .ok a s') {f : α → EStateM ε σ β}
    (hf : Fails (f a) s') : Fails (x >>= f) s := by
  obtain ⟨e, s'', hf⟩ := hf
  exact ⟨e, s'', by rw [bind_ok h, hf]⟩

/-- Go on when the condition holds, signal the error otherwise. -/
def check (p : Prop) [Decidable p] (e : ε) : EStateM ε σ PUnit :=
  if p then pure ⟨⟩ else throw e

theorem check_pos {p : Prop} [Decidable p] (h : p) (e : ε) (s : σ) :
    (check p e : EStateM ε σ PUnit) s = .ok ⟨⟩ s := by
  simp [check, h]

theorem check_neg {p : Prop} [Decidable p] (h : ¬ p) (e : ε) (s : σ) :
    (check p e : EStateM ε σ PUnit) s = .error e s := by
  simp [check, h]

theorem check_eq_ok {p : Prop} [Decidable p] {e : ε} :
    (check p e : EStateM ε σ PUnit) s = .ok ⟨⟩ s' ↔ p ∧ s' = s := by
  by_cases h : p
  · rw [check_pos h, EStateM.Result.ok.injEq]
    simp [h, eq_comm]
  · rw [check_neg h]
    simp [h]

/-- The object after a computation, also if it signals an error. -/
def after (x : EStateM ε σ α) (s : σ) : σ :=
  match x s with
  | .ok _ s' => s'
  | .error _ s' => s'

theorem after_ok {a : α} (h : x s = .ok a s') : after x s = s' := by
  rw [after, h]

theorem after_error {e : ε} (h : x s = .error e s') : after x s = s' := by
  rw [after, h]

theorem after_bind_ok {a : α} (h : x s = .ok a s') (f : α → EStateM ε σ β) :
    after (x >>= f) s = after (f a) s' := by
  rw [after, after, bind_ok h]

theorem after_bind_error {e : ε} (h : x s = .error e s') (f : α → EStateM ε σ β) :
    after (x >>= f) s = s' := by
  rw [after, bind_error h]

/-- Each run of the computation, also one that signals an error, relates the object before it to
the object after it. -/
def Respects (r : σ → σ → Prop) (x : EStateM ε σ α) : Prop := ∀ s, r s (after x s)

section Respects

variable {r : σ → σ → Prop}

theorem Respects.bind [IsTrans σ r] {f : α → EStateM ε σ β}
    (hx : Respects r x) (hf : ∀ a, Respects r (f a)) : Respects r (x >>= f) := by
  intro s
  have hs := hx s
  cases h : x s with
  | ok a s' =>
    rw [after_ok h] at hs
    rw [after_bind_ok h]
    exact IsTrans.trans _ _ _ hs (hf a s')
  | error e s' =>
    rw [after_error h] at hs
    rw [after_bind_error h]
    exact hs

theorem respects_pure [Std.Refl r] (a : α) : Respects r (pure a : EStateM ε σ α) :=
  Std.Refl.refl

theorem respects_throw [Std.Refl r] (e : ε) : Respects r (throw e : EStateM ε σ α) :=
  Std.Refl.refl

theorem respects_get [Std.Refl r] : Respects r (get : EStateM ε σ σ) :=
  Std.Refl.refl

theorem respects_modify {g : σ → σ} (h : ∀ s, r s (g s)) :
    Respects r (modify g : EStateM ε σ PUnit) :=
  h

theorem respects_check [Std.Refl r] (p : Prop) [Decidable p] (e : ε) :
    Respects r (check p e : EStateM ε σ PUnit) := by
  by_cases h : p
  · rw [check, if_pos h]
    exact respects_pure _
  · rw [check, if_neg h]
    exact respects_throw _

end Respects

end Signals

import Mathlib.Data.Nat.Notation
import Mathlib.Logic.Function.Basic
import Mathlib.Tactic.SplitIfs

/-!
# Destructive lists

A list is a chain of conses in a store `cdr`. Each item has one cons and the cdr of `none` is the
head of the list. An iteration past the head keeps its own position while items are pushed or
deleted.
-/

namespace Incudine.ConsList

open Function

variable {ι : Type*} [DecidableEq ι]

/-- The item is found in the chain that begins with the given cons. -/
inductive InList (cdr : Option ι → Option ι) : Option ι → ι → Prop
  | head (i : ι) : InList cdr (some i) i
  | tail {i j : ι} (h : InList cdr (cdr (some j)) i) : InList cdr (some j) i

omit [DecidableEq ι] in
@[simp] theorem not_inList_none {cdr : Option ι → Option ι} {i : ι} : ¬ InList cdr none i := nofun

omit [DecidableEq ι] in
theorem inList_some {cdr : Option ι → Option ι} {i j : ι} :
    InList cdr (some j) i ↔ i = j ∨ InList cdr (cdr (some j)) i := by
  constructor
  · intro h
    cases h with
    | head => exact Or.inl rfl
    | tail h => exact Or.inr h
  · rintro (rfl | h)
    · exact .head _
    · exact .tail h

def push (item : ι) (cdr : Option ι → Option ι) : Option ι → Option ι :=
  update (update cdr (some item) (cdr none)) none (some item)

@[simp] theorem push_none (item : ι) (cdr : Option ι → Option ι) :
    push item cdr none = some item :=
  update_self ..

theorem push_self (item : ι) (cdr : Option ι → Option ι) : push item cdr (some item) = cdr none := by
  rw [push, update_of_ne (by simp), update_self]

variable {item : ι}

theorem push_of_ne {j : ι} (h : j ≠ item) (cdr : Option ι → Option ι) :
    push item cdr (some j) = cdr (some j) := by
  rw [push, update_of_ne (by simp), update_of_ne (by simpa using h)]

variable {cdr : Option ι → Option ι}

theorem inList_push {i : ι} {start : Option ι} (hnew : ¬ InList cdr start item) :
    InList (push item cdr) start i ↔ InList cdr start i := by
  constructor
  · intro h
    induction h with
    | head => exact .head _
    | @tail _ j h ih =>
      have hne : j ≠ item := fun hj => hnew (hj ▸ .head j)
      rw [push_of_ne hne] at ih
      exact .tail (ih fun hin => hnew (.tail hin))
  · intro h
    induction h with
    | head => exact .head _
    | @tail _ j h ih =>
      have hne : j ≠ item := fun hj => hnew (hj ▸ .head j)
      refine .tail ?_
      rw [push_of_ne hne]
      exact ih fun hin => hnew (.tail hin)

theorem inList_push_none {i : ι} (hnew : ¬ InList cdr (cdr none) item) :
    InList (push item cdr) (push item cdr none) i ↔ i = item ∨ InList cdr (cdr none) i := by
  rw [push_none, inList_some, push_self, inList_push hnew]

theorem inList_update_none {i : ι} {start v : Option ι} :
    InList (update cdr none v) start i ↔ InList cdr start i := by
  constructor
  · intro h
    induction h with
    | head => exact .head _
    | tail h ih => exact .tail (by simpa using ih)
  · intro h
    induction h with
    | head => exact .head _
    | tail h ih => exact .tail (by simpa using ih)

def deleteLoop (item : ι) : ℕ → (Option ι → Option ι) → Option ι → Option ι → Option ι
  | 0, cdr, _ => cdr
  | fuel + 1, cdr, previous =>
    match cdr previous with
    | none => cdr
    | some current =>
      if current = item then
        deleteLoop item fuel (update cdr previous (cdr (some current))) previous
      else deleteLoop item fuel cdr (some current)

theorem deleteLoop_bypass (item : ι) :
    ∀ fuel (cdr : Option ι → Option ι) previous, previous ≠ some item →
      deleteLoop item fuel cdr previous (some item) = cdr (some item) ∧
      ∀ p, deleteLoop item fuel cdr previous p = cdr p ∨
        cdr p = some item ∧ deleteLoop item fuel cdr previous p = cdr (some item) := by
  intro fuel
  induction fuel with
  | zero => exact fun cdr previous _ => ⟨rfl, fun p => Or.inl rfl⟩
  | succ fuel ih =>
    intro cdr previous hne
    cases hcurrent : cdr previous with
    | none =>
      simp [deleteLoop, hcurrent]
    | some current =>
      simp only [deleteLoop, hcurrent]
      split_ifs with heq
      · subst heq
        obtain ⟨hitem, hrest⟩ := ih (update cdr previous (cdr (some current))) previous hne
        rw [update_of_ne hne.symm] at hitem
        refine ⟨hitem, fun p => ?_⟩
        rw [update_of_ne hne.symm] at hrest
        by_cases hp : p = previous
        · subst hp
          refine Or.inr ⟨hcurrent, ?_⟩
          rcases hrest p with hp | ⟨-, hp⟩
          · rw [hp, update_self]
          · exact hp
        · simpa [update_of_ne hp] using hrest p
      · exact ih cdr (some current) (by simpa using heq)

theorem InList.delete {cdr : Option ι → Option ι} {item i : ι} {start : Option ι}
    (h : InList cdr start i) (hne : i ≠ item) (fuel : ℕ) :
    InList (deleteLoop item fuel cdr none) start i := by
  obtain ⟨hitem, hbypass⟩ := deleteLoop_bypass item fuel cdr none nofun
  induction h with
  | head => exact .head _
  | @tail _ j h ih =>
    refine .tail ?_
    rcases hbypass (some j) with heq | ⟨heq, hcdr⟩
    · rw [heq]
      exact ih hne
    · have hin := ih hne
      rw [heq, inList_some] at hin
      rw [hcdr, ← hitem]
      exact hin.resolve_left hne

theorem InList.delete_cdr {i : ι} {p : Option ι} (h : InList cdr (cdr p) i) (hne : i ≠ item)
    (fuel : ℕ) : InList (deleteLoop item fuel cdr none) (deleteLoop item fuel cdr none p) i := by
  obtain ⟨hitem, hbypass⟩ := deleteLoop_bypass item fuel cdr none nofun
  have hin := h.delete hne fuel
  rcases hbypass p with heq | ⟨heq, hcdr⟩
  · rwa [heq]
  · rw [heq, inList_some] at hin
    rw [hcdr, ← hitem]
    exact hin.resolve_left hne

theorem InList.of_delete {i : ι} {fuel : ℕ} {start : Option ι}
    (h : InList (deleteLoop item fuel cdr none) start i) : InList cdr start i := by
  obtain ⟨-, hbypass⟩ := deleteLoop_bypass item fuel cdr none nofun
  induction h with
  | head => exact .head _
  | @tail _ j h ih =>
    refine .tail ?_
    rcases hbypass (some j) with heq | ⟨heq, hcdr⟩
    · rwa [heq] at ih
    · rw [heq]
      rw [hcdr] at ih
      exact .tail ih

theorem InList.of_delete_cdr {i : ι} {fuel : ℕ} {p : Option ι}
    (h : InList (deleteLoop item fuel cdr none) (deleteLoop item fuel cdr none p) i) :
    InList cdr (cdr p) i := by
  obtain ⟨-, hbypass⟩ := deleteLoop_bypass item fuel cdr none nofun
  have hin := h.of_delete
  rcases hbypass p with heq | ⟨heq, hcdr⟩
  · rwa [heq] at hin
  · rw [heq]
    rw [hcdr] at hin
    exact .tail hin

end Incudine.ConsList

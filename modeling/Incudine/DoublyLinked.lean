import Mathlib.Data.List.Nodup

/-!
# Doubly linked lists

The links of the nodes of a list, between the node before the list and the node after it. A search
follows the links in one of the two directions.
-/

namespace Incudine.DoublyLinked

open Function

variable {ν : Type*} {next next' prev prev' : ν → Option ν} {before after : Option ν} {l l' : List ν}
  {n : ν}

def Links (next prev : ν → Option ν) : Option ν → List ν → Option ν → Prop
  | _, [], _ => True
  | before, n :: l, after =>
    prev n = before ∧ next n = l.head?.or after ∧ Links next prev (some n) l after

theorem links_append :
    Links next prev before (l ++ l') after ↔
      Links next prev before l (l'.head?.or after) ∧
        Links next prev (l.getLast?.or before) l' after := by
  induction l generalizing before with
  | nil => simp [Links]
  | cons n l ih =>
    have hhead : (l ++ l').head?.or after = l.head?.or (l'.head?.or after) := by
      rw [List.head?_append, Option.or_assoc]
    have hlast : (n :: l).getLast?.or before = l.getLast?.or (some n) := by
      cases l with
      | nil => rfl
      | cons m l => simp [List.getLast?_cons]
    rw [List.cons_append, Links, Links, ih, hhead, hlast, and_assoc, and_assoc]

theorem Links.congr (h : Links next prev before l after) (hnext : ∀ n ∈ l, next' n = next n)
    (hprev : ∀ n ∈ l, prev' n = prev n) : Links next' prev' before l after := by
  induction l generalizing before with
  | nil => trivial
  | cons n l ih =>
    obtain ⟨hn, hn', hl⟩ := h
    exact ⟨(hprev n List.mem_cons_self).trans hn, (hnext n List.mem_cons_self).trans hn',
      ih hl (fun m hm => hnext m (List.mem_cons_of_mem _ hm))
        (fun m hm => hprev m (List.mem_cons_of_mem _ hm))⟩

theorem Links.reverse (h : Links next prev before l after) :
    Links prev next after l.reverse before := by
  induction l generalizing before with
  | nil => trivial
  | cons n l ih =>
    obtain ⟨hprev, hnext, hl⟩ := h
    rw [List.reverse_cons, links_append, List.getLast?_reverse]
    exact ⟨ih hl, hnext, hprev, trivial⟩

theorem links_singleton (hprev : prev n = before) (hnext : next n = after) :
    Links next prev before [n] after :=
  ⟨hprev, hnext, trivial⟩

section Update

variable [DecidableEq ν]

def setLink (link : ν → Option ν) (n value : Option ν) : ν → Option ν :=
  match n with
  | some n => update link n value
  | none => link

theorem setLink_of_ne (link : ν → Option ν) {m : Option ν} (value : Option ν) (h : m ≠ some n) :
    setLink link m value n = link n := by
  cases m with
  | none => rfl
  | some m =>
    have hne : n ≠ m := fun heq => h (heq ▸ rfl)
    exact update_of_ne hne _ _

theorem Links.setNext (h : Links next prev before l after) (hnodup : l.Nodup) (value : Option ν) :
    Links (setLink next l.getLast? value) prev before l value := by
  obtain rfl | ⟨l, n, rfl⟩ := l.eq_nil_or_concat'
  · trivial
  · have hne : ∀ m ∈ l, m ≠ n := by
      rintro m hm rfl
      exact List.disjoint_of_nodup_append hnodup hm (List.mem_singleton.mpr rfl)
    rw [List.getLast?_append, List.getLast?_singleton, Option.some_or]
    rw [links_append] at h ⊢
    refine ⟨h.1.congr (fun m hm => ?_) (fun _ _ => rfl), links_singleton h.2.1 (update_self _ _ _)⟩
    exact update_of_ne (hne m hm) _ _

theorem Links.setPrev (h : Links next prev before l after) (hnodup : l.Nodup) (value : Option ν) :
    Links next (setLink prev l.head? value) value l after := by
  have hreverse := h.reverse.setNext (List.nodup_reverse.mpr hnodup) value
  rw [List.getLast?_reverse] at hreverse
  have hlinks := hreverse.reverse
  rwa [List.reverse_reverse] at hlinks

theorem Links.remove (h : Links next prev none (l ++ n :: l') none) (hnodup : (l ++ n :: l').Nodup) :
    prev n = l.getLast? ∧ next n = l'.head? ∧
      Links (setLink next l.getLast? l'.head?) (setLink prev l'.head? l.getLast?) none (l ++ l')
        none := by
  rw [links_append] at h
  obtain ⟨hl, hprev, hnext, hl'⟩ := h
  rw [Option.or_none] at hprev hnext
  obtain ⟨hnodup₁, hnodup₂, hdisjoint⟩ := List.nodup_append'.mp hnodup
  have hnodup₂ := (List.nodup_cons.mp hnodup₂).2
  have hne : ∀ m ∈ l, l'.head? ≠ some m := by
    intro m hm hhead
    exact hdisjoint hm (List.mem_cons_of_mem _ (List.mem_of_mem_head? hhead))
  have hne' : ∀ m ∈ l', l.getLast? ≠ some m := by
    intro m hm hlast
    exact hdisjoint (List.mem_of_getLast? hlast) (List.mem_cons_of_mem _ hm)
  refine ⟨hprev, hnext, ?_⟩
  rw [links_append, Option.or_none, Option.or_none]
  constructor
  · exact (hl.setNext hnodup₁ l'.head?).congr (fun _ _ => rfl)
      fun m hm => setLink_of_ne _ _ (hne m hm)
  · exact (hl'.setPrev hnodup₂ l.getLast?).congr (fun m hm => setLink_of_ne _ _ (hne' m hm))
      fun _ _ => rfl

theorem Links.add (h : Links next prev none l none) (hnodup : l.Nodup) (hn : n ∉ l)
    (hprev : prev n = l.getLast?) (hnext : next n = none) :
    Links (setLink next l.getLast? (some n)) prev none (l ++ [n]) none := by
  have hne : l.getLast? ≠ some n := fun hlast => hn (List.mem_of_getLast? hlast)
  rw [links_append]
  refine ⟨h.setNext hnodup (some n), links_singleton (by rw [hprev, Option.or_none]) ?_⟩
  rw [setLink_of_ne _ _ hne, hnext]

end Update

/-- The first node without the mark, with at most `fuel` steps. -/
def find (mark : ν → Bool) (next : ν → Option ν) : ℕ → Option ν → Option (Option ν)
  | _, none => some none
  | 0, some _ => none
  | fuel + 1, some n => if mark n then find mark next fuel (next n) else some (some n)

theorem Links.find (h : Links next prev before l none) (mark : ν → Bool) {fuel : ℕ}
    (hfuel : l.length ≤ fuel) :
    DoublyLinked.find mark next fuel l.head? = some (l.find? fun n => !mark n) := by
  induction l generalizing before fuel with
  | nil => cases fuel <;> rfl
  | cons n l ih =>
    obtain ⟨-, hnext, hl⟩ := h
    cases fuel with
    | zero => cases hfuel
    | succ fuel =>
      rw [List.head?_cons, DoublyLinked.find, List.find?_cons]
      cases hmark : mark n with
      | true =>
        rw [Option.or_none] at hnext
        rw [if_pos rfl, hnext]
        exact ih hl (Nat.le_of_succ_le_succ hfuel)
      | false => rfl

end Incudine.DoublyLinked

import Mathlib.Data.Finset.Card

/-!
# Conses

A store of conses with destructive updates. A list is a chain of conses that ends with `none`, and
two lists can share the conses of their ends.
-/

namespace Incudine

open Function

structure Conses (α : Type*) where
  car : ℕ → α
  cdr : ℕ → Option ℕ
  next : ℕ

namespace Conses

variable {α : Type*}

def cons (h : Conses α) (a : α) (l : Option ℕ) : Conses α where
  car := update h.car h.next a
  cdr := update h.cdr h.next l
  next := h.next + 1

def setCdr (h : Conses α) (c : ℕ) (l : Option ℕ) : Conses α :=
  { h with cdr := update h.cdr c l }

/-- The conses of a proper list. -/
inductive Chain (cdr : ℕ → Option ℕ) : Option ℕ → List ℕ → Prop
  | nil : Chain cdr none []
  | cons {c : ℕ} {cs : List ℕ} (h : Chain cdr (cdr c) cs) : Chain cdr (some c) (c :: cs)

/-- The conses of a list, `none` if there are more than `fuel`. -/
def conses (cdr : ℕ → Option ℕ) : ℕ → Option ℕ → Option (List ℕ)
  | _, none => some []
  | 0, some _ => none
  | fuel + 1, some c => (conses cdr fuel (cdr c)).map (c :: ·)

/-- The conses of a list, `none` if it is circular: a proper list cannot be longer than the store. -/
def list (h : Conses α) (l : Option ℕ) : Option (List ℕ) := conses h.cdr h.next l

variable {cdr cdr' : ℕ → Option ℕ} {l : Option ℕ} {c : ℕ} {cs ds : List ℕ}

theorem chain_nil : Chain cdr l [] ↔ l = none := by
  constructor
  · intro h
    cases h
    rfl
  · rintro rfl
    exact .nil

theorem chain_cons : Chain cdr l (c :: cs) ↔ l = some c ∧ Chain cdr (cdr c) cs := by
  constructor
  · intro h
    cases h with
    | cons h => exact ⟨rfl, h⟩
  · rintro ⟨rfl, h⟩
    exact .cons h

theorem Chain.unique (h : Chain cdr l cs) : ∀ {ds}, Chain cdr l ds → cs = ds := by
  induction h with
  | nil =>
    intro ds hds
    cases hds
    rfl
  | cons _ ih =>
    intro ds hds
    cases hds with
    | cons hds => rw [ih hds]

theorem Chain.drop {xs ys : List ℕ} (h : Chain cdr l (xs ++ c :: ys)) : Chain cdr (cdr c) ys := by
  induction xs generalizing l with
  | nil => exact (chain_cons.mp h).2
  | cons x xs ih => exact ih (chain_cons.mp h).2

theorem Chain.nodup (h : Chain cdr l cs) : cs.Nodup := by
  induction h with
  | nil => exact List.nodup_nil
  | @cons c cs h ih =>
    refine List.nodup_cons.mpr ⟨fun hmem => ?_, ih⟩
    obtain ⟨xs, ys, heq⟩ := List.append_of_mem hmem
    have hlater : Chain cdr (cdr c) ys := Chain.drop (heq ▸ h)
    have hlength := congrArg List.length (h.unique hlater)
    have hcs := congrArg List.length heq
    simp only [List.length_append, List.length_cons] at hcs
    omega

theorem Chain.congr (h : Chain cdr l cs) (heq : ∀ c ∈ cs, cdr' c = cdr c) : Chain cdr' l cs := by
  induction h with
  | nil => exact .nil
  | cons _ ih =>
    have htail := ih fun c hc => heq c (List.mem_cons_of_mem _ hc)
    rw [← heq _ List.mem_cons_self] at htail
    exact .cons htail

theorem Chain.update (h : Chain cdr l cs) (hc : c ∉ cs) (v : Option ℕ) :
    Chain (update cdr c v) l cs :=
  h.congr fun _ hmem => update_of_ne (ne_of_mem_of_not_mem hmem hc) v cdr

theorem Chain.not_mem_of_last {m : Option ℕ} {e : ℕ} (h : Chain cdr l (cs ++ [c]))
    (h' : Chain cdr m (ds ++ [e])) (hne : c ≠ e) : c ∉ ds ++ [e] := by
  intro hmem
  have hnone : cdr c = none := chain_nil.mp h.drop
  rcases List.mem_append.mp hmem with hmem | hmem
  · obtain ⟨xs, ys, heq⟩ := List.append_of_mem hmem
    rw [heq, List.append_assoc, List.cons_append] at h'
    have htail := h'.drop
    rw [hnone] at htail
    cases ys <;> cases htail
  · exact hne (List.mem_singleton.mp hmem)

theorem Chain.splice {m : Option ℕ} (h : Chain cdr l (cs ++ [c])) (hm : Chain cdr m ds)
    (hdisjoint : c ∉ ds) : Chain (Function.update cdr c m) l (cs ++ c :: ds) := by
  induction cs generalizing l with
  | nil =>
    obtain ⟨rfl, -⟩ := chain_cons.mp h
    refine .cons ?_
    rw [update_self]
    exact hm.update hdisjoint m
  | cons x xs ih =>
    obtain ⟨rfl, htail⟩ := chain_cons.mp h
    have hne : x ≠ c := by
      intro heq
      have hmem : c ∈ xs ++ [c] := List.mem_append_right xs List.mem_cons_self
      exact (List.nodup_cons.mp h.nodup).1 (heq ▸ hmem)
    refine .cons ?_
    rw [update_of_ne hne]
    exact ih htail

theorem lt_of_update {n n' : ℕ} (h : ∀ c c', cdr c = some c' → c' < n) (hle : n ≤ n')
    (hl : ∀ c' ∈ l, c' < n') : ∀ e e', Function.update cdr c l e = some e' → e' < n' := by
  intro e e' he
  by_cases heq : e = c
  · subst heq
    rw [update_self] at he
    exact hl e' he
  · rw [update_of_ne heq] at he
    exact Nat.lt_of_lt_of_le (h e e' he) hle

theorem Chain.length_le {n : ℕ} (h : Chain cdr l cs) (hlt : ∀ c ∈ cs, c < n) : cs.length ≤ n := by
  have hsub : cs.toFinset ⊆ Finset.range n := fun c hc =>
    Finset.mem_range.mpr (hlt c (List.mem_toFinset.mp hc))
  have hcard := Finset.card_le_card hsub
  rwa [List.toFinset_card_of_nodup h.nodup, Finset.card_range] at hcard

theorem Chain.conses (h : Chain cdr l cs) :
    ∀ {fuel}, cs.length ≤ fuel → Conses.conses cdr fuel l = some cs := by
  induction h with
  | nil =>
    intro fuel _
    cases fuel <;> rfl
  | @cons c cs _ ih =>
    intro fuel hle
    cases fuel with
    | zero => cases hle
    | succ fuel =>
      rw [Conses.conses, ih (Nat.le_of_succ_le_succ hle)]
      rfl

theorem Chain.list {h : Conses α} (hchain : Chain h.cdr l cs) (hlt : ∀ c ∈ cs, c < h.next) :
    h.list l = some cs :=
  hchain.conses (hchain.length_le hlt)

theorem Chain.alloc {h : Conses α} (hchain : Chain h.cdr l cs) (hlt : ∀ c ∈ cs, c < h.next) (a : α)
    (m : Option ℕ) : Chain (h.cons a m).cdr l cs :=
  hchain.update (fun hmem => Nat.lt_irrefl _ (hlt _ hmem)) m

end Conses

end Incudine

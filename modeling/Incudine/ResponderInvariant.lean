import Incudine.Responders
import Mathlib.Algebra.BigOperators.Group.Finset.Piecewise
import Mathlib.Tactic.Abel

/-!
# Invariant of the responders

The functions of the receiver are the ones of the responders that are listed or going to be listed,
except the ones going to be removed. This holds as long as a list that is stored contains the same
responders as the stored one, and a removed function has no other responder.
-/

namespace Incudine.Responders

open Function PairedLists Conses

variable {ι F : Type*}

/-- A responder that is made is not known to the other threads. -/
def State.Knows (s : State ι F) (resp : ℕ) (making : Bool) : Prop :=
  if making then resp < s.next ∧ resp ∉ s.made else resp ∈ s.made

def NewList (h : Conses ℕ) (resp newList : ℕ) : Prop :=
  newList < h.next ∧ ∃ tail, h.items (some newList) = resp :: tail ∧ tail.Nodup

def State.RestValid (s : State ι F) : Option (Option ℕ) → Prop
  | none => True
  | some rest => s.conses.Valid rest ∧ ∀ x ∈ s.conses.items rest, x ∈ s.made

/-- The condition of a step: a receiver is stored once; the compare-and-swap of `make-responder`
succeeds; a responder is not added twice; no other responder has a function that is removed; and the
list that is stored differs from the stored one only for the removed ones and the new one. -/
structure State.Saved (s : State ι F) (resp : ℕ) (respList : Option ℕ)
    (rest : Option (Option ℕ)) : Prop where
  made : resp ∈ s.made
  valid : s.conses.Valid respList
  nodup : (s.conses.items respList).Nodup
  rest : s.RestValid rest

def State.FrameValid (s : State ι F) : Frame F → Prop
  | .readList resp making => s.Knows resp making
  | .readFunctions resp newList making => s.Knows resp making ∧ NewList s.conses resp newList
  | .swapAdded resp newList _ making => s.Knows resp making ∧ NewList s.conses resp newList
  | .storeAdded resp newList making => s.Knows resp making ∧ NewList s.conses resp newList
  | .readFound resp => resp ∈ s.made
  | .find resp _ => resp ∈ s.made
  | .readRemoved resp rest => resp ∈ s.made ∧ s.RestValid rest
  | .readOldFunctions resp respList rest => s.Saved resp respList rest
  | .swapRemoved resp respList _ rest => s.Saved resp respList rest
  | .delete resp respList rest => s.Saved resp respList rest
  | .storeRemoved resp newList rest => s.Saved resp newList rest ∧ resp ∉ s.conses.items newList
  | .dolist rest => s.RestValid (some rest)
  | _ => True

section Frames

variable {s s' : State ι F} {frame : Frame F} {resp newList : ℕ} {making : Bool}
  {respList : Option ℕ} {rest : Option (Option ℕ)}

theorem NewList.shrinks {h h' : Conses ℕ} (hn : NewList h resp newList) (hproper : h.Proper)
    (hs : Shrinks h h') : NewList h' resp newList := by
  obtain ⟨hlt, tail, hitems, hnodup⟩ := hn
  have hlt' := hlt.trans_le hs.next_le
  refine ⟨hlt', h'.items (h'.cdr newList), ?_, ?_⟩
  · rw [hproper.items_some hlt] at hitems
    rw [hs.proper.items_some hlt', hs.car_eq _ hlt, (List.cons.inj hitems).1]
  · have hsub := hs.sublist (valid_some.mpr hlt)
    rw [hitems, hs.proper.items_some hlt', hs.car_eq _ hlt] at hsub
    rw [hproper.items_some hlt] at hitems
    rw [(List.cons.inj hitems).1] at hsub
    exact (List.cons_sublist_cons.mp hsub).nodup hnodup

theorem State.RestValid.mono (h : s.RestValid rest) (hs : Shrinks s.conses s'.conses)
    (hmade : ∀ x ∈ s.made, x ∈ s'.made) : s'.RestValid rest := by
  cases rest with
  | none => trivial
  | some rest =>
    refine ⟨hs.valid h.1, ?_⟩
    intro x hx
    exact hmade x (h.2 x ((hs.sublist h.1).subset hx))

theorem State.Saved.mono (h : s.Saved resp respList rest) (hs : Shrinks s.conses s'.conses)
    (hmade : ∀ x ∈ s.made, x ∈ s'.made) : s'.Saved resp respList rest where
  made := hmade resp h.made
  valid := hs.valid h.valid
  nodup := (hs.sublist h.valid).nodup h.nodup
  rest := h.rest.mono hs hmade

theorem State.Knows.mono (h : s.Knows resp making) (hmade : ∀ x ∈ s.made, x ∈ s'.made)
    (hnext : s.next ≤ s'.next) (hfresh : making = true → resp ∉ s.made → resp ∉ s'.made) :
    s'.Knows resp making := by
  cases making with
  | false => exact hmade resp h
  | true => exact ⟨h.1.trans_le hnext, hfresh rfl h.2⟩

theorem State.Knows.lt (h : s.Knows resp making) (hmade : ∀ x ∈ s.made, x < s.next) :
    resp < s.next := by
  cases making with
  | false => exact hmade resp h
  | true => exact h.1

theorem State.FrameValid.fresh (h : s.FrameValid frame) :
    frame.making = some resp → resp < s.next ∧ resp ∉ s.made := by
  unfold Frame.making
  split
  · rintro ⟨⟩
    exact h
  · rintro ⟨⟩
    exact h.1
  · rintro ⟨⟩
    exact h.1
  · rintro ⟨⟩
    exact h.1
  · rintro ⟨⟩

theorem State.FrameValid.mono (h : s.FrameValid frame) (hproper : s.conses.Proper)
    (hs : Shrinks s.conses s'.conses) (hmade : ∀ x ∈ s.made, x ∈ s'.made)
    (hnext : s.next ≤ s'.next)
    (hfresh : ∀ x, frame.making = some x → x ∉ s.made → x ∉ s'.made) : s'.FrameValid frame := by
  cases frame with
  | readList resp making =>
    exact Knows.mono h hmade hnext fun hmaking => hfresh resp (by rw [hmaking]; rfl)
  | readFunctions resp newList making =>
    exact ⟨h.1.mono hmade hnext fun hmaking => hfresh resp (by rw [hmaking]; rfl),
      h.2.shrinks hproper hs⟩
  | swapAdded resp newList oldFunctions making =>
    exact ⟨h.1.mono hmade hnext fun hmaking => hfresh resp (by rw [hmaking]; rfl),
      h.2.shrinks hproper hs⟩
  | storeAdded resp newList making =>
    exact ⟨h.1.mono hmade hnext fun hmaking => hfresh resp (by rw [hmaking]; rfl),
      h.2.shrinks hproper hs⟩
  | readFound resp => exact hmade resp h
  | find resp respList => exact hmade resp h
  | readRemoved resp rest => exact ⟨hmade resp h.1, h.2.mono hs hmade⟩
  | readOldFunctions resp respList rest => exact Saved.mono h hs hmade
  | swapRemoved resp respList oldFunctions rest => exact Saved.mono h hs hmade
  | delete resp respList rest => exact Saved.mono h hs hmade
  | storeRemoved resp newList rest =>
    exact ⟨h.1.mono hs hmade, fun hx => h.2 ((hs.sublist h.1.valid).subset hx)⟩
  | dolist rest =>
    have hrest : s.RestValid (some rest) := h
    exact hrest.mono hs hmade
  | _ => trivial

theorem State.RestValid.frameValid (h : s.RestValid rest) : s.FrameValid (.ofRest rest) := by
  cases rest with
  | none => trivial
  | some rest => exact h

end Frames

variable [DecidableEq ι] [Fintype ι]

def enteringOf (threads : ι → Frame F) : Multiset ℕ := ∑ t, (threads t).adding

def leavingOf (threads : ι → Frame F) : Finset ℕ := Finset.univ.biUnion fun t => (threads t).removing

/-- The responders whose functions are added and that are going to be listed. -/
def State.entering (s : State ι F) : Multiset ℕ := enteringOf s.threads

/-- The responders whose functions are removed and that are going to be removed from the list. -/
def State.leaving (s : State ι F) : Finset ℕ := leavingOf s.threads

section Threads

variable {threads : ι → Frame F} {t : ι} {frame : Frame F} {x : ℕ}

omit [DecidableEq ι] in
theorem mem_enteringOf : x ∈ enteringOf threads ↔ ∃ t, x ∈ (threads t).adding := by
  simp [enteringOf, Multiset.mem_sum]

omit [DecidableEq ι] in
theorem mem_leavingOf : x ∈ leavingOf threads ↔ ∃ t, x ∈ (threads t).removing := by
  simp [leavingOf]

theorem enteringOf_update (threads : ι → Frame F) (t : ι) (frame : Frame F) :
    enteringOf (update threads t frame) + (threads t).adding =
      enteringOf threads + frame.adding := by
  have hcomp : (fun i => (update threads t frame i).adding) =
      update (fun i => (threads i).adding) t frame.adding :=
    comp_update Frame.adding threads t frame
  have hsplit := Finset.add_sum_erase Finset.univ (fun i => (threads i).adding)
    (Finset.mem_univ t)
  rw [enteringOf, enteringOf, hcomp, Finset.sum_update_of_mem (Finset.mem_univ t), ← hsplit,
    Finset.sdiff_singleton_eq_erase]
  abel

theorem mem_leavingOf_update : x ∈ leavingOf (update threads t frame) ↔
    x ∈ frame.removing ∨ ∃ t', t' ≠ t ∧ x ∈ (threads t').removing := by
  rw [mem_leavingOf]
  constructor
  · rintro ⟨t', hx⟩
    by_cases ht : t' = t
    · subst ht
      rw [update_self] at hx
      exact .inl hx
    · rw [update_of_ne ht] at hx
      exact .inr ⟨t', ht, hx⟩
  · rintro (hx | ⟨t', ht, hx⟩)
    · exact ⟨t, by rwa [update_self]⟩
    · exact ⟨t', by rwa [update_of_ne ht]⟩

theorem leavingOf_update (h : frame.removing = (threads t).removing) :
    leavingOf (update threads t frame) = leavingOf threads := by
  ext x
  rw [mem_leavingOf_update, mem_leavingOf, h]
  constructor
  · rintro (hx | ⟨t', -, hx⟩)
    · exact ⟨t, hx⟩
    · exact ⟨t', hx⟩
  · rintro ⟨t', hx⟩
    by_cases ht : t' = t
    · exact .inl (ht ▸ hx)
    · exact .inr ⟨t', ht, hx⟩

end Threads

/-- The condition of a step: a receiver is stored once; the compare-and-swap of `make-responder`
succeeds; a responder is not added twice; no other responder has a function that is removed; and the
list that is stored contains the same responders as the stored one, apart from the ones that are
removed and from the new one. -/
def State.FrameMeets [DecidableEq F] (s : State ι F) : Frame F → Prop
  | .storeReceiver _ => s.receiver = none
  | .swapAdded resp _ oldFunctions true => s.functionsOf resp = oldFunctions
  | .swapAdded resp _ oldFunctions false => s.functionsOf resp = oldFunctions →
      resp ∉ s.listed ∧ resp ∉ s.leaving ∧ resp ∉ s.entering
  | .storeAdded resp newList _ =>
    live (s.conses.items (some newList)) s.leaving = resp ::ₘ live s.listed s.leaving
  | .swapRemoved resp _ oldFunctions _ => s.functionsOf resp = oldFunctions →
      (∀ x ∈ s.entering, s.function x ≠ s.function resp) ∧
        ∀ x ∈ s.listed, x ∉ s.leaving → x ≠ resp → s.function x ≠ s.function resp
  | .storeRemoved _ newList _ => live (s.conses.items newList) s.leaving = live s.listed s.leaving
  | _ => True

def Meets [DecidableEq F] (s : State ι F) : Action ι F → Prop
  | .call _ _ => True
  | .step t _ => s.FrameMeets (s.threads t)

section Decidable

variable [DecidableEq F] (s : State ι F)

instance : (frame : Frame F) → Decidable (s.FrameMeets frame)
  | .storeReceiver _ | .swapAdded _ _ _ true | .storeAdded .. | .storeRemoved .. => decEq _ _
  | .swapAdded resp _ oldFunctions false =>
    inferInstanceAs (Decidable (s.functionsOf resp = oldFunctions →
      resp ∉ s.listed ∧ resp ∉ s.leaving ∧ resp ∉ s.entering))
  | .swapRemoved resp _ oldFunctions _ =>
    inferInstanceAs (Decidable (s.functionsOf resp = oldFunctions →
      (∀ x ∈ s.entering, s.function x ≠ s.function resp) ∧
        ∀ x ∈ s.listed, x ∉ s.leaving → x ≠ resp → s.function x ≠ s.function resp))
  | .idle | .readReceiver _ | .readList .. | .readFunctions .. | .readFound _ | .find ..
  | .readRemoved .. | .readOldFunctions .. | .delete .. | .readAll | .dolist _ => isTrue trivial

instance : (a : Action ι F) → Decidable (Meets s a)
  | .call _ _ => isTrue trivial
  | .step t _ => inferInstanceAs (Decidable (s.FrameMeets (s.threads t)))

end Decidable

structure Invariant (s : State ι F) : Prop where
  proper : s.conses.Proper
  valid : s.conses.Valid s.responders
  frames : ∀ t, s.FrameValid (s.threads t)
  making : ∀ t t' x, (s.threads t).making = some x → (s.threads t').making = some x → t = t'
  made_lt : ∀ x ∈ s.made, x < s.next
  receiver : ∀ x < s.next, s.receiver = some (s.objects x).receiver
  listed_made : ∀ x ∈ s.listed, x ∈ s.made
  consistent : Consistent s.function (s.receiverFunctions : Multiset F) s.listed s.leaving
    s.entering s.kept

/-- What a step of a thread changes for the other threads. -/
structure Moves (s s' : State ι F) (t : ι) (frame : Frame F) : Prop where
  threads : s'.threads = update s.threads t frame
  shrinks : Shrinks s.conses s'.conses
  made : ∀ x ∈ s.made, x ∈ s'.made
  made_new : ∀ x ∈ s'.made, x ∈ s.made ∨ (s.threads t).making = some x
  next : s.next ≤ s'.next
  making : ∀ x, frame.making = some x → (s.threads t).making = some x ∨ s.next ≤ x

section Moves

variable {s s' : State ι F} {t : ι} {frame old : Frame F}

theorem Moves.entering (hm : Moves s s' t frame) (hold : s.threads t = old) :
    s'.entering + old.adding = s.entering + frame.adding := by
  have hsum := enteringOf_update s.threads t frame
  rw [← hm.threads, hold] at hsum
  exact hsum

theorem Moves.entering_eq (hm : Moves s s' t frame) (hold : s.threads t = old)
    (hadding : frame.adding = old.adding) : s'.entering = s.entering := by
  have hsum := hm.entering hold
  rw [hadding] at hsum
  exact add_right_cancel hsum

theorem Moves.leaving_eq (hm : Moves s s' t frame) (hold : s.threads t = old)
    (hremoving : frame.removing = old.removing) : s'.leaving = s.leaving := by
  rw [State.leaving, State.leaving, hm.threads]
  apply leavingOf_update
  rw [hold]
  exact hremoving

omit [DecidableEq ι] in
theorem settled_of_idle (hidle : ∀ t, s.threads t = .idle) : s.entering = 0 ∧ s.leaving = ∅ := by
  constructor
  · apply Multiset.eq_zero_of_forall_notMem
    intro x hx
    obtain ⟨t, hx⟩ := mem_enteringOf.mp hx
    rw [hidle t] at hx
    exact Multiset.notMem_zero x hx
  · apply Finset.eq_empty_of_forall_notMem
    intro x hx
    obtain ⟨t, hx⟩ := mem_leavingOf.mp hx
    rw [hidle t] at hx
    exact Finset.notMem_empty x hx

end Moves

section Invariant

variable {s s' : State ι F} {t : ι} {frame : Frame F} {x : ℕ}

omit [DecidableEq ι] in
theorem Invariant.entering_lt (h : Invariant s) (hx : x ∈ s.entering) : x < s.next := by
  obtain ⟨t, hx⟩ := mem_enteringOf.mp hx
  have hframe := h.frames t
  revert hx
  unfold Frame.adding
  split
  · intro hx
    rename_i resp newList making heq
    rw [heq] at hframe
    rw [Multiset.mem_singleton.mp hx]
    exact hframe.1.lt h.made_lt
  · intro hx
    exact absurd hx (Multiset.notMem_zero x)

theorem Invariant.of_moves (h : Invariant s) (hm : Moves s s' t frame)
    (hframe : s'.FrameValid frame) (hvalid : s'.conses.Valid s'.responders)
    (hreceiver : ∀ x < s'.next, s'.receiver = some (s'.objects x).receiver)
    (hlisted : ∀ x ∈ s'.listed, x ∈ s'.made)
    (hconsistent : Consistent s'.function (s'.receiverFunctions : Multiset F) s'.listed s'.leaving
      s'.entering s'.kept) : Invariant s' := by
  have hnew : ∀ t', t' ≠ t → ∀ x, (s.threads t').making = some x →
      (s.threads t).making ≠ some x := fun t' ht x hx hx' => ht (h.making t' t x hx hx')
  constructor
  · exact hm.shrinks.proper
  · exact hvalid
  · intro t'
    rw [hm.threads]
    by_cases ht : t' = t
    · rw [ht, update_self]
      exact hframe
    · rw [update_of_ne ht]
      apply (h.frames t').mono h.proper hm.shrinks hm.made hm.next
      intro x hx hmade hmade'
      rcases hm.made_new x hmade' with hin | hin
      · exact hmade hin
      · exact hnew t' ht x hx hin
  · have hother : ∀ t', t' ≠ t → ∀ x, (s.threads t').making = some x → frame.making ≠ some x := by
      intro t' ht x hx hx'
      rcases hm.making x hx' with hin | hin
      · exact hnew t' ht x hx hin
      · exact absurd ((h.frames t').fresh hx).1 (Nat.not_lt.mpr hin)
    intro t₁ t₂ x h₁ h₂
    rw [hm.threads] at h₁ h₂
    by_cases ht₁ : t₁ = t
    · by_cases ht₂ : t₂ = t
      · rw [ht₁, ht₂]
      · rw [ht₁, update_self] at h₁
        rw [update_of_ne ht₂] at h₂
        exact absurd h₁ (hother t₂ ht₂ x h₂)
    · rw [update_of_ne ht₁] at h₁
      by_cases ht₂ : t₂ = t
      · rw [ht₂, update_self] at h₂
        exact absurd h₂ (hother t₁ ht₁ x h₁)
      · rw [update_of_ne ht₂] at h₂
        exact h.making t₁ t₂ x h₁ h₂
  · intro x hx
    rcases hm.made_new x hx with hin | hin
    · exact (h.made_lt x hin).trans_le hm.next
    · exact ((h.frames t).fresh hin).1.trans_le hm.next
  · exact hreceiver
  · exact hlisted
  · exact hconsistent

theorem Invariant.quiet (h : Invariant s) (hm : Moves s s' t frame)
    (hframe : s'.FrameValid frame) (hresponders : s'.responders = s.responders)
    (hlisted : s'.listed = s.listed)
    (hreceiver : ∀ x < s'.next, s'.receiver = some (s'.objects x).receiver)
    (hfunctions : s'.receiverFunctions = s.receiverFunctions)
    (hfunction : ∀ x < s.next, s'.function x = s.function x) (hkept : s'.kept = s.kept)
    {old : Frame F} (hold : s.threads t = old) (hadding : frame.adding = old.adding)
    (hremoving : frame.removing = old.removing) : Invariant s' := by
  apply h.of_moves hm hframe
  · rw [hresponders]
    exact hm.shrinks.valid h.valid
  · exact hreceiver
  · intro x hx
    rw [hlisted] at hx
    exact hm.made x (h.listed_made x hx)
  · rw [hfunctions, hlisted, hm.entering_eq hold hadding, hm.leaving_eq hold hremoving, hkept]
    apply h.consistent.label_congr
    · intro x hx
      exact hfunction x (h.made_lt x (h.listed_made x hx))
    · intro x hx
      exact hfunction x (h.entering_lt hx)

theorem making_of_none {making : Option ℕ} (h : making = none) (old : Option ℕ) :
    ∀ x, making = some x → old = some x := by
  rintro x rfl
  cases h

theorem Invariant.goto (h : Invariant s) {old : Frame F} (hold : s.threads t = old)
    (hframe : s.FrameValid frame) (hadding : frame.adding = old.adding)
    (hremoving : frame.removing = old.removing)
    (hmaking : ∀ x, frame.making = some x → old.making = some x) :
    Invariant (s.goto t frame) := by
  rw [← hold] at hmaking
  have hm : Moves s (s.goto t frame) t frame :=
    ⟨rfl, Shrinks.refl h.proper, fun _ hx => hx, fun _ hx => .inl hx, le_rfl,
      fun x hx => .inl (hmaking x hx)⟩
  have hframe' : (s.goto t frame).FrameValid frame :=
    hframe.mono h.proper hm.shrinks hm.made hm.next fun _ _ hx => hx
  exact h.quiet hm hframe' rfl rfl h.receiver rfl (fun _ _ => rfl) rfl hold hadding hremoving

end Invariant

end Incudine.Responders

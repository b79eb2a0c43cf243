import Mathlib.Data.Finset.Basic

/-!
# Paired lists

A list of labels and a list of the items with these labels are changed one after the other. An item
enters or leaves the labels first and the items later. The lists are consistent if the labels are
the ones of the items that do not leave and of the ones that enter.
-/

namespace PairedLists

variable {α β : Type*} [DecidableEq α]

def live (items : List α) (leaving : Finset α) : Multiset α :=
  ((items.filter (· ∉ leaving) : List α) : Multiset α)

/-- The lists are consistent, and the kept items are in the list. -/
structure Consistent (label : α → β) (labels : Multiset β) (items : List α) (leaving : Finset α)
    (entering : Multiset α) (kept : List α) : Prop where
  labels_eq : labels = (live items leaving + entering).map label
  nodup : items.Nodup
  entering_nodup : entering.Nodup
  entering_new : ∀ a ∈ entering, a ∉ items ∧ a ∉ leaving
  kept_live : ∀ a ∈ kept, a ∈ items ∧ a ∉ leaving

variable {label : α → β} {labels : Multiset β} {items items' : List α} {leaving leaving' : Finset α}
  {entering : Multiset α} {kept kept' : List α} {a : α}

theorem mem_live {x : α} : x ∈ live items leaving ↔ x ∈ items ∧ x ∉ leaving := by
  simp [live]

theorem live_congr (h : ∀ a ∈ items, a ∈ leaving ↔ a ∈ leaving') :
    live items leaving = live items leaving' := by
  rw [live, live]
  congr 1
  apply List.filter_congr
  intro x hx
  simp [h x hx]

theorem live_filter_ne (ha : a ∈ leaving) : live (items.filter (· ≠ a)) leaving = live items leaving := by
  rw [live, live, List.filter_filter]
  congr 1
  apply List.filter_congr
  intro x _
  have hne : x ∉ leaving → x ≠ a := fun hx hxa => hx (hxa ▸ ha)
  by_cases hx : x ∈ leaving
  · simp [hx]
  · simp [hx, hne hx]

theorem Consistent.settled (h : Consistent label labels items ∅ 0 kept) :
    labels = (items.map label : Multiset β) ∧ items.Nodup ∧ ∀ a ∈ kept, a ∈ items := by
  refine ⟨?_, h.nodup, fun a ha => (h.kept_live a ha).1⟩
  rw [h.labels_eq, live, Multiset.add_zero, List.filter_eq_self.mpr (by simp), Multiset.map_coe]

theorem Consistent.label_congr {label' : α → β}
    (h : Consistent label labels items leaving entering kept)
    (hitems : ∀ a ∈ items, label' a = label a) (hentering : ∀ a ∈ entering, label' a = label a) :
    Consistent label' labels items leaving entering kept := by
  refine ⟨?_, h.nodup, h.entering_nodup, h.entering_new, h.kept_live⟩
  rw [h.labels_eq]
  apply Multiset.map_congr rfl
  intro a ha
  rcases Multiset.mem_add.mp ha with ha | ha
  · exact (hitems a (mem_live.mp ha).1).symm
  · exact (hentering a ha).symm

theorem Consistent.enter (h : Consistent label labels items leaving entering kept)
    (hitems : a ∉ items) (hleaving : a ∉ leaving) (hentering : a ∉ entering) :
    Consistent label (label a ::ₘ labels) items leaving (a ::ₘ entering) kept := by
  constructor
  · rw [h.labels_eq, Multiset.add_cons, Multiset.map_cons]
  · exact h.nodup
  · exact Multiset.nodup_cons.mpr ⟨hentering, h.entering_nodup⟩
  · intro x hx
    rcases Multiset.mem_cons.mp hx with rfl | hx
    · exact ⟨hitems, hleaving⟩
    · exact h.entering_new x hx
  · exact h.kept_live

theorem Consistent.storeEntering (h : Consistent label labels items leaving (a ::ₘ entering) kept)
    (hlive : live items' leaving = a ::ₘ live items leaving) (hnodup : items'.Nodup) :
    Consistent label labels items' leaving entering (a :: kept) := by
  obtain ⟨hmem, hentering⟩ := Multiset.nodup_cons.mp h.entering_nodup
  constructor
  · rw [h.labels_eq, hlive, Multiset.add_cons, Multiset.cons_add]
  · exact hnodup
  · exact hentering
  · intro x hx
    obtain ⟨hitems, hleaving⟩ := h.entering_new x (Multiset.mem_cons_of_mem hx)
    refine ⟨fun hx' => ?_, hleaving⟩
    have hin := mem_live.mpr ⟨hx', hleaving⟩
    rw [hlive] at hin
    rcases Multiset.mem_cons.mp hin with rfl | hin
    · exact hmem hx
    · exact hitems (mem_live.mp hin).1
  · intro x hx
    have hin : x ∈ live items' leaving := by
      rw [hlive]
      rcases List.mem_cons.mp hx with rfl | hx
      · exact Multiset.mem_cons_self x _
      · exact Multiset.mem_cons_of_mem (mem_live.mpr (h.kept_live x hx))
    exact mem_live.mp hin

section

variable (h : Consistent label labels items leaving entering kept)
include h

theorem Consistent.leave [DecidableEq β] (hentering : ∀ x ∈ entering, label x ≠ label a)
    (hitems : ∀ x ∈ items, x ∉ leaving → x ≠ a → label x ≠ label a) :
    Consistent label (labels.filter (· ≠ label a)) items (insert a leaving) entering
      (kept.filter (· ≠ a)) := by
  constructor
  · have hlive : (live items leaving).filter (fun x => label x ≠ label a) =
        live items (insert a leaving) := by
      rw [live, live, Multiset.filter_coe, List.filter_filter]
      congr 1
      apply List.filter_congr
      intro x hx
      by_cases hleaving : x ∈ leaving
      · simp [hleaving]
      · by_cases hxa : x = a
        · simp [hxa]
        · simp [hleaving, hxa, hitems x hx hleaving hxa]
    have hentering' : entering.filter (fun x => label x ≠ label a) = entering :=
      Multiset.filter_eq_self.mpr hentering
    rw [h.labels_eq, Multiset.filter_map]
    congr 1
    rw [← hlive]
    conv_rhs => rw [← hentering']
    exact Multiset.filter_add _ _ _
  · exact h.nodup
  · exact h.entering_nodup
  · intro x hx
    obtain ⟨hnew, hleaving⟩ := h.entering_new x hx
    refine ⟨hnew, ?_⟩
    rw [Finset.mem_insert, not_or]
    exact ⟨fun hxa => hentering x hx (congrArg label hxa), hleaving⟩
  · intro x hx
    obtain ⟨hkept, hxa⟩ := List.mem_filter.mp hx
    obtain ⟨hin, hleaving⟩ := h.kept_live x hkept
    refine ⟨hin, ?_⟩
    rw [Finset.mem_insert, not_or]
    exact ⟨of_decide_eq_true hxa, hleaving⟩

theorem Consistent.shrink (ha : a ∈ leaving) (hsublist : items'.Sublist items)
    (hfilter : items'.filter (· ≠ a) = items.filter (· ≠ a)) :
    Consistent label labels items' leaving entering kept := by
  have hlive : live items' leaving = live items leaving := by
    rw [← live_filter_ne ha, hfilter, live_filter_ne ha]
  constructor
  · rw [hlive]
    exact h.labels_eq
  · exact hsublist.nodup h.nodup
  · exact h.entering_nodup
  · intro x hx
    obtain ⟨hitems, hleaving⟩ := h.entering_new x hx
    exact ⟨fun hx' => hitems (hsublist.subset hx'), hleaving⟩
  · intro x hx
    have hin := mem_live.mpr (h.kept_live x hx)
    rw [← hlive] at hin
    exact mem_live.mp hin

theorem Consistent.storeLeaving (hleaving : ∀ x, x ∈ leaving ↔ x ∈ leaving' ∨ x = a)
    (hlive : live items' leaving = live items leaving) (hnodup : items'.Nodup) (ha : a ∉ items') :
    Consistent label labels items' leaving' entering kept := by
  have hsame : live items' leaving' = live items leaving := by
    rw [← hlive]
    apply live_congr
    intro x hx
    have hne : ¬ x = a := fun hxa => ha (hxa ▸ hx)
    rw [hleaving x, or_iff_left hne]
  have hsubset : ∀ x, x ∉ leaving → x ∉ leaving' := fun x hx hx' => hx ((hleaving x).mpr (.inl hx'))
  constructor
  · rw [hsame]
    exact h.labels_eq
  · exact hnodup
  · exact h.entering_nodup
  · intro x hx
    obtain ⟨hitems, hx'⟩ := h.entering_new x hx
    refine ⟨fun hin => hitems ?_, hsubset x hx'⟩
    have hin' := mem_live.mpr ⟨hin, hsubset x hx'⟩
    rw [hsame] at hin'
    exact (mem_live.mp hin').1
  · intro x hx
    have hin := mem_live.mpr (h.kept_live x hx)
    rw [← hsame] at hin
    exact mem_live.mp hin

end

end PairedLists

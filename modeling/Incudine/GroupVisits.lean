import Incudine.ThreadedForest
import Mathlib.Data.List.Perm.Subperm
import Mathlib.Data.List.TakeWhile

/-!
# Visits of the nodes of a group

The visits of the nodes of a group along the thread of a forest. The end of a group is not stored:
the iteration stops at the first node that has the same parent as the group. The group is visited
after its nodes.
-/

namespace Incudine.ThreadedForest

set_option linter.unusedSectionVars false

variable {ι : Type*} [DecidableEq ι]

/-- The nodes visited along a list, in order, from the inside of a group with parent `p`. -/
inductive Visits (parent : ι → Option ι) (groupP : ι → Bool) : Option ι → List ι → List ι → Prop
  | nil (p : Option ι) : Visits parent groupP p [] []
  | stop {p : Option ι} {n : ι} {l : List ι} (hn : parent n = p) :
      Visits parent groupP p (n :: l) []
  | leaf {p : Option ι} {n : ι} {l w : List ι} (hn : parent n ≠ p) (hleaf : groupP n = false)
      (hrest : Visits parent groupP p l w) : Visits parent groupP p (n :: l) (n :: w)
  | group {p : Option ι} {n : ι} {l w w' : List ι} (hn : parent n ≠ p) (hgroup : groupP n = true)
      (hkids : Visits parent groupP (parent n) l w)
      (hrest : Visits parent groupP p (l.dropWhile (parent · ≠ parent n)) w') :
      Visits parent groupP p (n :: l) (w ++ n :: w')

/-- No group that is the last tree of its parent is followed by other nodes, which are the nodes
of `l` after the forest. -/
def Forest.Bounded : Forest ι → List ι → Prop
  | .nil, _ => True
  | .leaf _ rest, l => rest.Bounded l
  | .group _ kids rest, l =>
    (rest = .nil → l = []) ∧ kids.Bounded (rest.nodes ++ l) ∧ rest.Bounded l

variable {parent : ι → Option ι} {groupP : ι → Bool} {p : Option ι} {l w : List ι}
  {last : ι → Option (Option ι)}

theorem exists_visits (parent : ι → Option ι) (groupP : ι → Bool) (p : Option ι) (l : List ι) :
    ∃ w, Visits parent groupP p l w := by
  induction hlen : l.length using Nat.strongRecOn generalizing l p with
  | ind len ih =>
    cases l with
    | nil => exact ⟨[], .nil p⟩
    | cons n l =>
      rw [List.length_cons] at hlen
      by_cases hn : parent n = p
      · exact ⟨[], .stop hn⟩
      cases hgroup : groupP n with
      | false =>
        obtain ⟨w, hw⟩ := ih l.length (by omega) p l rfl
        exact ⟨n :: w, .leaf hn hgroup hw⟩
      | true =>
        have hdrop : (l.dropWhile (parent · ≠ parent n)).length ≤ l.length :=
          (List.dropWhile_sublist _).length_le
        obtain ⟨w, hw⟩ := ih l.length (by omega) (parent n) l rfl
        obtain ⟨w', hw'⟩ := ih _ (by omega) p (l.dropWhile (parent · ≠ parent n)) rfl
        exact ⟨w ++ n :: w', .group hn hgroup hw hw'⟩

theorem Visits.subset (h : Visits parent groupP p l w) : w ⊆ l := by
  induction h with
  | nil => exact List.Subset.refl _
  | stop => exact List.nil_subset _
  | leaf _ _ _ ih => exact List.cons_subset_cons _ ih
  | group _ _ _ _ ihk ih =>
    intro m hm
    rcases List.mem_append.mp hm with hm | hm
    · exact List.mem_cons_of_mem _ (ihk hm)
    · rcases List.mem_cons.mp hm with rfl | hm
      · exact List.mem_cons_self
      · exact List.mem_cons_of_mem _ ((List.dropWhile_sublist _).subset (ih hm))

theorem Visits.eq_nil (h : Visits parent groupP p l w) (hl : ∀ n, l.head? = some n → parent n = p) :
    w = [] := by
  cases h with
  | nil => rfl
  | stop => rfl
  | leaf hn => exact absurd (hl _ rfl) hn
  | group hn => exact absurd (hl _ rfl) hn

theorem Visits.subperm (h : Visits parent groupP p l w) :
    (l.takeWhile (parent · ≠ p)).Subperm w := by
  induction h with
  | nil => exact List.Subperm.refl _
  | stop hn => simp [hn]
  | @leaf p n l w hn _ _ ih =>
    rw [List.takeWhile_cons_of_pos (by simpa using hn)]
    exact (List.subperm_cons n).mpr ih
  | @group p n l w w' hn _ _ _ ihk ih =>
    rw [List.takeWhile_cons_of_pos (by simpa using hn)]
    have hsplit : (l.takeWhile (parent · ≠ p)).Sublist (l.takeWhile (parent · ≠ parent n) ++
        (l.dropWhile (parent · ≠ parent n)).takeWhile (parent · ≠ p)) := by
      conv_lhs => rw [← List.takeWhile_append_dropWhile (p := (parent · ≠ parent n)) (l := l)]
      rw [List.takeWhile_append]
      split_ifs with hall
      · exact List.Sublist.refl _
      · exact (List.takeWhile_sublist _).trans (List.sublist_append_left _ _)
    have hboth : (l.takeWhile (parent · ≠ p)).Subperm (w ++ w') :=
      hsplit.subperm.trans (ihk.append ih)
    exact ((List.subperm_cons n).mpr hboth).trans List.perm_middle.symm.subperm

variable {n : ι}

theorem Parents.ne {q m : ι} {k : Forest ι} (h : Parents parent q k) (hm : m ∉ q :: k.nodes)
    (hn : n ∈ k.nodes) : parent n ≠ some m := by
  obtain ⟨r, hr, hmem⟩ := h.mem hn
  rw [hr, ne_eq, Option.some.injEq]
  rintro rfl
  exact hm (List.mem_cons.mpr hmem)

theorem Parents.head {q : ι} {k : Forest ι} (h : Parents parent q k) (hn : k.nodes.head? = some n) :
    parent n = some q := by
  cases k with
  | nil => cases hn
  | leaf m rest =>
    cases hn
    exact h.1
  | group m kids rest =>
    cases hn
    exact h.1

section Bounded

variable {k : Forest ι} {q r : ι}

theorem dropWhile_kids {kids rest : Forest ι} (hkids : Parents parent n kids)
    (hrest : Parents parent q rest) (hq : q ∉ n :: kids.nodes) (hend : rest = .nil → l = []) :
    (kids.nodes ++ (rest.nodes ++ l)).dropWhile (parent · ≠ some q) = rest.nodes ++ l := by
  rw [List.dropWhile_append_of_pos fun m hm => by simpa using hkids.ne hq hm]
  cases hhead : rest.nodes with
  | nil => rw [hend (Forest.nodes_eq_nil.mp hhead), List.nil_append, List.dropWhile_nil]
  | cons m nodes =>
    have hm : parent m = some q := hrest.head (by rw [hhead, List.head?_cons])
    rw [List.cons_append, List.dropWhile_cons_of_neg (by simpa using hm)]

theorem Visits.end_eq_nil {rest : Forest ι} (hrest : Parents parent q rest)
    (hend : rest = .nil → l = []) (h : Visits parent groupP (some q) (rest.nodes ++ l) w) :
    w = [] := by
  refine h.eq_nil fun m hm => ?_
  cases hhead : rest.nodes with
  | nil =>
    rw [hhead, hend (Forest.nodes_eq_nil.mp hhead)] at hm
    cases hm
  | cons _ nodes =>
    rw [hhead, List.cons_append, List.head?_cons] at hm
    exact hrest.head (by rw [hhead, List.head?_cons, hm])

theorem Visits.leaf_inv (hn : parent n = some q) (hne : r ≠ q) (hleaf : groupP n = false)
    (h : Visits parent groupP (some r) (n :: l) w) :
    ∃ w', w = n :: w' ∧ Visits parent groupP (some r) l w' := by
  cases h with
  | stop hstop =>
    rw [hn, Option.some.injEq] at hstop
    exact absurd hstop.symm hne
  | leaf _ _ hrest => exact ⟨_, rfl, hrest⟩
  | group _ hgroup =>
    rw [hleaf] at hgroup
    cases hgroup

theorem Visits.group_inv (hn : parent n = some q) (hne : r ≠ q) (hgroup : groupP n = true)
    (h : Visits parent groupP (some r) (n :: l) w) :
    ∃ w₁ w₂, w = w₁ ++ n :: w₂ ∧ Visits parent groupP (some q) l w₁ ∧
      Visits parent groupP (some r) (l.dropWhile (parent · ≠ some q)) w₂ := by
  cases h with
  | stop hstop =>
    rw [hn, Option.some.injEq] at hstop
    exact absurd hstop.symm hne
  | leaf _ hleaf =>
    rw [hgroup] at hleaf
    cases hleaf
  | group _ _ hkids hrest =>
    rw [hn] at hkids hrest
    exact ⟨_, _, rfl, hkids, hrest⟩

theorem nodup_group {kids rest : Forest ι} (h : (q :: (Forest.group n kids rest).nodes).Nodup) :
    (n :: kids.nodes).Nodup ∧ (q :: rest.nodes).Nodup ∧ q ∉ n :: kids.nodes ∧
      ∀ m ∈ n :: kids.nodes, m ∉ q :: rest.nodes := by
  rw [Forest.nodes_group, ← List.cons_append, ← List.singleton_append] at h
  obtain ⟨-, hnodes, hq⟩ := List.nodup_append'.mp h
  obtain ⟨hkids, hrest, hdisj⟩ := List.nodup_append'.mp hnodes
  have hq' : q ∉ n :: kids.nodes ++ rest.nodes := fun hmem => hq (List.mem_singleton_self q) hmem
  rw [List.mem_append, not_or] at hq'
  refine ⟨hkids, List.nodup_cons.mpr ⟨hq'.2, hrest⟩, hq'.1, fun m hm hmem => ?_⟩
  rcases List.mem_cons.mp hmem with rfl | hmem
  · exact hq'.1 hm
  · exact hdisj hm hmem

theorem Visits.of_bounded (hparents : Parents parent q k) (hlasts : Lasts last k)
    (hr : r ∉ q :: k.nodes) (hnodup : (q :: k.nodes).Nodup) (hb : k.Bounded l)
    (h : Visits parent (fun n => (last n).isSome) (some r) (k.nodes ++ l) w) :
    ∃ w₁ w₂, w = w₁ ++ w₂ ∧ w₁.Perm k.nodes ∧
      Visits parent (fun n => (last n).isSome) (some r) l w₂ := by
  induction k generalizing l w q r with
  | nil => exact ⟨[], w, rfl, .refl _, h⟩
  | leaf n rest ih =>
    obtain ⟨hn, hrest⟩ := hparents
    obtain ⟨hln, hlrest⟩ := hlasts
    simp only [Forest.nodes_leaf, List.mem_cons, not_or] at hr
    have hnodup' : (q :: rest.nodes).Nodup := hnodup.sublist (by simp)
    obtain ⟨w', rfl, htail⟩ := h.leaf_inv hn hr.1 (by simp [hln])
    obtain ⟨w₁, w₂, rfl, hperm, hw₂⟩ := ih hrest hlrest (by simp [hr]) hnodup' hb htail
    exact ⟨n :: w₁, w₂, rfl, hperm.cons n, hw₂⟩
  | group n kids rest ihk ih =>
    obtain ⟨hn, hkids, hrest⟩ := hparents
    obtain ⟨hln, hlkids, hlrest⟩ := hlasts
    obtain ⟨hend, hbkids, hbrest⟩ := hb
    obtain ⟨hnodupKids, hnodupRest, hq, -⟩ := nodup_group hnodup
    simp only [Forest.nodes_group, List.mem_cons, List.mem_append, not_or] at hr
    rw [Forest.nodes_group, List.cons_append, List.append_assoc] at h
    obtain ⟨w', w'', rfl, hinside, htail⟩ := h.group_inv hn hr.1 (by simp [hln])
    obtain ⟨w₁, w₂, rfl, hperm, hw₂⟩ := ihk hkids hlkids hq hnodupKids hbkids hinside
    obtain rfl := hw₂.end_eq_nil hrest hend
    rw [dropWhile_kids hkids hrest hq hend] at htail
    obtain ⟨w₃, w₄, rfl, hperm', hw₄⟩ := ih hrest hlrest (by simp [hr]) hnodupRest hbrest htail
    refine ⟨w₁ ++ n :: w₃, w₄, by simp, ?_, hw₄⟩
    exact List.perm_middle.trans ((hperm.append hperm').cons n)

theorem Visits.length_le (hparents : Parents parent q k) (hr : r ∉ q :: k.nodes)
    (h : Visits parent groupP (some r) (k.nodes ++ l) w) : k.nodes.length ≤ w.length := by
  have hsub := h.subperm
  rw [List.takeWhile_append_of_pos fun m hm => by simpa using hparents.ne hr hm] at hsub
  have hlen := hsub.length_le
  rw [List.length_append] at hlen
  omega

theorem Visits.of_not_bounded (hparents : Parents parent q k) (hlasts : Lasts last k)
    (hr : r ∉ q :: k.nodes) (hnodup : (q :: k.nodes).Nodup)
    (hafter : ∀ n ∈ l, ∀ m ∈ q :: k.nodes, parent n ≠ some m) (hb : ¬ k.Bounded l)
    (h : Visits parent (fun n => (last n).isSome) (some r) (k.nodes ++ l) w) :
    l ⊆ w ∧ k.nodes.length < w.length := by
  induction k generalizing l w q r with
  | nil => exact absurd trivial hb
  | leaf n rest ih =>
    obtain ⟨hn, hrest⟩ := hparents
    obtain ⟨hln, hlrest⟩ := hlasts
    simp only [Forest.nodes_leaf, List.mem_cons, not_or] at hr
    have hnodup' : (q :: rest.nodes).Nodup := hnodup.sublist (by simp)
    have hafter' : ∀ x ∈ l, ∀ m ∈ q :: rest.nodes, parent x ≠ some m := fun x hx m hm =>
      hafter x hx m (by grind [Forest.nodes_leaf])
    obtain ⟨w', rfl, htail⟩ := h.leaf_inv hn hr.1 (by simp [hln])
    obtain ⟨hsub, hlen⟩ := ih hrest hlrest (by simp [hr]) hnodup' hafter' hb htail
    exact ⟨List.subset_cons_of_subset n hsub, by simpa using hlen⟩
  | group n kids rest ihk ih =>
    obtain ⟨hn, hkids, hrest⟩ := hparents
    obtain ⟨hln, hlkids, hlrest⟩ := hlasts
    obtain ⟨hnodupKids, hnodupRest, hq, hdisj⟩ := nodup_group hnodup
    simp only [Forest.nodes_group, List.mem_cons, List.mem_append, not_or] at hr
    rw [Forest.nodes_group, List.cons_append, List.append_assoc] at h
    obtain ⟨w₁, w₂, rfl, hinside, htail⟩ := h.group_inv hn hr.1 (by simp [hln])
    have hlen := hinside.length_le hkids hq
    simp only [List.length_append, List.length_cons, Forest.nodes_group]
    by_cases hend : rest = .nil → l = []
    · rw [dropWhile_kids hkids hrest hq hend] at htail
      have hlen' := htail.length_le hrest (by simp [hr])
      by_cases hbkids : kids.Bounded (rest.nodes ++ l)
      · have hbrest : ¬ rest.Bounded l := fun hbrest => hb ⟨hend, hbkids, hbrest⟩
        have hafter' : ∀ x ∈ l, ∀ m ∈ q :: rest.nodes, parent x ≠ some m := fun x hx m hm =>
          hafter x hx m (by grind [Forest.nodes_group])
        obtain ⟨hsub, hlt⟩ := ih hrest hlrest (by simp [hr]) hnodupRest hafter' hbrest htail
        refine ⟨fun x hx => List.mem_append_right _ (List.mem_cons_of_mem n (hsub hx)), ?_⟩
        omega
      · have hafter' : ∀ x ∈ rest.nodes ++ l, ∀ m ∈ n :: kids.nodes, parent x ≠ some m := by
          intro x hx m hm
          rcases List.mem_append.mp hx with hx | hx
          · exact hrest.ne (hdisj m hm) hx
          · refine hafter x hx m (List.mem_cons_of_mem q ?_)
            rw [Forest.nodes_group, ← List.cons_append]
            exact List.mem_append_left _ hm
        obtain ⟨hsub, hlt⟩ := ihk hkids hlkids hq hnodupKids hafter' hbkids hinside
        refine ⟨fun x hx => List.mem_append_left _ (hsub (List.mem_append_right _ hx)), ?_⟩
        omega
    · obtain ⟨rfl, hl⟩ := Classical.not_imp.mp hend
      have hsub := hinside.subperm
      have hall : (kids.nodes ++ (Forest.nil.nodes ++ l)).takeWhile (parent · ≠ some q) =
          kids.nodes ++ l := by
        rw [Forest.nodes_nil, List.nil_append, List.takeWhile_eq_self_iff]
        intro x hx
        rcases List.mem_append.mp hx with hx | hx
        · simpa using hkids.ne hq hx
        · simpa using hafter x hx q List.mem_cons_self
      rw [hall] at hsub
      have hlt := hsub.length_le
      have hpos := List.length_pos_iff.mpr hl
      rw [List.length_append] at hlt
      refine ⟨fun x hx => List.mem_append_left _ (hsub.subset (List.mem_append_right _ hx)), ?_⟩
      simp only [Forest.nodes_nil, List.length_nil]
      omega

end Bounded

theorem Thread.dropWhile {next : ι → Option ι} (h : Thread next (n :: l) none) (q : ι → Bool) :
    next ((l.takeWhile q).getLast?.getD n) = (l.dropWhile q).head? ∧
      Thread next (l.dropWhile q) none := by
  rw [← List.takeWhile_append_dropWhile (p := q) (l := l), ← List.cons_append] at h
  obtain ⟨hpre, hpost⟩ := thread_append.mp h
  refine ⟨?_, hpost⟩
  rcases List.eq_nil_or_concat (l.takeWhile q) with hnil | ⟨l', m, hl⟩
  · rw [hnil] at hpre ⊢
    simpa using hpre.1
  · rw [hl, List.concat_eq_append, ← List.cons_append] at hpre
    rw [hl, List.concat_eq_append, List.getLast?_concat, Option.getD_some, hpre.last_eq,
      Option.or_none]

section

variable {L : Links ι} {root : ι} {P : Position ι} {k : Option (Forest ι)}
  (h : Represents L root (P.plug (tree n k)))
include h

theorem Represents.parent_after :
    ∀ m ∈ P.after, ∀ q ∈ n :: (descendants k).nodes, L.parent m ≠ some q := by
  intro m hm q hq hparent
  have hparents : Parents L.parent root (P.plug .nil) :=
    P.parents_plug.mpr ⟨(P.parents_plug.mp h.parents).1, trivial⟩
  have hmem : m ∈ (P.plug .nil).nodes := by
    simp only [Position.after, List.mem_append] at hm
    rw [P.nodes_plug_eq]
    simp only [Forest.nodes_nil, List.nil_append, List.mem_append]
    tauto
  obtain ⟨q', hq', hmem'⟩ := hparents.mem hmem
  rw [hparent, Option.some.injEq] at hq'
  subst hq'
  have hout := h.notMem_of_mem_tree hq
  rw [← List.mem_cons, P.nodes_plug] at hmem'
  exact hout (by simpa using hmem')

theorem Represents.parent_after_ne_owner (hright : P.right = .nil) :
    ∀ m ∈ P.after, L.parent m ≠ some (P.owner root) := by
  intro m hm
  obtain ⟨path, left, right⟩ := P
  obtain rfl : right = .nil := hright
  cases path with
  | nil => simp [Position.after, Path.after] at hm
  | cons frame path =>
    obtain ⟨l, o, r⟩ := frame
    have hup : Represents L root
        ((⟨path, l, r⟩ : Position ι).plug (tree o (some (left ++ tree n k)))) := by
      simpa [Position.plug, Path.up, tree] using h
    refine hup.parent_after m ?_ o List.mem_cons_self
    simpa [Position.after, Path.after] using hm

end

section Position

variable {L : Links ι} {root group : ι} {P : Position ι} {kids : Forest ι}

section

variable (h : Represents L root (P.plug (tree group (some kids))))
include h

theorem Represents.owner_notMem_tree : P.owner root ∉ group :: kids.nodes := fun hmem =>
  h.notMem_of_mem_tree (show _ ∈ group :: (descendants (some kids)).nodes from hmem)
    (List.mem_append_left _ (P.owner_mem root))

theorem Represents.parents_tree_kids : Parents L.parent group kids := (parents_tree.mp (P.parents_plug.mp h.parents).2).2

theorem Represents.nodes_subset_visits
    (hw : Visits L.parent groupP (some (P.owner root)) (kids.nodes ++ l) w) : kids.nodes ⊆ w := by
  have hsub := hw.subperm
  rw [List.takeWhile_append_of_pos fun m hm => by
    simpa using h.parents_tree_kids.ne h.owner_notMem_tree hm] at hsub
  exact fun n hn => hsub.subset (List.mem_append_left _ hn)

theorem Represents.visits_iff (count : ℕ)
    (hw : Visits L.parent (fun n => (last n).isSome) (some (P.owner root))
      (kids.nodes ++ P.after) w) (hlasts : Lasts last kids) :
    (w ⊆ kids.nodes ∧ count - (w.length + 1) + (kids.nodes.length + 1) = count) ↔
      kids.nodes.length + 1 ≤ count ∧ (((P.right = .nil → P.after = []) ∧ kids.Bounded P.after) ∨
        P.after = [] ∧ count = kids.nodes.length + 1) := by
  have hparents := h.parents_tree_kids
  have howner := h.owner_notMem_tree
  have hnodup : (group :: kids.nodes).Nodup := h.nodup_tree
  have hdisj : ∀ n ∈ P.after, n ∉ kids.nodes := by
    intro n hn hmem
    have hin : n ∈ group :: (descendants (some kids)).nodes := List.mem_cons_of_mem group hmem
    exact h.notMem_of_mem_tree hin (List.mem_append_right _ hn)
  have hsubset : P.after ⊆ w → w ⊆ kids.nodes → P.after = [] := fun h₁ h₂ =>
    List.eq_nil_iff_forall_not_mem.mpr fun n hn => hdisj n hn (h₂ (h₁ hn))
  by_cases hend : P.right = .nil → P.after = []
  · by_cases hb : kids.Bounded P.after
    · obtain ⟨w₁, w₂, rfl, hperm, hw₂⟩ := hw.of_bounded hparents hlasts howner hnodup hb
      have hafter : P.after.head? = P.right.nodes.head? := by
        cases hr : P.right.nodes with
        | nil => rw [hend (Forest.nodes_eq_nil.mp hr)]
        | cons n nodes => simp [Position.after, hr]
      have hright : Parents L.parent (P.owner root) P.right := (P.parents_plug.mp h.parents).1.2.2
      obtain rfl : w₂ = [] := hw₂.eq_nil fun n hn => hright.head (hafter ▸ hn)
      rw [List.append_nil, hperm.length_eq]
      constructor
      · rintro ⟨-, hcount⟩
        exact ⟨by omega, .inl ⟨hend, hb⟩⟩
      · rintro ⟨hcount, -⟩
        exact ⟨hperm.subset, by omega⟩
    · obtain ⟨hsub, hlen⟩ :=
        hw.of_not_bounded hparents hlasts howner hnodup h.parent_after hb
      constructor
      · rintro ⟨hsub', hcount⟩
        exact ⟨by omega, .inr ⟨hsubset hsub hsub', by omega⟩⟩
      · rintro ⟨hcount, ⟨-, hb'⟩ | ⟨hafter, hcount'⟩⟩
        · exact absurd hb' hb
        · refine ⟨fun n hn => ?_, by omega⟩
          simpa [hafter] using hw.subset hn
  · obtain ⟨hright, hafter⟩ := Classical.not_imp.mp hend
    have hsub : P.after ⊆ w := by
      have hall : (kids.nodes ++ P.after).takeWhile (L.parent · ≠ some (P.owner root)) =
          kids.nodes ++ P.after := by
        rw [List.takeWhile_eq_self_iff]
        intro n hn
        rcases List.mem_append.mp hn with hn | hn
        · simpa using hparents.ne howner hn
        · simpa using h.parent_after_ne_owner hright n hn
      have hsub := hw.subperm
      rw [hall] at hsub
      exact fun n hn => hsub.subset (List.mem_append_right _ hn)
    constructor
    · rintro ⟨hsub', -⟩
      exact absurd (hsubset hsub hsub') hafter
    · rintro ⟨-, ⟨hend', -⟩ | ⟨hafter', -⟩⟩
      · exact absurd hend' hend
      · exact absurd hafter' hafter

end

end Position

end Incudine.ThreadedForest

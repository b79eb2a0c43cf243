import Incudine.GroupVisits
import Incudine.Literals
import Incudine.NodeDetach

/-!
# Free of groups

`%node-free` of a group unlinks its tree and then frees the nodes visited by `unlink-group`. The
end of the group is recognized by the parent of the next node, therefore the iteration over a
group that is the last node of its parent continues with the nodes that follow, if there are any.
-/

set_option linter.unusedSectionVars false

namespace Incudine.NodeGraph

open Function ThreadedForest

variable {ι F : Type} [DecidableEq ι] [Fintype ι]

namespace Graph

variable {g : Graph ι F} {root n : ι} {p : Option ι} {l w : List ι} {fuel : ℕ} {f : Forest ι}

/-- A node of the visits of `unlink-group` is freed. -/
def unlinked (g : Graph ι F) (n : ι) : Graph ι F :=
  if g.groupP n then (g.setFuncons n none).removeNodeFromHash n else g.unlinkNode n

def unlinkedAll (g : Graph ι F) (w : List ι) : Graph ι F := w.foldl unlinked g

@[simp] theorem unlinked_links (g : Graph ι F) (n : ι) : (g.unlinked n).links = g.links := by
  unfold unlinked
  split_ifs <;> rfl

@[simp] theorem unlinked_root (g : Graph ι F) (n : ι) : (g.unlinked n).root = g.root := by
  unfold unlinked
  split_ifs <;> rfl

@[simp] theorem unlinked_id (g : Graph ι F) (n : ι) :
    (g.unlinked n).table.id = update g.table.id n none := by
  unfold unlinked
  split_ifs <;> rfl

@[simp] theorem unlinked_count (g : Graph ι F) (n : ι) :
    (g.unlinked n).table.count = g.table.count - 1 := by
  unfold unlinked
  split_ifs <;> rfl

theorem unlinked_funcons (g : Graph ι F) {n m : ι} (hne : m ≠ n) :
    (g.unlinked n).funcons m = g.funcons m := by
  unfold unlinked
  split_ifs
  · exact update_of_ne hne _ _
  · rfl

@[simp] theorem unlinkedAll_links (g : Graph ι F) (w : List ι) :
    (g.unlinkedAll w).links = g.links := by
  induction w generalizing g with
  | nil => rfl
  | cons n w ih => exact (ih (g.unlinked n)).trans (g.unlinked_links n)

@[simp] theorem unlinkedAll_root (g : Graph ι F) (w : List ι) :
    (g.unlinkedAll w).root = g.root := by
  induction w generalizing g with
  | nil => rfl
  | cons n w ih => exact (ih (g.unlinked n)).trans (g.unlinked_root n)

theorem unlinkedAll_id (g : Graph ι F) (w : List ι) (n : ι) :
    (g.unlinkedAll w).table.id n = if n ∈ w then none else g.table.id n := by
  induction w generalizing g with
  | nil => rfl
  | cons m w ih =>
    have hm := ih (g.unlinked m)
    rw [unlinked_id] at hm
    refine hm.trans ?_
    by_cases hw : n ∈ w
    · rw [if_pos hw, if_pos (List.mem_cons_of_mem m hw)]
    · rw [if_neg hw]
      rcases eq_or_ne n m with rfl | hne
      · rw [update_self, if_pos List.mem_cons_self]
      · rw [update_of_ne hne, if_neg (by simp [hne, hw])]

theorem unlinkedAll_count (g : Graph ι F) (w : List ι) :
    (g.unlinkedAll w).table.count = g.table.count - w.length := by
  induction w generalizing g with
  | nil => rfl
  | cons m w ih =>
    refine (ih (g.unlinked m)).trans ?_
    rw [unlinked_count, List.length_cons]
    omega

theorem unlinkedAll_funcons (g : Graph ι F) {w : List ι} {n : ι} (hn : n ∉ w) :
    (g.unlinkedAll w).funcons n = g.funcons n := by
  induction w generalizing g with
  | nil => rfl
  | cons m w ih =>
    rw [List.mem_cons, not_or] at hn
    exact (ih (g.unlinked m) hn.2).trans (g.unlinked_funcons hn.1)

theorem groupLastLoop_eq (h : Thread g.links.next l none) (hfuel : l.length ≤ fuel)
    (p old : Option ι) : g.groupLastLoop p fuel l.head? old =
      .ok ((l.takeWhile (g.links.parent · ≠ p)).getLast?.or old) := by
  induction l generalizing fuel old with
  | nil => cases fuel <;> rfl
  | cons n l ih =>
    obtain ⟨c, rfl⟩ : ∃ c, fuel = c + 1 := ⟨fuel - 1, by simp at hfuel; omega⟩
    rw [List.head?_cons, groupLastLoop]
    by_cases hn : g.links.parent n = p
    · rw [if_pos hn, List.takeWhile_cons_of_neg (by simpa using hn)]
      rfl
    · have hnext : g.links.next n = l.head? := by simpa using h.1
      rw [if_neg hn, List.takeWhile_cons_of_pos (by simpa using hn), hnext,
        ih h.2 (by simpa using hfuel), List.getLast?_cons]
      cases (l.takeWhile (g.links.parent · ≠ p)).getLast? <;> rfl

def unlinkBody (fuel : ℕ) (g : Graph ι F) (item : ι) : Result (Graph ι F) :=
  if g.groupP item then unlinkGroupLoop fuel g item else pure (g.unlinkNode item)

theorem unlinkGroupLoop_of_dogroup {c : ℕ} {g' : Graph ι F}
    (h : dogroupLoop (unlinkBody c) (g.links.parent n) (NodeGraph.fuel ι) g (g.links.next n) =
      .ok g') (hn : n ≠ g'.root) (hgroup : g'.groupP n = true) :
    unlinkGroupLoop (c + 1) g n = .ok (g'.unlinked n) := by
  have hdogroup : g.dogroup (unlinkBody c) n = .ok g' := h
  rw [unlinkGroupLoop]
  change (g.dogroup (unlinkBody c) n >>= _) = _
  rw [hdogroup, ok_bind]
  have hne : n ≠ (g'.setFuncons n none).root := hn
  rw [if_neg hne, unlinked, if_pos hgroup]
  rfl

theorem next_groupLast {n : ι} (hthread : Thread g.links.next (n :: l) none)
    (hfuel : l.length ≤ NodeGraph.fuel ι) : ∃ last, g.groupLast n = .ok last ∧
      g.links.next (last.getD n) = (l.dropWhile (g.links.parent · ≠ g.links.parent n)).head? := by
  have hnext : g.links.next n = l.head? := by simpa using hthread.1
  refine ⟨_, ?_, (hthread.dropWhile (g.links.parent · ≠ g.links.parent n)).1⟩
  rw [groupLast, hnext, groupLastLoop_eq hthread.2 hfuel, Option.or_none]

theorem dogroupLoop_unlinkBody {L : Links ι} {c : ℕ}
    (h : Visits L.parent (fun n => (L.last n).isSome) p l w) (hlinks : g.links = L)
    (hthread : Thread L.next l none) (hroot : g.root ∉ l) (hcard : l.length ≤ Fintype.card ι)
    (hfuel : l.length ≤ fuel) (hc : l.length ≤ c) :
    dogroupLoop (unlinkBody c) p fuel g l.head? = .ok (g.unlinkedAll w) := by
  induction h generalizing g fuel c with
  | nil => cases fuel <;> rfl
  | @stop p n l hn =>
    obtain ⟨b, rfl⟩ : ∃ b, fuel = b + 1 := ⟨fuel - 1, by simp at hfuel; omega⟩
    rw [List.head?_cons, dogroupLoop, if_pos (hlinks ▸ hn)]
    rfl
  | @leaf p n l w hn hleaf _ ih =>
    simp only [List.length_cons] at hcard hfuel hc
    obtain ⟨b, rfl⟩ : ∃ b, fuel = b + 1 := ⟨fuel - 1, by omega⟩
    have hgroup : ¬ g.groupP n = true := by simp [groupP, hlinks, hleaf]
    have hbody : unlinkBody c g n = .ok (g.unlinked n) := by
      rw [unlinkBody, if_neg hgroup, unlinked, if_neg hgroup]
      rfl
    have hgroup' : ¬ (g.unlinked n).groupP n = true := by simpa [groupP] using hgroup
    have hnext : (g.unlinked n).links.next n = l.head? := by
      rw [unlinked_links, hlinks]
      simpa using hthread.1
    rw [List.head?_cons, dogroupLoop, if_neg (hlinks ▸ hn), hbody, ok_bind, if_neg hgroup',
      pure_eq_ok, ok_bind]
    dsimp only
    rw [Option.getD_none, hnext]
    refine ih (by simp [hlinks]) hthread.2 ?_ (by omega) (by omega) (by omega)
    rw [unlinked_root]
    exact fun hmem => hroot (List.mem_cons_of_mem n hmem)
  | @group p n l w w' hn hgroup _ _ ihk ih =>
    simp only [List.length_cons] at hcard hfuel hc
    obtain ⟨b, rfl⟩ : ∃ b, fuel = b + 1 := ⟨fuel - 1, by omega⟩
    obtain ⟨d, rfl⟩ : ∃ d, c = d + 1 := ⟨c - 1, by omega⟩
    rw [List.mem_cons, not_or] at hroot
    have hgroupP : g.groupP n = true := by rw [groupP, hlinks, hgroup]
    have hnext : g.links.next n = l.head? := by
      rw [hlinks]
      simpa using hthread.1
    have hinside : dogroupLoop (unlinkBody d) (L.parent n) (NodeGraph.fuel ι) g l.head? =
        .ok (g.unlinkedAll w) :=
      ihk hlinks hthread.2 hroot.2 (by omega) (by unfold NodeGraph.fuel; omega) (by omega)
    have hgroup₁ : (g.unlinkedAll w).groupP n = true := by rw [groupP, unlinkedAll_links, hlinks, hgroup]
    have hbody : unlinkBody (d + 1) g n = .ok ((g.unlinkedAll w).unlinked n) := by
      rw [unlinkBody, if_pos hgroupP]
      refine unlinkGroupLoop_of_dogroup ?_ ?_ hgroup₁
      · rw [hnext, hlinks]
        exact hinside
      · rw [unlinkedAll_root]
        exact Ne.symm hroot.1
    set g₁ := (g.unlinkedAll w).unlinked n with hg₁
    have hlinks₁ : g₁.links = L := by simp [hg₁, hlinks]
    have hgroup₂ : g₁.groupP n = true := by rw [groupP, hlinks₁, hgroup]
    have hthread₁ : Thread g₁.links.next (n :: l) none := by rwa [hlinks₁]
    obtain ⟨last, hlast, hafter⟩ :=
      next_groupLast hthread₁ (by unfold NodeGraph.fuel; omega)
    obtain ⟨-, hthread'⟩ := hthread.dropWhile (L.parent · ≠ L.parent n)
    have hlen : (l.dropWhile (L.parent · ≠ L.parent n)).length ≤ l.length :=
      (List.dropWhile_sublist _).length_le
    rw [List.head?_cons, dogroupLoop, if_neg (hlinks ▸ hn), hbody, ok_bind, if_pos hgroup₂, hlast,
      ok_bind]
    dsimp only
    rw [hafter, hlinks₁]
    have hrest : dogroupLoop (unlinkBody (d + 1)) p b g₁
        (l.dropWhile (L.parent · ≠ L.parent n)).head? = .ok (g₁.unlinkedAll w') := by
      refine ih hlinks₁ hthread' ?_ (by omega) (by omega) (by omega)
      rw [hg₁, unlinked_root, unlinkedAll_root]
      exact fun hmem => hroot.2 ((List.dropWhile_sublist _).subset hmem)
    rw [hrest, hg₁]
    simp only [unlinkedAll, List.foldl_append, List.foldl_cons]

theorem unlinkGroup_ok (h : Visits g.links.parent (fun n => (g.links.last n).isSome)
    (g.links.parent n) l w) (hthread : Thread g.links.next (n :: l) none)
    (hroot : g.root ∉ n :: l) (hnodup : (n :: l).Nodup) (hgroup : g.groupP n = true) :
    g.unlinkGroup n = .ok (g.unlinkedAll (w ++ [n])) := by
  rw [List.mem_cons, not_or] at hroot
  have hcard := hnodup.length_le_card
  rw [List.length_cons] at hcard
  have hnext : g.links.next n = l.head? := by simpa using hthread.1
  have hloop : dogroupLoop (unlinkBody (Fintype.card ι)) (g.links.parent n) (NodeGraph.fuel ι) g
      l.head? = .ok (g.unlinkedAll w) :=
    dogroupLoop_unlinkBody h rfl hthread.2 hroot.2 (by omega)
      (by unfold NodeGraph.fuel; omega) (by omega)
  have hgroup₁ : (g.unlinkedAll w).groupP n = true := by rw [groupP, unlinkedAll_links]; exact hgroup
  have hne : n ≠ (g.unlinkedAll w).root := by
    rw [unlinkedAll_root]
    exact Ne.symm hroot.1
  have hok := unlinkGroupLoop_of_dogroup (hnext ▸ hloop) hne hgroup₁
  rw [unlinkGroup, NodeGraph.fuel, hok]
  simp only [unlinkedAll, List.foldl_append, List.foldl_cons, List.foldl_nil]

/-- A graph after the group at the position has been freed with its nodes, and nothing else. -/
structure Freed (g g' : Graph ι F) (root : ι) (P : Position ι) (group : ι) (kids : Forest ι) :
    Prop where
  wellFormed : g'.WellFormed root (P.plug .nil)
  id_tree : ∀ n ∈ group :: kids.nodes, g'.table.id n = none
  id_rest : ∀ n, n ∉ group :: kids.nodes → g'.table.id n = g.table.id n
  count : g'.table.count + (group :: kids.nodes).length = g.table.count

/-- The iterations over the group and its sub-groups end in time, or the tree of the group
contains all the nodes that are counted. -/
def Freeable (g : Graph ι F) (P : Position ι) (group : ι) (kids : Forest ι) : Prop :=
  ¬ g.FirstOfPausedRoot group ∧ (group :: kids.nodes).length ≤ g.table.count ∧
    (((P.right = .nil → P.after = []) ∧ kids.Bounded P.after) ∨
      P.after = [] ∧ g.table.count = (group :: kids.nodes).length)

variable {P : Position ι} {A : List ι} {a group : ι} {kids : Forest ι} {k : Option (Forest ι)}

theorem WellFormed.hasCons_detached (h : g.WellFormed root (P.plug (tree n k))) :
    HasCons { g with links := detachedLinks g.links P root a }
      (· ∈ root :: (P.plug .nil).nodes) := by
  intro m hm hgroup
  refine h.hasCons m ?_ ?_
  · rw [P.nodes_plug] at hm ⊢
    simp only [Forest.nodes_nil, List.nil_append, List.mem_append] at hm ⊢
    tauto
  · rcases eq_or_ne m (P.owner root) with rfl | hne
    · simp [groupP, detachedLinks] at hgroup
    · simpa [groupP, detachedLinks, hne] using hgroup

theorem WellFormed.ne_root (h : g.WellFormed root (P.plug (tree n k))) : n ≠ g.root := by
  rw [h.rootEq]
  rintro rfl
  exact h.links.notMem_of_mem_tree List.mem_cons_self (by simp [Position.before])

theorem WellFormed.nodeFree_eq (h : g.WellFormed root (P.plug (tree n k))) :
    ∃ i j, g.nodeFree n = (unlinkParent { g with lastNodeId := i, lastLargeNodeId := j } n >>=
      fun g => if g.groupP n then g.removeGroup n
        else do
          let g ← g.removeNode n
          let table ← g.table.fixCollisionsFrom n
          pure (g.setTable table)) := by
  have hlive : g.nullNodeP n = false := (h.live n).mpr (mem_tree_plug P root n _)
  obtain ⟨id, hid⟩ : ∃ id, g.table.id n = some id := by
    rw [nullNodeP, NodeTable.nullNodeP, Option.isNone_eq_false_iff] at hlive
    exact Option.isSome_iff_exists.mp hlive
  obtain ⟨i, j, hlast⟩ := updateLastNodeId_eq g id
  refine ⟨i, j, ?_⟩
  rw [nodeFree, if_neg h.ne_root, hid]
  dsimp only
  rw [hlast]

theorem removeGroup_ok (h : g.WellFormed root (P.plug (tree group (some kids))))
    (hA : P.before root = A ++ [a]) {g₁ g₂ : Graph ι F} (hg₁ : g.unlinkParent group = .ok g₁)
    (hg₂ : g₁.unlinkGroupNeighbors group = .ok g₂)
    (honly : OnlyFuncons { g with links := detachedLinks g.links P root a } g₂) :
    ∃ w : List ι, g₁.groupP group = true ∧
      g₁.removeGroup group = .ok (g₂.unlinkedAll (w ++ [group])) ∧
      Visits g₂.links.parent (fun n => (g₂.links.last n).isSome) (some (P.owner root))
        (kids.nodes ++ P.after) w := by
  obtain ⟨hrep, hfloating, hthread⟩ := represents_detachedLinks h.links hA
  have hlinks₂ : g₂.links = detachedLinks g.links P root a := honly.links
  obtain ⟨w, hw⟩ := exists_visits g₂.links.parent (fun n => (g₂.links.last n).isSome)
    (g₂.links.parent group) (kids.nodes ++ P.after)
  have hparent : g₂.links.parent group = some (P.owner root) := by
    rw [hlinks₂]
    exact h.links.parent_tree
  have hnodup := h.links.nodup
  rw [P.nodes_plug] at hnodup
  have hchain : g₂.root ∉ group :: (kids.nodes ++ P.after) ∧
      (group :: (kids.nodes ++ P.after)).Nodup := by
    have hroot₂ : g₂.root = root := honly.root.trans h.rootEq
    rw [hroot₂]
    obtain ⟨-, htail, hdisj⟩ := List.nodup_append'.mp hnodup
    have hroot : root ∈ P.before root := List.mem_cons_self
    have htree : (tree group (some kids)).nodes ++ P.after = group :: (kids.nodes ++ P.after) := by
      simp
    rw [htree] at htail hdisj
    exact ⟨fun hmem => hdisj hroot hmem, htail⟩
  have hthread₂ : Thread g₂.links.next (group :: (kids.nodes ++ P.after)) none := by
    have hnext := hrep.next
    rw [P.nodes_plug] at hnext
    rw [hlinks₂, ← List.cons_append]
    exact thread_append.mpr ⟨by simpa using hthread, by simpa using (thread_append.mp hnext).2⟩
  have hgroup : g.groupP group = true := by
    rw [h.groupP_tree]
    rfl
  have hgroup₁ : g₁.groupP group = true := by
    obtain ⟨x, hx⟩ := unlinkParent_ok h hA
    rw [hg₁, Except.ok.injEq] at hx
    rw [hx]
    rcases eq_or_ne group (P.owner root) with heq | hne'
    · simp [groupP, ← heq]
    · simpa [groupP, hne'] using hgroup
  have hgroup₂ : g₂.groupP group = true := by
    rw [groupP, hlinks₂]
    rcases eq_or_ne group (P.owner root) with heq | hne'
    · simp [detachedLinks, ← heq]
    · simpa [detachedLinks, groupP, hne'] using hgroup
  have hfree := unlinkGroup_ok hw hthread₂ hchain.1 hchain.2 hgroup₂
  refine ⟨w, hgroup₁, ?_, hparent ▸ hw⟩
  rw [removeGroup, hg₂, ok_bind, hfree]

theorem nodeFree_group (h : g.WellFormed root (P.plug (tree group (some kids))))
    (hA : P.before root = A ++ [a]) (hfirst : ¬ g.FirstOfPausedRoot group) :
    ∃ (g₁ : Graph ι F) (w : List ι), g.nodeFree group = .ok (g₁.unlinkedAll (w ++ [group])) ∧
      g₁.links = detachedLinks g.links P root a ∧ g₁.root = root ∧ g₁.table = g.table ∧
      g₁.HasCons (· ∈ root :: (P.plug .nil).nodes) ∧
      Visits g₁.links.parent (fun n => (g₁.links.last n).isSome) (some (P.owner root))
        (kids.nodes ++ P.after) w := by
  obtain ⟨i, j, hfree⟩ := h.nodeFree_eq
  set g₀ : Graph ι F := { g with lastNodeId := i, lastLargeNodeId := j }
  have h₀ : g₀.WellFormed root (P.plug (tree group (some kids))) :=
    ⟨h.rootEq, h.links, h.live, h.hasCons⟩
  obtain ⟨g₁, g₂, hg₁, hg₂, honly⟩ := unlinkGroupNeighbors_ok h₀ hA hfirst
  obtain ⟨w, hgroup, hremove, hw⟩ := removeGroup_ok h₀ hA hg₁ hg₂ honly
  refine ⟨g₂, w, ?_, honly.links, honly.root.trans h.rootEq, ?_,
    honly.hasCons h₀.hasCons_detached, hw⟩
  · rw [hfree, hg₁, ok_bind, if_pos hgroup, hremove]
  · obtain ⟨funcons, cdr, rfl, -⟩ := honly
    rfl

theorem nodeFree_firstOfPausedRoot (h : g.WellFormed root (P.plug (tree n k)))
    (hfirst : g.FirstOfPausedRoot n) (g' : Graph ι F) : g.nodeFree n ≠ .ok g' := by
  obtain ⟨i, j, hfree⟩ := h.nodeFree_eq
  set g₀ : Graph ι F := { g with lastNodeId := i, lastLargeNodeId := j }
  have h₀ : g₀.WellFormed root (P.plug (tree n k)) := ⟨h.rootEq, h.links, h.live, h.hasCons⟩
  obtain ⟨A, a, hA⟩ := P.exists_before root
  obtain ⟨x, hx⟩ := unlinkParent_ok h₀ hA
  have hmem : ∀ m, g.groupP m = true → ∀ last : ι → Option (Option ι),
      last = update g.links.last (P.owner root) (some (P.left ++ P.right).lastTop) →
      (last m).isSome = true := by
    rintro m hm last rfl
    rcases eq_or_ne m (P.owner root) with rfl | hne'
    · simp
    · simpa [groupP, hne'] using hm
  intro hok
  rw [hfree, hx, ok_bind] at hok
  set g₁ : Graph ι F := { g₀ with links := { g₀.links with
    last := update g₀.links.last (P.owner root) (some (P.left ++ P.right).lastTop)
    next := update g₀.links.next a x } }
  have hroot₁ : g₁.groupP g₁.root = true := by
    refine hmem g.root ?_ _ rfl
    rw [groupP, h.rootEq, h.links.lastRoot]
    rfl
  have hparentRoot : g₁.links.parent g₁.root = none := by
    show g.links.parent g.root = none
    rw [h.rootEq]
    exact h.links.parentRoot
  have hprevRoot : g₁.links.prev g₁.root = none := by
    show g.links.prev g.root = none
    rw [h.rootEq]
    exact h.links.prev.1
  have hunlink : ∀ n₂, g₁.unlinkPrev n n₂ = .error .typeError := fun n₂ =>
    unlinkPrev_error hparentRoot hprevRoot hroot₁ hfirst
  by_cases hgroup₁ : g₁.groupP n = true
  · rw [if_pos hgroup₁, removeGroup, unlinkGroupNeighbors] at hok
    cases hfind : g₁.findLastNode n with
    | error e =>
      rw [hfind] at hok
      cases hok
    | ok l =>
      rw [hfind, ok_bind] at hok
      split_ifs at hok
      · rw [unlinkNeighbors, hunlink] at hok
        cases hok
      · rw [hunlink] at hok
        cases hok
  · rw [if_neg hgroup₁, removeNode, unlinkNeighbors, hunlink] at hok
    cases hok

theorem freed_iff_visits {g₁ : Graph ι F} (h : g.WellFormed root (P.plug (tree group (some kids))))
    (hlinks : Represents g₁.links root (P.plug .nil)) (hroot : g₁.root = root)
    (htable : g₁.table = g.table) (hcons : g₁.HasCons (· ∈ root :: (P.plug .nil).nodes))
    (hw : w ⊆ kids.nodes ++ P.after) (hkids : kids.nodes ⊆ w) :
    g.Freed (g₁.unlinkedAll (w ++ [group])) root P group kids ↔
      w ⊆ kids.nodes ∧
        g.table.count - (w.length + 1) + (kids.nodes.length + 1) = g.table.count := by
  have hnodup := h.links.nodup
  rw [P.nodes_plug] at hnodup
  obtain ⟨-, htail, hdisj⟩ := List.nodup_append'.mp hnodup
  obtain ⟨htree, -, hdisjAfter⟩ := List.nodup_append'.mp htail
  have hnodes : (tree group (some kids)).nodes = group :: kids.nodes := by simp
  rw [hnodes] at htail hdisj htree hdisjAfter
  constructor
  · intro hfreed
    refine ⟨fun n hn => ?_, ?_⟩
    · rcases List.mem_append.mp (hw hn) with hmem | hmem
      · exact hmem
      · exfalso
        have hout : n ∉ group :: kids.nodes := fun hin => hdisjAfter hin hmem
        have hid := hfreed.id_rest n hout
        rw [unlinkedAll_id, if_pos (List.mem_append_left _ hn)] at hid
        have hlive : g.nullNodeP n = false := by
          rw [h.live n, P.nodes_plug]
          simp [hmem]
        rw [nullNodeP, NodeTable.nullNodeP, ← hid] at hlive
        cases hlive
    · have hcount := hfreed.count
      rw [unlinkedAll_count, htable, List.length_append, List.length_singleton,
        List.length_cons] at hcount
      exact hcount
  · rintro ⟨hsub, hcount⟩
    have hmem : ∀ n, n ∈ w ++ [group] ↔ n ∈ group :: kids.nodes := by
      intro n
      rw [List.mem_append, List.mem_singleton, List.mem_cons]
      exact ⟨fun hn => hn.symm.imp_right fun hn => hsub hn, fun hn => (hn.imp_right fun hn => hkids hn).symm⟩
    have hid : ∀ n, (g₁.unlinkedAll (w ++ [group])).table.id n =
        if n ∈ group :: kids.nodes then none else g.table.id n := by
      intro n
      rw [unlinkedAll_id, htable]
      simp only [hmem n]
    have hout : ∀ n ∈ root :: (P.plug .nil).nodes, n ∉ group :: kids.nodes := by
      intro n hn hin
      rw [P.nodes_plug] at hn
      exact h.links.notMem_of_mem_tree (show n ∈ group :: (descendants (some kids)).nodes from hin)
        (by simpa using hn)
    refine ⟨⟨by rw [unlinkedAll_root, hroot], by rw [unlinkedAll_links]; exact hlinks, fun n => ?_,
      fun n hn hgroup => ?_⟩, fun n hn => by rw [hid, if_pos hn],
      fun n hn => by rw [hid, if_neg hn], ?_⟩
    · rw [nullNodeP, NodeTable.nullNodeP, hid]
      by_cases hin : n ∈ group :: kids.nodes
      · rw [if_pos hin]
        exact ⟨fun hnull => (by cases hnull), fun hn => absurd hin (hout n hn)⟩
      · rw [if_neg hin]
        refine (h.live n).trans ?_
        rw [P.nodes_plug, P.nodes_plug, hnodes]
        simp only [List.mem_append, Forest.nodes_nil, List.nil_append]
        tauto
    · have hn' : n ∉ w ++ [group] := fun hin => hout n hn ((hmem n).mp hin)
      rw [groupP, unlinkedAll_links] at hgroup
      rw [unlinkedAll_funcons g₁ hn']
      exact hcons n hn hgroup
    · rw [unlinkedAll_count, htable, List.length_append, List.length_singleton, List.length_cons]
      exact hcount

theorem WellFormed.exists_group {f : Forest ι} (h : g.WellFormed root f)
    (hlive : g.nullNodeP group = false) (hroot : group ≠ root) (hgroup : g.groupP group = true) :
    ∃ (P : Position ι) (kids : Forest ι), f = P.plug (tree group (some kids)) := by
  obtain ⟨P, k, rfl⟩ : ∃ (P : Position ι) (k : Option (Forest ι)), f = P.plug (tree group k) := by
    obtain ⟨k, hk⟩ := h.subtree hlive
    cases hk with
    | group => exact absurd rfl hroot
    | groupRest hk => cases hk
    | groupKids hk =>
      obtain ⟨P, hP⟩ := hk.exists_position
      exact ⟨P, k, hP⟩
  obtain ⟨kids, rfl⟩ : ∃ kids, k = some kids := by
    rw [h.groupP_tree] at hgroup
    exact Option.isSome_iff_exists.mp hgroup
  exact ⟨P, kids, rfl⟩

theorem WellFormed.freed_plug_iff (h : g.WellFormed root (P.plug (tree group (some kids)))) :
    (∃ g', g.nodeFree group = .ok g' ∧ g.Freed g' root P group kids) ↔
      g.Freeable P group kids := by
  by_cases hfirst : g.FirstOfPausedRoot group
  · constructor
    · rintro ⟨g', hg', -⟩
      exact absurd hg' (nodeFree_firstOfPausedRoot h hfirst g')
    · rintro ⟨hnot, -⟩
      exact absurd hfirst hnot
  obtain ⟨A, a, hA⟩ := P.exists_before root
  obtain ⟨g₁, w, hfree, hlinks, hroot₁, htable, hcons, hw⟩ := nodeFree_group h hA hfirst
  obtain ⟨hrep, hfloating, -⟩ := represents_detachedLinks h.links hA
  have hlasts : Lasts g₁.links.last kids := hlinks ▸ hfloating.lasts
  have hvisits : Visits g.links.parent (fun n => (g₁.links.last n).isSome) (some (P.owner root))
      (kids.nodes ++ P.after) w := by
    have hparent : g₁.links.parent = g.links.parent := by
      rw [hlinks]
      rfl
    exact hparent ▸ hw
  have hfreed := freed_iff_visits h (hlinks ▸ hrep) hroot₁ htable hcons hw.subset
    (h.links.nodes_subset_visits hvisits)
  have hiff := h.links.visits_iff g.table.count hvisits hlasts
  constructor
  · rintro ⟨g', hg', hg'freed⟩
    rw [hfree, Except.ok.injEq] at hg'
    subst hg'
    exact ⟨hfirst, hiff.mp (hfreed.mp hg'freed)⟩
  · rintro ⟨-, hcond⟩
    exact ⟨_, hfree, hfreed.mpr (hiff.mpr hcond)⟩

end Graph

/-- A group is freed with its nodes and nothing else if and only if it is not the first node,
not paused, of a paused root, the iterations over the group and over its sub-groups end in
time, or no other node is counted. -/
theorem freed_iff {g : Graph ι F} {root group : ι} {f : Forest ι} (h : g.WellFormed root f)
    (hlive : g.nullNodeP group = false) (hroot : group ≠ root) (hgroup : g.groupP group = true) :
    ∃ (P : Position ι) (kids : Forest ι), f = P.plug (tree group (some kids)) ∧
      ((∃ g', g.nodeFree group = .ok g' ∧ g.Freed g' root P group kids) ↔
        g.Freeable P group kids) := by
  obtain ⟨P, kids, rfl⟩ := h.exists_group hlive hroot hgroup
  exact ⟨P, kids, rfl, h.freed_plug_iff⟩

open scoped Literals in
def nestedForest : Forest (Fin 9) :=
  .group 1 (.group 2 .nil .nil) (.leaf 3 (.group 4 .nil .nil))

open scoped Literals in
/-- A group inside another one, a node and a group under the root, in a table of eight slots. -/
def nestedGroups : Graph (Fin 9) Unit :=
  { twoNodes with
    links := Links.ofForest 8 nestedForest
    table := { twoNodes.table with
      count := 4
      id := fun n => if n = 8 then some 0 else if 0 < n ∧ n < 5 then some n else none }
    lastNodeId := 4 }

theorem nestedGroups_wellFormed : nestedGroups.WellFormed 8 nestedForest :=
  ⟨rfl, by constructor <;> first | decide | repeat' constructor, by decide, fun _ _ _ => rfl⟩

open scoped Literals in
def innerForest : Forest (Fin 9) :=
  .group 1 (.group 2 (.leaf 3 .nil) (.leaf 4 .nil)) (.leaf 5 .nil)

open scoped Literals in
/-- A group with a group and a node, and another node under the root. -/
def innerGroups : Graph (Fin 9) Unit :=
  { nestedGroups with
    links := Links.ofForest 8 innerForest
    table := { nestedGroups.table with
      count := 5
      id := fun n => if n = 8 then some 0 else if 0 < n ∧ n < 6 then some n else none }
    lastNodeId := 5 }

theorem innerGroups_wellFormed : innerGroups.WellFormed 8 innerForest :=
  ⟨rfl, by constructor <;> first | decide | repeat' constructor, by decide, fun _ _ _ => rfl⟩

theorem freed_iff_innerGroups : ∃ (P : Position (Fin 9)) (g' : Graph (Fin 9) Unit),
    P.plug .nil = .leaf 5 .nil ∧ innerGroups.nodeFree 1 = .ok g' ∧
      innerGroups.Freed g' 8 P 1 (.group 2 (.leaf 3 .nil) (.leaf 4 .nil)) := by
  have hlive : innerGroups.nullNodeP 1 = false := rfl
  obtain ⟨P, kids, hf, hiff⟩ := freed_iff innerGroups_wellFormed hlive (by decide) rfl
  have hnodes : [] ++ 1 :: [2, 3, 4, 5] =
      (P.path.before ++ P.left.nodes) ++ 1 :: (kids.nodes ++ P.after) := by
    have hplug : innerForest.nodes = (P.plug (tree 1 (some kids))).nodes := congrArg _ hf
    rw [P.nodes_plug_eq, nodes_tree] at hplug
    refine Eq.trans (show _ = innerForest.nodes by decide) (hplug.trans ?_)
    simp [Position.after]
  have hbefore := ((List.append_cons_inj_of_notMem (by decide) (by decide)).mp hnodes).1
  obtain ⟨hpath, hleft⟩ := List.append_eq_nil_iff.mp hbefore.symm
  obtain ⟨path, left, right⟩ := P
  obtain rfl := Forest.nodes_eq_nil.mp hleft
  obtain rfl : path = [] := by
    cases path with
    | nil => rfl
    | cons x path => simp [Path.before] at hpath
  obtain ⟨-, rfl, rfl⟩ := Forest.group.inj hf
  have hfirst : ¬ innerGroups.FirstOfPausedRoot 1 := by
    rintro ⟨-, hpause, -⟩
    cases hpause
  obtain ⟨g', hg', hfreed⟩ := hiff.mpr
    ⟨hfirst, by decide, .inl ⟨by simp, by simp [Forest.Bounded]⟩⟩
  exact ⟨_, g', rfl, hg', hfreed⟩

/-- The node after the group that contains the freed one is freed too. -/
theorem nodeFree_not_freed :
    ¬ ∀ (g : Graph (Fin 9) Unit) (root group : Fin 9) (f : Forest (Fin 9)), g.WellFormed root f →
      g.nullNodeP group = false → group ≠ root → g.groupP group = true →
      ∃ (P : Position (Fin 9)) (kids : Forest (Fin 9)) (g' : Graph (Fin 9) Unit),
        f = P.plug (tree group (some kids)) ∧ g.nodeFree group = .ok g' ∧
          g.Freed g' root P group kids := by
  intro h
  obtain ⟨P, kids, g', hf, hg', hfreed⟩ :=
    h nestedGroups 8 2 nestedForest nestedGroups_wellFormed rfl (by decide) rfl
  have hlinks := nestedGroups_wellFormed.links
  rw [hf] at hlinks
  have hout : (3 : Fin 9) ∉ 2 :: kids.nodes := by
    intro hmem
    rcases List.mem_cons.mp hmem with h32 | hmem
    · exact absurd h32 (by decide)
    · obtain ⟨q, hq, hmem⟩ := hlinks.parents_tree_kids.mem hmem
      cases hq
      exact hlinks.notMem_of_mem_tree
        (show 8 ∈ 2 :: (descendants (some kids)).nodes from List.mem_cons.mpr hmem)
        (by simp [Position.before])
  have hid := hfreed.id_rest 3 hout
  cases hg'
  exact absurd hid (by decide)

end Incudine.NodeGraph

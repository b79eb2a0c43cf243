import Incudine.NodeStop

/-!
# Runs over the node tree

New nodes and groups, also refused ones, and frees in any order. The links are those of a tree
after any run without the calls that misplace a group or reach the nodes that follow it. The free
of the root always leaves the root alone.
-/

namespace Incudine.NodeGraph

open Function ThreadedForest

variable {ι F : Type} [DecidableEq ι] [Fintype ι]

section Conditions

variable (g : Graph ι F) (root : ι)

/-- A new group is not added after a node that is followed by others. -/
def Insertion.Places (op : Insertion F) (addAction : AddAction) (target : ι) : Prop :=
  op = .makeGroup → addAction = .after → ∀ f, g.WellFormed root f → ¬ Followed f target

/-- The free of a group does not reach other nodes. -/
def Graph.Frees (n : ι) : Prop :=
  ∀ P kids, g.WellFormed root (P.plug (tree n (some kids))) → g.Freeable P n kids

end Conditions

/-- The graphs reached from an empty tree. -/
inductive TreeRun (root : ι) : Graph ι F → Prop
  | start {g} (h : g.WellFormed root .nil) : TreeRun root g
  | insert {g g' op id addAction target r} (h : TreeRun root g)
      (hplaces : Insertion.Places g root op addAction target)
      (hrun : op.run g id addAction target = .ok (r, g')) : TreeRun root g'
  | free {g g' n} (h : TreeRun root g) (hfrees : g.Frees root n)
      (hfree : g.nodeFree n = .ok g') : TreeRun root g'

namespace Graph

variable {g g' : Graph ι F} {root n item target : ι} {f : Forest ι} {r : Option ι} {id : ℕ}
  {addAction : AddAction} {table : NodeTable ι}

omit [Fintype ι] in
/-- A refused node loses its identifier. -/
theorem Unlinked.notAdded (h : g.Unlinked f item none) :
    (g.setTable (g.table.setId item none)).WellFormed g.root f := by
  have hne {n : ι} (hn : n ∈ g.root :: f.nodes) : n ≠ item := fun heq => h.notMem (heq ▸ hn)
  refine ⟨rfl, h.links, fun n => ?_, fun n hn hgroup => h.hasCons n (.inr hn) hgroup⟩
  by_cases hn : n = item
  · rw [hn]
    refine iff_of_false ?_ h.notMem
    simp [nullNodeP, NodeTable.nullNodeP, setTable, NodeTable.setId]
  · have hid : (g.setTable (g.table.setId item none)).nullNodeP n = g.nullNodeP n := by
      simp [nullNodeP, NodeTable.nullNodeP, setTable, NodeTable.setId, hn]
    rw [hid, h.live n, or_iff_right hn]

theorem makeGroup_refused (hid : g.table.updatedNode id = .ok (item, table))
    (h : ¬ (g.nullNodeP item = true ∧ g.nullNodeP target = false ∧ addAction.Legal g target)) :
    g.makeGroup id addAction target = .ok (none, g.setTable table) := by
  obtain ⟨index, rfl, -⟩ := NodeTable.updatedNode_eq hid
  rw [makeGroup, hid, ok_bind]
  dsimp only
  split
  · rename_i hadd
    have hlegal : ¬ addAction.Legal g target := fun hlegal =>
      h ⟨hadd.1, Bool.eq_false_iff.mpr hadd.2, hlegal⟩
    cases addAction with
    | head => exact if_neg hlegal
    | tail => exact if_neg hlegal
    | before => exact if_pos (Classical.not_not.mp hlegal)
    | after => exact if_pos (Classical.not_not.mp hlegal)
  · rfl

section

variable (h : g.WellFormed root f)
include h

/-- The fields of a node that are initialized before it is refused. -/
theorem nodeAdd_refused (hnull : g.nullNodeP item = true) (hlive : g.nullNodeP target = false)
    (hlegal : ¬ addAction.Legal g target) {hash : ℕ} {perfFn : F}
    (hrun : g.nodeAdd item addAction target id hash perfFn = .ok (r, g')) :
    g'.WellFormed root f := by
  obtain rfl := h.rootEq
  have hinit := h.initialized hnull id hash perfFn
  have hdead : ¬ g.nullNodeP target = true := Bool.eq_false_iff.mp hlive
  by_cases hfull : g.table.Full
  · rw [nodeAdd, if_pos hfull] at hrun
    cases hrun
  rw [nodeAdd, if_neg hfull, if_neg hdead, if_pos hnull] at hrun
  revert hrun
  extract_lets g₁ g₂
  intro hrun
  obtain ⟨i, j, hlast⟩ := updateLastNodeId_eq g₁ id
  obtain ⟨hroot, htable, hlinks⟩ := initializeNode_fields (g₁.updateLastNodeId id) item perfFn
  change g₂.root = _ at hroot
  change g₂.links = _ at hlinks
  rw [hlast] at hroot hlinks
  have hroot : g₂.root = g.root := hroot
  have hne : target ≠ item := by
    rintro rfl
    rw [hnull] at hlive
    cases hlive
  have hgroup : g₂.groupP target = g.groupP target := by
    rw [groupP, hlinks]
    exact congrArg Option.isSome (update_of_ne hne _ _)
  change g₂.Unlinked f item none at hinit
  have hwf := hinit.notAdded
  rw [hroot] at hwf
  cases addAction with
  | head =>
    have hrefused : ¬ (¬ g₂.nullNodeP target = true ∧ g₂.groupP target = true) := fun hadd =>
      hlegal (hgroup.symm.trans hadd.2)
    dsimp only at hrun
    rw [addNodeToHead, if_neg hrefused] at hrun
    obtain ⟨-, rfl⟩ := Prod.mk.inj (Except.ok.inj hrun)
    exact hwf
  | tail =>
    have hrefused : ¬ (¬ g₂.nullNodeP target = true ∧ g₂.groupP target = true) := fun hadd =>
      hlegal (hgroup.symm.trans hadd.2)
    dsimp only at hrun
    rw [addNodeToTail, if_neg hrefused] at hrun
    obtain ⟨-, rfl⟩ := Prod.mk.inj (Except.ok.inj hrun)
    exact hwf
  | before =>
    have hrefused : ¬ (¬ g₂.nullNodeP target = true ∧ target ≠ g₂.root) := fun hadd =>
      hlegal fun heq => hadd.2 (heq.trans hroot.symm)
    dsimp only at hrun
    rw [addNodeBefore, if_neg hrefused] at hrun
    obtain ⟨-, rfl⟩ := Prod.mk.inj (Except.ok.inj hrun)
    exact hwf
  | after =>
    obtain rfl : target = g.root := Classical.not_not.mp hlegal
    have hparent : g₂.links.parent g.root = none := by
      rw [hlinks]
      exact h.links.parentRoot
    dsimp only at hrun
    rw [addNodeAfter] at hrun
    split at hrun
    · dsimp only at hrun
      cases hprev : (g₂.setParent item (g₂.links.parent g.root)).findLastNode g.root with
      | error e =>
        rw [hprev] at hrun
        cases hrun
      | ok prev =>
        rw [hprev, ok_bind] at hrun
        change (theNode (update g₂.links.parent item (g₂.links.parent g.root) item) >>= _) = _ at hrun
        rw [update_self, hparent] at hrun
        cases hrun
    · obtain ⟨-, rfl⟩ := Prod.mk.inj (Except.ok.inj hrun)
      exact hwf

theorem play_refused (hid : g.table.updatedNode id = .ok (item, table))
    (hrefused : ¬ (g.nullNodeP item = true ∧ g.nullNodeP target = false ∧ addAction.Legal g target))
    {perfFn : F} (hrun : g.play id addAction target perfFn = .ok (r, g')) :
    g'.WellFormed root f := by
  obtain ⟨index, rfl, hfull⟩ := NodeTable.updatedNode_eq hid
  have h₁ : (g.setTable { g.table with index := index }).WellFormed root f := h.setTable rfl
  rw [play, hid, ok_bind] at hrun
  by_cases hnull : g.nullNodeP item = true
  · cases hlive : g.nullNodeP target with
    | true =>
      dsimp only at hrun
      have hfull₁ : ¬ (g.setTable { g.table with index := index }).table.Full := hfull
      have hdead : (g.setTable { g.table with index := index }).nullNodeP target = true := hlive
      rw [nodeAdd, if_neg hfull₁, if_pos hdead] at hrun
      cases hrun
    | false =>
      have hlegal : ¬ addAction.Legal (g.setTable { g.table with index := index }) target := by
        intro hlegal
        refine hrefused ⟨hnull, hlive, ?_⟩
        cases addAction <;> exact hlegal
      exact nodeAdd_refused h₁ hnull hlive hlegal hrun
  · dsimp only at hrun
    rw [nodeAdd] at hrun
    split at hrun
    · cases hrun
    split at hrun
    · cases hrun
    split at hrun
    · exact absurd ‹_› hnull
    · obtain ⟨-, rfl⟩ := Prod.mk.inj (Except.ok.inj hrun)
      exact h₁

theorem WellFormed.insert {op : Insertion F} (hplaces : op.Places g root addAction target)
    (hrun : op.run g id addAction target = .ok (r, g')) : ∃ f', g'.WellFormed root f' := by
  cases hid : g.table.updatedNode id with
  | error e =>
    cases op with
    | makeGroup =>
      rw [Insertion.run, makeGroup, hid] at hrun
      cases hrun
    | play perfFn =>
      rw [Insertion.run, play, hid] at hrun
      cases hrun
  | ok node =>
    obtain ⟨item, table⟩ := node
    by_cases hadd : g.nullNodeP item = true ∧ g.nullNodeP target = false ∧
        addAction.Legal g target
    · obtain ⟨hnull, hlive, hlegal⟩ := hadd
      obtain ⟨P, rfl, hat⟩ := h.exists_at hlive hlegal
      cases op with
      | makeGroup =>
        have hafter : addAction = .after → P.after = [] := by
          rintro rfl
          obtain rfl := h.rootEq
          by_contra hne
          exact hplaces rfl rfl _ h ((followed_iff h hat).mpr hne)
        obtain ⟨g₁, hg₁, hwf⟩ := makeGroup_ok h hid hnull hlive hlegal rfl hat hafter
        obtain ⟨-, rfl⟩ := Prod.mk.inj (Except.ok.inj (hrun.symm.trans hg₁))
        exact ⟨_, hwf⟩
      | play perfFn =>
        obtain ⟨g₁, hg₁, hwf⟩ := play_ok h hid hnull hlive hlegal rfl hat perfFn
        obtain ⟨-, rfl⟩ := Prod.mk.inj (Except.ok.inj (hrun.symm.trans hg₁))
        exact ⟨_, hwf⟩
    · obtain ⟨index, htable, -⟩ := NodeTable.updatedNode_eq hid
      cases op with
      | makeGroup =>
        rw [Insertion.run, makeGroup_refused hid hadd] at hrun
        obtain ⟨-, rfl⟩ := Prod.mk.inj (Except.ok.inj hrun)
        exact ⟨f, h.setTable (by rw [htable])⟩
      | play perfFn => exact ⟨f, play_refused h hid hadd hrun⟩

theorem WellFormed.removed (hlive : g.nullNodeP n = false) (hroot : n ≠ root)
    (hgroup : g.groupP n = true) (hfrees : g.Frees root n) (hfree : g.nodeFree n = .ok g') :
    ∃ f', g'.WellFormed root f' := by
  obtain ⟨P, kids, rfl⟩ := h.exists_group hlive hroot hgroup
  obtain ⟨g₁, hg₁, hfreed⟩ := h.freed_plug_iff.mpr (hfrees P kids h)
  obtain rfl := Except.ok.inj (hfree.symm.trans hg₁)
  exact ⟨_, hfreed.wellFormed⟩

/-- The free of the root frees all the other nodes, also where some of them are visited again. -/
theorem WellFormed.freeAll :
    ∃ g', g.nodeFree root = .ok g' ∧ g'.WellFormed root .nil ∧
      (∀ n, g'.table.id n = if n ∈ f.nodes then none else g.table.id n) ∧
      g'.table.count ≤ g.table.count - f.nodes.length := by
  obtain rfl := h.rootEq
  obtain ⟨hmem, hnodup⟩ := List.nodup_cons.mp h.links.nodup
  have hthread := h.links.next
  have hnext : g.links.next g.root = f.nodes.head? := by simpa using hthread.1
  have hlive (n : ι) : g.nullNodeP n = false ↔ n = g.root ∨ n ∈ f.nodes :=
    (h.live n).trans List.mem_cons
  rw [nodeFree, if_pos rfl]
  by_cases hnil : f.nodes = []
  · obtain rfl := Forest.nodes_eq_nil.mp hnil
    have hnone : ¬ (g.links.next g.root).isSome = true := by simp [hnext]
    refine ⟨{ g with lastNodeId := 1 }, if_neg hnone, ⟨rfl, h.links, h.live, h.hasCons⟩,
      fun n => (if_neg List.not_mem_nil).symm, le_rfl⟩
  obtain ⟨w, hw⟩ := exists_visits g.links.parent (fun n => (g.links.last n).isSome) none f.nodes
  have hparent : ∀ n ∈ f.nodes, g.links.parent n ≠ none := by
    intro n hn hnone
    obtain ⟨m, hm, -⟩ := h.links.parents.mem hn
    rw [hnone] at hm
    cases hm
  have hsub := hw.subperm
  rw [List.takeWhile_eq_self_iff.mpr fun n hn => by simpa using hparent n hn] at hsub
  have hcard := h.links.nodup.length_le_card
  rw [List.length_cons] at hcard
  set g₀ : Graph ι F := { g with lastNodeId := 1 }
  have hloop : g₀.dogroup (unlinkBody (Fintype.card ι)) g.root = .ok (g₀.unlinkedAll w) := by
    rw [dogroup]
    change dogroupLoop _ (g.links.parent g.root) _ g₀ (g.links.next g.root) = _
    rw [h.links.parentRoot, hnext]
    exact dogroupLoop_unlinkBody hw rfl hthread.2 hmem (by omega) (by unfold NodeGraph.fuel; omega)
      (by omega)
  set g₁ := g₀.unlinkedAll w
  have hroot₁ : g.root = g₁.root := (unlinkedAll_root g₀ w).symm
  have hsome : (g₀.links.next g.root).isSome = true := by
    change (g.links.next g.root).isSome = true
    rw [hnext]
    simpa using hnil
  have hid (n : ι) : g₁.table.id n = if n ∈ f.nodes then none else g.table.id n := by
    rw [unlinkedAll_id]
    exact if_congr ⟨fun hn => hw.subset hn, fun hn => hsub.subset hn⟩ rfl rfl
  let g₂ : Graph ι F := (((g₁.setFuncons g.root none).setNext g.root none).setLast g.root
    (some none)).setPauseP g.root false
  refine ⟨g₂, ?_, ?_, hid, ?_⟩
  · have hgroup : g₀.unlinkGroup g.root = .ok g₂ := by
      rw [unlinkGroup, NodeGraph.fuel, unlinkGroupLoop]
      change (g₀.dogroup (unlinkBody (Fintype.card ι)) g.root >>= _) = _
      rw [hloop, ok_bind]
      exact if_pos hroot₁
    exact (if_pos hsome).trans hgroup
  · have hlinks : g₁.links = g.links := unlinkedAll_links g₀ w
    refine ⟨hroot₁.symm, ⟨by simp, ⟨?_, trivial⟩, ⟨?_, trivial⟩, ?_, trivial, ?_, trivial⟩,
      fun n => ?_, fun n hn hgroup => ?_⟩
    · exact update_self ..
    · change g₁.links.prev g.root = none
      rw [hlinks]
      exact h.links.prev.1
    · change g₁.links.parent g.root = none
      rw [hlinks]
      exact h.links.parentRoot
    · exact update_self ..
    · change (g₁.table.id n).isNone = false ↔ n ∈ [g.root]
      rw [hid, List.mem_singleton]
      by_cases hn : n ∈ f.nodes
      · rw [if_pos hn]
        exact iff_of_false (fun hnull => by cases hnull) fun heq => hmem (heq ▸ hn)
      · rw [if_neg hn]
        exact (hlive n).trans (or_iff_left hn)
    · rw [List.mem_singleton.mp hn, groupP] at hgroup
      change (update g₁.links.last g.root (some none) g.root).isSome = false at hgroup
      rw [update_self] at hgroup
      cases hgroup
  · change g₁.table.count ≤ _
    rw [unlinkedAll_count]
    exact Nat.sub_le_sub_left hsub.length_le _

theorem WellFormed.nodeFree (hfrees : g.Frees root n) (hfree : g.nodeFree n = .ok g') :
    ∃ f', g'.WellFormed root f' := by
  by_cases hroot : n = root
  · obtain ⟨g₁, hg₁, hwf, -⟩ := h.freeAll
    rw [hroot, hg₁] at hfree
    obtain rfl := Except.ok.inj hfree
    exact ⟨_, hwf⟩
  cases hlive : g.nullNodeP n with
  | true =>
    rw [Graph.nodeFree, if_neg (h.rootEq ▸ hroot)] at hfree
    have hid : g.table.id n = none := Option.isNone_iff_eq_none.mp hlive
    rw [hid] at hfree
    obtain rfl := Except.ok.inj hfree
    exact ⟨f, h⟩
  | false =>
    cases hgroup : g.groupP n with
    | true => exact h.removed hlive hroot hgroup hfrees hfree
    | false => exact (h.nodeFree_leaf hlive hgroup hfree).wellFormed

end

end Graph

/-- The tree is well formed after any run. -/
theorem TreeRun.exists_wellFormed {g : Graph ι F} {root : ι} (h : TreeRun root g) :
    ∃ f, g.WellFormed root f := by
  induction h with
  | start h => exact ⟨.nil, h⟩
  | insert _ hplaces hrun ih =>
    obtain ⟨f, hf⟩ := ih
    exact hf.insert hplaces hrun
  | free _ hfrees hfree ih =>
    obtain ⟨f, hf⟩ := ih
    exact hf.nodeFree hfrees hfree

open scoped Literals in
/-- The root alone, in a table of eight slots. -/
def rootAlone : Graph (Fin 9) Unit :=
  { twoNodes with
    links := Links.ofForest 8 .nil
    table := { twoNodes.table with
      count := 0
      id := fun n => if n = 8 then some 0 else none } }

theorem wellFormed_rootAlone : ∃ g₁ g₂ g₃ : Graph (Fin 9) Unit,
    rootAlone.makeGroup 1 .head 8 = .ok (some 1, g₁) ∧ g₁.play 2 .tail 1 () = .ok (some 2, g₂) ∧
      g₂.nodeFree 2 = .ok g₃ ∧ ∃ f, g₃.WellFormed 8 f := by
  have hstart : TreeRun 8 rootAlone :=
    .start ⟨rfl, by constructor <;> first | decide | repeat' constructor, by decide, fun _ _ _ => rfl⟩
  have hgroup := @TreeRun.insert _ _ _ _ _ _ _ .makeGroup 1 .head 8 _ hstart
    (fun _ h => by cases h) rfl
  have hnode := @TreeRun.insert _ _ _ _ _ _ _ (.play ()) 2 .tail 1 _ hgroup
    (fun h => by cases h) rfl
  have hfree := @TreeRun.free _ _ _ _ _ _ _ 2 hnode (fun P kids h => by
    have hgroup := h.groupP_tree
    cases hgroup) rfl
  exact ⟨_, _, _, rfl, rfl, rfl, hfree.exists_wellFormed⟩

/-- The free of the root of a tree frees exactly the other nodes, also where the iterations over
the groups go too far. -/
theorem freeAll_ok {g : Graph ι F} {root : ι} {f : Forest ι} (h : g.WellFormed root f)
    (hcount : g.table.count = f.nodes.length) : ∃ g', g.nodeFree root = .ok g' ∧
      g'.WellFormed root .nil ∧ (∀ n ∉ f.nodes, g'.table.id n = g.table.id n) ∧
      g'.table.count = 0 := by
  obtain ⟨g', hfree, hwf, hid, hle⟩ := h.freeAll
  refine ⟨g', hfree, hwf, fun n hn => (hid n).trans (if_neg hn), ?_⟩
  rw [hcount, Nat.sub_self] at hle
  exact Nat.le_zero.mp hle

theorem freeAll_nestedGroups : ∃ g', nestedGroups.nodeFree 8 = .ok g' ∧ g'.WellFormed 8 .nil ∧
    g'.table.count = 0 := by
  obtain ⟨g', hfree, hwf, -, hcount⟩ := freeAll_ok nestedGroups_wellFormed rfl
  exact ⟨g', hfree, hwf, hcount⟩

end Incudine.NodeGraph

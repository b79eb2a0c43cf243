import Incudine.NodeTraversal

/-!
# Insertion of nodes

A new node or group is linked at the position requested by the add action, and the tree stays
well formed. The exception is `%make-group` with `:after` if another node follows the target:
the previous node of that one is not updated.
-/

set_option linter.unusedSectionVars false

namespace Incudine.NodeGraph

open Function ThreadedForest

variable {ι F : Type} [DecidableEq ι] [Fintype ι]

/-- The live nodes are linked as `root` with the forest `f`, and those that are not groups
have a cons. -/
structure Graph.WellFormed (g : Graph ι F) (root : ι) (f : Forest ι) : Prop where
  rootEq : g.root = root
  links : Represents g.links root f
  live : ∀ n, g.nullNodeP n = false ↔ n ∈ root :: f.nodes
  hasCons : g.HasCons (· ∈ root :: f.nodes)

/-- An insertion returns the node, which is in a well-formed tree. -/
abbrev Graph.Attached (root : ι) (f : Forest ι) (item : ι) (r : Result (Option ι × Graph ι F)) :
    Prop :=
  ∃ g', r = .ok (some item, g') ∧ g'.WellFormed root f

namespace AddAction

/-- The position that an action requests with respect to the target. -/
def At (root : ι) (P : Position ι) (target : ι) : AddAction → Prop
  | head => P.owner root = target ∧ P.left = .nil
  | tail => P.owner root = target ∧ P.right = .nil
  | before => ∃ k right, P.right = tree target k ++ right
  | after => ∃ left k, P.left = left ++ tree target k

/-- The targets of an action: the groups, or the nodes other than the root. -/
def Legal (g : Graph ι F) (target : ι) : AddAction → Prop
  | head | tail => g.groupP target = true
  | before | after => target ≠ g.root

end AddAction

variable {addAction : AddAction}

namespace Graph

variable {g g' : Graph ι F} {root : ι} {f : Forest ι} {item target a : ι} {k : Option (Forest ι)}
  {P : Position ι} {A : List ι}

theorem WellFormed.subtree (h : g.WellFormed root f) {n : ι} (hn : g.nullNodeP n = false) :
    ∃ k, (tree root (some f)).Subtree n k := by
  apply Forest.exists_subtree
  simpa using (h.live n).mp hn

theorem WellFormed.exists_at (h : g.WellFormed root f) (hlive : g.nullNodeP target = false)
    (hlegal : addAction.Legal g target) :
    ∃ P : Position ι, P.plug .nil = f ∧ addAction.At root P target := by
  obtain rfl := h.rootEq
  obtain ⟨k, hk⟩ := h.subtree hlive
  have hlast := (lasts_tree.mp (hk.lasts h.links.lasts_root)).1
  have hnotRoot : target ≠ g.root → f.Subtree target k := by
    intro hroot
    cases hk with
    | group => exact absurd rfl hroot
    | groupKids hk => exact hk
    | groupRest hk => cases hk
  have hgroup : g.groupP target = true → ∃ path kids, Path.up path kids = f ∧
      path.owner g.root = target := by
    intro hgroup
    cases k with
    | none => simp [groupP, hlast] at hgroup
    | some kids =>
      cases hk with
      | group => exact ⟨[], f, rfl, rfl⟩
      | groupKids hk =>
        obtain ⟨P, rfl⟩ := hk.exists_position
        exact ⟨(P.left, target, P.right) :: P.path, kids, rfl, rfl⟩
      | groupRest hk => cases hk
  cases addAction with
  | head =>
    obtain ⟨path, kids, hf, howner⟩ := hgroup hlegal
    exact ⟨⟨path, .nil, kids⟩, hf, howner, rfl⟩
  | tail =>
    obtain ⟨path, kids, hf, howner⟩ := hgroup hlegal
    exact ⟨⟨path, kids, .nil⟩, by simpa [Position.plug] using hf, howner, rfl⟩
  | before =>
    obtain ⟨P, rfl⟩ := (hnotRoot hlegal).exists_position
    exact ⟨⟨P.path, P.left, tree target k ++ P.right⟩, rfl, k, P.right, rfl⟩
  | after =>
    obtain ⟨P, rfl⟩ := (hnotRoot hlegal).exists_position
    refine ⟨⟨P.path, P.left ++ tree target k, P.right⟩, ?_, P.left, k, rfl⟩
    simp [Position.plug, Forest.append_assoc]

/-- The node `item` is live and not linked yet. -/
structure Unlinked (g : Graph ι F) (f : Forest ι) (item : ι) (k : Option (Forest ι)) :
    Prop where
  links : Represents g.links g.root f
  notMem : item ∉ g.root :: f.nodes
  live : ∀ n, g.nullNodeP n = false ↔ n = item ∨ n ∈ g.root :: f.nodes
  hasCons : g.HasCons fun n => n = item ∨ n ∈ g.root :: f.nodes
  descendants : descendants k = .nil
  last : g.links.last item = k.map Forest.lastTop

theorem mem_plug_tree (hk : descendants k = .nil) (root n : ι) :
    n ∈ root :: (P.plug (tree item k)).nodes ↔ n = item ∨ n ∈ root :: (P.plug .nil).nodes := by
  rw [P.nodes_plug, P.nodes_plug, nodes_tree, hk]
  simp only [Forest.nodes_nil, List.cons_append, List.nil_append, List.mem_append, List.mem_cons]
  tauto

/-- The nodes are the same but for their links. -/
structure OnlyLinks (g g' : Graph ι F) : Prop where
  root : g'.root = g.root
  table : g'.table = g.table
  funcons : g'.funcons = g.funcons

section

variable (h : g.Unlinked (P.plug .nil) item k) (hg : g.OnlyLinks g')
  (ha : P.before g.root = A ++ [a])
  (hnext : g'.links.next = update (update g.links.next item (g.links.next a)) a (some item))
include h hg ha hnext

theorem Unlinked.linked
    (hprevNone : g.links.next a = none → g'.links.prev = update g.links.prev item (some a))
    (hprevSome : ∀ b, g.links.next a = some b →
      g'.links.prev = update (update g.links.prev item (some a)) b (some item))
    (hparent : g'.links.parent = update g.links.parent item (some (P.owner g.root)))
    (hlast : g'.links.last = update g.links.last (P.owner g.root)
      (some (some (P.right.lastTop.getD item)))) : g'.WellFormed g.root (P.plug (tree item k)) := by
  have hrep := h.links.insert h.descendants h.notMem ha h.last hnext hprevNone hprevSome hparent
    hlast
  have hmem : ∀ n, n ∈ g.root :: (P.plug (tree item k)).nodes ↔
      n = item ∨ n ∈ g.root :: (P.plug .nil).nodes :=
    fun n => mem_plug_tree h.descendants g.root n
  constructor
  · exact hg.root
  · exact hrep
  · intro n
    rw [nullNodeP, hg.table]
    exact (h.live n).trans (hmem n).symm
  · intro n hn hgroup
    rw [hg.funcons]
    refine h.hasCons n ((hmem n).mp hn) ?_
    rw [groupP, Option.isSome_eq_false_iff, Option.isNone_iff_eq_none] at hgroup ⊢
    rw [hlast] at hgroup
    rcases eq_or_ne n (P.owner g.root) with rfl | hne
    · simp at hgroup
    · rwa [update_of_ne hne] at hgroup

theorem Unlinked.linked_after (hprev : g'.links.prev = update g.links.prev item (some a))
    (hparent : g'.links.parent = update g.links.parent item (some (P.owner g.root)))
    (hlast : g'.links.last = update g.links.last (P.owner g.root)
      (some (some (P.right.lastTop.getD item)))) :
    (g.links.next a = none → g'.WellFormed g.root (P.plug (tree item k))) ∧
      ∀ b, g.links.next a = some b →
        (g'.setPrev b (some item)).WellFormed g.root (P.plug (tree item k)) := by
  constructor
  · intro hnone
    refine h.linked hg ha hnext (fun _ => hprev) (fun b hb => ?_) hparent hlast
    rw [hnone] at hb
    cases hb
  · intro b hb
    refine h.linked ⟨hg.root, hg.table, hg.funcons⟩ ha hnext (fun hnone => ?_)
      (fun b' hb' => ?_) hparent hlast
    · rw [hnone] at hb
      cases hb
    · obtain rfl : b = b' := Option.some.inj (hb.symm.trans hb')
      exact congrArg (fun prev => update prev b (some item)) hprev

end

theorem OnlyFuncons.wellFormed (h : g.OnlyFuncons g') (hg : g.WellFormed root f) :
    g'.WellFormed root f := by
  have hcons := h.hasCons hg.hasCons
  obtain ⟨funcons, cdr, rfl, -⟩ := h
  exact ⟨hg.rootEq, hg.links, hg.live, hcons⟩

section

variable (h : g.WellFormed root f)
include h

theorem WellFormed.ordered : g.Ordered (· ∈ root :: f.nodes) (fun n => (root :: f.nodes).idxOf n) :=
  ordered_of_represents h.links

theorem WellFormed.updatePreviousFuncons_ok {n : ι} (hn : n ∈ root :: f.nodes) (pauseP : Bool)
    (hpause : pauseP = true → n ≠ root) (endNode : Option ι) :
    ∃ g', g.updatePreviousFuncons n pauseP endNode = .ok g' ∧ g.OnlyFuncons g' := by
  obtain rfl := h.rootEq
  have hback := orderedBack_of_represents h.links ((g.root :: f.nodes).idxOf n)
  exact Graph.updatePreviousFuncons_ok h.ordered h.hasCons hn hback pauseP
    (fun hp => (hback n hn le_rfl).1 (hpause hp)) endNode

theorem pausedParent_root : g.pausedParent root = .ok none := by
  rw [pausedParent, h.links.parentRoot]
  rfl

theorem WellFormed.incCount : (g.setTable g.table.incCount).WellFormed root f :=
  ⟨h.rootEq, h.links, h.live, h.hasCons⟩

theorem WellFormed.added_ok (hitem : item ∈ root :: f.nodes) (hleaf : g.groupP item = false) :
    Attached root f item (g.added item) := by
  obtain ⟨c, hc⟩ := Option.isSome_iff_exists.mp (h.hasCons item hitem hleaf)
  have hcar : ∀ fn, ∃ g', (g.setTable g.table.incCount).setNodeCurrentFunction item fn = .ok g' ∧
      g'.WellFormed root f := by
    intro fn
    refine ⟨{ g.setTable g.table.incCount with car := update g.car c fn }, ?_, ?_⟩
    · simp only [setNodeCurrentFunction, setTable, hc]
      rfl
    · exact ⟨h.rootEq, h.links, h.live, h.hasCons⟩
  have hstart : ∃ g', (g.setTable g.table.incCount).startWithFadeIn item = .ok g' ∧
      g'.WellFormed root f := by
    unfold startWithFadeIn
    split_ifs
    · exact ⟨_, rfl, h.incCount⟩
    · exact hcar _
    · exact ⟨_, rfl, h.incCount⟩
  obtain ⟨g', hg', hwf⟩ := hstart
  exact ⟨g', by rw [added, hg', ok_bind]; rfl, hwf⟩

end

theorem setLast_eq_self {n : ι} {p : Option (Option ι)} (h : g.links.last n = p) :
    g.setLast n p = g := by
  simp [setLast, ← h]

theorem setLast_head {p : Option ι} (hlast : g.links.last target = some p) :
    (if (g.lastNodeP target).isSome then g else g.setLast target (some (some item))) =
      g.setLast target (some (some (p.getD item))) := by
  cases p with
  | none => simp [lastNodeP, hlast]
  | some r =>
    rw [Option.getD_some, setLast_eq_self hlast]
    simp [lastNodeP, hlast]

structure Linked (g : Graph ι F) (root : ι) (f : Forest ι) (item : ι) : Prop where
  wellFormed : g.WellFormed root f
  mem : item ∈ root :: f.nodes
  leaf : g.groupP item = false

theorem mem_tree_plug (P : Position ι) (root item : ι) (k : Option (Forest ι)) :
    item ∈ root :: (P.plug (tree item k)).nodes := by
  rw [P.nodes_plug]
  simp

theorem WellFormed.groupP_tree (h : g.WellFormed root (P.plug (tree item k))) :
    g.groupP item = k.isSome := by
  have hlasts := (P.lasts_plug.mp ⟨h.links.lastRoot, h.links.lasts⟩).2.2
  simp [groupP, (lasts_tree.mp hlasts).1]

theorem WellFormed.linked (h : g.WellFormed root (P.plug (tree item none))) :
    g.Linked root (P.plug (tree item none)) item :=
  ⟨h, mem_tree_plug P root item none, h.groupP_tree⟩

theorem Linked.of_onlyFuncons (h : g.Linked root f item) (hg : g.OnlyFuncons g') :
    g'.Linked root f item := by
  have hwf := hg.wellFormed h.wellFormed
  obtain ⟨funcons, cdr, rfl, -⟩ := hg
  exact ⟨hwf, h.mem, h.leaf⟩

theorem Linked.isSome_funcons (h : g.Linked root f item) : (g.funcons item).isSome :=
  h.wellFormed.hasCons item h.mem h.leaf

theorem Linked.added_ok (h : g.Linked root f item) :
    Attached root f item (g.added item) :=
  h.wellFormed.added_ok h.mem h.leaf

theorem Linked.updatePausedFuncons_ok (h : g.Linked root f item) {n : ι}
    (hn : n ∈ root :: f.nodes) : ∃ p g', g.pausedParent n = .ok p ∧ g.updatePreviousFuncons n p.isSome none = .ok g' ∧
      g'.Linked root f item := by
  obtain ⟨p, hp, -⟩ := pausedParent_ok h.wellFormed.ordered hn
  have hroot : p.isSome = true → n ≠ root := by
    rintro hsome rfl
    rw [pausedParent_root h.wellFormed] at hp
    cases hp
    cases hsome
  obtain ⟨g', hg', honly⟩ := h.wellFormed.updatePreviousFuncons_ok hn p.isSome hroot none
  exact ⟨p, g', hp, hg', h.of_onlyFuncons honly⟩

theorem owner_mem_plug (P : Position ι) (root : ι) (f : Forest ι) :
    P.owner root ∈ root :: (P.plug f).nodes := by
  rw [P.nodes_plug]
  exact List.mem_append_left _ (P.owner_mem root)

theorem exists_before_lastNode (P : Position ι) (root : ι) :
    ∃ A, P.before root = A ++ [lastNode (P.owner root) (some P.left)] := by
  obtain ⟨A, hA⟩ := P.before_eq root
  obtain ⟨C, hC⟩ := nodes_eq_append_lastNode (P.owner root) (some P.left)
  rw [descendants_some] at hC
  exact ⟨A ++ C, by rw [hA, hC, List.append_assoc]⟩

theorem Linked.updatePreviousFuncons_ok (h : g.Linked root f item) (pauseP : Bool) :
    ∃ g', g.updatePreviousFuncons item pauseP none = .ok g' ∧ g'.Linked root f item := by
  have hroot : item ≠ root := by
    rintro rfl
    have hlast := h.wellFormed.links.lastRoot
    have hleaf := h.leaf
    simp [groupP, hlast] at hleaf
  obtain ⟨g', hg', honly⟩ := h.wellFormed.updatePreviousFuncons_ok h.mem pauseP (fun _ => hroot)
    none
  exact ⟨g', hg', h.of_onlyFuncons honly⟩

theorem nextFuncons_added_ok (hnone : g.links.next item = none → g.Linked root f item)
    (hsome : ∀ b, g.links.next item = some b → (g.setPrev b (some item)).Linked root f item) :
    Attached root f item (do
      let paused := (← g.pausedParent item).isSome
      let g ← match g.links.next item with
        | some next => (g.setPrev next (some item)).updateNextFuncons item false paused
        | none => pure g
      let g ← g.updatePreviousFuncons item paused none
      g.added item) := by
  have hend : ∀ (g₁ : Graph ι F) (paused : Bool), g₁.Linked root f item →
      Attached root f item (g₁.updatePreviousFuncons item paused none >>= fun g => g.added item) := by
    intro g₁ paused h₁
    obtain ⟨g₂, hg₂, h₂⟩ := h₁.updatePreviousFuncons_ok paused
    rw [hg₂, ok_bind]
    exact h₂.added_ok
  cases hb : g.links.next item with
  | none =>
    have h := hnone hb
    obtain ⟨p, hp, -⟩ := pausedParent_ok h.wellFormed.ordered h.mem
    rw [hp, ok_bind]
    exact hend g p.isSome h
  | some b =>
    have h := hsome b hb
    have hordered := h.wellFormed.ordered
    have hg : g.Ordered _ _ := hordered.congr rfl rfl rfl
    obtain ⟨p, hp, -⟩ := pausedParent_ok hg h.mem
    obtain ⟨g₁, hg₁, honly⟩ := updateNextFuncons_ok hordered h.mem false
      (fun hf => by cases hf) (fun _ => h.isSome_funcons) p.isSome
      (fun _ => by simp [setPrev, hb])
    rw [hp, ok_bind]
    dsimp only
    rw [hg₁, ok_bind]
    exact hend g₁ p.isSome (h.of_onlyFuncons honly)

theorem Unlinked.setLast_after (h : g.Unlinked (P.plug .nil) item k) {left : Forest ι}
    {k' : Option (Forest ι)} (hleft : P.left = left ++ tree target k')
    (hsame : g'.links.last = g.links.last) :
    (if g'.lastNodeP (P.owner g.root) = some target
      then g'.setLast (P.owner g.root) (some (some item)) else g') =
      g'.setLast (P.owner g.root) (some (some (P.right.lastTop.getD item))) := by
  have hlast := h.links.last_owner
  rw [Forest.nil_append, Forest.lastTop_append, hleft, Forest.lastTop_append,
    ← Forest.append_nil (tree target k'), lastTop_tree_append, ← hsame] at hlast
  cases hr : P.right.lastTop with
  | none => simp [lastNodeP, hlast, hr]
  | some r =>
    have hne : r ≠ target := by
      rintro rfl
      have hnodup := (List.nodup_cons.mp h.links.nodup).2
      rw [P.nodes_plug_eq, hleft] at hnodup
      have hmem := Forest.lastTop_mem hr
      simp only [Forest.nodes_append, nodes_tree, List.nodup_append', List.disjoint_left] at hnodup
      exact hnodup.2.1.2.2 (List.mem_append_right _ List.mem_cons_self) (by simp [hmem])
    rw [hr, Option.some_or] at hlast
    rw [lastNodeP, hlast, if_neg (by simpa using hne), Option.getD_some, setLast_eq_self hlast]

theorem Unlinked.after (h : g.Unlinked (P.plug .nil) item k)
    (hat : AddAction.after.At g.root P target) :
    ∃ A left k', P.left = left ++ tree target k' ∧ P.before g.root = A ++ [lastNode target k'] ∧
      g.findLastNode target = .ok (lastNode target k') ∧
      g.links.parent target = some (P.owner g.root) ∧ item ≠ lastNode target k' := by
  obtain ⟨left, k', hleft⟩ := hat
  obtain ⟨A, hA⟩ := exists_before_lastNode P g.root
  rw [hleft, lastNode_of_append] at hA
  have hsub : P.left.Subtree target k' := by
    rw [hleft]
    exact (Forest.subtree_tree target k').append_right
  refine ⟨A, left, k', hleft, hA, findLastNode_eq h.links (P.subtree_left hsub g.root .nil), ?_, ?_⟩
  · have hparents := (P.parents_plug.mp h.links.parents).1.2.1
    rw [hleft] at hparents
    exact (parents_tree.mp (parents_append.mp hparents).2).1
  · intro heq
    apply h.notMem
    rw [P.nodes_plug, hA, heq]
    simp

theorem Unlinked.before (h : g.Unlinked (P.plug .nil) item k)
    (hat : AddAction.before.At g.root P target) (hA : P.before g.root = A ++ [a]) :
    g.links.prev target = some a ∧ g.links.next a = some target ∧
      g.links.parent target = some (P.owner g.root) ∧ item ≠ target ∧
      g.links.last = update g.links.last (P.owner g.root)
        (some (some (P.right.lastTop.getD item))) := by
  obtain ⟨k', right, hright⟩ := hat
  have hafter : P.after.head? = some target := by simp [Position.after, hright]
  have hmem : target ∈ (P.plug .nil).nodes := by
    rw [P.nodes_plug_eq, hright]
    simp
  refine ⟨h.links.prev_first hA (by simpa using hafter), ?_, ?_, ?_, ?_⟩
  · simpa [hafter] using h.links.next_before hA
  · have hparents := (P.parents_plug.mp h.links.parents).1.2.2
    rw [hright] at hparents
    exact (parents_tree.mp (parents_append.mp hparents).1).1
  · rintro rfl
    exact h.notMem (List.mem_cons_of_mem _ hmem)
  · have hlast := h.links.last_owner
    rw [Forest.nil_append, Forest.lastTop_append, hright, lastTop_tree_append,
      Option.some_or] at hlast
    rw [hright, lastTop_tree_append, Option.getD_some, ← hlast, update_eq_self]

section

variable (h : g.Unlinked (P.plug .nil) item none)
include h

theorem addNodeToHead_ok (hat : AddAction.head.At g.root P target) :
    Attached g.root (P.plug (tree item none)) item (g.addNodeToHead item target) := by
  obtain ⟨rfl, hleft⟩ := hat
  obtain ⟨A, hA⟩ := Position.before_of_left_nil g.root hleft
  set target := P.owner g.root with htarget
  have hlast : g.links.last target = some P.right.lastTop := by
    simpa [hleft] using h.links.last_owner
  have hmem : target ∈ g.root :: (P.plug .nil).nodes := owner_mem_plug P g.root .nil
  have hlive : g.nullNodeP target = false := (h.live target).mpr (Or.inr hmem)
  have hne : item ≠ target := fun heq => h.notMem (heq ▸ hmem)
  unfold addNodeToHead
  extract_lets g₁ g₂ g₃ g₄ g₅ added update
  have hg₁ : g₁ = g.setLast target (some (some (P.right.lastTop.getD item))) :=
    setLast_head hlast
  clear_value g₁
  subst hg₁
  have hupdate : ∀ g₆ : Graph ι F, g₆.Linked g.root (P.plug (tree item none)) item → g₆.groupP target = true →
      Attached g.root (P.plug (tree item none)) item (update g₆) := by
    intro g₆ h₆ hgroup
    by_cases hpause : g₆.pauseP target
    · obtain ⟨g', hg', hwf⟩ := h₆.added_ok
      refine ⟨g', ?_, hwf⟩
      simp only [update, if_pos hpause]
      exact hg'
    · have h₇ := h₆.of_onlyFuncons (onlyFuncons_setFuncons hgroup (g₆.funcons item))
      have hmem₇ : target ∈ g.root :: (P.plug (tree item none)).nodes := owner_mem_plug P g.root _
      obtain ⟨p, g₈, hp, hg₈, h₈⟩ := h₇.updatePausedFuncons_ok hmem₇
      obtain ⟨g', hg', hwf⟩ := h₈.added_ok
      refine ⟨g', ?_, hwf⟩
      simp only [update, if_neg hpause, hp, ok_bind, hg₈, added, hg']
  rw [if_pos ⟨by simp [hlive], by simp [groupP, hlast]⟩]
  have hnext : g₅.links.next item = g.links.next target := by
    simp [g₅, g₄, g₃, g₂, setLast, setNext, setPrev, setParent, hne]
  have hgroup : ∀ p b, (g₅.setPrev b p).groupP target = true := by
    simp [groupP, g₅, g₄, g₃, g₂, setLast, setNext, setPrev, setParent]
  have honly : g.OnlyLinks g₅ := ⟨rfl, rfl, rfl⟩
  obtain ⟨hnone, hsome⟩ := h.linked_after honly hA rfl rfl rfl rfl
  rw [hnext]
  cases hb : g.links.next target with
  | none => exact hupdate g₅ (hnone hb).linked (hgroup (g₅.links.prev target) target)
  | some b =>
    dsimp -zeta only
    extract_lets g₆
    have h₆ : g₆.WellFormed g.root (P.plug (tree item none)) := hsome b hb
    have hcdr : ∀ c, Attached g.root (P.plug (tree item none)) item (g₆.setCdr item c >>= update) := by
      intro c
      obtain ⟨g₇, hg₇, honly⟩ := Graph.setCdr_ok h₆.linked.isSome_funcons c
      rw [hg₇, ok_bind]
      refine hupdate g₇ (h₆.linked.of_onlyFuncons honly) ?_
      rw [groupP, honly.links]
      exact hgroup (some item) b
    cases g₆.funcons target with
    | some c => exact hcdr (some c)
    | none =>
      obtain ⟨p, hp, -⟩ := pausedParent_ok h₆.ordered h₆.linked.mem
      obtain ⟨c, hc⟩ := nodeNextFuncons_ok h₆.ordered h₆.linked.mem
      simp only [hp, ok_bind, hc]
      split_ifs
      · exact hcdr _
      · exact hcdr c

theorem addNodeToEmptyGroup_ok (hleft : P.left = .nil) (hright : P.right = .nil)
    (htarget : P.owner g.root = target) :
    ∃ g', (g.setParent item (some target)).addNodeToEmptyGroup item target = .ok g' ∧
      g'.Linked g.root (P.plug (tree item none)) item := by
  obtain ⟨A, hA⟩ := Position.before_of_left_nil g.root hleft
  have hmem : target ∈ g.root :: (P.plug .nil).nodes := htarget ▸ owner_mem_plug P g.root .nil
  have hne : item ≠ target := fun heq => h.notMem (heq ▸ hmem)
  unfold addNodeToEmptyGroup
  extract_lets g₁ g₂ g₃ g₄ update
  have hupdate : ∀ g₅ : Graph ι F, g₅.Linked g.root (P.plug (tree item none)) item → g₅.groupP target = true →
      ∃ g', update g₅ = .ok g' ∧ g'.Linked g.root (P.plug (tree item none)) item := by
    intro g₅ h₅ hgroup
    by_cases hpause : g₅.pauseP target
    · exact ⟨g₅, by simp only [update, if_pos hpause]; rfl, h₅⟩
    · have h₆ := h₅.of_onlyFuncons (onlyFuncons_setFuncons hgroup (g₅.funcons item))
      have hmem₆ : target ∈ g.root :: (P.plug (tree item none)).nodes :=
        htarget ▸ owner_mem_plug P g.root _
      obtain ⟨p, g₇, hp, hg₇, h₇⟩ := h₆.updatePausedFuncons_ok hmem₆
      refine ⟨g₇, ?_, h₇⟩
      simp only [update, if_neg hpause, hp, ok_bind, hg₇]
  have hnext : g₄.links.next item = g.links.next target := by
    simp [g₄, g₃, g₂, g₁, setLast, setNext, setPrev, setParent, hne]
  have hgroup : ∀ p b, (g₄.setPrev b p).groupP target = true := by
    simp [groupP, g₄, g₃, g₂, g₁, setLast, setNext, setPrev, setParent]
  rw [htarget] at hA
  have honly : g.OnlyLinks g₄ := ⟨rfl, rfl, rfl⟩
  obtain ⟨hnone, hsome⟩ := h.linked_after honly hA rfl rfl (by rw [htarget]; rfl)
    (by rw [htarget, hright]; rfl)
  rw [hnext]
  cases hb : g.links.next target with
  | none => exact hupdate g₄ (hnone hb).linked (hgroup (g₄.links.prev target) target)
  | some b =>
    dsimp -zeta only
    extract_lets g₅
    have h₅ : g₅.WellFormed g.root (P.plug (tree item none)) := hsome b hb
    obtain ⟨g₆, hg₆, honly⟩ := Graph.setCdr_ok h₅.linked.isSome_funcons
      ((g₅.funcons target).or (g₅.funcons b))
    rw [hg₆, ok_bind]
    refine hupdate g₆ (h₅.linked.of_onlyFuncons honly) ?_
    rw [groupP, honly.links]
    exact hgroup (some item) b

theorem addNodeToTail_ok (hat : AddAction.tail.At g.root P target) :
    Attached g.root (P.plug (tree item none)) item (g.addNodeToTail item target) := by
  obtain ⟨rfl, hright⟩ := hat
  obtain ⟨A, hA⟩ := exists_before_lastNode P g.root
  set target := P.owner g.root with htarget
  have hlast : g.links.last target = some P.left.lastTop := by
    simpa [hright] using h.links.last_owner
  have hmem : target ∈ g.root :: (P.plug .nil).nodes := owner_mem_plug P g.root .nil
  have hlive : g.nullNodeP target = false := (h.live target).mpr (Or.inr hmem)
  have hfind : g.findLastNode target = .ok (lastNode target (some P.left)) := by
    have hsub := P.subtree_owner g.root .nil
    rw [hright, Forest.nil_append, Forest.append_nil] at hsub
    exact findLastNode_eq h.links hsub
  unfold addNodeToTail
  rw [if_pos ⟨by simp [hlive], by simp [groupP, hlast]⟩, hfind, ok_bind]
  extract_lets g₁ added g₂ g₃ g₄ g₅
  have hadded : ∀ g₂ : Graph ι F, g₂.Linked g.root (P.plug (tree item none)) item →
      Attached g.root (P.plug (tree item none)) item (added g₂) :=
    fun g₂ h₂ => h₂.added_ok
  by_cases hkids : (g₁.lastNodeP target).isSome
  · have hne : item ≠ lastNode target (some P.left) := by
      intro heq
      apply h.notMem
      rw [P.nodes_plug, hA, heq]
      simp
    have hnext : g₅.links.next item = g.links.next (lastNode target (some P.left)) := by
      simp [g₅, g₄, g₃, g₂, g₁, setLast, setNext, setPrev, setParent, hne]
    have honly : g.OnlyLinks g₅ := ⟨rfl, rfl, rfl⟩
    obtain ⟨hnone, hsome⟩ := h.linked_after honly hA rfl rfl rfl (by rw [hright]; rfl)
    rw [← hnext] at hnone hsome
    rw [if_pos hkids]
    exact nextFuncons_added_ok (fun hb => (hnone hb).linked) fun b hb => (hsome b hb).linked
  · rw [if_neg hkids]
    have hleft : P.left = .nil := by
      rw [← Forest.lastTop_eq_none]
      simpa [lastNodeP, g₁, setParent, hlast] using hkids
    obtain ⟨g₂, hg₂, h₂⟩ := addNodeToEmptyGroup_ok h hleft hright rfl
    rw [hg₂, ok_bind]
    exact hadded g₂ h₂

theorem addNodeAfter_ok (hlive : g.nullNodeP target = false)
    (hat : AddAction.after.At g.root P target) :
    Attached g.root (P.plug (tree item none)) item (g.addNodeAfter item target) := by
  obtain ⟨A, left, k, hleft, hA, hfind, hparent, hne⟩ := h.after hat
  unfold addNodeAfter
  extract_lets g₁
  have hfind₁ : g₁.findLastNode target = .ok (lastNode target k) := by
    have hlast : g₁.links.last = g.links.last := rfl
    rw [findLastNode_congr hlast, hfind]
  rw [if_pos (by simp [hlive]), hfind₁, ok_bind]
  extract_lets g₂ g₃ g₄
  have hparent₄ : g₄.links.parent item = some (P.owner g.root) := by
    simp [g₄, g₃, g₂, g₁, setNext, setPrev, setParent, hparent]
  rw [hparent₄, theNode, pure_eq_ok, ok_bind]
  extract_lets g₅
  have hg₅ : g₅ = g₄.setLast (P.owner g.root) (some (some (P.right.lastTop.getD item))) :=
    h.setLast_after hleft rfl
  have hnext : g₅.links.next item = g.links.next (lastNode target k) := by
    simp [hg₅, g₄, g₃, g₂, g₁, setLast, setNext, setPrev, setParent, hne]
  clear_value g₅
  subst hg₅
  have honly : g.OnlyLinks
      (g₄.setLast (P.owner g.root) (some (some (P.right.lastTop.getD item)))) := ⟨rfl, rfl, rfl⟩
  obtain ⟨hnone, hsome⟩ := h.linked_after honly
    hA rfl rfl (by rw [← hparent]; rfl) rfl
  rw [← hnext] at hnone hsome
  exact nextFuncons_added_ok (fun hb => (hnone hb).linked) fun b hb => (hsome b hb).linked

theorem addNodeBefore_ok (hlive : g.nullNodeP target = false) (hroot : target ≠ g.root)
    (hat : AddAction.before.At g.root P target) :
    Attached g.root (P.plug (tree item none)) item (g.addNodeBefore item target) := by
  obtain ⟨A, a, hA⟩ := P.exists_before g.root
  obtain ⟨hprev, hnext, hparent, hne, hlast⟩ := h.before hat hA
  unfold addNodeBefore
  extract_lets g₁ g₂ g₃
  have hprev₃ : g₃.links.prev item = some a := by
    simp [g₃, g₂, g₁, setNext, setPrev, hprev, hne]
  rw [if_pos ⟨by simp [hlive], hroot⟩, hprev₃, theNode, pure_eq_ok, ok_bind]
  extract_lets g₄ g₅
  have h₅ : g₅.WellFormed g.root (P.plug (tree item none)) := by
    refine h.linked ⟨rfl, rfl, rfl⟩ hA (by rw [hnext]; rfl) (fun hnone => ?_) (fun b hb => ?_)
      (by rw [← hparent]; rfl) hlast
    · rw [hnext] at hnone
      cases hnone
    · obtain rfl : target = b := Option.some.inj (hnext.symm.trans hb)
      rw [← hprev]
      rfl
  have hlinked := h₅.linked
  obtain ⟨p, hp, -⟩ := pausedParent_ok h₅.ordered hlinked.mem
  obtain ⟨next, hn, -⟩ := unpausedNodeNext_ok h₅.ordered hlinked.mem
  rw [hp, ok_bind]
  extract_lets paused update
  have hupdate : ∀ g₆ : Graph ι F, g₆.Linked g.root (P.plug (tree item none)) item →
      Attached g.root (P.plug (tree item none)) item (update g₆) := by
    intro g₆ h₆
    obtain ⟨g₇, hg₇, h₇⟩ := h₆.updatePreviousFuncons_ok paused
    obtain ⟨g', hg', hwf⟩ := h₇.added_ok
    exact ⟨g', by simp only [update, hg₇, ok_bind, hg'], hwf⟩
  have hcdr : ∀ c, Attached g.root (P.plug (tree item none)) item (g₅.setCdr item c >>= update) := by
    intro c
    obtain ⟨g₆, hg₆, honly⟩ := Graph.setCdr_ok hlinked.isSome_funcons c
    rw [hg₆, ok_bind]
    exact hupdate g₆ (hlinked.of_onlyFuncons honly)
  split_ifs
  · exact hcdr _
  · rw [hn, ok_bind]
    cases next with
    | none => exact hupdate g₅ hlinked
    | some next => exact hcdr _

end

theorem WellFormed.not_mem_of_null (h : g.WellFormed root f) (hnull : g.nullNodeP item = true) :
    item ∉ root :: f.nodes := by
  intro hmem
  rw [(h.live item).mpr hmem] at hnull
  cases hnull

theorem WellFormed.commonSet (h : g.WellFormed root f) (hnull : g.nullNodeP item = true) (id : ℕ) :
    (g.commonSet item id).Unlinked f item (some .nil) := by
  obtain rfl := h.rootEq
  have hmem := h.not_mem_of_null hnull
  have hne : ∀ n ∈ g.root :: f.nodes, n ≠ item := fun n hn heq => hmem (heq ▸ hn)
  refine ⟨h.links.congr (fun _ _ => rfl) (fun _ _ => rfl) (fun _ _ => rfl) fun n hn => ?_, hmem,
    fun n => ?_, fun n hn hgroup => ?_, rfl, ?_⟩
  · exact update_of_ne (hne n hn) _ _
  · have hlive : (g.commonSet item id).nullNodeP n = false ↔
        n = item ∨ g.nullNodeP n = false := by
      rcases eq_or_ne n item with rfl | hn
      · simp [nullNodeP, NodeTable.nullNodeP, Graph.commonSet, setPauseP, setLast, setTable,
          NodeTable.setId, NodeTable.setHash, NodeTable.incCount]
      · simp [nullNodeP, NodeTable.nullNodeP, Graph.commonSet, setPauseP, setLast, setTable,
          NodeTable.setId, NodeTable.setHash, NodeTable.incCount, hn]
    rw [hlive, h.live n]
    rfl
  · rcases hn with rfl | hn
    · simp [groupP, Graph.commonSet, setPauseP, setLast] at hgroup
    · refine h.hasCons n hn ?_
      rw [← hgroup, groupP, groupP]
      exact congrArg Option.isSome (update_of_ne (hne n hn) _ _).symm
  · exact update_self _ _ _

theorem WellFormed.setFuncons (h : g.WellFormed root f) {n : ι} (hn : g.groupP n = true)
    (c : Option ℕ) : (g.setFuncons n c).WellFormed root f :=
  (onlyFuncons_setFuncons hn c).wellFormed h

section

variable {id : ℕ} (h : (g.commonSet item id).Unlinked (P.plug .nil) item (some .nil))
include h

theorem makeGroupHead_ok (hgroup : g.groupP target = true)
    (hat : AddAction.head.At g.root P target) :
    Attached g.root (P.plug (tree item (some .nil))) item (g.makeGroupHead item id target) := by
  obtain ⟨rfl, hleft⟩ := hat
  obtain ⟨A, hA⟩ := Position.before_of_left_nil g.root hleft
  set target := P.owner g.root with htarget
  have hlast : (g.commonSet item id).links.last target = some P.right.lastTop := by
    have hlast := h.links.last_owner
    rwa [hleft, Forest.nil_append, Forest.nil_append] at hlast
  have hne : item ≠ target := fun heq => h.notMem (heq ▸ owner_mem_plug P g.root .nil)
  unfold makeGroupHead
  rw [if_pos hgroup]
  extract_lets g₀ g₁ g₂ g₃ g₄ g₅ g₆ g₇
  have hnext : g₄.links.next item = g₀.links.next target := by
    simp [g₄, g₃, g₂, g₁, setNext, setPrev, setParent, hne]
  have honly : g₀.OnlyLinks (g₄.setLast target (some (some (P.right.lastTop.getD item)))) :=
    ⟨rfl, rfl, rfl⟩
  obtain ⟨hnone, hsome⟩ := h.linked_after honly hA rfl rfl rfl rfl
  have h₆ : g₆.WellFormed g.root (P.plug (tree item (some .nil))) := by
    cases hb : g₀.links.next target with
    | none =>
      have hg₆ : g₆ = g₄.setLast target (some (some (P.right.lastTop.getD item))) := by
        simp only [g₆, g₅, hnext, hb]
        exact setLast_head hlast
      rw [hg₆]
      exact hnone hb
    | some b =>
      have hg₆ : g₆ = (g₄.setPrev b (some item)).setLast target
          (some (some (P.right.lastTop.getD item))) := by
        simp only [g₆, g₅, hnext, hb]
        exact setLast_head hlast
      have h₇ := hsome b hb
      rw [hg₆]
      exact ⟨h₇.rootEq, h₇.links, h₇.live, h₇.hasCons⟩
  exact ⟨g₇, rfl, h₆.setFuncons h₆.groupP_tree _⟩

theorem makeGroupTail_ok (hgroup : g.groupP target = true)
    (hat : AddAction.tail.At g.root P target) :
    Attached g.root (P.plug (tree item (some .nil))) item (g.makeGroupTail item id target) := by
  obtain ⟨rfl, hright⟩ := hat
  obtain ⟨A, hA⟩ := exists_before_lastNode P g.root
  set target := P.owner g.root with htarget
  have hfind : (g.commonSet item id).findLastNode target =
      .ok (lastNode target (some P.left)) := by
    have hsub := P.subtree_owner g.root .nil
    rw [hright, Forest.nil_append, Forest.append_nil] at hsub
    exact findLastNode_eq h.links hsub
  have hne : item ≠ lastNode target (some P.left) := by
    intro heq
    apply h.notMem
    have hroot : (g.commonSet item id).root = g.root := rfl
    rw [hroot, P.nodes_plug, hA, heq]
    simp
  unfold makeGroupTail
  rw [if_pos hgroup]
  extract_lets g₀
  rw [hfind, ok_bind]
  extract_lets g₁ g₂ g₃ g₄ g₅
  have hnext : g₅.links.next item = g₀.links.next (lastNode target (some P.left)) := by
    simp [g₅, g₄, g₃, g₂, g₁, setLast, setNext, setPrev, setParent, hne]
  have honly : g₀.OnlyLinks g₅ := ⟨rfl, rfl, rfl⟩
  obtain ⟨hnone, hsome⟩ := h.linked_after honly hA rfl rfl rfl (by rw [hright]; rfl)
  rw [hnext]
  cases hb : g₀.links.next (lastNode target (some P.left)) with
  | none => exact ⟨g₅, rfl, hnone hb⟩
  | some b =>
    dsimp -zeta only
    extract_lets g₆
    have h₆ : g₆.WellFormed g.root (P.plug (tree item (some .nil))) := hsome b hb
    have hnext₆ : g₆.links.next item = some b := hnext.trans hb
    clear_value g₆
    have htarget₆ : target ∈ g.root :: (P.plug (tree item (some .nil))).nodes :=
      owner_mem_plug P g.root _
    obtain ⟨p, hp, -⟩ := pausedParent_ok h₆.ordered htarget₆
    obtain ⟨g', hg', honly⟩ := updateNextFuncons_ok h₆.ordered (mem_tree_plug P g.root _ _) true
      (fun _ => h₆.groupP_tree) (fun hf => by cases hf) p.isSome (fun _ => by simp [hnext₆])
    refine ⟨g', ?_, honly.wellFormed h₆⟩
    rw [hp, ok_bind, hg', ok_bind]
    rfl

theorem makeGroupBefore_ok (hroot : target ≠ g.root) (hat : AddAction.before.At g.root P target) :
    Attached g.root (P.plug (tree item (some .nil))) item (g.makeGroupBefore item id target) := by
  obtain ⟨A, a, hA⟩ := P.exists_before g.root
  obtain ⟨hprev, hnext, hparent, hne, hlast⟩ := h.before hat hA
  unfold makeGroupBefore
  rw [if_neg hroot]
  extract_lets g₀ g₁ g₂ g₃
  have hprev₃ : g₃.links.prev item = some a := by
    have hprev₂ : g₂.links.prev item = some a := by
      simp only [g₂, g₁, setPrev, setNext, update_self]
      exact hprev
    simp [g₃, setPrev, hne, hprev₂]
  rw [hprev₃, theNode, pure_eq_ok, ok_bind]
  extract_lets g₄ g₅
  have h₅ : g₅.WellFormed g.root (P.plug (tree item (some .nil))) := by
    refine h.linked ⟨rfl, rfl, rfl⟩ hA (by rw [hnext]; rfl) (fun hnone => ?_) (fun b hb => ?_)
      (by rw [← hparent]; rfl) hlast
    · rw [hnext] at hnone
      cases hnone
    · obtain rfl : target = b := Option.some.inj (hnext.symm.trans hb)
      rw [← hprev]
      rfl
  clear_value g₅
  obtain ⟨c, hc⟩ := nodeNextFuncons_ok h₅.ordered (mem_tree_plug P g.root _ _)
  refine ⟨g₅.setFuncons item c, ?_, h₅.setFuncons h₅.groupP_tree c⟩
  rw [hc, ok_bind]
  rfl

end

/-- The links that are set after `l` inside `p`, without the previous link of the next node. -/
def linkAfter (g : Graph ι F) (item l p : ι) : Graph ι F :=
  (((g.setParent item (some p)).setPrev item (some l)).setNext item (g.links.next l)).setNext l
    (some item)

section

variable {id : ℕ} (h : (g.commonSet item id).Unlinked (P.plug .nil) item (some .nil))
  (hroot : target ≠ g.root) (hat : AddAction.after.At g.root P target)
include h hroot hat

theorem makeGroupAfter_eq :
    ∃ A l, P.before g.root = A ++ [l] ∧ item ≠ l ∧ g.makeGroupAfter item id target =
      (((g.commonSet item id).linkAfter item l (P.owner g.root)).nodeNextFuncons item >>= fun c =>
        .ok (some item, (((g.commonSet item id).linkAfter item l (P.owner g.root)).setFuncons
          item c).setLast (P.owner g.root) (some (some (P.right.lastTop.getD item))))) := by
  obtain ⟨A, left, k, hleft, hA, hfind, hparent, hne⟩ := h.after hat
  refine ⟨A, lastNode target k, hA, hne, ?_⟩
  unfold makeGroupAfter
  rw [if_neg hroot]
  extract_lets g₀ g₁
  have hfind₁ : g₁.findLastNode target = .ok (lastNode target k) := by
    have hlast : g₁.links.last = g₀.links.last := rfl
    rw [findLastNode_congr hlast, hfind]
  rw [hfind₁, ok_bind]
  extract_lets g₂ g₃ g₄
  have hg₄ : g₄ = g₀.linkAfter item (lastNode target k) (P.owner g.root) := by
    simp only [g₄, g₃, g₂, g₁, linkAfter, g₀, hparent]
    rfl
  have hparent₄ : g₄.links.parent item = some (P.owner g.root) := by
    rw [hg₄]
    exact update_self _ _ _
  rw [← hg₄]
  congr 1
  funext c
  extract_lets g₅
  have hparent₅ : g₅.links.parent item = some (P.owner g.root) := hparent₄
  rw [hparent₅, theNode, pure_eq_ok, ok_bind]
  extract_lets g₆
  have hg₆ : g₆ = g₅.setLast (P.owner g.root) (some (some (P.right.lastTop.getD item))) :=
    h.setLast_after hleft rfl
  rw [hg₆]
  rfl

theorem makeGroupAfter_ok (hafter : P.after = []) :
    Attached g.root (P.plug (tree item (some .nil))) item (g.makeGroupAfter item id target) := by
  obtain ⟨A, l, hA, hne, heq⟩ := makeGroupAfter_eq h hroot hat
  have hnone : (g.commonSet item id).links.next l = none := by
    simpa [hafter] using h.links.next_before hA
  set g₁ := (g.commonSet item id).linkAfter item l (P.owner g.root) with hg₁
  have hnext : g₁.links.next item = none := by
    simp only [hg₁, linkAfter, setNext, update_of_ne hne, update_self]
    exact hnone
  have hpause : g₁.pauseP item = false := update_self _ _ _
  have hfuncons : g₁.nodeNextFuncons item = .ok none := by
    simp [nodeNextFuncons, unpausedNodeNext, currentNode, hpause, unpausedNodeNextLoop, hnext, fuel]
  have honly : (g.commonSet item id).OnlyLinks
      (g₁.setLast (P.owner g.root) (some (some (P.right.lastTop.getD item)))) := ⟨rfl, rfl, rfl⟩
  have h₂ := (h.linked_after honly hA rfl rfl rfl rfl).1 hnone
  have h₃ := h₂.setFuncons h₂.groupP_tree none
  exact ⟨_, by rw [heq, hfuncons]; rfl, h₃.rootEq, h₃.links, h₃.live, h₃.hasCons⟩

theorem makeGroupAfter_not_wellFormed (hafter : P.after ≠ []) {r : Option ι}
    (hg' : g.makeGroupAfter item id target = .ok (r, g')) (hitem : item ∈ root :: f.nodes) :
    ¬ g'.WellFormed root f := by
  intro hwf
  obtain ⟨A, l, hA, hne, heq⟩ := makeGroupAfter_eq h hroot hat
  obtain ⟨b, hb⟩ := Option.isSome_iff_exists.mp (List.isSome_head?.mpr hafter)
  have hnextl : (g.commonSet item id).links.next l = some b := by
    simpa [hb] using h.links.next_before hA
  have hprevb : (g.commonSet item id).links.prev b = some l :=
    h.links.prev_first hA (by simpa using hb)
  have hbne : b ≠ item := by
    rintro rfl
    apply h.notMem
    have hmem := List.mem_of_mem_head? hb
    rw [P.nodes_plug]
    simp [hmem]
  rw [heq] at hg'
  cases hc : ((g.commonSet item id).linkAfter item l (P.owner g.root)).nodeNextFuncons item with
  | error e =>
    rw [hc] at hg'
    cases hg'
  | ok c =>
    rw [hc, ok_bind] at hg'
    cases hg'
    have hnext : ((g.commonSet item id).linkAfter item l (P.owner g.root)).links.next item =
        some b := by
      simp only [linkAfter, setNext, update_of_ne hne, update_self]
      exact hnextl
    have hprev : ((g.commonSet item id).linkAfter item l (P.owner g.root)).links.prev b =
        some l := (update_of_ne hbne _ _).trans hprevb
    exact hne (Option.some.inj ((hwf.links.prev_of_next hitem hnext).symm.trans hprev))

end

theorem updateLastNodeId_eq (g : Graph ι F) (id : ℕ) :
    ∃ i j, g.updateLastNodeId id = { g with lastNodeId := i, lastLargeNodeId := j } := by
  unfold updateLastNodeId
  split_ifs
  · exact ⟨g.lastNodeId, id, rfl⟩
  · exact ⟨id, g.lastLargeNodeId, rfl⟩

theorem initializeNode_fields (g : Graph ι F) (item : ι) (perfFn : F) :
    (g.initializeNode item perfFn).root = g.root ∧
      (g.initializeNode item perfFn).table = g.table ∧
      (g.initializeNode item perfFn).links =
        { g.links with last := update g.links.last item none } := by
  unfold initializeNode
  extract_lets g₁ g₂ g₃ g₄
  cases g₄.funcons item <;> exact ⟨rfl, rfl, rfl⟩

theorem isSome_funcons_initializeNode (g : Graph ι F) (perfFn : F) {n : ι}
    (hn : n ≠ item → (g.funcons n).isSome) :
    ((g.initializeNode item perfFn).funcons n).isSome := by
  unfold initializeNode
  extract_lets g₁ g₂ g₃ g₄
  cases hc : g₄.funcons item with
  | none =>
    rcases eq_or_ne n item with rfl | hne
    · simp
    · exact (congrArg Option.isSome (update_of_ne hne _ _)).trans (hn hne)
  | some c =>
    rcases eq_or_ne n item with rfl | hne
    · simp [hc]
    · exact hn hne

section

variable (h : g.WellFormed root f)
include h

theorem WellFormed.initialized (hnull : g.nullNodeP item = true) (id hash : ℕ) (perfFn : F) :
    (((g.setTable ((g.table.setHash item hash).setId item (some id))).updateLastNodeId
      id).initializeNode item perfFn).Unlinked f item none := by
  obtain rfl := h.rootEq
  have hmem := h.not_mem_of_null hnull
  have hne : ∀ n ∈ g.root :: f.nodes, n ≠ item := fun n hn heq => hmem (heq ▸ hn)
  obtain ⟨i, j, heq⟩ := updateLastNodeId_eq
    (g.setTable ((g.table.setHash item hash).setId item (some id))) id
  rw [heq]
  obtain ⟨hroot, htable, hlinks⟩ := initializeNode_fields
    { g.setTable ((g.table.setHash item hash).setId item (some id)) with
      lastNodeId := i, lastLargeNodeId := j } item perfFn
  constructor
  · rw [hroot, hlinks]
    exact h.links.congr (fun _ _ => rfl) (fun _ _ => rfl) (fun _ _ => rfl)
      fun n hn => update_of_ne (hne n hn) _ _
  · rw [hroot]
    exact hmem
  · intro n
    rw [nullNodeP, htable, hroot]
    rcases eq_or_ne n item with rfl | hn
    · simp [setTable, NodeTable.setId, NodeTable.setHash, NodeTable.nullNodeP]
    · have := h.live n
      simpa [setTable, NodeTable.setId, NodeTable.setHash, NodeTable.nullNodeP, hn, nullNodeP]
        using this
  · intro n hn hgroup
    rw [hroot] at hn
    rw [groupP, hlinks] at hgroup
    apply isSome_funcons_initializeNode
    intro hni
    exact h.hasCons n (hn.resolve_left hni) (by simpa [hni, groupP, setTable] using hgroup)
  · rfl
  · rw [hlinks]
    exact update_self _ _ _

theorem WellFormed.setTable {table : NodeTable ι} (hid : table.id = g.table.id) :
    (g.setTable table).WellFormed root f := by
  refine ⟨h.rootEq, h.links, fun n => ?_, h.hasCons⟩
  rw [← h.live n]
  simp [nullNodeP, NodeTable.nullNodeP, Graph.setTable, hid]

theorem makeGroup_ok {id : ℕ} {table : NodeTable ι}
    (hid : g.table.updatedNode id = .ok (item, table)) (hnull : g.nullNodeP item = true)
    (hlive : g.nullNodeP target = false) (hlegal : addAction.Legal g target) (hP : P.plug .nil = f)
    (hat : addAction.At root P target) (hafter : addAction = .after → P.after = []) :
    Attached root (P.plug (tree item (some .nil))) item (g.makeGroup id addAction target) := by
  obtain rfl := h.rootEq
  subst hP
  obtain ⟨index, rfl, -⟩ := NodeTable.updatedNode_eq hid
  have h₁ : (g.setTable { g.table with index := index }).WellFormed g.root (P.plug .nil) :=
    h.setTable rfl
  have hset := h₁.commonSet hnull id
  have hlive₁ : (g.setTable { g.table with index := index }).nullNodeP target = false := hlive
  unfold makeGroup
  rw [hid, ok_bind]
  dsimp only
  rw [if_pos ⟨hnull, by simp [hlive₁]⟩]
  cases addAction with
  | head => exact (makeGroupHead_ok hset hlegal hat :)
  | tail => exact (makeGroupTail_ok hset hlegal hat :)
  | before => exact (makeGroupBefore_ok hset hlegal hat :)
  | after => exact (makeGroupAfter_ok hset hlegal hat (hafter rfl) :)

theorem nodeAdd_ok (hfull : ¬ g.table.Full) (hnull : g.nullNodeP item = true)
    (hlive : g.nullNodeP target = false) (hlegal : addAction.Legal g target) (hP : P.plug .nil = f)
    (hat : addAction.At root P target) (id hash : ℕ) (perfFn : F) :
    Attached root (P.plug (tree item none)) item (g.nodeAdd item addAction target id hash perfFn) := by
  obtain rfl := h.rootEq
  subst hP
  have hinit := h.initialized hnull id hash perfFn
  unfold nodeAdd
  rw [if_neg hfull, if_neg (by simp [hlive]), if_pos hnull]
  extract_lets g₁ g₂
  have hroot : g₂.root = g.root := (initializeNode_fields _ _ _).1.trans (by
    obtain ⟨i, j, heq⟩ := updateLastNodeId_eq g₁ id
    rw [heq]
    rfl)
  have hne : target ≠ item := by
    rintro rfl
    rw [hnull] at hlive
    cases hlive
  have hlive₂ : g₂.nullNodeP target = false :=
    (hinit.live target).mpr (Or.inr (hroot.symm ▸ (h.live target).mp hlive))
  have hroot₂ : g₂.root = g.root := hroot
  change g₂.Unlinked _ _ _ at hinit
  clear_value g₂
  rw [← hroot] at hat ⊢
  cases addAction with
  | head => exact addNodeToHead_ok hinit hat
  | tail => exact addNodeToTail_ok hinit hat
  | before => exact addNodeBefore_ok hinit hlive₂ (hroot ▸ hlegal) hat
  | after => exact addNodeAfter_ok hinit hlive₂ hat

theorem play_ok {id : ℕ} {table : NodeTable ι} (hid : g.table.updatedNode id = .ok (item, table))
    (hnull : g.nullNodeP item = true) (hlive : g.nullNodeP target = false)
    (hlegal : addAction.Legal g target) (hP : P.plug .nil = f) (hat : addAction.At root P target)
    (perfFn : F) :
    Attached root (P.plug (tree item none)) item (g.play id addAction target perfFn) := by
  obtain ⟨index, rfl, hfull⟩ := NodeTable.updatedNode_eq hid
  have h₁ : (g.setTable { g.table with index := index }).WellFormed root f := h.setTable rfl
  unfold play
  rw [hid, ok_bind]
  have hlegal₁ : addAction.Legal (g.setTable { g.table with index := index }) target := by
    cases addAction <;> exact hlegal
  exact nodeAdd_ok h₁ hfull hnull hlive hlegal₁ hP hat id (g.table.intHash id) perfFn

end

end Graph

inductive Insertion (F : Type) where
  | makeGroup
  | play (perfFn : F)

namespace Insertion

def run (g : Graph ι F) (id : ℕ) (addAction : AddAction) (target : ι) :
    Insertion F → Result (Option ι × Graph ι F)
  | makeGroup => g.makeGroup id addAction target
  | play perfFn => g.play id addAction target perfFn

def children : Insertion F → Option (Forest ι)
  | makeGroup => some .nil
  | play _ => none

/-- The new node is at the requested position of a well-formed tree, where the other nodes keep
their parents and their order. -/
def Inserts (g : Graph ι F) (root : ι) (f : Forest ι) (id : ℕ) (item : ι) (addAction : AddAction)
    (target : ι) (op : Insertion F) : Prop :=
  ∃ (P : Position ι) (g' : Graph ι F), P.plug .nil = f ∧ addAction.At root P target ∧
    op.run g id addAction target = .ok (some item, g') ∧
    g'.WellFormed root (P.plug (tree item op.children))

end Insertion

/-- Some node follows the tree of the given one. -/
def Followed (f : Forest ι) (n : ι) : Prop :=
  ∃ (P : Position ι) (k : Option (Forest ι)), f = P.plug (tree n k) ∧ P.after ≠ []

theorem followed_iff {g : Graph ι F} {P : Position ι} {target : ι}
    (h : g.WellFormed g.root (P.plug .nil)) (hat : AddAction.after.At g.root P target) :
    Followed (P.plug .nil) target ↔ P.after ≠ [] := by
  obtain ⟨left, k, hleft⟩ := hat
  obtain ⟨A, hA⟩ := Graph.exists_before_lastNode P g.root
  rw [hleft, lastNode_of_append] at hA
  have hsub : P.left.Subtree target k := by
    rw [hleft]
    exact (Forest.subtree_tree target k).append_right
  have hnext : g.links.next (lastNode target k) = P.after.head? := by
    simpa using h.links.next_before hA
  constructor
  · rintro ⟨Q, k', hQ, hafter⟩ hnil
    have hsub' : (tree g.root (some (P.plug .nil))).Subtree target k' := by
      rw [hQ]
      exact .groupKids (Forest.subtree_plug Q target k')
    have hlast : lastNode target k = lastNode target k' := Except.ok.inj
      ((Graph.findLastNode_eq h.links (P.subtree_left hsub g.root .nil)).symm.trans
        (Graph.findLastNode_eq h.links hsub'))
    have hrep := h.links
    rw [hQ] at hrep
    rw [hlast, hrep.next_lastNode, hnil] at hnext
    exact hafter (List.head?_eq_none_iff.mp hnext)
  · intro hafter
    refine ⟨⟨P.path, left, P.right⟩, k, ?_, hafter⟩
    simp [Position.plug, hleft, Forest.append_assoc]

/-- A new node is inserted at the requested position, unless it is a group after a target that
is followed by another node. -/
theorem inserts_iff {g : Graph ι F} {root item target : ι} {f : Forest ι} {id : ℕ}
    {table : NodeTable ι} {addAction : AddAction} (h : g.WellFormed root f)
    (hid : g.table.updatedNode id = .ok (item, table)) (hnull : g.nullNodeP item = true)
    (hlive : g.nullNodeP target = false) (hlegal : addAction.Legal g target)
    (op : Insertion F) : op.Inserts g root f id item addAction target ↔
      ¬ (op = .makeGroup ∧ addAction = .after ∧ Followed f target) := by
  obtain rfl := h.rootEq
  obtain ⟨P, hP, hat⟩ := h.exists_at hlive hlegal
  constructor
  · rintro ⟨Q, g', hQ, hatQ, hg', hwf⟩ ⟨rfl, rfl, hfollowed⟩
    subst hQ
    obtain ⟨index, rfl, -⟩ := NodeTable.updatedNode_eq hid
    have h₁ : (g.setTable { g.table with index := index }).WellFormed g.root (Q.plug .nil) :=
      h.setTable rfl
    have hlive₁ : (g.setTable { g.table with index := index }).nullNodeP target = false := hlive
    rw [Insertion.run, Graph.makeGroup, hid, Graph.ok_bind] at hg'
    dsimp only at hg'
    rw [if_pos ⟨hnull, by simp [hlive₁]⟩] at hg'
    exact Graph.makeGroupAfter_not_wellFormed (h₁.commonSet hnull id) hlegal hatQ
      ((followed_iff h hatQ).mp hfollowed) hg' (Graph.mem_tree_plug Q g.root item _) hwf
  · intro hcond
    cases op with
    | makeGroup =>
      have hafter : addAction = .after → P.after = [] := by
        rintro rfl
        by_contra hne
        subst hP
        exact hcond ⟨rfl, rfl, (followed_iff h hat).mpr hne⟩
      obtain ⟨g', hg', hwf⟩ := Graph.makeGroup_ok h hid hnull hlive hlegal hP hat hafter
      exact ⟨P, g', hP, hat, hg', hwf⟩
    | play perfFn =>
      obtain ⟨g', hg', hwf⟩ := Graph.play_ok h hid hnull hlive hlegal hP hat perfFn
      exact ⟨P, g', hP, hat, hg', hwf⟩

def twoNodes : Graph (Fin 9) Unit where
  root := 8
  links := Links.ofForest 8 (.leaf 1 (.leaf 2 .nil))
  table :=
    { intHash := id
      size := 4
      count := 2
      items := fun i => Fin.ofNat 9 i
      id := fun n => if n = 8 then some 0 else if n = 1 ∨ n = 2 then some n else none
      hash := fun n => n
      index := fun n => n }
  pauseP _ := false
  funcons n := some n
  car _ := .function ()
  cdr _ := none
  conses := 9
  function _ := ()
  enableGainP _ := false
  releasePhaseP _ := false
  nodeEnableGainP := false
  lastNodeId := 2
  lastLargeNodeId := 0x1000000

theorem twoNodes_wellFormed : twoNodes.WellFormed 8 (.leaf 1 (.leaf 2 .nil)) :=
  ⟨rfl, by constructor <;> first | decide | repeat' constructor, by decide, fun _ _ _ => rfl⟩

theorem inserts_iff_twoNodes :
    (Insertion.play ()).Inserts twoNodes 8 (.leaf 1 (.leaf 2 .nil)) 3 3 .after 1 := by
  have hlegal : AddAction.after.Legal twoNodes 1 := show (1 : Fin 9) ≠ 8 by decide
  exact (inserts_iff twoNodes_wellFormed rfl rfl rfl hlegal (.play ())).mpr (by simp)

theorem makeGroup_not_inserts :
    ¬ ∀ (g : Graph (Fin 9) Unit) (root item target : Fin 9) (f : Forest (Fin 9)) (id : ℕ)
      (table : NodeTable (Fin 9)) (addAction : AddAction) (op : Insertion Unit),
      g.WellFormed root f → g.table.updatedNode id = .ok (item, table) →
      g.nullNodeP item = true → g.nullNodeP target = false → addAction.Legal g target →
      op.Inserts g root f id item addAction target := by
  intro h
  obtain ⟨P, g', -, -, hg', hwf⟩ := h twoNodes 8 3 1 _ 3 _ .after .makeGroup twoNodes_wellFormed
    rfl rfl rfl (show (1 : Fin 9) ≠ 8 by decide)
  cases hg'
  have hcontra := hwf.links.prev_of_next (Graph.mem_tree_plug P 8 3 _)
    (show _ = some 2 from rfl)
  cases hcontra

end Incudine.NodeGraph

import Incudine.GroupIteration

/-!
# Stop of groups

`%node-stop` of a group stops its nodes in a recursive iteration over the group, therefore the
nodes of a sub-group are stopped by an iteration of their own while they are unlinked, and the
sub-groups of a sub-group are visited again.
-/

set_option linter.unusedSectionVars false

namespace Incudine.ThreadedForest

variable {ι : Type*}

def Forest.Leaves : Forest ι → Prop
  | .nil => True
  | .leaf _ rest => rest.Leaves
  | .group _ _ _ => False

def Forest.Flat : Forest ι → Prop
  | .nil => True
  | .leaf _ rest => rest.Flat
  | .group _ kids rest => kids.Leaves ∧ rest.Flat

variable {parent : ι → Option ι} {last : ι → Option (Option ι)} {q : ι} {f : Forest ι}

theorem Thread.mem_of_next {next : ι → Option ι} {l : List ι} {n z m : ι} {e : Option ι}
    (h : Thread next (l ++ [z]) e) (hn : n ∈ l) (hm : next n = some m) : m ∈ (l ++ [z]).tail := by
  induction l with
  | nil => exact absurd hn List.not_mem_nil
  | cons a l ih =>
    rw [List.cons_append] at h ⊢
    rcases List.mem_cons.mp hn with rfl | hn
    · have hhead : (l ++ [z]).head? = some m := by
        rw [← hm, h.1, List.head?_append]
        cases l.head? <;> rfl
      exact List.mem_of_mem_head? hhead
    · exact List.mem_of_mem_tail (ih h.2 hn)

theorem Forest.Leaves.last_eq (h : f.Leaves) (hlasts : Lasts last f) {n : ι} (hn : n ∈ f.nodes) :
    last n = none := by
  induction f with
  | nil => exact absurd hn List.not_mem_nil
  | leaf m rest ih =>
    rcases List.mem_cons.mp hn with rfl | hn
    · exact hlasts.1
    · exact ih h hlasts.2 hn
  | group => exact h.elim

theorem Forest.Flat.parent_eq (h : f.Flat) (hparents : Parents parent q f) (hlasts : Lasts last f)
    {n : ι} (hn : n ∈ f.nodes) (hgroup : (last n).isSome) : parent n = some q := by
  induction f with
  | nil => exact absurd hn List.not_mem_nil
  | leaf m rest ih =>
    rcases List.mem_cons.mp hn with rfl | hn
    · exact hparents.1
    · exact ih h hparents.2 hlasts.2 hn
  | group m kids rest _ ih =>
    rcases List.mem_cons.mp hn with rfl | hn
    · exact hparents.1
    rcases List.mem_append.mp hn with hn | hn
    · rw [h.1.last_eq hlasts.2.1 hn] at hgroup
      cases hgroup
    · exact ih h.2 hparents.2.2 hlasts.2.2 hn

theorem Forest.exists_last_leaf (hf : f ≠ .nil) (hend : f.endsWithGroup = false)
    (hparents : Parents parent q f) (hlasts : Lasts last f) :
    ∃ l z, f.nodes = l ++ [z] ∧ parent z = some q ∧ last z = none := by
  induction f with
  | nil => exact absurd rfl hf
  | leaf m rest ih =>
    by_cases hrest : rest = .nil
    · subst hrest
      exact ⟨[], m, rfl, hparents.1, hlasts.1⟩
    · obtain ⟨l, z, hl, hz⟩ := ih hrest hend hparents.2 hlasts.2
      exact ⟨m :: l, z, by rw [nodes_leaf, hl, List.cons_append], hz⟩
  | group m kids rest _ ih =>
    by_cases hrest : rest = .nil
    · subst hrest
      cases hend
    · rw [endsWithGroup_group hrest] at hend
      obtain ⟨l, z, hl, hz⟩ := ih hrest hend hparents.2.2 hlasts.2.2
      exact ⟨m :: (kids.nodes ++ l), z, by rw [nodes_group, hl]; simp, hz⟩

end Incudine.ThreadedForest

namespace Incudine.NodeGraph

open Function ThreadedForest

variable {ι F σ : Type} [DecidableEq ι] [Fintype ι]

namespace Graph

/-- `rec` of `%node-stop`. The state is the graph with the nodes whose stop hooks have been
called. -/
def nodeStopLoop : ℕ → Graph ι F × List ι → ι → Result (Graph ι F × List ι)
  | 0, _, _ => throw .diverges
  | fuel + 1, s, node =>
    if s.1.nullNodeP node then pure s
    else do
      let (g, stopped) ←
        if s.1.groupP node then iterate true Prod.fst (nodeStopLoop fuel) node s else pure s
      if g.groupP node then pure (g, stopped ++ [node])
      else do pure (← g.nodeFree node, stopped ++ [node])

def nodeStop (g : Graph ι F) (node : ι) : Result (Graph ι F × List ι) :=
  nodeStopLoop (fuel ι) (g, []) node

variable {g g' : Graph ι F} {root group n : ι} {f kids : Forest ι} {p : Option ι} {l : List ι}
  {fuel : ℕ}

structure LeafFreed (g g' : Graph ι F) (root n : ι) : Prop where
  wellFormed : ∃ f, g'.WellFormed root f
  parent : g'.links.parent = g.links.parent
  groupP : g'.groupP = g.groupP
  next : ∃ a, g.links.next a = some n ∧ g'.links.next = update g.links.next a (g.links.next n)
  id : g'.table.id = update g.table.id n none

theorem fixCollisionsFrom_id {t t' : NodeTable ι} (h : t.fixCollisionsFrom n = .ok t') :
    t'.id = t.id := by
  unfold NodeTable.fixCollisionsFrom at h
  generalize 2 * t.size = fuel at h
  generalize (t.index n + 1) &&& t.mask = oldKey at h
  induction fuel generalizing t oldKey with
  | zero => cases h
  | succ fuel ih =>
    rw [NodeTable.fixCollisionsLoop] at h
    dsimp only at h
    cases hid : t.id (t.items oldKey) with
    | none =>
      rw [hid] at h
      cases h
      rfl
    | some key =>
      rw [hid] at h
      dsimp only at h
      cases hkey : t.indexFor (t.hash (t.items oldKey)) key with
      | error e =>
        rw [hkey] at h
        cases h
      | ok newKey =>
        rw [hkey, ok_bind] at h
        refine (ih _ h).trans ?_
        split_ifs <;> rfl

theorem WellFormed.nodeFree_leaf (h : g.WellFormed root f) (hlive : g.nullNodeP n = false)
    (hleaf : g.groupP n = false) (hok : g.nodeFree n = .ok g') : g.LeafFreed g' root n := by
  obtain ⟨P, rfl⟩ : ∃ P : Position ι, f = P.plug (tree n none) := by
    obtain ⟨k, hk⟩ := h.subtree hlive
    cases hk with
    | group =>
      rw [groupP, h.links.lastRoot] at hleaf
      cases hleaf
    | groupRest hk => cases hk
    | groupKids hk =>
      obtain ⟨P, rfl⟩ := hk.exists_position
      rw [h.groupP_tree, Option.isSome_eq_false_iff, Option.isNone_iff_eq_none] at hleaf
      exact ⟨P, by rw [hleaf]⟩
  have hfirst : ¬ g.FirstOfPausedRoot n := fun hfirst => nodeFree_firstOfPausedRoot h hfirst g' hok
  obtain ⟨A, a, hA⟩ := P.exists_before root
  obtain ⟨i, j, hfree⟩ := h.nodeFree_eq
  set g₀ : Graph ι F := { g with lastNodeId := i, lastLargeNodeId := j }
  have h₀ : g₀.WellFormed root (P.plug (tree n none)) := ⟨h.rootEq, h.links, h.live, h.hasCons⟩
  obtain ⟨g₁, g₂, hg₁, hg₂, honly⟩ := unlinkGroupNeighbors_ok h₀ hA hfirst
  obtain ⟨x, hx⟩ := unlinkParent_ok h₀ hA
  obtain ⟨hrep, -, -⟩ := represents_detachedLinks h.links hA
  have hgroup₁ : g₁.groupP n = false := by
    rw [hg₁, Except.ok.injEq] at hx
    have hne : n ≠ P.owner root := by
      rintro heq
      exact h.links.notMem_of_mem_tree List.mem_cons_self
        (List.mem_append_left _ (heq ▸ P.owner_mem root))
    rw [hx, groupP]
    exact (congrArg Option.isSome (update_of_ne hne _ _)).trans hleaf
  have hneighbors : g₁.unlinkGroupNeighbors n = g₁.unlinkNeighbors n := by
    have hlast : g₁.lastNodeP n = none := by
      rw [groupP, Option.isSome_eq_false_iff, Option.isNone_iff_eq_none] at hgroup₁
      rw [lastNodeP, hgroup₁, Option.join_none]
    have hfind : g₁.findLastNode n = .ok n := by
      rw [findLastNode, NodeGraph.fuel, findLastNodeLoop, hlast]
      rfl
    rw [unlinkGroupNeighbors, hfind, ok_bind, if_pos rfl]
  rw [hfree, hg₁, ok_bind, hgroup₁, if_neg Bool.false_ne_true, removeNode, ← hneighbors, hg₂] at hok
  have hcons := honly.hasCons h.hasCons_detached
  obtain ⟨funcons, cdr, rfl, -⟩ := honly
  simp only [ok_bind, pure_eq_ok] at hok
  cases hfix : NodeTable.fixCollisionsFrom (g.table.removeNodeFromHash n) n with
  | error e =>
    rw [unlinkNode, removeNodeFromHash, hfix] at hok
    cases hok
  | ok table =>
    rw [unlinkNode, removeNodeFromHash, hfix, ok_bind] at hok
    obtain rfl : _ = g' := Except.ok.inj hok
    have hid : table.id = update g.table.id n none := fixCollisionsFrom_id hfix
    refine ⟨⟨P.plug .nil, h.rootEq, hrep, fun m => ?_, hcons⟩, rfl, ?_, ⟨a, ?_, ?_⟩, hid⟩
    · have hmem : m ∈ root :: (P.plug (tree n none)).nodes ↔
          m = n ∨ m ∈ root :: (P.plug .nil).nodes :=
        mem_plug_tree descendants_none root m
      change (table.id m).isNone = false ↔ _
      rw [hid]
      rcases eq_or_ne m n with rfl | hne
      · rw [update_self]
        refine iff_of_false (by simp) fun hm => ?_
        rw [P.nodes_plug, Forest.nodes_nil, List.nil_append] at hm
        exact h.links.notMem_of_mem_tree List.mem_cons_self hm
      · rw [update_of_ne hne]
        refine (h.live m).trans (hmem.trans ?_)
        exact or_iff_right hne
    · funext m
      change (update g.links.last (P.owner root) (some (P.left ++ P.right).lastTop) m).isSome = _
      rcases eq_or_ne m (P.owner root) with rfl | hne
      · rw [update_self, groupP, h.links.last_owner, Option.isSome_some, Option.isSome_some]
      · rw [update_of_ne hne, groupP]
    · rw [h.links.next_before hA, nodes_tree, List.cons_append, List.head?_cons]
    · have hnext : g.links.next n = P.after.head? := h.links.next_lastNode (k := none)
      rw [hnext]
      rfl

theorem iterateLoop_invariant {graph : σ → Graph ι F} {body : σ → ι → Result σ}
    (inv : σ → Option ι → Prop)
    (hbody : ∀ s m s', inv s (some m) → (graph s).links.parent m ≠ p → body s m = .ok s' →
      inv s' ((graph s').links.next m))
    {s s' : σ} {item : Option ι} (h : inv s item)
    (hok : iterateLoop true graph body p fuel s item = .ok s') : ∃ item', inv s' item' := by
  induction fuel generalizing s item with
  | zero =>
    cases item with
    | none =>
      cases hok
      exact ⟨none, h⟩
    | some m => cases hok
  | succ fuel ih =>
    cases item with
    | none =>
      cases hok
      exact ⟨none, h⟩
    | some m =>
      rw [iterateLoop] at hok
      by_cases hm : (graph s).links.parent m = p
      · rw [if_pos hm] at hok
        cases hok
        exact ⟨some m, h⟩
      · rw [if_neg hm] at hok
        cases hstep : body s m with
        | error e =>
          rw [hstep] at hok
          cases hok
        | ok s₁ =>
          rw [hstep, ok_bind] at hok
          exact ih (hbody s m s₁ h hm hstep) hok

/-- A state of the stop of the group with the nodes `nodes` where no other node has been
reached. -/
structure Stays (g : Graph ι F) (root group : ι) (nodes : List ι) (s : Graph ι F × List ι) :
    Prop where
  wellFormed : ∃ f, s.1.WellFormed root f
  parent : s.1.links.parent = g.links.parent
  groupP : s.1.groupP = g.groupP
  stopped : ∀ n ∈ s.2, n ∈ group :: nodes
  id : ∀ n, n ∉ group :: nodes → s.1.table.id n = g.table.id n

/-- The nodes that follow `inner` are nodes of the group. The other nodes of the group are
followed by `exit`. -/
structure Contained (g : Graph ι F) (root group : ι) (nodes inner : List ι) (exit : Option ι)
    (s : Graph ι F × List ι) : Prop extends Stays g root group nodes s where
  inside : ∀ n ∈ inner, ∀ m, s.1.links.next n = some m → m ∈ nodes
  outside : ∀ n ∈ nodes, n ∉ inner → s.1.links.next n = exit

variable {nodes inner : List ι} {exit : Option ι} {s s' : Graph ι F × List ι}

theorem Stays.append (h : Stays g root group nodes s) (hn : n ∈ group :: nodes) :
    Stays g root group nodes (s.1, s.2 ++ [n]) := by
  refine ⟨h.wellFormed, h.parent, h.groupP, fun m hm => ?_, h.id⟩
  rcases List.mem_append.mp hm with hm | hm
  · exact h.stopped m hm
  · rwa [List.mem_singleton.mp hm]

theorem Stays.free (h : Stays g root group nodes s) (hn : n ∈ nodes)
    (hfreed : s.1.LeafFreed g' root n) : Stays g root group nodes (g', s.2 ++ [n]) := by
  have happend := h.append (List.mem_cons_of_mem group hn)
  refine ⟨hfreed.wellFormed, hfreed.parent.trans h.parent, hfreed.groupP.trans h.groupP,
    happend.stopped, fun m hm => ?_⟩
  have hne : m ≠ n := by
    rintro rfl
    exact hm (List.mem_cons_of_mem group hn)
  rw [← h.id m hm]
  exact (congrFun hfreed.id m).trans (update_of_ne hne _ _)

theorem Contained.append (h : Contained g root group nodes inner exit s)
    (hn : n ∈ group :: nodes) : Contained g root group nodes inner exit (s.1, s.2 ++ [n]) :=
  ⟨h.toStays.append hn, h.inside, h.outside⟩

theorem Contained.free (h : Contained g root group nodes inner exit s) (hinner : inner ⊆ nodes)
    (hexit : ∀ m, exit = some m → m ∉ nodes) (hn : n ∈ inner) (hfreed : s.1.LeafFreed g' root n) :
    Contained g root group nodes inner exit (g', s.2 ++ [n]) := by
  obtain ⟨a, ha, hnext⟩ := hfreed.next
  refine ⟨h.toStays.free (hinner hn) hfreed, fun m hm k hk => ?_, fun m hm hout => ?_⟩
  · dsimp only at hk
    rw [hnext] at hk
    rcases eq_or_ne m a with rfl | hne
    · rw [update_self] at hk
      exact h.inside n hn k hk
    · rw [update_of_ne hne] at hk
      exact h.inside m hm k hk
  · have hne : m ≠ a := by
      rintro rfl
      have heq : exit = some n := (h.outside m hm hout).symm.trans ha
      exact hexit n heq (hinner hn)
    dsimp only
    rw [hnext, update_of_ne hne]
    exact h.outside m hm hout

theorem nodeStopLoop_leaf (hleaf : s.1.groupP n = false) (hstays : Stays g root group nodes s)
    (hok : nodeStopLoop fuel s n = .ok s') :
    s' = s ∨ ∃ g', s' = (g', s.2 ++ [n]) ∧ s.1.LeafFreed g' root n := by
  cases fuel with
  | zero => cases hok
  | succ fuel =>
    rw [nodeStopLoop] at hok
    cases hnull : s.1.nullNodeP n with
    | true =>
      rw [if_pos hnull] at hok
      cases hok
      exact .inl rfl
    | false =>
      have hleaf' : ¬ s.1.groupP n = true := by simp [hleaf]
      rw [hnull, if_neg Bool.false_ne_true, if_neg hleaf', pure_eq_ok, ok_bind] at hok
      dsimp only at hok
      rw [if_neg hleaf'] at hok
      cases hfree : s.1.nodeFree n with
      | error e =>
        rw [hfree] at hok
        cases hok
      | ok g' =>
        rw [hfree] at hok
        cases hok
        obtain ⟨f, hf⟩ := hstays.wellFormed
        exact .inr ⟨g', rfl, hf.nodeFree_leaf hnull hleaf hfree⟩

theorem nodeStopLoop_group (hgroup : s.1.groupP n = true) (hok : nodeStopLoop fuel s n = .ok s') :
    s' = s ∨ ∃ b s₁, fuel = b + 1 ∧ iterate true Prod.fst (nodeStopLoop b) n s = .ok s₁ ∧
      (s₁.1.groupP n = true → s' = (s₁.1, s₁.2 ++ [n])) := by
  cases fuel with
  | zero => cases hok
  | succ fuel =>
    rw [nodeStopLoop] at hok
    by_cases hnull : s.1.nullNodeP n = true
    · rw [if_pos hnull] at hok
      cases hok
      exact .inl rfl
    · rw [if_neg hnull, if_pos hgroup] at hok
      cases hiter : iterate true Prod.fst (nodeStopLoop fuel) n s with
      | error e =>
        rw [hiter] at hok
        cases hok
      | ok s₁ =>
        rw [hiter, ok_bind] at hok
        refine .inr ⟨fuel, s₁, rfl, hiter, fun hgroup₁ => ?_⟩
        dsimp only at hok
        rw [if_pos hgroup₁] at hok
        cases hok
        rfl

theorem nodeStopLoop_contained (hinner : inner ⊆ nodes) (hexit : ∀ m, exit = some m → m ∉ nodes)
    (hends : ∀ n ∈ inner, g.groupP n = true → ∀ m ∈ nodes, m ∉ inner →
      g.links.parent m = g.links.parent n)
    (h : Contained g root group nodes inner exit s) (hn : n ∈ inner)
    (hok : nodeStopLoop fuel s n = .ok s') : Contained g root group nodes inner exit s' := by
  induction fuel generalizing s s' n with
  | zero => cases hok
  | succ fuel ih =>
    have hmem : n ∈ group :: nodes := List.mem_cons_of_mem group (hinner hn)
    cases hgroup : s.1.groupP n with
    | false =>
      rcases nodeStopLoop_leaf hgroup h.toStays hok with rfl | ⟨g', rfl, hfreed⟩
      · exact h
      · exact h.free hinner hexit hn hfreed
    | true =>
      rcases nodeStopLoop_group hgroup hok with rfl | ⟨b, s₁, hb, hiter, heq⟩
      · exact h
      obtain rfl : fuel = b := Nat.succ.inj hb
      obtain ⟨-, h₁, -⟩ : ∃ item, Contained g root group nodes inner exit s₁ ∧
          ∀ m, item = some m → m ∈ nodes := by
        refine iterateLoop_invariant
          (fun s item => Contained g root group nodes inner exit s ∧ ∀ m, item = some m → m ∈ nodes)
          ?_ ⟨h, h.inside n hn⟩ hiter
        rintro s₂ m s₃ ⟨h₂, hitem⟩ hparent hstep
        have hm : m ∈ inner := by
          by_contra hout
          apply hparent
          rw [h₂.parent, h.parent]
          exact hends n hn (h.groupP ▸ hgroup) m (hitem m rfl) hout
        have h₃ := ih h₂ hm hstep
        exact ⟨h₃, h₃.inside m hm⟩
      obtain rfl := heq (by rw [h₁.groupP, ← h.groupP, hgroup])
      exact h₁.append hmem

theorem nodeStop_stays (h : Contained g root group nodes inner exit (g, []))
    (hgroup : g.groupP group = true) (hinner : inner ⊆ nodes) (hexit : ∀ m, exit = some m → m ∉ nodes)
    (hends : ∀ n ∈ inner, g.groupP n = true → ∀ m ∈ nodes, m ∉ inner →
      g.links.parent m = g.links.parent n)
    (hleaf : ∀ n ∈ nodes, n ∉ inner → g.groupP n = false)
    (hsister : ∀ m, exit = some m → g.links.parent m = g.links.parent group)
    (hfirst : (∀ m, g.links.next group = some m → m ∈ nodes) ∨ g.links.next group = exit)
    (hok : g.nodeStop group = .ok s') : Stays g root group nodes s' := by
  rcases nodeStopLoop_group hgroup hok with rfl | ⟨b, s₁, -, hiter, heq⟩
  · exact h.toStays
  obtain ⟨item, h₁⟩ : ∃ item, (Contained g root group nodes inner exit s₁ ∧
      ∀ m, item = some m → m ∈ nodes) ∨ Stays g root group nodes s₁ ∧ item = exit := by
    refine iterateLoop_invariant
      (fun s item => (Contained g root group nodes inner exit s ∧
        ∀ m, item = some m → m ∈ nodes) ∨ Stays g root group nodes s ∧ item = exit) ?_ ?_ hiter
    · rintro s₂ m s₃ (⟨h₂, hitem⟩ | ⟨h₂, hitem⟩) hparent hstep
      · by_cases hm : m ∈ inner
        · have h₃ := nodeStopLoop_contained hinner hexit hends h₂ hm hstep
          exact .inl ⟨h₃, h₃.inside m hm⟩
        · have hmem := hitem m rfl
          have hleaf₂ : s₂.1.groupP m = false := by rw [h₂.groupP, hleaf m hmem hm]
          have hnext := h₂.outside m hmem hm
          refine .inr ?_
          rcases nodeStopLoop_leaf hleaf₂ h₂.toStays hstep with rfl | ⟨g', rfl, hfreed⟩
          · exact ⟨h₂.toStays, hnext⟩
          · refine ⟨h₂.toStays.free hmem hfreed, ?_⟩
            obtain ⟨a, -, hnext'⟩ := hfreed.next
            dsimp only
            rw [hnext']
            rcases eq_or_ne m a with rfl | hne
            · rw [update_self, hnext]
            · rw [update_of_ne hne, hnext]
      · refine absurd ?_ hparent
        rw [h₂.parent]
        exact hsister m hitem.symm
    · exact hfirst.imp (fun hfirst => ⟨h, hfirst⟩) fun hfirst => ⟨h.toStays, hfirst⟩
  have h₁' : Stays g root group nodes s₁ := h₁.elim (fun h => h.1.toStays) (fun h => h.1)
  obtain rfl := heq (by rw [h₁'.groupP, hgroup])
  exact h₁'.append List.mem_cons_self

/-- `dogroup` visits the nodes of the group in order, and only the children if it is not
recursive, and the control setter sets only the nodes of the group. -/
structure VisitsExactly (g : Graph ι F) (group : ι) (kids : Forest ι) : Prop where
  nodes : g.visits true group = .ok kids.nodes
  tops : g.visits false group = .ok kids.tops
  controls : g.SetsControls group kids

def StopStays (g : Graph ι F) (group : ι) (kids : Forest ι) : Prop :=
  ∀ g' stopped, g.nodeStop group = .ok (g', stopped) →
    (∀ n ∈ stopped, n ∈ group :: kids.nodes) ∧
      ∀ n, n ∉ group :: kids.nodes → g'.table.id n = g.table.id n

/-- No node follows the tree of the group, or a sister of the group follows it, the sub-groups do
not contain groups and the last child is not a group. -/
def StopEnds (g : Graph ι F) (group : ι) (kids : Forest ι) : Prop :=
  g.EndsInTime group kids ∧
    (g.links.next (lastNode group (some kids)) = none ∨ kids.Flat ∧ kids.endsWithGroup = false)

theorem Grouped.next_lastNode (h : g.Grouped group kids l) :
    g.links.next (lastNode group (some kids)) = l.head? := by
  obtain ⟨C, hC⟩ := nodes_eq_append_lastNode group (some kids)
  have hthread := h.thread
  rw [descendants_some] at hC
  rw [← List.cons_append, hC] at hthread
  simpa using (thread_append.mp hthread).1.last_eq

theorem Grouped.nodup_nodes (h : g.Grouped group kids l) : (group :: kids.nodes).Nodup :=
  h.nodup.sublist ((List.sublist_append_left _ _).cons_cons group)

theorem Grouped.stopStays_of_last (h : g.Grouped group kids []) (hwf : g.WellFormed root f)
    (hgroup : g.groupP group = true) : g.StopStays group kids := by
  have hthread := h.thread
  have hnodup := h.nodup_nodes
  rw [List.append_nil] at hthread
  have hinside : ∀ n ∈ group :: kids.nodes, ∀ m, g.links.next n = some m → m ∈ kids.nodes := by
    intro n hn m hm
    obtain ⟨hmem, hidx⟩ := hthread.next_idxOf hnodup hn hm
    refine (List.mem_cons.mp hmem).resolve_left ?_
    rintro rfl
    rw [List.idxOf_cons_self] at hidx
    omega
  intro g' stopped hok
  have hcontained : Contained g root group kids.nodes kids.nodes none (g, []) :=
    ⟨⟨⟨f, hwf⟩, rfl, rfl, fun n hn => absurd hn List.not_mem_nil, fun _ _ => rfl⟩,
      fun n hn => hinside n (List.mem_cons_of_mem group hn), fun n hn hout => absurd hn hout⟩
  have hstays := nodeStop_stays hcontained hgroup (List.Subset.refl _) nofun
    (fun _ _ _ m hm hout => absurd hm hout) (fun m hm hout => absurd hm hout) nofun
    (.inl (hinside group List.mem_cons_self)) hok
  exact ⟨hstays.stopped, hstays.id⟩

theorem Grouped.stopStays_of_flat (h : g.Grouped group kids l) (hwf : g.WellFormed root f)
    (hgroup : g.groupP group = true) (hends : g.EndsInTime group kids) (hflat : kids.Flat)
    (hlast : kids.endsWithGroup = false) : g.StopStays group kids := by
  intro g' stopped hok
  have hstart : Stays g root group kids.nodes (g, []) :=
    ⟨⟨f, hwf⟩, rfl, rfl, fun n hn => absurd hn List.not_mem_nil, fun _ _ => rfl⟩
  have hthread := h.thread
  have hnodup := h.nodup
  have hsister : ∀ m, l.head? = some m → g.links.parent m = g.links.parent group := by
    intro m hm
    have htake := h.ends.mp hends
    obtain ⟨l', rfl⟩ := List.head?_eq_some_iff.mp hm
    by_contra hne
    rw [List.takeWhile_cons_of_pos (by simpa using hne)] at htake
    cases htake
  have hexit : ∀ m, l.head? = some m → m ∉ kids.nodes := fun m hm hmem =>
    (List.nodup_append'.mp (List.nodup_cons.mp hnodup).2).2.2 hmem (List.mem_of_mem_head? hm)
  suffices Stays g root group kids.nodes (g', stopped) from ⟨this.stopped, this.id⟩
  by_cases hkids : kids = .nil
  · subst hkids
    have hcontained : Contained g root group Forest.nil.nodes [] l.head? (g, []) :=
      ⟨hstart, fun n hn => absurd hn List.not_mem_nil, fun n hn => absurd hn List.not_mem_nil⟩
    refine nodeStop_stays hcontained hgroup (List.nil_subset _) hexit
      (fun n hn => absurd hn List.not_mem_nil) (fun n hn => absurd hn List.not_mem_nil) hsister
      (.inr ?_) hok
    simpa using hthread.1
  · obtain ⟨init, z, hinit, hz, hleaf⟩ := Forest.exists_last_leaf hkids hlast h.parents h.lasts
    have hnode {n : ι} (hn : n ∈ kids.nodes) (hout : n ∉ init) : n = z := by
      rw [hinit] at hn
      exact List.mem_singleton.mp ((List.mem_append.mp hn).resolve_left hout)
    rw [hinit] at hthread
    rw [← List.cons_append, ← List.cons_append] at hthread
    have hinside : ∀ n ∈ group :: init, ∀ m, g.links.next n = some m → m ∈ kids.nodes := by
      intro n hn m hm
      rw [hinit]
      exact (thread_append.mp hthread).1.mem_of_next hn hm
    have hnext : g.links.next z = l.head? := by
      rw [← h.next_lastNode, lastNode, descendants_some, hinit, List.getLast?_concat,
        Option.getD_some]
    have hcontained : Contained g root group kids.nodes init l.head? (g, []) := by
      refine ⟨hstart, fun n hn => hinside n (List.mem_cons_of_mem group hn), fun n hn hout => ?_⟩
      rw [hnode hn hout]
      exact hnext
    refine nodeStop_stays hcontained hgroup ?_ hexit (fun n hn hn' m hm hout => ?_)
      (fun n hn hout => ?_) hsister (.inl (hinside group List.mem_cons_self)) hok
    · rw [hinit]
      exact List.subset_append_left _ _
    · rw [hnode hm hout, hz]
      refine (hflat.parent_eq h.parents h.lasts ?_ hn').symm
      rw [hinit]
      exact List.mem_append_left _ hn
    · rw [hnode hn hout, groupP, hleaf]
      rfl

end Graph

/-- The iterations over a group visit exactly its nodes if and only if it is not the last child of
its parent or no node follows its tree. The children are visited in order also if the last of them
is a group. A stop of the group does not reach the other nodes if it ends before them. -/
theorem dogroup_exact_iff {g : Graph ι F} {root group : ι} {f kids : Forest ι}
    (h : g.WellFormed root f) (hsub : (tree root (some f)).Subtree group (some kids)) :
    (g.VisitsExactly group kids ↔ g.EndsInTime group kids) ∧
      (g.visits true group = .ok kids.nodes ↔ g.EndsInTime group kids) ∧
      (g.visits false group = .ok kids.tops ↔
        g.EndsInTime group kids ∨ kids.endsWithGroup = true) ∧
      (g.SetsControls group kids ↔ g.EndsInTime group kids) ∧
      (g.StopEnds group kids → g.StopStays group kids) := by
  obtain ⟨l, hgrouped, hgroup, hlive⟩ := h.grouped hsub
  have hnodes := hgrouped.visits_all_iff
  have htops := hgrouped.visits_tops_iff
  have hcontrols := hgrouped.setsControls_iff hgroup hlive
  refine ⟨⟨fun hexact => hnodes.mp hexact.nodes, fun hends => ?_⟩, hnodes, htops, hcontrols, ?_⟩
  · exact ⟨hnodes.mpr hends, htops.mpr (.inl hends), hcontrols.mpr hends⟩
  · rintro ⟨hends, hnone | ⟨hflat, hlast⟩⟩
    · rw [hgrouped.next_lastNode, List.head?_eq_none_iff] at hnone
      subst hnone
      exact hgrouped.stopStays_of_last h hgroup
    · exact hgrouped.stopStays_of_flat h hgroup hends hflat hlast

theorem dogroup_exact_nestedGroups :
    nestedGroups.VisitsExactly 1 (.group 2 .nil .nil) := by
  have hsub : (tree (8 : Fin 9) (some nestedForest)).Subtree 1 (some (.group 2 .nil .nil)) :=
    .groupKids (.group 1 _ _)
  refine (dogroup_exact_iff nestedGroups_wellFormed hsub).1.mpr fun p hp hlast => ?_
  obtain rfl : 8 = p := Option.some.inj hp
  exact absurd hlast (by decide)

/-- The node after the group that contains an empty one is visited as a node of the empty one. -/
theorem dogroup_not_exact :
    ¬ ∀ (g : Graph (Fin 9) Unit) (root group : Fin 9) (f kids : Forest (Fin 9)),
      g.WellFormed root f → (tree root (some f)).Subtree group (some kids) →
        g.VisitsExactly group kids := by
  intro h
  have hsub : (tree (8 : Fin 9) (some nestedForest)).Subtree 2 (some .nil) :=
    .groupKids (.groupKids (.group 2 _ _))
  have hnodes := (h nestedGroups 8 2 nestedForest .nil nestedGroups_wellFormed hsub).nodes
  have hvisits : nestedGroups.visits true 2 = .ok [3, 4] := by rfl
  rw [hvisits] at hnodes
  cases hnodes

end Incudine.NodeGraph

import Incudine.NodeFree

/-!
# Iteration over the nodes of a group

`dogroup` recognizes the end of a group by the parent of the next node, and `group-last` the end of
a sub-group. If no sibling follows the group, the iteration continues with the outer groups. The
control setter of a group is an iteration over its nodes.
-/

set_option linter.unusedSectionVars false

namespace Incudine.ThreadedForest

variable {ι : Type*}

def Forest.tops : Forest ι → List ι
  | .nil => []
  | .leaf n rest => n :: rest.tops
  | .group n _ rest => n :: rest.tops

def Forest.endsWithGroup : Forest ι → Bool
  | .nil => false
  | .leaf _ rest => rest.endsWithGroup
  | .group _ _ .nil => true
  | .group _ _ rest => rest.endsWithGroup

theorem Forest.endsWithGroup_group {n : ι} {kids rest : Forest ι} (h : rest ≠ .nil) :
    (Forest.group n kids rest).endsWithGroup = rest.endsWithGroup := by
  cases rest with
  | nil => exact absurd rfl h
  | leaf => rfl
  | group => rfl

end Incudine.ThreadedForest

namespace Incudine.NodeGraph

open Function ThreadedForest

variable {ι F V σ : Type} [DecidableEq ι] [Fintype ι]

namespace Graph

/-- The loop of `dogroup`. The state of the body includes the graph. -/
def iterateLoop (recursiveP : Bool) (graph : σ → Graph ι F) (body : σ → ι → Result σ)
    (parent : Option ι) : ℕ → σ → Option ι → Result σ
  | _, s, none => pure s
  | 0, _, some _ => throw .diverges
  | fuel + 1, s, some var =>
    if (graph s).links.parent var = parent then pure s
    else do
      let s ← body s var
      let last ← if recursiveP = false ∧ (graph s).groupP var then (graph s).groupLast var
        else pure none
      iterateLoop recursiveP graph body parent fuel s ((graph s).links.next (last.getD var))

def iterate (recursiveP : Bool) (graph : σ → Graph ι F) (body : σ → ι → Result σ) (group : ι)
    (s : σ) : Result σ :=
  iterateLoop recursiveP graph body ((graph s).links.parent group) (fuel ι) s
    ((graph s).links.next group)

variable (g : Graph ι F)

/-- The nodes to which `dogroup` binds its variable, with a body that keeps the graph. -/
def visits (recursiveP : Bool) (group : ι) : Result (List ι) :=
  iterate recursiveP (fun _ => g) (fun w n => pure (w ++ [n])) group []

def controlFunction (setter : ι → Option (V → σ → σ)) (obj : ι) : Option (V → σ → σ) :=
  if g.nullNodeP obj then none else setter obj

def setNode (setter : ι → Option (V → σ → σ)) (value : V) (s : σ) (n : ι) : σ :=
  match g.controlFunction setter n with
  | some fn => fn value s
  | none => s

def controlSetter (setter : ι → Option (V → σ → σ)) (obj : ι) : Option (V → σ → Result σ) :=
  match g.controlFunction setter obj with
  | some fn => some fun value s => pure (fn value s)
  | none =>
    if g.groupP obj then
      some fun value s => iterate true (fun _ => g)
        (fun s n => pure (g.setNode setter value s n)) obj s
    else none

variable {g} {root group n q : ι} {f kids : Forest ι} {p : Option ι} {l w : List ι} {fuel : ℕ}

theorem iterateLoop_all (hthread : Thread g.links.next l none) (hfuel : l.length ≤ fuel)
    (body : σ → ι → σ) (s : σ) :
    iterateLoop true (fun _ => g) (fun s n => pure (body s n)) p fuel s l.head? =
      .ok ((l.takeWhile (g.links.parent · ≠ p)).foldl body s) := by
  induction l generalizing fuel s with
  | nil => cases fuel <;> rfl
  | cons n l ih =>
    obtain ⟨b, rfl⟩ : ∃ b, fuel = b + 1 := ⟨fuel - 1, by simp at hfuel; omega⟩
    rw [List.head?_cons, iterateLoop]
    by_cases hn : g.links.parent n = p
    · rw [if_pos hn, List.takeWhile_cons_of_neg (by simpa using hn)]
      rfl
    · have hnext : g.links.next n = l.head? := by simpa using hthread.1
      rw [if_neg hn, List.takeWhile_cons_of_pos (by simpa using hn), List.foldl_cons,
        ← ih hthread.2 (by simpa using hfuel) (body s n), ← hnext]
      rfl

/-- The iteration over a list of nodes that keeps the graph, without the nodes of the sub-groups. -/
def visitsFrom (g : Graph ι F) (p : Option ι) (fuel : ℕ) (w : List ι) (item : Option ι) :
    Result (List ι) :=
  iterateLoop false (fun _ => g) (fun w n => pure (w ++ [n])) p fuel w item

theorem visitsFrom_of_eq (hn : g.links.parent n = p) :
    g.visitsFrom p (fuel + 1) w (some n) = .ok w := if_pos hn

theorem visitsFrom_leaf (hn : g.links.parent n ≠ p) (hleaf : g.groupP n = false) :
    g.visitsFrom p (fuel + 1) w (some n) = g.visitsFrom p fuel (w ++ [n]) (g.links.next n) := by
  rw [visitsFrom, iterateLoop, if_neg hn, pure_eq_ok, ok_bind, if_neg (by simp [hleaf])]
  rfl

theorem visitsFrom_group (hn : g.links.parent n ≠ p) (hgroup : g.groupP n = true)
    (hthread : Thread g.links.next (n :: l) none) (hfuel : l.length ≤ NodeGraph.fuel ι) :
    g.visitsFrom p (fuel + 1) w (some n) = g.visitsFrom p fuel (w ++ [n])
      (l.dropWhile (g.links.parent · ≠ g.links.parent n)).head? := by
  obtain ⟨last, hlast, hnext⟩ := next_groupLast hthread hfuel
  rw [visitsFrom, iterateLoop, if_neg hn, pure_eq_ok, ok_bind, if_pos ⟨rfl, hgroup⟩, hlast, ok_bind,
    ← hnext]
  rfl

theorem visitsFrom_none : g.visitsFrom p fuel w none = .ok w := by
  cases fuel <;> rfl

theorem length_le_of_visitsFrom {item : Option ι} {w' : List ι}
    (h : g.visitsFrom p fuel w item = .ok w') : w.length ≤ w'.length := by
  induction fuel generalizing w item with
  | zero =>
    cases item with
    | none =>
      cases h
      exact le_rfl
    | some n => cases h
  | succ fuel ih =>
    cases item with
    | none =>
      cases h
      exact le_rfl
    | some n =>
      by_cases hn : g.links.parent n = p
      · rw [visitsFrom_of_eq hn] at h
        cases h
        exact le_rfl
      · rw [visitsFrom, iterateLoop, if_neg hn, pure_eq_ok, ok_bind] at h
        have hlonger {last : Option ι}
            (h : g.visitsFrom p fuel (w ++ [n]) (g.links.next (last.getD n)) = .ok w') :
            w.length ≤ w'.length := by
          have hle := ih h
          rw [List.length_append] at hle
          omega
        split_ifs at h with hgroup
        · cases hlast : g.groupLast n with
          | ok last =>
            rw [hlast, ok_bind] at h
            exact hlonger h
          | error e =>
            rw [hlast] at h
            cases h
        · exact hlonger h

theorem visitsFrom_kids (hparents : Parents g.links.parent q kids) (hlasts : Lasts g.links.last kids)
    (hp : p ≠ some q) (hnodup : (q :: kids.nodes).Nodup)
    (hthread : Thread g.links.next (kids.nodes ++ l) none)
    (hafter : ∀ n ∈ l, g.links.parent n ≠ some q)
    (hfuel : (kids.nodes ++ l).length ≤ fuel) (hle : fuel ≤ NodeGraph.fuel ι) (w : List ι) :
    ∃ fuel', l.length ≤ fuel' ∧ g.visitsFrom p fuel w (kids.nodes ++ l).head? =
      if kids.endsWithGroup then .ok (w ++ kids.tops)
      else g.visitsFrom p fuel' (w ++ kids.tops) l.head? := by
  induction kids generalizing fuel w with
  | nil => exact ⟨fuel, hfuel, by simp [Forest.endsWithGroup, Forest.tops]⟩
  | leaf n rest ih =>
    obtain ⟨hn, hrest⟩ := hparents
    obtain ⟨hln, hlrest⟩ := hlasts
    rw [Forest.nodes_leaf, List.cons_append] at hthread hfuel ⊢
    rw [List.length_cons] at hfuel
    obtain ⟨b, rfl⟩ : ∃ b, fuel = b + 1 := ⟨fuel - 1, by omega⟩
    have hleaf : g.groupP n = false := by rw [groupP, hln, Option.isSome_none]
    have hnext : g.links.next n = (rest.nodes ++ l).head? := by simpa using hthread.1
    have hlen : (rest.nodes ++ l).length ≤ b := by omega
    obtain ⟨fuel', hfuel', heq⟩ := ih hrest hlrest (hnodup.sublist (by simp)) hthread.2 hlen
      (by omega) (w ++ [n])
    refine ⟨fuel', hfuel', ?_⟩
    rw [List.append_assoc, List.singleton_append] at heq
    rw [List.head?_cons, visitsFrom_leaf (by rw [hn]; exact hp.symm) hleaf, hnext]
    exact heq
  | group n kids rest _ ih =>
    obtain ⟨hn, hkids, hrest⟩ := hparents
    obtain ⟨hln, -, hlrest⟩ := hlasts
    obtain ⟨-, hnodupRest, hq, -⟩ := nodup_group hnodup
    rw [Forest.nodes_group, List.cons_append, List.append_assoc] at hthread hfuel ⊢
    rw [List.length_cons, List.length_append] at hfuel
    obtain ⟨b, rfl⟩ : ∃ b, fuel = b + 1 := ⟨fuel - 1, by omega⟩
    have hall : (kids.nodes ++ (rest.nodes ++ l)).length ≤ NodeGraph.fuel ι := by
      rw [List.length_append]
      omega
    have hgroup : g.groupP n = true := by rw [groupP, hln, Option.isSome_some]
    rw [List.head?_cons, visitsFrom_group (by rw [hn]; exact hp.symm) hgroup hthread hall, hn]
    by_cases hend : rest = .nil
    · subst hend
      have hdrop : (kids.nodes ++ (Forest.nil.nodes ++ l)).dropWhile
          (g.links.parent · ≠ some q) = [] := by
        rw [List.dropWhile_eq_nil_iff]
        intro m hm
        rw [Forest.nodes_nil, List.nil_append] at hm
        rcases List.mem_append.mp hm with hm | hm
        · simpa using hkids.ne hq hm
        · simpa using hafter m hm
      refine ⟨l.length, le_rfl, ?_⟩
      rw [hdrop, List.head?_nil, visitsFrom_none]
      rfl
    · have hdrop := dropWhile_kids hkids hrest hq (fun h => absurd h hend) (l := l)
      have hthreadRest : Thread g.links.next (rest.nodes ++ l) none := by
        rw [← hdrop]
        exact (hthread.dropWhile (g.links.parent · ≠ some q)).2
      have hlen : (rest.nodes ++ l).length ≤ b := by omega
      obtain ⟨fuel', hfuel', heq⟩ := ih hrest hlrest hnodupRest hthreadRest hlen (by omega)
        (w ++ [n])
      refine ⟨fuel', hfuel', ?_⟩
      rw [List.append_assoc, List.singleton_append] at heq
      rw [hdrop, Forest.endsWithGroup_group hend]
      exact heq

/-- The group is not the last child of its parent, or no node follows its tree. -/
def EndsInTime (g : Graph ι F) (group : ι) (kids : Forest ι) : Prop :=
  ∀ p, g.links.parent group = some p → g.lastNodeP p = some group →
    g.links.next (lastNode group (some kids)) = none

/-- A group with its nodes and the nodes `l` that follow them. -/
structure Grouped (g : Graph ι F) (group : ι) (kids : Forest ι) (l : List ι) : Prop where
  thread : Thread g.links.next (group :: (kids.nodes ++ l)) none
  nodup : (group :: (kids.nodes ++ l)).Nodup
  parents : Parents g.links.parent group kids
  lasts : Lasts g.links.last kids
  outside : ∀ n ∈ kids.nodes, g.links.parent n ≠ g.links.parent group
  after : ∀ n ∈ l, g.links.parent n ≠ some group
  parent : g.links.parent group ≠ some group
  ends : g.EndsInTime group kids ↔ l.takeWhile (g.links.parent · ≠ g.links.parent group) = []

theorem WellFormed.grouped_root (h : g.WellFormed root f) : g.Grouped root f [] := by
  have hne : ∀ n ∈ f.nodes, g.links.parent n ≠ g.links.parent root := by
    intro n hn heq
    obtain ⟨m, hm, -⟩ := h.links.parents.mem hn
    rw [heq, h.links.parentRoot] at hm
    cases hm
  refine ⟨?_, ?_, h.links.parents, h.links.lasts, hne, ?_, ?_, ?_⟩
  · rw [List.append_nil]
    exact h.links.next
  · rw [List.append_nil]
    exact h.links.nodup
  · exact fun n hn => absurd hn List.not_mem_nil
  · rw [h.links.parentRoot]
    exact nofun
  · refine iff_of_true (fun p hp => ?_) List.takeWhile_nil
    rw [h.links.parentRoot] at hp
    cases hp

theorem WellFormed.endsInTime_iff {P : Position ι}
    (h : g.WellFormed root (P.plug (tree group (some kids)))) :
    g.EndsInTime group kids ↔ (P.right = .nil → P.after = []) := by
  have hparent : g.links.parent group = some (P.owner root) := h.links.parent_tree
  have hlast : g.lastNodeP (P.owner root) = some (P.right.lastTop.getD group) := by
    obtain ⟨-, howner, -⟩ := P.lasts_plug.mp ⟨h.links.lastRoot, h.links.lasts⟩
    rw [lastNodeP, howner, Forest.lastTop_append, lastTop_tree_append, Option.some_or,
      Option.join_some]
  have hnext : g.links.next (lastNode group (some kids)) = P.after.head? := h.links.next_lastNode
  have hright : P.right.lastTop.getD group = group ↔ P.right = .nil := by
    constructor
    · intro heq
      cases hr : P.right.lastTop with
      | none => exact Forest.lastTop_eq_none.mp hr
      | some m =>
        rw [hr, Option.getD_some] at heq
        subst heq
        refine absurd (Forest.lastTop_mem hr) fun hmem => ?_
        refine h.links.notMem_of_mem_tree List.mem_cons_self (List.mem_append_right _ ?_)
        exact List.mem_append_left _ hmem
    · intro hr
      rw [hr, Forest.lastTop_nil, Option.getD_none]
  constructor
  · intro hends hr
    have hnone := hends _ hparent (hlast.trans (congrArg some (hright.mpr hr)))
    rwa [hnext, List.head?_eq_none_iff] at hnone
  · intro hends p hp hlastP
    obtain rfl : P.owner root = p := Option.some.inj (hparent.symm.trans hp)
    rw [hlast, Option.some.injEq] at hlastP
    rw [hnext, hends (hright.mp hlastP), List.head?_nil]

theorem WellFormed.grouped_plug {P : Position ι}
    (h : g.WellFormed root (P.plug (tree group (some kids)))) : g.Grouped group kids P.after := by
  have hparent : g.links.parent group = some (P.owner root) := h.links.parent_tree
  have howner := h.links.owner_notMem_tree
  have hnodup := h.links.nodup
  have hnext := h.links.next
  rw [P.nodes_plug, nodes_tree, List.cons_append] at hnodup hnext
  refine ⟨(thread_append.mp hnext).2, (List.nodup_append'.mp hnodup).2.1, h.links.parents_tree_kids,
    (lasts_tree.mp (P.lasts_plug.mp ⟨h.links.lastRoot, h.links.lasts⟩).2.2).2, ?_, ?_, ?_, ?_⟩
  · intro n hn
    rw [hparent]
    exact h.links.parents_tree_kids.ne howner hn
  · exact fun n hn => h.links.parent_after n hn group List.mem_cons_self
  · rw [hparent, ne_eq, Option.some.injEq]
    exact fun heq => howner (heq ▸ List.mem_cons_self)
  · rw [h.endsInTime_iff, hparent]
    constructor
    · intro hend
      cases hr : P.right.nodes with
      | nil => rw [hend (Forest.nodes_eq_nil.mp hr), List.takeWhile_nil]
      | cons m nodes =>
        have hright : Parents g.links.parent (P.owner root) P.right :=
          (P.parents_plug.mp h.links.parents).1.2.2
        have hm : g.links.parent m = some (P.owner root) := hright.head (by rw [hr, List.head?_cons])
        rw [Position.after, hr, List.cons_append, List.takeWhile_cons_of_neg (by simpa using hm)]
    · intro htake hr
      cases hafter : P.after with
      | nil => rfl
      | cons m l =>
        have hm := h.links.parent_after_ne_owner hr m (hafter ▸ List.mem_cons_self)
        rw [hafter, List.takeWhile_cons_of_pos (by simpa using hm)] at htake
        cases htake

theorem WellFormed.grouped (h : g.WellFormed root f)
    (hsub : (tree root (some f)).Subtree group (some kids)) :
    ∃ l, g.Grouped group kids l ∧ g.groupP group = true ∧
      ∀ n ∈ kids.nodes ++ l, g.nullNodeP n = false := by
  cases hsub with
  | group =>
    refine ⟨[], h.grouped_root, by rw [groupP, h.links.lastRoot, Option.isSome_some], fun n hn => ?_⟩
    rw [List.append_nil] at hn
    exact (h.live n).mpr (List.mem_cons_of_mem root hn)
  | groupRest hk => cases hk
  | groupKids hk =>
    obtain ⟨P, rfl⟩ := hk.exists_position
    refine ⟨P.after, h.grouped_plug, h.groupP_tree, fun n hn => ?_⟩
    rw [h.live n, P.nodes_plug, nodes_tree]
    exact List.mem_append_right _ (List.mem_cons_of_mem group hn)

theorem foldl_append_singleton (l w : List ι) : l.foldl (fun w n => w ++ [n]) w = w ++ l := by
  induction l generalizing w with
  | nil => rw [List.foldl_nil, List.append_nil]
  | cons n l ih => rw [List.foldl_cons, ih, List.append_assoc, List.singleton_append]

/-- A control is set in the group if it is a control of the group itself, otherwise in all the
nodes of the group, in order, and nowhere else. -/
def SetsControls (g : Graph ι F) (group : ι) (kids : Forest ι) : Prop :=
  ∀ (V σ : Type) (setter : ι → Option (V → σ → σ)) (value : V) (s : σ),
    ∃ set, g.controlSetter setter group = some set ∧ set value s =
      .ok (match g.controlFunction setter group with
        | some fn => fn value s
        | none => kids.nodes.foldl (g.setNode setter value) s)

section

variable (h : g.Grouped group kids l)
include h

theorem Grouped.length_le : (kids.nodes ++ l).length ≤ NodeGraph.fuel ι := by
  have hcard := h.nodup.length_le_card
  rw [List.length_cons] at hcard
  unfold NodeGraph.fuel
  omega

theorem Grouped.takeWhile_eq :
    (kids.nodes ++ l).takeWhile (g.links.parent · ≠ g.links.parent group) =
      kids.nodes ++ l.takeWhile (g.links.parent · ≠ g.links.parent group) :=
  List.takeWhile_append_of_pos fun n hn => by simpa using h.outside n hn

theorem Grouped.iterate_eq (body : σ → ι → σ) (s : σ) :
    iterate true (fun _ => g) (fun s n => pure (body s n)) group s =
      .ok ((kids.nodes ++ l.takeWhile (g.links.parent · ≠ g.links.parent group)).foldl body s) := by
  have hnext : g.links.next group = (kids.nodes ++ l).head? := by simpa using h.thread.1
  rw [iterate, hnext, ← h.takeWhile_eq]
  exact iterateLoop_all h.thread.2 h.length_le body s

theorem Grouped.visits_all_iff :
    g.visits true group = .ok kids.nodes ↔ g.EndsInTime group kids := by
  rw [visits, h.iterate_eq, foldl_append_singleton, List.nil_append, Except.ok.injEq, h.ends]
  exact List.append_right_eq_self

theorem Grouped.visits_tops_iff :
    g.visits false group = .ok kids.tops ↔ g.EndsInTime group kids ∨ kids.endsWithGroup = true := by
  have hnext : g.links.next group = (kids.nodes ++ l).head? := by simpa using h.thread.1
  have hnodup : (group :: kids.nodes).Nodup :=
    h.nodup.sublist ((List.sublist_append_left _ _).cons_cons group)
  obtain ⟨fuel', hfuel', heq⟩ := visitsFrom_kids h.parents h.lasts h.parent hnodup h.thread.2
    h.after h.length_le le_rfl []
  have hvisits : g.visits false group = g.visitsFrom (g.links.parent group) (NodeGraph.fuel ι) []
      (kids.nodes ++ l).head? := by
    rw [← hnext]
    rfl
  rw [hvisits, heq, List.nil_append, h.ends]
  split_ifs with hlast
  · exact iff_of_true rfl (.inr hlast)
  · rw [or_iff_left hlast]
    cases l with
    | nil => exact iff_of_true visitsFrom_none List.takeWhile_nil
    | cons m l =>
      obtain ⟨b, rfl⟩ : ∃ b, fuel' = b + 1 := ⟨fuel' - 1, by simp at hfuel'; omega⟩
      by_cases hm : g.links.parent m = g.links.parent group
      · exact iff_of_true (visitsFrom_of_eq hm) (List.takeWhile_cons_of_neg (by simpa using hm))
      · refine iff_of_false (fun hok => ?_) ?_
        · rw [List.head?_cons, visitsFrom, iterateLoop, if_neg hm, pure_eq_ok, ok_bind] at hok
          have hlonger {last : Option ι} (hok : g.visitsFrom (g.links.parent group) b
              (kids.tops ++ [m]) (g.links.next (last.getD m)) = .ok kids.tops) : False := by
            have hle := length_le_of_visitsFrom hok
            rw [List.length_append, List.length_singleton] at hle
            omega
          split_ifs at hok
          · cases hgroupLast : g.groupLast m with
            | ok last =>
              rw [hgroupLast, ok_bind] at hok
              exact hlonger hok
            | error e =>
              rw [hgroupLast] at hok
              cases hok
          · exact hlonger hok
        · rw [List.takeWhile_cons_of_pos (by simpa using hm)]
          exact List.cons_ne_nil _ _

theorem Grouped.setsControls_iff (hgroup : g.groupP group = true)
    (hlive : ∀ n ∈ kids.nodes ++ l, g.nullNodeP n = false) :
    g.SetsControls group kids ↔ g.EndsInTime group kids := by
  rw [h.ends]
  constructor
  · intro hsets
    let setter : ι → Option (Unit → List ι → List ι) := fun n =>
      if n = group then none else some fun _ w => w ++ [n]
    obtain ⟨set, hset, heq⟩ := hsets Unit (List ι) setter () []
    have hnone : g.controlFunction setter group = none := by
      rw [controlFunction, show setter group = none from if_pos rfl, ite_self]
    have hfold (l' : List ι) (hsub : l' ⊆ kids.nodes ++ l) (w : List ι) :
        l'.foldl (g.setNode setter ()) w = w ++ l' := by
      rw [← foldl_append_singleton]
      apply List.foldl_ext
      intro w n hn
      have hne : n ≠ group := by
        rintro rfl
        exact (List.nodup_cons.mp h.nodup).1 (hsub hn)
      have hfn : setter n = some fun _ w => w ++ [n] := if_neg hne
      rw [setNode, controlFunction, if_neg (by rw [hlive n (hsub hn)]; exact Bool.false_ne_true),
        hfn]
    rw [controlSetter, hnone] at hset
    dsimp only at hset
    rw [if_pos hgroup, Option.some.injEq] at hset
    subst hset
    rw [hnone] at heq
    dsimp only at heq
    rw [h.iterate_eq, Except.ok.injEq, hfold _ ?_, hfold _ (List.subset_append_left _ _)] at heq
    · simpa using heq
    · exact List.append_subset.mpr ⟨List.subset_append_left _ _,
        List.Subset.trans (List.takeWhile_sublist _).subset (List.subset_append_right _ _)⟩
  · intro hends V σ setter value s
    rw [controlSetter]
    cases g.controlFunction setter group with
    | some fn => exact ⟨_, rfl, rfl⟩
    | none =>
      refine ⟨_, if_pos hgroup, ?_⟩
      rw [h.iterate_eq, hends, List.append_nil]

end

end Graph

end Incudine.NodeGraph

import Incudine.NodeInsertion
import Incudine.NodeUnlink

/-!
# Detachment of nodes

`unlink-parent` and `unlink-group-neighbors` take the tree of a node out of the well-formed tree
of the nodes. They fail only if the node is not paused and it is the first one of a paused root:
in this case `unlink-prev` looks for the node before the root.
-/

set_option linter.unusedSectionVars false

namespace Incudine.NodeGraph

open Function ThreadedForest

variable {ι F : Type} [DecidableEq ι] [Fintype ι]

namespace Graph

variable {g g' : Graph ι F} {root src a : ι} {f : Forest ι} {k : Option (Forest ι)}
  {P : Position ι} {A : List ι} {live : ι → Prop} {rank : ι → ℕ}

theorem unpausedNodePrev_first {n : ι} (hn : g.links.prev n = some g.root)
    (hroot : g.links.parent g.root = none) (hprev : g.links.prev g.root = none) :
    g.unpausedNodePrev n = .ok (if g.pauseP g.root then none else some g.root) := by
  have hparent : g.pausedParent g.root = .ok none := by
    rw [pausedParent, hroot]
    rfl
  obtain ⟨c, hc⟩ : ∃ c, fuel ι = c + 2 := by
    have hcard := Fintype.card_pos_iff.mpr ⟨g.root⟩
    exact ⟨Fintype.card ι - 1, by unfold fuel; omega⟩
  rw [unpausedNodePrev, hc, unpausedNodePrevLoop, hn]
  dsimp only
  split_ifs
  · rw [unpausedNodePrevLoop, hprev]
    rfl
  · rw [hparent]
    rfl

def FirstOfPausedRoot (g : Graph ι F) (n : ι) : Prop :=
  g.links.prev n = some g.root ∧ g.pauseP g.root = true ∧ g.pauseP n = false

theorem unlinkPrev_ok {n₁ n₂ : ι} (hprev : g.links.prev n₁ = some a)
    (hg : (g.setNext a (g.links.next n₂)).Ordered live rank)
    (hback : g.OrderedBack live rank (rank a)) (hcons : g.HasCons live) (ha : live a)
    (hn₂ : n₂ ≠ a) (hcurrent : g.currentNode n₂ = .ok n₂)
    (hnext : ∀ b, g.links.next n₂ = some b → live b) (hroot : g.links.parent g.root = none)
    (hprevRoot : g.links.prev g.root = none) (hfirst : ¬ g.FirstOfPausedRoot n₁) :
    ∃ g', g.unlinkPrev n₁ n₂ = .ok g' ∧ (g.setNext a (g.links.next n₂)).OnlyFuncons g' := by
  unfold unlinkPrev
  rw [hprev, theNode, pure_eq_ok, ok_bind]
  extract_lets g₁
  have hback₁ : g₁.OrderedBack live rank (rank a) := hback
  have hcons₁ : g₁.HasCons live := hcons
  have hnext₁ : g₁.links.next n₂ = g.links.next n₂ := update_of_ne hn₂ _ _
  have hcurrent₁ : g₁.currentNode n₂ = .ok n₂ := by
    have hlast : g₁.links.last = g.links.last := rfl
    have hpause : g₁.pauseP = g.pauseP := rfl
    rw [← hcurrent, currentNode, currentNode, findLastNode_congr hlast, hpause]
  by_cases hpause : g₁.pauseP n₁
  · rw [if_pos hpause]
    exact ⟨g₁, rfl, .refl g₁⟩
  rw [if_neg hpause]
  obtain ⟨prev, hr, hspec⟩ := unpausedNodePrev_ok hg (n := n₁) (fun p hp => by
    obtain rfl : a = p := Option.some.inj (hprev.symm.trans hp)
    exact ⟨ha, hback₁⟩)
  have hlast : ∀ g₂, g₁.OnlyFuncons g₂ → ∃ g₃,
      (if prev = some a then pure g₂ else g₂.updateFunconsFrom a none true none) = .ok g₃ ∧
        g₁.OnlyFuncons g₃ := by
    intro g₂ honly
    split_ifs with hprevA
    · exact ⟨g₂, rfl, honly⟩
    · have haroot : a ≠ g.root := by
        rintro rfl
        have hfirst' : g₁.unpausedNodePrev n₁ = _ := unpausedNodePrev_first hprev hroot hprevRoot
        rw [hr, Except.ok.injEq] at hfirst'
        by_cases hp : g₁.pauseP g₁.root
        · exact hfirst ⟨hprev, hp, Bool.not_eq_true _ ▸ hpause⟩
        · rw [if_neg hp] at hfirst'
          exact hprevA hfirst'
      obtain ⟨g₃, hg₃, honly₃⟩ := updateFunconsFrom_ok (honly.ordered hg) (honly.hasCons hcons₁)
        ha (honly.orderedBack hback₁) none true (fun _ => honly.root ▸ haroot) none
      exact ⟨g₃, hg₃, honly.trans honly₃⟩
  rw [hr, ok_bind]
  cases prev with
  | none => exact hlast g₁ (.refl g₁)
  | some m =>
    obtain ⟨p, hp, hlive, hle, -⟩ := hspec m rfl
    obtain rfl : a = p := Option.some.inj (hprev.symm.trans hp)
    have hafter : ∃ c, g₁.funconsAfter n₂ = .ok c := by
      unfold funconsAfter
      cases g₁.links.next n₂ with
      | none => exact ⟨none, rfl⟩
      | some b => exact nodeNextFuncons_of_current hg hcurrent₁ fun m hm => hnext m (hnext₁ ▸ hm)
    obtain ⟨c, hc⟩ := hafter
    obtain ⟨g₂, hg₂, honly⟩ := updateFunconsFrom_ok hg hcons₁ hlive (hback₁.mono hle) c false
      (fun h => by cases h) none
    dsimp only
    rw [hc, ok_bind, hg₂, ok_bind]
    exact hlast g₂ honly

theorem unlinkPrev_error {n₁ n₂ : ι} (hroot : g.links.parent g.root = none)
    (hprevRoot : g.links.prev g.root = none) (hgroup : g.groupP g.root = true)
    (hfirst : g.FirstOfPausedRoot n₁) : g.unlinkPrev n₁ n₂ = .error .typeError := by
  obtain ⟨hprev, hpauseRoot, hpause⟩ := hfirst
  unfold unlinkPrev
  rw [hprev, theNode, pure_eq_ok, ok_bind]
  extract_lets g₁
  have hprev₁ : g₁.unpausedNodePrev n₁ = _ := unpausedNodePrev_first hprev hroot hprevRoot
  have hpauseRoot₁ : g₁.pauseP g₁.root = true := hpauseRoot
  have hpause₁ : ¬ g₁.pauseP n₁ = true := by
    rw [show g₁.pauseP n₁ = false from hpause]
    exact Bool.false_ne_true
  have hgroup₁ : g₁.groupP g.root = true := hgroup
  have hgroup₂ : (g₁.setFuncons g.root none).groupP g.root = true := hgroup
  have hprevRoot₂ : (g₁.setFuncons g.root none).links.prev g.root = none := hprevRoot
  rw [if_neg hpause₁, hprev₁, if_pos hpauseRoot₁, ok_bind]
  simp only [pure_eq_ok, ok_bind, updateFunconsFrom, updateFuncons, hgroup₁, if_true, hgroup₂,
    updatePreviousFuncons, fuel, updatePreviousFunconsLoop, previous, hprevRoot₂, theNode]
  rfl

theorem unlinkNext_eq (n₁ n₂ : ι) : g.unlinkNext n₁ n₂ = { g with links := { g.links with
    prev := match g.links.next n₁ with
      | some next => update g.links.prev next (g.links.prev n₂)
      | none => g.links.prev } } := by
  unfold unlinkNext
  cases g.links.next n₁ <;> rfl

theorem prevSister_ok (h : g.Ordered live rank) {p m n : ι} {fuel : ℕ}
    (hm : g.links.parent m = some p) {k : Option (Forest ι)}
    (hparents : Parents g.links.parent m (descendants k)) (hp : p ∉ m :: (descendants k).nodes)
    (hlive : ∀ q ∈ m :: (descendants k).nodes, live q) (hn : n ∈ m :: (descendants k).nodes)
    (hnodup : (m :: (descendants k).nodes).Nodup)
    (hfuel : rank n < fuel) : g.prevSister (some p) fuel (some n) = .ok m := by
  induction fuel generalizing n with
  | zero => omega
  | succ fuel ih =>
    rw [prevSister, theNode, pure_eq_ok, ok_bind]
    rcases List.mem_cons.mp hn with rfl | hdesc
    · rw [if_pos hm]
      rfl
    · obtain ⟨q, hq, hmem⟩ := hparents.mem hdesc
      have hqmem : q ∈ m :: (descendants k).nodes := List.mem_cons.mpr hmem
      have hne : g.links.parent n ≠ some p := by
        rw [hq]
        rintro ⟨⟩
        exact hp hqmem
      rw [if_neg hne, hq]
      have hlt := (h.parent n q (hlive n hn) hq).2
      exact ih hqmem (by omega)

theorem owner_eq_of_left_nil (hleft : P.left = .nil) (hA : P.before root = A ++ [a]) :
    P.owner root = a := by
  obtain ⟨B, hB⟩ := Position.before_of_left_nil root hleft
  rw [hB] at hA
  simpa using (List.append_inj' hA rfl).2

theorem unlinkParent_ok (h : g.WellFormed root (P.plug (tree src k)))
    (hA : P.before root = A ++ [a]) :
    ∃ x, g.unlinkParent src = .ok { g with links := { g.links with
      last := update g.links.last (P.owner root) (some (P.left ++ P.right).lastTop)
      next := update g.links.next a x } } := by
  have hlast := h.links.last_owner
  rw [Forest.lastTop_append, lastTop_tree_append, Option.some_or] at hlast
  have hsrc := h.links.notMem_of_mem_tree (List.mem_cons_self (a := src))
  have hnextOwner : g.links.next (P.owner root) = some src ↔ P.left = .nil := by
    rw [h.links.next_owner]
    constructor
    · intro hhead
      by_contra hleft
      obtain ⟨n, l, hl⟩ := List.exists_cons_of_ne_nil (Forest.nodes_eq_nil.not.mpr hleft)
      rw [hl, List.cons_append, List.head?_cons, Option.some.injEq] at hhead
      apply hsrc
      simp [Position.before, hl, hhead]
    · intro hleft
      simp [hleft]
  unfold unlinkParent
  rw [h.links.parent_tree, theNode, pure_eq_ok, ok_bind]
  cases hr : P.right.lastTop with
  | none =>
    have hright := Forest.lastTop_eq_none.mp hr
    rw [hr, Option.getD_none] at hlast
    rw [if_pos (by simp [lastNodeP, hlast])]
    by_cases hleft : P.left = .nil
    · refine ⟨g.links.next a, ?_⟩
      rw [if_pos (hnextOwner.mpr hleft), update_eq_self, hleft, hright]
      rfl
    · obtain ⟨m, hm⟩ := Option.ne_none_iff_exists'.mp (Forest.lastTop_eq_none.not.mpr hleft)
      obtain ⟨l, k', hl⟩ := Forest.exists_last hm
      obtain ⟨B, hB⟩ := exists_before_lastNode P root
      rw [hl, lastNode_of_append, hA] at hB
      have ha : a = lastNode m k' := by simpa using (List.append_inj' hB rfl).2
      have hprev : g.links.prev src = some a := h.links.prev_first hA (by simp)
      have hnodup := h.links.nodup
      have hparents := (P.parents_plug.mp h.links.parents).1.2.1
      rw [hl] at hparents
      obtain ⟨hpm, hpk⟩ := parents_tree.mp (parents_append.mp hparents).2
      have hsub : (tree root (some (P.plug (tree src k)))).Subtree m k' := by
        refine P.subtree_left ?_ root _
        rw [hl]
        exact (Forest.subtree_tree m k').append_right
      have hroot : ∀ q ∈ m :: (descendants k').nodes, q ∈ root :: (P.plug (tree src k)).nodes := by
        intro q hq
        have hmem : q ∈ (tree root (some (P.plug (tree src k)))).nodes := by
          rcases List.mem_cons.mp hq with rfl | hq
          · exact hsub.mem
          · exact hsub.nodes_subset hq
        simpa using hmem
      have hleftNodup : (P.owner root :: P.left.nodes).Nodup := by
        obtain ⟨C, hC⟩ := P.before_eq root
        rw [P.nodes_plug, hC] at hnodup
        exact (List.nodup_append'.mp (List.nodup_append'.mp hnodup).1).2.1
      rw [hl, Forest.nodes_append, nodes_tree, List.nodup_cons, List.nodup_append'] at hleftNodup
      have hmemA : a ∈ m :: (descendants k').nodes := by
        obtain ⟨C, hC⟩ := nodes_eq_append_lastNode m k'
        simp [hC, ha]
      have hsister : g.prevSister (some (P.owner root)) (fuel ι) (some a) = .ok m :=
        prevSister_ok h.ordered hpm hpk
          (fun hmem => hleftNodup.1 (List.mem_append_right _ hmem)) hroot hmemA
          hleftNodup.2.2.1 ((h.ordered.bound a (hroot a hmemA)).trans (Nat.lt_succ_self _))
      refine ⟨g.links.next a, ?_⟩
      rw [if_neg (hnextOwner.not.mpr hleft), hprev, hsister, ok_bind, update_eq_self, hright,
        Forest.append_nil, hm]
      rfl
  | some r =>
    rw [hr, Option.getD_some] at hlast
    have hne : r ≠ src := by
      rintro rfl
      exact hsrc (by simp [Position.after, Forest.lastTop_mem hr])
    rw [if_neg (by simp [lastNodeP, hlast, hne])]
    have hsame : update g.links.last (P.owner root) (some (P.left ++ P.right).lastTop) =
        g.links.last := by
      rw [Forest.lastTop_append, hr, Option.some_or, ← hlast, update_eq_self]
    rw [hsame]
    by_cases hleft : P.left = .nil
    · refine ⟨g.links.next src, ?_⟩
      rw [if_pos (hnextOwner.mpr hleft), owner_eq_of_left_nil hleft hA]
      rfl
    · refine ⟨g.links.next a, ?_⟩
      rw [if_neg (hnextOwner.not.mpr hleft), update_eq_self]
      rfl

/-- The links when the tree at the position, after `a`, is unlinked from the other nodes. -/
def detachedLinks (L : Links ι) (P : Position ι) (root a : ι) : Links ι where
  parent := L.parent
  prev := match P.after.head? with
    | some b => update L.prev b (some a)
    | none => L.prev
  next := update L.next a P.after.head?
  last := update L.last (P.owner root) (some (P.left ++ P.right).lastTop)

theorem represents_detachedLinks {L : Links ι} (h : Represents L root (P.plug (tree src k)))
    (hA : P.before root = A ++ [a]) :
    Represents (detachedLinks L P root a) root (P.plug .nil) ∧
      Floating (detachedLinks L P root a) src k ∧
      Thread (detachedLinks L P root a).next (src :: (descendants k).nodes) P.after.head? := by
  obtain ⟨C, hC⟩ := nodes_eq_append_lastNode src k
  refine h.detach hA hC (update_self _ _ _) (fun n hn => update_of_ne hn _ _) (fun b hb => ?_)
    (fun n hn => ?_) (fun _ => rfl) (update_self _ _ _) fun n hn => update_of_ne hn _ _
  · simp only [detachedLinks, hb, update_self]
  · cases hb : P.after.head? with
    | none => simp only [detachedLinks, hb]
    | some b =>
      have hne : n ≠ b := by
        rintro rfl
        exact hn hb
      simp only [detachedLinks, hb, update_of_ne hne]

def parentUnlinked (g : Graph ι F) (P : Position ι) (root a : ι) (x : Option ι) : Graph ι F :=
  { g with links := { g.links with
    last := update g.links.last (P.owner root) (some (P.left ++ P.right).lastTop)
    next := update g.links.next a x } }

theorem unlinkGroupNeighbors_eq (h : g.WellFormed root (P.plug (tree src k)))
    (hA : P.before root = A ++ [a]) {x : Option ι} {g₁ : Graph ι F}
    (hg₁ : g₁ = g.parentUnlinked P root a x) :
    g₁.currentNode (lastNode src k) = .ok (lastNode src k) ∧
      g₁.links.next (lastNode src k) = P.after.head? ∧ lastNode src k ≠ a ∧
      g₁.setNext a P.after.head? = { g with links :=
        { detachedLinks g.links P root a with prev := g.links.prev } } ∧
      ∀ g₂, g₁.unlinkPrev src (lastNode src k) = .ok g₂ →
        (g₁.setNext a P.after.head?).OnlyFuncons g₂ →
        g₁.unlinkGroupNeighbors src =
          .ok { g₂ with links := detachedLinks g.links P root a } := by
  obtain ⟨hrep, hfloating, -⟩ := represents_detachedLinks h.links hA
  set l := lastNode src k with hl
  have hlmem : l ∈ src :: (descendants k).nodes := by
    obtain ⟨C, hC⟩ := nodes_eq_append_lastNode src k
    simp [hC, hl]
  have hla : l ≠ a := by
    intro heq
    apply h.links.notMem_of_mem_tree hlmem
    simp [hA, heq]
  have hlasts : Lasts g₁.links.last (tree src k) := by
    rw [hg₁]
    exact lasts_tree.mpr ⟨hfloating.last, hfloating.lasts⟩
  have hfind : g₁.findLastNode src = .ok l := by
    have hcard := hfloating.nodup.length_le_card
    rw [List.length_cons] at hcard
    exact findLastNodeLoop_eq hlasts (by unfold fuel; omega)
  have hcurrent : g₁.currentNode l = .ok l := by
    unfold currentNode
    split_ifs
    · rw [findLastNode, fuel, findLastNodeLoop, lastNodeP_lastNode k hlasts]
      rfl
    · rfl
  have hnextl : g₁.links.next l = P.after.head? := by
    rw [hg₁]
    exact (update_of_ne hla _ _).trans h.links.next_lastNode
  have hlinks₂ : g₁.setNext a P.after.head? = { g with links :=
      { detachedLinks g.links P root a with prev := g.links.prev } } := by
    rw [hg₁]
    simp [setNext, parentUnlinked, detachedLinks]
  refine ⟨hcurrent, hnextl, hla, hlinks₂, fun g₂ hg₂ honly => ?_⟩
  have hneighbors : g₁.unlinkGroupNeighbors src =
      (g₁.unlinkPrev src l >>= fun g => pure (g.unlinkNext l src)) := by
    unfold unlinkGroupNeighbors
    rw [hfind, ok_bind]
    split_ifs with hls
    · rw [hls]
      rfl
    · rfl
  rw [hlinks₂] at honly
  obtain ⟨funcons, cdr, rfl, -⟩ := honly
  have hnext : (detachedLinks g.links P root a).next l = P.after.head? :=
    (update_of_ne hla _ _).trans h.links.next_lastNode
  have hprevs : (match (detachedLinks g.links P root a).next l with
      | some b => update g.links.prev b (g.links.prev src)
      | none => g.links.prev) = (detachedLinks g.links P root a).prev := by
    have hprevSrc : g.links.prev src = some a := h.links.prev_first hA (by simp)
    rw [hnext, detachedLinks]
    cases P.after.head? with
    | none => rfl
    | some b => simp only [hprevSrc]
  rw [hneighbors, hg₂, ok_bind, pure_eq_ok, unlinkNext_eq]
  exact congrArg (fun prev => (Except.ok { g with
    links := { detachedLinks g.links P root a with prev := prev }
    funcons := funcons
    cdr := cdr } : Result (Graph ι F))) hprevs

theorem unlinkGroupNeighbors_ok (h : g.WellFormed root (P.plug (tree src k)))
    (hA : P.before root = A ++ [a]) (hfirst : ¬ g.FirstOfPausedRoot src) :
    ∃ g₁ g', g.unlinkParent src = .ok g₁ ∧ g₁.unlinkGroupNeighbors src = .ok g' ∧
      OnlyFuncons { g with links := detachedLinks g.links P root a } g' := by
  obtain rfl := h.rootEq
  obtain ⟨hrep, -, -⟩ := represents_detachedLinks h.links hA
  obtain ⟨x, hx⟩ := unlinkParent_ok h hA
  set g₀ : Graph ι F := { g with links := detachedLinks g.links P g.root a } with hg₀
  set g₁ : Graph ι F := g.parentUnlinked P g.root a x with hg₁
  obtain ⟨hcurrent, hnextl, hla, hlinks₂, hunlink⟩ := unlinkGroupNeighbors_eq h hA hg₁
  set l := lastNode src k with hl
  have hmemChain : ∀ b, P.after.head? = some b → b ∈ g.root :: (P.plug .nil).nodes := by
    intro b hb
    rw [P.nodes_plug]
    simp [List.mem_of_mem_head? hb]
  have hamem : a ∈ g.root :: (P.plug .nil).nodes := by
    rw [P.nodes_plug, hA]
    simp
  set live : ι → Prop := (· ∈ g.root :: (P.plug .nil).nodes) with hlive
  set rank : ι → ℕ := fun n => (g.root :: (P.plug .nil).nodes).idxOf n with hrank
  have hordered : g₀.Ordered live rank := ordered_of_represents hrep
  have hback : g₁.OrderedBack live rank (rank a) := by
    have hrep₀ : Represents g₀.links g₀.root (P.plug .nil) := hrep
    intro n hn hle
    have hprev : g₁.links.prev n = g₀.links.prev n := by
      cases hb : P.after.head? with
      | none => simp only [hg₀, hg₁, parentUnlinked, detachedLinks, hb]
      | some b =>
        have hnb : n ≠ b := by
          rintro rfl
          have hab : g₀.links.next a = some n := by
            simp only [hg₀, detachedLinks, update_self, hb]
          have hlt := (hordered.next a n hamem hab).2
          omega
        simp only [hg₀, hg₁, parentUnlinked, detachedLinks, hb, update_of_ne hnb]
    rw [hprev]
    exact orderedBack_of_represents hrep₀ _ n hn hle
  have hcons : g₁.HasCons live := by
    intro n hn hgroup
    rw [hlive] at hn
    refine h.hasCons n ?_ ?_
    · rw [P.nodes_plug] at hn ⊢
      simp only [Forest.nodes_nil, List.nil_append, List.mem_append] at hn ⊢
      tauto
    · rcases eq_or_ne n (P.owner g.root) with rfl | hne
      · simp [groupP, hg₁, parentUnlinked] at hgroup
      · simpa [groupP, hg₁, parentUnlinked, hne] using hgroup
  have hordered₂ : (g₁.setNext a (g₁.links.next l)).Ordered live rank := by
    rw [hnextl, hlinks₂]
    exact hordered.congr rfl rfl rfl
  have hprev : g₁.links.prev src = some a := h.links.prev_first hA (by simp)
  obtain ⟨g₂, hg₂, honly⟩ := unlinkPrev_ok hprev hordered₂ hback hcons hamem hla hcurrent
    (fun b hb => hmemChain b (hnextl ▸ hb)) h.links.parentRoot h.links.prev.1 hfirst
  rw [hnextl] at honly
  refine ⟨g₁, _, hx, hunlink g₂ hg₂ honly, ?_⟩
  rw [hlinks₂] at honly
  obtain ⟨funcons, cdr, rfl, hfuncons⟩ := honly
  exact ⟨funcons, cdr, rfl, hfuncons⟩

end Graph

end Incudine.NodeGraph

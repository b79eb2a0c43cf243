import Incudine.NodeGraph

/-!
# Traversal of the node graph

The loops of the traversal end because every step goes forward or backward in the order of the
nodes. The functions that update the function lists only change these lists.
-/

set_option linter.unusedSectionVars false

namespace Incudine.NodeGraph

open Function ThreadedForest

variable {ι F : Type} [DecidableEq ι] [Fintype ι] {n : ι} {fuel : ℕ} {f : Forest ι}

namespace Graph

variable {g g' : Graph ι F}

@[simp] theorem ok_bind {ε α β : Type} (a : α) (f : α → Except ε β) :
    (Except.ok a >>= f) = f a := rfl

@[simp] theorem pure_eq_ok {ε α : Type} (a : α) : (pure a : Except ε α) = .ok a := rfl

def Encloses (g : Graph ι F) (q n : ι) : Prop :=
  Relation.ReflTransGen (fun a b => g.links.parent a = some b) n q

/-- The nodes of the set are in order: the next one and the last one of an enclosing group
follow, the parent precedes. -/
structure Ordered (g : Graph ι F) (live : ι → Prop) (rank : ι → ℕ) : Prop where
  bound : ∀ n, live n → rank n < Fintype.card ι
  next : ∀ n m, live n → g.links.next n = some m → live m ∧ rank n < rank m
  parent : ∀ n m, live n → g.links.parent n = some m → live m ∧ rank m < rank n
  last : ∀ n q, live n → g.Encloses q n →
    ∃ l, g.findLastNode q = .ok l ∧ live l ∧ rank n ≤ rank l

/-- The previous nodes precede, from the given rank back to the root. -/
def OrderedBack (g : Graph ι F) (live : ι → Prop) (rank : ι → ℕ) (r : ℕ) : Prop :=
  ∀ n, live n → rank n ≤ r → (n ≠ g.root → (g.links.prev n).isSome) ∧
    ∀ p, g.links.prev n = some p → live p ∧ rank p < rank n

theorem findLastNodeLoop_eq {k : Option (Forest ι)} (h : Lasts g.links.last (tree n k))
    (hfuel : (descendants k).nodes.length < fuel) :
    g.findLastNodeLoop fuel n = .ok (lastNode n k) := by
  induction fuel generalizing n k with
  | zero => omega
  | succ fuel ih =>
    obtain ⟨hlast, hkids⟩ := lasts_tree.mp h
    rw [findLastNodeLoop, lastNodeP, hlast]
    cases k with
    | none => rfl
    | some kids =>
      cases hm : kids.lastTop with
      | none => simp [Forest.lastTop_eq_none.mp hm, lastNode]
      | some m =>
        obtain ⟨before, k, rfl⟩ := Forest.exists_last hm
        have htree := (lasts_append.mp hkids).2
        have hlastm := (lasts_tree.mp htree).1
        simp only [Option.map_some, hm, Option.join_some, lastNode_of_append, groupP, hlastm]
        cases k with
        | none => rfl
        | some kids =>
          refine ih htree ?_
          simp only [descendants_some, Forest.nodes_append, nodes_tree, List.length_append,
            List.length_cons] at hfuel ⊢
          omega

theorem lastNodeP_lastNode (k : Option (Forest ι)) (h : Lasts g.links.last (tree n k)) :
    g.lastNodeP (lastNode n k) = none := by
  generalize hsize : (descendants k).nodes.length = size
  induction size using Nat.strong_induction_on generalizing n k with
  | _ size ih =>
    obtain ⟨hlast, hkids⟩ := lasts_tree.mp h
    cases k with
    | none => simp [lastNodeP, lastNode, hlast]
    | some kids =>
      cases hm : kids.lastTop with
      | none => simp_all [Forest.lastTop_eq_none, lastNodeP, lastNode]
      | some m =>
        obtain ⟨before, k, rfl⟩ := Forest.exists_last hm
        rw [lastNode_of_append]
        refine ih _ ?_ k (lasts_append.mp hkids).2 rfl
        simp only [descendants_some, Forest.nodes_append, nodes_tree, List.length_append,
          List.length_cons] at hsize
        omega

theorem findLastNode_eq {root : ι} {k : Option (Forest ι)} (hf : Represents g.links root f)
    (h : (tree root (some f)).Subtree n k) : g.findLastNode n = .ok (lastNode n k) := by
  apply findLastNodeLoop_eq (h.lasts hf.lasts_root)
  have hcard := hf.nodup.length_le_card
  obtain ⟨l, r, hnodes⟩ := h.nodes_eq
  have hlength := congrArg List.length hnodes
  simp only [nodes_tree, descendants_some, List.length_append, List.length_cons]
    at hlength hcard
  unfold fuel
  omega

theorem mem_of_encloses {root q : ι} (hf : Represents g.links root f) (hn : n ∈ root :: f.nodes)
    (h : g.Encloses q n) :
    ∃ k, (tree root (some f)).Subtree q k ∧ n ∈ q :: (descendants k).nodes := by
  induction h with
  | refl =>
    obtain ⟨k, hk⟩ := Forest.exists_subtree (f := tree root (some f)) (n := n)
      (by simpa using hn)
    exact ⟨k, hk, List.mem_cons_self⟩
  | @tail a b _ hparent ih =>
    obtain ⟨k, hk, hmem⟩ := ih
    rcases hf.parent_eq hk with ⟨-, hnone⟩ | ⟨m, kids, hm, hkids, hp⟩
    · rw [hparent] at hnone
      cases hnone
    · obtain rfl : b = m := by
        rw [hparent] at hp
        exact Option.some.inj hp
      refine ⟨some kids, hm, List.mem_cons_of_mem b ?_⟩
      rcases List.mem_cons.mp hmem with rfl | hmem
      · exact hkids.mem
      · exact hkids.nodes_subset hmem

theorem ordered_of_represents {root : ι} (hf : Represents g.links root f) :
    g.Ordered (· ∈ root :: f.nodes) (root :: f.nodes).idxOf := by
  have hnodes : (tree root (some f)).nodes = root :: f.nodes := by simp
  constructor
  · intro n hn
    exact (List.idxOf_lt_length_of_mem hn).trans_le hf.nodup.length_le_card
  · intro n m hn hnext
    obtain ⟨hm, hrank⟩ := hf.next.next_idxOf hf.nodup hn hnext
    exact ⟨hm, by omega⟩
  · intro n m hn hparent
    obtain ⟨k, hk⟩ := Forest.exists_subtree (hnodes ▸ hn)
    rcases hf.parent_eq hk with ⟨-, hnone⟩ | ⟨p, kids, hp, hkids, heq⟩
    · rw [hparent] at hnone
      cases hnone
    · obtain rfl : m = p := by
        rw [hparent] at heq
        exact Option.some.inj heq
      have hlt := hp.idxOf_lt hkids (hnodes ▸ hf.nodup)
      rw [hnodes] at hlt
      exact ⟨hnodes ▸ hp.mem, hlt⟩
  · intro n q hn hq
    obtain ⟨k, hk, hmem⟩ := mem_of_encloses hf hn hq
    refine ⟨lastNode q k, findLastNode_eq hf hk, ?_, ?_⟩
    · obtain ⟨l, hl⟩ := nodes_eq_append_lastNode q k
      have hlast : lastNode q k ∈ q :: (descendants k).nodes := by simp [hl]
      rw [← hnodes]
      rcases List.mem_cons.mp hlast with heq | hlast
      · rw [heq]
        exact hk.mem
      · exact hk.nodes_subset hlast
    · have hle := (hk.idxOf_le (hnodes ▸ hf.nodup) hmem).2
      rwa [hnodes] at hle

theorem orderedBack_of_represents (hf : Represents g.links g.root f) (r : ℕ) :
    g.OrderedBack (· ∈ g.root :: f.nodes) (g.root :: f.nodes).idxOf r := by
  intro n hn _
  refine ⟨fun hroot => ?_, fun p hp => ?_⟩
  · obtain ⟨A, B, hf'⟩ := List.append_of_mem hn
    have hprev := hf.prev
    rw [hf'] at hprev
    rw [(back_append.mp hprev).2.1]
    cases A with
    | nil =>
      rw [List.nil_append, List.cons.injEq] at hf'
      exact absurd hf'.1.symm hroot
    | cons a A => simp [List.getLast?_cons]
  · obtain ⟨hmem, hrank⟩ := hf.prev.prev_idxOf hf.nodup hn hp
    exact ⟨hmem, (Nat.lt_succ_self _).trans_eq hrank.symm⟩

theorem pausedParentLoop_congr (hparent : g'.links.parent = g.links.parent)
    (hpause : g'.pauseP = g.pauseP) (fuel : ℕ) (p : Option ι) :
    g'.pausedParentLoop fuel p = g.pausedParentLoop fuel p := by
  induction fuel generalizing p with
  | zero => cases p <;> rfl
  | succ fuel ih => cases p <;> simp only [pausedParentLoop, hparent, hpause, ih]

theorem pausedNodeP_congr (hparent : g'.links.parent = g.links.parent)
    (hpause : g'.pauseP = g.pauseP) (n : ι) : g'.pausedNodeP n = g.pausedNodeP n := by
  simp only [pausedNodeP, pausedParent, pausedParentLoop_congr hparent hpause, hparent, hpause]

theorem findLastNode_congr (hlast : g'.links.last = g.links.last) (n : ι) :
    g'.findLastNode n = g.findLastNode n := by
  unfold findLastNode
  generalize fuel ι = fuel
  induction fuel generalizing n with
  | zero => rfl
  | succ fuel ih =>
    simp only [findLastNodeLoop, lastNodeP, groupP, hlast, ih]
    cases (g.links.last n).join <;> rfl

variable {live : ι → Prop} {rank : ι → ℕ}

theorem Ordered.congr (h : g.Ordered live rank) (hnext : g'.links.next = g.links.next)
    (hparent : g'.links.parent = g.links.parent) (hlast : g'.links.last = g.links.last) :
    g'.Ordered live rank := by
  refine ⟨h.bound, fun n m => ?_, fun n m => ?_, fun n q hn hq => ?_⟩
  · rw [hnext]
    exact h.next n m
  · rw [hparent]
    exact h.parent n m
  · rw [findLastNode_congr hlast]
    unfold Encloses at hq
    rw [hparent] at hq
    exact h.last n q hn hq

theorem pausedParentLoop_ok (h : g.Ordered live rank) (p : Option ι)
    (hp : ∀ q, p = some q → live q ∧ g.Encloses q n ∧ rank q < fuel) :
    ∃ r, g.pausedParentLoop fuel p = .ok r ∧ ∀ q, r = some q →
      live q ∧ g.Encloses q n ∧ g.pauseP q = true ∧ ∃ q₀, p = some q₀ ∧ rank q ≤ rank q₀ := by
  induction fuel generalizing p with
  | zero =>
    cases p with
    | none => exact ⟨none, rfl, by simp⟩
    | some q => exact absurd (hp q rfl).2.2 (Nat.not_lt_zero _)
  | succ fuel ih =>
    cases p with
    | none => exact ⟨none, rfl, by simp⟩
    | some q =>
      obtain ⟨hq, henc, hrank⟩ := hp q rfl
      rw [pausedParentLoop]
      split_ifs with hpause
      · refine ⟨some q, rfl, ?_⟩
        rintro q' ⟨⟩
        exact ⟨hq, henc, hpause, q, rfl, le_rfl⟩
      · have hnext : ∀ q', g.links.parent q = some q' →
            live q' ∧ g.Encloses q' n ∧ rank q' < fuel := by
          intro q' hparent
          obtain ⟨hq', hlt⟩ := h.parent q q' hq hparent
          exact ⟨hq', henc.tail hparent, by omega⟩
        obtain ⟨r, hr, hspec⟩ := ih (g.links.parent q) hnext
        refine ⟨r, hr, fun q' hq' => ?_⟩
        obtain ⟨hlive, henc', hpause', q₀, hq₀, hle⟩ := hspec q' hq'
        obtain ⟨-, hlt⟩ := h.parent q q₀ hq hq₀
        exact ⟨hlive, henc', hpause', q, rfl, by omega⟩

theorem pausedParent_ok (h : g.Ordered live rank) (hn : live n) :
    ∃ r, g.pausedParent n = .ok r ∧ ∀ q, r = some q →
      live q ∧ g.Encloses q n ∧ g.pauseP q = true ∧ rank q < rank n := by
  have hparent : ∀ q, g.links.parent n = some q → live q ∧ g.Encloses q n ∧ rank q < fuel ι := by
    intro q hq
    obtain ⟨hlive, -⟩ := h.parent n q hn hq
    exact ⟨hlive, Relation.ReflTransGen.single hq, (h.bound q hlive).trans (Nat.lt_succ_self _)⟩
  obtain ⟨r, hr, hspec⟩ := pausedParentLoop_ok h (g.links.parent n) hparent
  refine ⟨r, hr, fun q hq => ?_⟩
  obtain ⟨hlive, henc, hpause, q₀, hq₀, hle⟩ := hspec q hq
  exact ⟨hlive, henc, hpause, hle.trans_lt (h.parent n q₀ hn hq₀).2⟩

theorem pausedNodeP_ok (h : g.Ordered live rank) (hn : live n) : ∃ b, g.pausedNodeP n = .ok b := by
  obtain ⟨r, hr, -⟩ := pausedParent_ok h hn
  unfold pausedNodeP
  split_ifs
  · exact ⟨true, rfl⟩
  · exact ⟨r.isSome, by simp [hr]⟩

theorem OrderedBack.mono {r r' : ℕ} (h : g.OrderedBack live rank r) (hr : r' ≤ r) :
    g.OrderedBack live rank r' :=
  fun n hn hle => h n hn (hle.trans hr)

section

variable (h : g.Ordered live rank)
include h

theorem unpausedNodePrevLoop_ok (hfuel : 0 < fuel)
    (hn : ∀ p, g.links.prev n = some p →
      live p ∧ g.OrderedBack live rank (rank p) ∧ rank p + 1 < fuel) :
    ∃ r, g.unpausedNodePrevLoop fuel n = .ok r ∧ ∀ m, r = some m → ∃ p,
      g.links.prev n = some p ∧ live m ∧ rank m ≤ rank p ∧ g.pausedNodeP m = .ok false := by
  induction fuel generalizing n with
  | zero => omega
  | succ fuel ih =>
    rw [unpausedNodePrevLoop]
    cases hprev : g.links.prev n with
    | none => exact ⟨none, rfl, by simp⟩
    | some prev =>
      obtain ⟨hlive, hback, hrank⟩ := hn prev hprev
      have step : ∀ q, live q → rank q ≤ rank prev →
          ∃ r, g.unpausedNodePrevLoop fuel q = .ok r ∧ ∀ m, r = some m → ∃ p,
            some prev = some p ∧ live m ∧ rank m ≤ rank p ∧ g.pausedNodeP m = .ok false := by
        intro q hq hle
        have hq' : ∀ p, g.links.prev q = some p →
            live p ∧ g.OrderedBack live rank (rank p) ∧ rank p + 1 < fuel := by
          intro p hp
          obtain ⟨hlive', hlt⟩ := (hback q hq hle).2 p hp
          exact ⟨hlive', hback.mono (hlt.le.trans hle), by omega⟩
        obtain ⟨r, hr, hspec⟩ := ih (by omega) hq'
        refine ⟨r, hr, fun m hm => ?_⟩
        obtain ⟨p, hp, hlivem, hlem, hpaused⟩ := hspec m hm
        have hlt := ((hback q hq hle).2 p hp).2
        exact ⟨prev, rfl, hlivem, by omega, hpaused⟩
      dsimp only
      split_ifs with hpause
      · exact step prev hlive le_rfl
      · obtain ⟨p, hp, hspec⟩ := pausedParent_ok h hlive
        rw [hp, ok_bind]
        cases p with
        | some q =>
          obtain ⟨hq, -, -, hlt'⟩ := hspec q rfl
          exact step q hq hlt'.le
        | none =>
          refine ⟨some prev, rfl, ?_⟩
          rintro m ⟨⟩
          exact ⟨prev, rfl, hlive, le_rfl, by simp [pausedNodeP, hpause, hp]⟩

theorem unpausedNodePrev_ok
    (hn : ∀ p, g.links.prev n = some p → live p ∧ g.OrderedBack live rank (rank p)) :
    ∃ r, g.unpausedNodePrev n = .ok r ∧ ∀ m, r = some m → ∃ p,
      g.links.prev n = some p ∧ live m ∧ rank m ≤ rank p ∧ g.pausedNodeP m = .ok false := by
  refine unpausedNodePrevLoop_ok h (Nat.succ_pos _) fun p hp => ?_
  obtain ⟨hlive, hback⟩ := hn p hp
  exact ⟨hlive, hback, Nat.succ_lt_succ (h.bound p hlive)⟩

theorem currentNode_ok {q : ι} (hn : live n) (henc : g.Encloses q n) (hpause : g.pauseP q = true) :
    ∃ l, g.currentNode q = .ok l ∧ live l ∧ rank n ≤ rank l := by
  rw [currentNode, if_pos hpause]
  exact h.last n q hn henc

theorem unpausedNodeNextLoop_ok (hn : ∀ m, g.links.next n = some m → live m) (hfuel : 0 < fuel)
    (hrank : ∀ m, g.links.next n = some m → Fintype.card ι < rank m + fuel) :
    ∃ r, g.unpausedNodeNextLoop fuel n = .ok r ∧ ∀ m, r = some m → live m := by
  induction fuel generalizing n with
  | zero => omega
  | succ fuel ih =>
    rw [unpausedNodeNextLoop]
    cases hnext : g.links.next n with
    | none => exact ⟨none, rfl, by simp⟩
    | some next =>
      have hlive := hn next hnext
      have hcard := hrank next hnext
      have hbound := h.bound next hlive
      have step : ∀ q, g.Encloses q next → g.pauseP q = true →
          ∃ r, (g.currentNode q >>= g.unpausedNodeNextLoop fuel) = .ok r ∧
            ∀ m, r = some m → live m := by
        intro q henc hpause
        obtain ⟨l, hl, hlive', hle⟩ := currentNode_ok h hlive henc hpause
        rw [hl, ok_bind]
        refine ih (fun m hm => (h.next l m hlive' hm).1) (by omega) fun m hm => ?_
        have := (h.next l m hlive' hm).2
        omega
      dsimp only
      split_ifs with hpause
      · exact step next Relation.ReflTransGen.refl hpause
      · obtain ⟨p, hp, hspec⟩ := pausedParent_ok h hlive
        rw [hp, ok_bind]
        cases p with
        | some q =>
          obtain ⟨-, henc, hpause', -⟩ := hspec q rfl
          exact step q henc hpause'
        | none =>
          refine ⟨some next, rfl, ?_⟩
          rintro m ⟨⟩
          exact hlive

theorem unpausedNodeNext_of_current {c : ι} (hc : g.currentNode n = .ok c)
    (hn : ∀ m, g.links.next c = some m → live m) :
    ∃ r, g.unpausedNodeNext n false = .ok r ∧ ∀ m, r = some m → live m := by
  rw [unpausedNodeNext, if_neg Bool.false_ne_true, hc, ok_bind]
  refine unpausedNodeNextLoop_ok h hn (Nat.succ_pos _) fun q _ => ?_
  unfold fuel
  omega

theorem unpausedNodeNext_ok (hn : live n) :
    ∃ r, g.unpausedNodeNext n false = .ok r ∧ ∀ m, r = some m → live m := by
  by_cases hpause : g.pauseP n = true
  · obtain ⟨l, hl, hlive, -⟩ := currentNode_ok h hn Relation.ReflTransGen.refl hpause
    exact unpausedNodeNext_of_current h hl fun m hm => (h.next l m hlive hm).1
  · have hc : g.currentNode n = .ok n := by rw [currentNode, if_neg hpause, pure_eq_ok]
    exact unpausedNodeNext_of_current h hc fun m hm => (h.next n m hn hm).1

theorem nodeNextFuncons_of_current {c : ι} (hc : g.currentNode n = .ok c)
    (hn : ∀ m, g.links.next c = some m → live m) : ∃ c, g.nodeNextFuncons n = .ok c := by
  obtain ⟨r, hr, -⟩ := unpausedNodeNext_of_current h hc hn
  unfold nodeNextFuncons
  rw [hr, ok_bind]
  cases r with
  | none => exact ⟨none, rfl⟩
  | some m => exact ⟨g.funcons m, rfl⟩

theorem nodeNextFuncons_ok (hn : live n) : ∃ c, g.nodeNextFuncons n = .ok c := by
  obtain ⟨r, hr, -⟩ := unpausedNodeNext_ok h hn
  unfold nodeNextFuncons
  rw [hr, ok_bind]
  cases r with
  | none => exact ⟨none, rfl⟩
  | some m => exact ⟨g.funcons m, rfl⟩

end

/-- Only the function lists change, and the nodes that are not groups keep their cons. -/
def OnlyFuncons (g g' : Graph ι F) : Prop :=
  ∃ funcons cdr, g' = { g with funcons := funcons, cdr := cdr } ∧
    ∀ n, g.groupP n = false → funcons n = g.funcons n

def HasCons (g : Graph ι F) (live : ι → Prop) : Prop :=
  ∀ n, live n → g.groupP n = false → (g.funcons n).isSome

theorem OnlyFuncons.refl (g : Graph ι F) : g.OnlyFuncons g :=
  ⟨g.funcons, g.cdr, rfl, fun _ _ => rfl⟩

theorem OnlyFuncons.trans {g₁ g₂ g₃ : Graph ι F} (h₁₂ : g₁.OnlyFuncons g₂)
    (h₂₃ : g₂.OnlyFuncons g₃) : g₁.OnlyFuncons g₃ := by
  obtain ⟨funcons, cdr, rfl, h⟩ := h₁₂
  obtain ⟨funcons', cdr', rfl, h'⟩ := h₂₃
  exact ⟨funcons', cdr', rfl, fun n hn => (h' n hn).trans (h n hn)⟩

section

variable (h : g.OnlyFuncons g')
include h

theorem OnlyFuncons.links : g'.links = g.links := by
  obtain ⟨funcons, cdr, rfl, -⟩ := h
  rfl

theorem OnlyFuncons.root : g'.root = g.root := by
  obtain ⟨funcons, cdr, rfl, -⟩ := h
  rfl

theorem OnlyFuncons.hasCons (hcons : g.HasCons live) : g'.HasCons live := by
  obtain ⟨funcons, cdr, rfl, hf⟩ := h
  intro n hn hgroup
  rw [show ({ g with funcons := funcons, cdr := cdr } : Graph ι F).funcons n = g.funcons n from
    hf n hgroup]
  exact hcons n hn hgroup

theorem OnlyFuncons.ordered (hg : g.Ordered live rank) : g'.Ordered live rank := by
  obtain ⟨funcons, cdr, rfl, -⟩ := h
  exact hg.congr rfl rfl rfl

theorem OnlyFuncons.pausedNodeP (n : ι) : g'.pausedNodeP n = g.pausedNodeP n := by
  have hpause : g'.pauseP = g.pauseP := by
    obtain ⟨funcons, cdr, rfl, -⟩ := h
    rfl
  exact pausedNodeP_congr (congrArg Links.parent h.links) hpause n

theorem OnlyFuncons.orderedBack {r : ℕ} (hg : g.OrderedBack live rank r) :
    g'.OrderedBack live rank r := by
  obtain ⟨funcons, cdr, rfl, -⟩ := h
  exact hg

end

theorem onlyFuncons_setFuncons (hn : g.groupP n = true) (c : Option ℕ) :
    g.OnlyFuncons (g.setFuncons n c) := by
  refine ⟨update g.funcons n c, g.cdr, rfl, fun m hm => update_of_ne ?_ _ _⟩
  rintro rfl
  rw [hn] at hm
  cases hm

theorem setCdr_ok (hn : (g.funcons n).isSome) (c : Option ℕ) :
    ∃ g', g.setCdr n c = .ok g' ∧ g.OnlyFuncons g' := by
  obtain ⟨a, ha⟩ := Option.isSome_iff_exists.mp hn
  refine ⟨{ g with cdr := update g.cdr a c }, by rw [setCdr, ha]; rfl, ?_⟩
  exact ⟨g.funcons, update g.cdr a c, rfl, fun _ _ => rfl⟩

theorem updateFuncons_ok (hcons : g.HasCons live) (hn : live n) (c : Option ℕ) :
    ∃ g', g.updateFuncons n c = .ok g' ∧ g.OnlyFuncons g' := by
  unfold updateFuncons
  split_ifs with hgroup
  · exact ⟨_, rfl, onlyFuncons_setFuncons hgroup c⟩
  · exact setCdr_ok (hcons n hn (by simpa using hgroup)) c

theorem previous_ok (h : g.Ordered live rank) {pauseP : Bool} (hn : live n)
    (hback : g.OrderedBack live rank (rank n)) (hpause : pauseP = true → (g.links.prev n).isSome) :
    ∃ r, g.previous n pauseP = .ok r ∧ ∀ m, r = some m → live m ∧ rank m < rank n ∧
      (g.pausedNodeP m = .ok true → m ≠ g.root) := by
  unfold previous
  cases pauseP with
  | true =>
    obtain ⟨prev, hprev⟩ := Option.isSome_iff_exists.mp (hpause rfl)
    obtain ⟨hlive, hlt⟩ := (hback n hn le_rfl).2 prev hprev
    obtain ⟨b, hb⟩ := pausedNodeP_ok h hlive
    simp only [hprev, theNode, pure_eq_ok, ok_bind, hb, if_true]
    split_ifs with hcond
    · refine ⟨some prev, rfl, ?_⟩
      rintro m ⟨⟩
      exact ⟨hlive, hlt, fun _ => hcond.2⟩
    · exact ⟨none, rfl, by simp⟩
  | false =>
    have hprev : ∀ p, g.links.prev n = some p → live p ∧ g.OrderedBack live rank (rank p) := by
      intro p hp
      obtain ⟨hlive, hlt⟩ := (hback n hn le_rfl).2 p hp
      exact ⟨hlive, hback.mono hlt.le⟩
    obtain ⟨r, hr, hspec⟩ := unpausedNodePrev_ok h hprev
    refine ⟨r, by simpa using hr, fun m hm => ?_⟩
    obtain ⟨p, hp, hlive, hle, hunpaused⟩ := hspec m hm
    refine ⟨hlive, hle.trans_lt ((hback n hn le_rfl).2 p hp).2, fun hpaused => ?_⟩
    rw [hunpaused] at hpaused
    cases hpaused

section

variable (h : g.Ordered live rank) (hcons : g.HasCons live) (hn : live n)
  (hback : g.OrderedBack live rank (rank n))
include h hcons hn hback

theorem updatePreviousFunconsLoop_ok {endNode : Option ι} {pauseP : Bool}
    (hpause : pauseP = true → (g.links.prev n).isSome) (hfuel : rank n < fuel) :
    ∃ g', updatePreviousFunconsLoop endNode fuel g n pauseP = .ok g' ∧ g.OnlyFuncons g' := by
  induction fuel generalizing g n pauseP with
  | zero => omega
  | succ fuel ih =>
    obtain ⟨r, hr, hspec⟩ := previous_ok h hn hback hpause
    rw [updatePreviousFunconsLoop, hr, ok_bind]
    cases r with
    | none => exact ⟨g, rfl, OnlyFuncons.refl g⟩
    | some prev =>
      obtain ⟨hlive, hlt, hroot⟩ := hspec prev rfl
      obtain ⟨g₁, hg₁, honly⟩ := updateFuncons_ok hcons hlive (g.funcons n)
      dsimp only
      rw [hg₁, ok_bind]
      split_ifs
      · exact ⟨g₁, rfl, honly⟩
      · have h₁ := honly.ordered h
        obtain ⟨b, hb⟩ := pausedNodeP_ok h₁ hlive
        have hback₁ := honly.orderedBack fun m hm hle => hback m hm (hle.trans hlt.le)
        have hpause₁ : b = true → (g₁.links.prev prev).isSome := by
          intro hbtrue
          apply (hback₁ prev hlive le_rfl).1
          rw [honly.root]
          apply hroot
          rw [← honly.pausedNodeP, hb, hbtrue]
        rw [hb, ok_bind]
        obtain ⟨g₂, hg₂, honly₂⟩ := ih h₁ (honly.hasCons hcons) hlive hback₁ hpause₁ (by omega)
        exact ⟨g₂, hg₂, honly.trans honly₂⟩

theorem updatePreviousFuncons_ok (pauseP : Bool) (hpause : pauseP = true → (g.links.prev n).isSome)
    (endNode : Option ι) :
    ∃ g', g.updatePreviousFuncons n pauseP endNode = .ok g' ∧ g.OnlyFuncons g' :=
  updatePreviousFunconsLoop_ok h hcons hn hback hpause
    ((h.bound n hn).trans (Nat.lt_succ_self _))

theorem updateFunconsFrom_ok (c : Option ℕ) (pauseP : Bool) (hpause : pauseP = true → n ≠ g.root)
    (endNode : Option ι) :
    ∃ g', g.updateFunconsFrom n c pauseP endNode = .ok g' ∧ g.OnlyFuncons g' := by
  obtain ⟨g₁, hg₁, honly⟩ := updateFuncons_ok hcons hn c
  have hback₁ := honly.orderedBack hback
  unfold updateFunconsFrom
  rw [hg₁, ok_bind]
  split_ifs
  · obtain ⟨g₂, hg₂, honly₂⟩ := updatePreviousFuncons_ok (honly.ordered h) (honly.hasCons hcons) hn
      hback₁ pauseP (fun hp => (hback₁ n hn le_rfl).1 (honly.root ▸ hpause hp)) endNode
    exact ⟨g₂, hg₂, honly.trans honly₂⟩
  · exact ⟨g₁, rfl, honly⟩

end

theorem setNextFuncons_ok {groupP : Bool} (hgroup : groupP = true → g.groupP n = true)
    (hn : groupP = false → (g.funcons n).isSome) (c : Option ℕ) :
    ∃ g', g.setNextFuncons n groupP c = .ok g' ∧ g.OnlyFuncons g' := by
  unfold setNextFuncons
  cases groupP with
  | true => exact ⟨_, rfl, onlyFuncons_setFuncons (hgroup rfl) c⟩
  | false => simpa using setCdr_ok (hn rfl) c

theorem updateNextFuncons_ok (h : g.Ordered live rank) (hn : live n) (groupP : Bool)
    (hgroup : groupP = true → g.groupP n = true) (hcons : groupP = false → (g.funcons n).isSome)
    (pauseP : Bool) (hpause : pauseP = true → (g.links.next n).isSome) :
    ∃ g', g.updateNextFuncons n groupP pauseP = .ok g' ∧ g.OnlyFuncons g' := by
  unfold updateNextFuncons
  cases pauseP with
  | true =>
    obtain ⟨next, hnext⟩ := Option.isSome_iff_exists.mp (hpause rfl)
    simp only [hnext, theNode, pure_eq_ok, ok_bind, if_true]
    exact setNextFuncons_ok hgroup hcons (g.funcons next)
  | false =>
    obtain ⟨r, hr, -⟩ := unpausedNodeNext_ok h hn
    rw [if_neg Bool.false_ne_true, hr, ok_bind]
    cases r with
    | none => exact ⟨g, rfl, OnlyFuncons.refl g⟩
    | some next => exact setNextFuncons_ok hgroup hcons (g.funcons next)

end Graph

end Incudine.NodeGraph

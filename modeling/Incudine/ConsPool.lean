import Incudine.Conses

/-!
# Pools of conses

A pool is a list that is cut and spliced destructively, with a separate count of its conses. A
function expands the pool if there are not enough conses.
-/

namespace Incudine

open Function

namespace Conses

variable {α : Type*} {cdr : ℕ → Option ℕ} {l : Option ℕ} {c : ℕ} {cs ds : List ℕ}

def setCar (h : Conses α) (c : ℕ) (a : α) : Conses α :=
  { h with car := update h.car c a }

def nthCdr (cdr : ℕ → Option ℕ) : ℕ → Option ℕ → Option ℕ
  | 0, l => l
  | n + 1, l => nthCdr cdr n (l.bind cdr)

theorem Chain.nthCdr (h : Chain cdr l (cs ++ c :: ds)) : nthCdr cdr cs.length l = some c := by
  induction cs generalizing l with
  | nil => exact (chain_cons.mp h).1
  | cons x xs ih =>
    obtain ⟨rfl, htail⟩ := chain_cons.mp h
    exact ih htail

theorem Chain.cut (h : Chain cdr l (cs ++ c :: ds)) :
    Chain (Function.update cdr c none) l (cs ++ [c]) := by
  induction cs generalizing l with
  | nil =>
    obtain ⟨rfl, -⟩ := chain_cons.mp h
    refine .cons ?_
    rw [update_self]
    exact .nil
  | cons x xs ih =>
    obtain ⟨rfl, htail⟩ := chain_cons.mp h
    have hne : x ≠ c := by
      rintro rfl
      have hmem : x ∈ xs ++ x :: ds := List.mem_append_right xs List.mem_cons_self
      exact (List.nodup_cons.mp h.nodup).1 hmem
    refine .cons ?_
    rw [update_of_ne hne]
    exact ih htail

theorem Chain.rest (h : Chain cdr l (cs ++ c :: ds)) :
    Chain (Function.update cdr c none) (cdr c) ds :=
  h.drop.update (List.nodup_cons.mp (List.nodup_append.mp h.nodup).2.1).1 none

end Conses

namespace ConsPool

open Conses

structure Pool where
  data : Option ℕ
  size : ℕ
  grow : ℕ
  deriving DecidableEq

variable {α : Type*}

/-- A function of the pool and of the number of the conses to add, `none` without this number. -/
abbrev ExpandFunction (α : Type*) := Conses α → Pool → Option ℕ → Conses α × Pool

/-- `expand` in the macro `expand-cons-pool`: the new conses in front of the list. -/
def expandLoop (newForm : ℕ → α) : ℕ → Conses α → Option ℕ → Conses α × Option ℕ
  | 0, heap, lst => (heap, lst)
  | i + 1, heap, lst => expandLoop newForm i (heap.cons (newForm (i + 1)) lst) (some heap.next)

def expandConsPool (newForm : ℕ → α) : ExpandFunction α := fun heap pool delta =>
  let expSize := delta.getD pool.grow
  let (heap, data) := expandLoop newForm expSize heap pool.data
  (heap, { pool with data := data, size := pool.size + expSize })

def pushCons (heap : Conses α) (pool : Pool) (x : ℕ) : Conses α × Pool :=
  (heap.setCdr x pool.data, { pool with data := some x, size := pool.size + 1 })

def popCons (expand : ExpandFunction α) (heap : Conses α) (pool : Pool) :
    Option (ℕ × Conses α × Pool) :=
  let (heap, pool) := if pool.size = 0 then expand heap pool none else (heap, pool)
  match pool.data with
  | none => none
  | some result =>
    if pool.size = 0 then none
    else
      some (result, heap.setCdr result none,
        { pool with data := heap.cdr result, size := pool.size - 1 })

def lastLoop (cdr : ℕ → Option ℕ) : ℕ → ℕ → ℕ → Option (ℕ × ℕ)
  | 0, _, _ => none
  | fuel + 1, i, l =>
    match cdr l with
    | none => some (i, l)
    | some l' => lastLoop cdr fuel (i + 1) l'

def pushList (heap : Conses α) (pool : Pool) (lst : ℕ) : Option (Conses α × Pool) :=
  (lastLoop heap.cdr heap.next 1 lst).map fun (i, l) =>
    (heap.setCdr l pool.data, { pool with data := some lst, size := pool.size + i })

/-- `cons-pool-pop-list`; `none` is the error for a pool that is too short. -/
def popList (expand : ExpandFunction α) (heap : Conses α) (pool : Pool) (lsize : ℕ) :
    Option (Option ℕ × Conses α × Pool) :=
  let (heap, pool) := if pool.size < lsize then expand heap pool (some lsize) else (heap, pool)
  match nthCdr heap.cdr (lsize - 1) pool.data with
  | none => none
  | some lst =>
    if pool.size < lsize then none
    else
      some (pool.data, heap.setCdr lst none,
        { pool with data := heap.cdr lst, size := pool.size - lsize })

/-- The conses of the pool. The conses in `handed` are those of the users of the pool. -/
structure Holds (heap : Conses α) (pool : Pool) (cells : List ℕ) (handed : Set ℕ) : Prop where
  chain : Chain heap.cdr pool.data cells
  size : pool.size = cells.length
  apart : ∀ c ∈ cells, c ∉ handed
  lt : ∀ c ∈ cells, c < heap.next
  handed_lt : ∀ c ∈ handed, c < heap.next

/-- The conses in a set are the same in the two stores. -/
def SameAt (heap heap' : Conses α) (s : Set ℕ) : Prop :=
  ∀ c ∈ s, heap'.car c = heap.car c ∧ heap'.cdr c = heap.cdr c

/-- The pool has the conses in `new` too, which were neither in the pool nor used. -/
structure Expansion (heap : Conses α) (cells : List ℕ) (handed : Set ℕ)
    (heap' : Conses α) (pool' : Pool) (new cells' : List ℕ) : Prop where
  holds : Holds heap' pool' cells' handed
  perm : cells'.Perm (new ++ cells)
  same : SameAt heap heap' handed
  next_le : heap.next ≤ heap'.next

/-- The function adds the conses in `new`: at least one without `delta`, at least `delta` conses
with it. -/
def ExpandsBy (expand : ExpandFunction α) (heap : Conses α) (pool : Pool) (handed : Set ℕ)
    (delta : Option ℕ) (new : List ℕ) : Prop :=
  delta.getD 1 ≤ new.length ∧ ∀ cells, Chain heap.cdr pool.data cells → ∃ cells',
    Expansion heap cells handed (expand heap pool delta).1 (expand heap pool delta).2 new cells'

/-- The contract of the function, if the pool needs it. -/
def Provides (needed : Prop) (expand : ExpandFunction α) (heap : Conses α) (pool : Pool)
    (handed : Set ℕ) (delta : Option ℕ) (new : List ℕ) : Prop :=
  (needed → ExpandsBy expand heap pool handed delta new) ∧ (¬ needed → new = [])

section Operations

variable {heap heap' : Conses α} {pool pool' : Pool} {cells : List ℕ} {handed : Set ℕ}
  {expand : ExpandFunction α} {x : ℕ}

section

variable (h : Holds heap pool cells handed)
include h

theorem Holds.nodup : cells.Nodup :=
  h.chain.nodup

theorem Expansion.refl : Expansion heap cells handed heap pool [] cells :=
  ⟨h, .refl cells, fun _ _ => ⟨rfl, rfl⟩, le_rfl⟩

theorem Holds.pushCons (hx : x ∈ handed) :
    Holds (pushCons heap pool x).1 (pushCons heap pool x).2 (x :: cells) (handed \ {x}) where
  chain := by
    have hnot : x ∉ cells := fun hmem => h.apart x hmem hx
    refine .cons ?_
    change Chain (update heap.cdr x pool.data) (update heap.cdr x pool.data x) cells
    rw [update_self]
    exact h.chain.update hnot pool.data
  size := by
    rw [List.length_cons, ← h.size]
    rfl
  apart := by
    rintro c hc ⟨hhanded, hne⟩
    rcases List.mem_cons.mp hc with rfl | hc
    · exact hne rfl
    · exact h.apart c hc hhanded
  lt := by
    intro c hc
    rcases List.mem_cons.mp hc with rfl | hc
    · exact h.handed_lt c hx
    · exact h.lt c hc
  handed_lt := fun c hc => h.handed_lt c hc.1

theorem Holds.expanded {new : List ℕ} {needed : Prop} [Decidable needed] {delta : Option ℕ}
    (hnew : Provides needed expand heap pool handed delta new) :
    ∃ heap₁ pool₁ cells₁,
      (if needed then expand heap pool delta else (heap, pool)) = (heap₁, pool₁) ∧
      Expansion heap cells handed heap₁ pool₁ new cells₁ ∧
      (needed ∧ delta.getD 1 ≤ cells₁.length ∨ ¬ needed ∧ cells₁.length = pool.size) := by
  by_cases hneeded : needed
  · obtain ⟨hle, hexpands⟩ := hnew.1 hneeded
    obtain ⟨cells₁, hexpansion⟩ := hexpands cells h.chain
    have hlength := hexpansion.perm.length_eq
    rw [List.length_append] at hlength
    exact ⟨_, _, cells₁, if_pos hneeded, hexpansion, .inl ⟨hneeded, by omega⟩⟩
  · obtain rfl := hnew.2 hneeded
    exact ⟨heap, pool, cells, if_neg hneeded, .refl h, .inr ⟨hneeded, h.size.symm⟩⟩

theorem Holds.popCons {new : List ℕ}
    (hnew : Provides (pool.size = 0) expand heap pool handed none new) :
    ∃ x heap' pool' cells', popCons expand heap pool = some (x, heap', pool') ∧
      Holds heap' pool' cells' (insert x handed) ∧ (x :: cells').Perm (new ++ cells) ∧
      x ∉ handed ∧ heap'.cdr x = none ∧ SameAt heap heap' handed ∧ heap.next ≤ heap'.next := by
  obtain ⟨heap₁, pool₁, cells₁, hready, ⟨h₁, hperm, hsame, hnext⟩, hle⟩ := h.expanded hnew
  have hpos : 0 < cells₁.length := by
    simp only [Option.getD_none] at hle
    omega
  obtain ⟨x, cells', rfl⟩ := List.exists_cons_of_length_pos hpos
  obtain ⟨hdata, hchain⟩ := chain_cons.mp h₁.chain
  have hsize : pool₁.size ≠ 0 := by
    rw [h₁.size]
    exact hpos.ne'
  have hx : x ∉ handed := h₁.apart x List.mem_cons_self
  have hnot : x ∉ cells' := (List.nodup_cons.mp h₁.nodup).1
  refine ⟨x, heap₁.setCdr x none,
    { pool₁ with data := heap₁.cdr x, size := pool₁.size - 1 }, cells', ?_, ?_, hperm, hx,
    update_self _ _ _, ?_, hnext⟩
  · rw [ConsPool.popCons, hready]
    simp only [hdata, if_neg hsize]
  · refine ⟨hchain.update hnot none, ?_, ?_, fun c hc => h₁.lt c (List.mem_cons_of_mem x hc), ?_⟩
    · rw [h₁.size, List.length_cons]
      rfl
    · rintro c hc (rfl | hhanded)
      · exact hnot hc
      · exact h₁.apart c (List.mem_cons_of_mem x hc) hhanded
    · rintro c (rfl | hhanded)
      · exact h₁.lt c List.mem_cons_self
      · exact h₁.handed_lt c hhanded
  · intro c hc
    have hne : c ≠ x := ne_of_mem_of_not_mem hc hx
    obtain ⟨hcar, hcdr⟩ := hsame c hc
    exact ⟨hcar, (update_of_ne hne _ _).trans hcdr⟩

end

theorem lastLoop_eq {cdr : ℕ → Option ℕ} {cs : List ℕ} {last fuel i l : ℕ}
    (h : Chain cdr (some l) (cs ++ [last])) (hfuel : cs.length < fuel) :
    lastLoop cdr fuel i l = some (i + cs.length, last) := by
  induction cs generalizing fuel i l with
  | nil =>
    obtain ⟨hl, hnil⟩ := chain_cons.mp h
    obtain rfl := Option.some.inj hl
    cases fuel with
    | zero => cases hfuel
    | succ fuel =>
      rw [lastLoop, chain_nil.mp hnil]
      rfl
  | cons c cs ih =>
    obtain ⟨hl, htail⟩ := chain_cons.mp h
    obtain rfl := Option.some.inj hl
    cases fuel with
    | zero => cases hfuel
    | succ fuel =>
      have hnext : ∃ l', cdr l = some l' := by
        cases cs with
        | nil => exact ⟨_, (chain_cons.mp htail).1⟩
        | cons c' cs => exact ⟨_, (chain_cons.mp htail).1⟩
      obtain ⟨l', hl'⟩ := hnext
      rw [hl'] at htail
      have hrest := ih htail (Nat.lt_of_succ_lt_succ hfuel) (i := i + 1)
      rw [lastLoop, hl', List.length_cons, ← Nat.add_assoc, Nat.add_right_comm]
      exact hrest

theorem Holds.pushList (h : Holds heap pool cells handed) {lst : ℕ} {list : List ℕ}
    (hlist : Chain heap.cdr (some lst) list) (hhanded : ∀ c ∈ list, c ∈ handed) :
    ∃ heap' pool', pushList heap pool lst = some (heap', pool') ∧
      Holds heap' pool' (list ++ cells) (handed \ {c | c ∈ list}) ∧
      SameAt heap heap' (handed \ {c | c ∈ list}) ∧ heap'.next = heap.next := by
  obtain ⟨init, last, rfl⟩ : ∃ init last, list = init ++ [last] := by
    rcases List.eq_nil_or_concat list with rfl | ⟨init, last, rfl⟩
    · cases hlist
    · exact ⟨init, last, List.concat_eq_append⟩
  have hlast : last ∈ init ++ [last] := List.mem_append_right init List.mem_cons_self
  have hfuel : init.length < heap.next := by
    have hle := hlist.length_le fun c hc => h.handed_lt c (hhanded c hc)
    rw [List.length_append, List.length_singleton] at hle
    exact hle
  have hnot : last ∉ cells := fun hmem => h.apart last hmem (hhanded last hlast)
  refine ⟨heap.setCdr last pool.data,
    { pool with data := some lst, size := pool.size + (1 + init.length) }, ?_, ?_, ?_, rfl⟩
  · rw [ConsPool.pushList, lastLoop_eq hlist hfuel]
    rfl
  · refine ⟨?_, ?_, ?_, ?_, fun c hc => h.handed_lt c hc.1⟩
    · rw [List.append_assoc]
      exact hlist.splice h.chain hnot
    · rw [List.length_append, List.length_append, List.length_singleton, ← h.size]
      simp only
      omega
    · rintro c hc ⟨hc', hnmem⟩
      rcases List.mem_append.mp hc with hc | hc
      · exact hnmem hc
      · exact h.apart c hc hc'
    · intro c hc
      rcases List.mem_append.mp hc with hc | hc
      · exact h.handed_lt c (hhanded c hc)
      · exact h.lt c hc
  · rintro c ⟨-, hnmem⟩
    have hne : c ≠ last := fun heq => hnmem (heq ▸ hlast)
    exact ⟨rfl, update_of_ne hne _ _⟩

theorem Holds.popList (h : Holds heap pool cells handed) {lsize : ℕ} (hlsize : 0 < lsize)
    {new : List ℕ}
    (hnew : Provides (pool.size < lsize) expand heap pool handed (some lsize) new) :
    ∃ lst list heap' pool' cells', popList expand heap pool lsize = some (lst, heap', pool') ∧
      Chain heap'.cdr lst list ∧ list.length = lsize ∧
      Holds heap' pool' cells' (handed ∪ {c | c ∈ list}) ∧
      (list ++ cells').Perm (new ++ cells) ∧ (∀ c ∈ list, c ∉ handed) ∧
      SameAt heap heap' handed ∧ heap.next ≤ heap'.next := by
  obtain ⟨heap₁, pool₁, cells₁, hready, ⟨h₁, hperm, hsame, hnext⟩, hle⟩ := h.expanded hnew
  replace hle : lsize ≤ cells₁.length := by
    simp only [Option.getD_some] at hle
    omega
  obtain ⟨init, last, cells', rfl, hinit⟩ :
      ∃ init last cells', cells₁ = init ++ last :: cells' ∧ init.length = lsize - 1 := by
    have hdrop : lsize - 1 < cells₁.length := by omega
    refine ⟨cells₁.take (lsize - 1), cells₁[lsize - 1], cells₁.drop lsize, ?_, ?_⟩
    · have hsplit := List.take_append_drop (lsize - 1) cells₁
      rw [List.drop_eq_getElem_cons hdrop, Nat.sub_add_cancel hlsize] at hsplit
      exact hsplit.symm
    · rw [List.length_take, Nat.min_eq_left hdrop.le]
  have hlast : nthCdr heap₁.cdr (lsize - 1) pool₁.data = some last := hinit ▸ h₁.chain.nthCdr
  have hsize : ¬ pool₁.size < lsize := by
    rw [h₁.size]
    exact Nat.not_lt.mpr hle
  have happend : init ++ last :: cells' = (init ++ [last]) ++ cells' := by simp
  rw [happend] at hperm
  have hnodup := h₁.nodup
  rw [happend] at hnodup
  refine ⟨pool₁.data, init ++ [last], heap₁.setCdr last none,
    { pool₁ with data := heap₁.cdr last, size := pool₁.size - lsize }, cells', ?_,
    h₁.chain.cut, ?_, ?_, hperm, fun c hc => h₁.apart c ?_, ?_, hnext⟩
  · rw [ConsPool.popList, hready]
    simp only [hlast, if_neg hsize]
  · rw [List.length_append, List.length_singleton, hinit, Nat.sub_add_cancel hlsize]
  · refine ⟨h₁.chain.rest, ?_, ?_, fun c hc => h₁.lt c (by simp [hc]), ?_⟩
    · have hlength := h₁.size
      rw [List.length_append, List.length_cons, hinit] at hlength
      simp only
      omega
    · rintro c hc (hhanded | hlist)
      · exact h₁.apart c (by simp [hc]) hhanded
      · exact (List.disjoint_of_nodup_append hnodup) hlist hc
    · rintro c (hhanded | hlist)
      · exact h₁.handed_lt c hhanded
      · refine h₁.lt c ?_
        rw [happend]
        exact List.mem_append_left _ hlist
  · rw [happend]
    exact List.mem_append_left _ hc
  · intro c hc
    have hne : c ≠ last := by
      rintro rfl
      exact h₁.apart c (by simp) hc
    obtain ⟨hcar, hcdr⟩ := hsame c hc
    exact ⟨hcar, (update_of_ne hne _ _).trans hcdr⟩

end Operations

section Expand

variable {heap heap' : Conses α} {pool pool' : Pool} {cells : List ℕ} {handed : Set ℕ}
  {lst : Option ℕ}

theorem SameAt.trans {heap'' : Conses α} {s : Set ℕ} (h : SameAt heap heap' s)
    (h' : SameAt heap' heap'' s) : SameAt heap heap'' s := by
  intro c hc
  obtain ⟨hcar, hcdr⟩ := h c hc
  obtain ⟨hcar', hcdr'⟩ := h' c hc
  exact ⟨hcar'.trans hcar, hcdr'.trans hcdr⟩

theorem expandLoop_spec (newForm : ℕ → α) (hchain : Chain heap.cdr lst cells)
    (hlt : ∀ c ∈ cells, c < heap.next) (n : ℕ) :
    ∃ new, Chain (expandLoop newForm n heap lst).1.cdr (expandLoop newForm n heap lst).2
        (new ++ cells) ∧
      new.length = n ∧
      (∀ c ∈ new, heap.next ≤ c ∧ c < (expandLoop newForm n heap lst).1.next) ∧
      heap.next ≤ (expandLoop newForm n heap lst).1.next ∧
      SameAt heap (expandLoop newForm n heap lst).1 {c | c < heap.next} := by
  induction n generalizing heap lst cells with
  | zero =>
    exact ⟨[], hchain, rfl, fun c hc => absurd hc List.not_mem_nil, le_rfl,
      fun _ _ => ⟨rfl, rfl⟩⟩
  | succ n ih =>
    have hnew : Chain (heap.cons (newForm (n + 1)) lst).cdr (some heap.next)
        (heap.next :: cells) := by
      refine .cons ?_
      have hcdr : (heap.cons (newForm (n + 1)) lst).cdr heap.next = lst := update_self _ _ _
      rw [hcdr]
      exact hchain.alloc hlt _ _
    have hnext : (heap.cons (newForm (n + 1)) lst).next = heap.next + 1 := rfl
    obtain ⟨new, hchain', hlength, hfresh, hle, hsame⟩ := ih hnew (by
      intro c hc
      rcases List.mem_cons.mp hc with rfl | hc
      · exact Nat.lt_succ_self _
      · exact Nat.lt_succ_of_lt (hlt c hc))
    rw [hnext] at hfresh hle hsame
    refine ⟨new ++ [heap.next], ?_, ?_, ?_, ?_, ?_⟩
    · rw [List.append_assoc]
      exact hchain'
    · rw [List.length_append, hlength, List.length_singleton]
    · intro c hc
      rcases List.mem_append.mp hc with hc | hc
      · obtain ⟨hge, hlt'⟩ := hfresh c hc
        exact ⟨Nat.le_of_succ_le hge, hlt'⟩
      · rw [List.mem_singleton.mp hc]
        exact ⟨le_rfl, hle⟩
    · exact Nat.le_of_succ_le hle
    · have hcons : SameAt heap (heap.cons (newForm (n + 1)) lst) {c | c < heap.next} :=
        fun c hc => ⟨update_of_ne (Nat.ne_of_lt hc) _ _, update_of_ne (Nat.ne_of_lt hc) _ _⟩
      exact hcons.trans fun c hc => hsame c (Nat.lt_succ_of_lt hc)

theorem Holds.expandConsPool_provides (h : Holds heap pool cells handed) (newForm : ℕ → α)
    (needed : Prop) (delta : Option ℕ) (hgrow : delta = none → 0 < pool.grow) :
    ∃ new, Provides needed (expandConsPool newForm) heap pool handed delta new := by
  by_cases hneeded : needed
  · obtain ⟨new, hchain, hlength, hfresh, hnext, hsame⟩ :=
      expandLoop_spec newForm h.chain h.lt (delta.getD pool.grow)
    refine ⟨new, fun _ => ⟨?_, fun cells' hcells' => ⟨new ++ cells', ?_⟩⟩,
      fun hnot => absurd hneeded hnot⟩
    · rw [hlength]
      cases delta with
      | none => exact hgrow rfl
      | some d => exact le_rfl
    · obtain rfl := h.chain.unique hcells'
      refine ⟨⟨hchain, ?_, ?_, ?_, fun c hc => (h.handed_lt c hc).trans_le hnext⟩, .refl _,
        fun c hc => hsame c (h.handed_lt c hc), hnext⟩
      · rw [List.length_append, hlength, ← h.size, Nat.add_comm]
        rfl
      · intro c hc hhanded
        rcases List.mem_append.mp hc with hc | hc
        · exact Nat.lt_irrefl c ((h.handed_lt c hhanded).trans_le (hfresh c hc).1)
        · exact h.apart c hc hhanded
      · intro c hc
        rcases List.mem_append.mp hc with hc | hc
        · exact (hfresh c hc).2
        · exact (h.lt c hc).trans_le hnext
  · exact ⟨[], fun hyes => absurd hyes hneeded, fun _ => rfl⟩

end Expand

section Runs

def makeList (nil : α) (heap : Conses α) (size : ℕ) : Conses α × Option ℕ :=
  expandLoop (fun _ => nil) size heap none

def makeConsPool (nil : α) (heap : Conses α) (data : Option ℕ) (size grow : ℕ) :
    Option (Conses α × Pool) :=
  match data with
  | none =>
    let (heap, data) := makeList nil heap size
    some (heap, { data := data, size := size, grow := grow })
  | some _ =>
    (heap.list data).map fun cells =>
      (heap, { data := data, size := cells.length, grow := grow })

theorem chain_of_conses {cdr : ℕ → Option ℕ} {fuel : ℕ} {l : Option ℕ} {cells : List ℕ}
    (h : conses cdr fuel l = some cells) : Chain cdr l cells := by
  induction fuel generalizing l cells with
  | zero =>
    cases l with
    | none =>
      obtain rfl := Option.some.inj h
      exact .nil
    | some c => cases h
  | succ fuel ih =>
    cases l with
    | none =>
      obtain rfl := Option.some.inj h
      exact .nil
    | some c =>
      obtain ⟨cs, hcs, rfl⟩ := Option.map_eq_some_iff.mp h
      exact .cons (ih hcs)

theorem makeConsPool_holds {nil : α} {heap heap' : Conses α} {data : Option ℕ} {size grow : ℕ}
    {pool : Pool} {cells : List ℕ} (h : makeConsPool nil heap data size grow = some (heap', pool))
    (hchain : Chain heap'.cdr pool.data cells) (hlt : ∀ c ∈ cells, c < heap'.next) :
    Holds heap' pool cells ∅ := by
  refine ⟨hchain, ?_, fun c _ => Set.notMem_empty c, hlt, fun c hc => absurd hc (Set.notMem_empty c)⟩
  cases data with
  | none =>
    have hnil : Chain heap.cdr none [] := .nil
    obtain ⟨new, hnew, hlength, -⟩ :=
      expandLoop_spec (fun _ => nil) hnil (fun c hc => absurd hc List.not_mem_nil) size
    obtain ⟨rfl, rfl⟩ := Prod.mk.inj (Option.some.inj h)
    rw [List.append_nil] at hnew
    rw [hchain.unique hnew]
    exact hlength.symm
  | some c =>
    obtain ⟨list, hlist, hpair⟩ := Option.map_eq_some_iff.mp h
    obtain ⟨rfl, rfl⟩ := Prod.mk.inj hpair
    rw [hchain.unique (chain_of_conses hlist)]

/-- A new pool, then calls by users that give back the conses that they were given and write only
these. In `handed` are the conses of the users, in `added` all the conses of the pool and its users.
-/
inductive Run : Conses α → Pool → List ℕ → List ℕ → Prop
  | make {nil : α} {heap heap' : Conses α} {data : Option ℕ} {size grow : ℕ} {pool : Pool}
      {cells : List ℕ} :
      makeConsPool nil heap data size grow = some (heap', pool) →
      Chain heap'.cdr pool.data cells → (∀ c ∈ cells, c < heap'.next) →
      Run heap' pool [] cells
  | write {heap heap' : Conses α} {pool : Pool} {handed added : List ℕ} :
      Run heap pool handed added → heap.next ≤ heap'.next →
      (∀ cells, Chain heap.cdr pool.data cells → SameAt heap heap' {c | c ∈ cells}) →
      Run heap' pool handed added
  | pushCons {heap : Conses α} {pool : Pool} {handed added : List ℕ} {x : ℕ} :
      Run heap pool handed added → x ∈ handed →
      Run (ConsPool.pushCons heap pool x).1 (ConsPool.pushCons heap pool x).2 (handed.erase x) added
  | popCons {heap heap' : Conses α} {pool pool' : Pool} {handed added new : List ℕ} {x : ℕ}
      (expand : ExpandFunction α) :
      Run heap pool handed added →
      Provides (pool.size = 0) expand heap pool {c | c ∈ handed} none new →
      ConsPool.popCons expand heap pool = some (x, heap', pool') →
      Run heap' pool' (x :: handed) (new ++ added)
  | pushList {heap heap' : Conses α} {pool pool' : Pool} {handed added list : List ℕ} {lst : ℕ} :
      Run heap pool handed added → Chain heap.cdr (some lst) list → (∀ c ∈ list, c ∈ handed) →
      ConsPool.pushList heap pool lst = some (heap', pool') →
      Run heap' pool' (handed.diff list) added
  | popList {heap heap' : Conses α} {pool pool' : Pool} {handed added new list : List ℕ}
      {lst : Option ℕ} {lsize : ℕ} (expand : ExpandFunction α) :
      Run heap pool handed added → 0 < lsize →
      Provides (pool.size < lsize) expand heap pool {c | c ∈ handed} (some lsize) new →
      ConsPool.popList expand heap pool lsize = some (lst, heap', pool') →
      Chain heap'.cdr lst list → Run heap' pool' (list ++ handed) (new ++ added)

/-- The conses of the pool and of its users are the added ones, each once. -/
structure Shared (heap : Conses α) (pool : Pool) (cells handed added : List ℕ) : Prop where
  holds : Holds heap pool cells {c | c ∈ handed}
  nodup : handed.Nodup
  perm : (cells ++ handed).Perm added

variable {heap heap' : Conses α} {pool pool' : Pool} {cells handed added : List ℕ}

theorem Holds.congr {s s' : Set ℕ} (h : Holds heap pool cells s) (hs : ∀ c, c ∈ s' ↔ c ∈ s) :
    Holds heap pool cells s' := by
  have heq : s' = s := Set.ext hs
  rwa [heq]

theorem Run.shared (h : Run heap pool handed added) :
    ∃ cells, Shared heap pool cells handed added := by
  induction h with
  | @make _ _ _ _ _ _ _ cells hmake hchain hlt =>
    refine ⟨cells, (makeConsPool_holds hmake hchain hlt).congr fun c => ?_, List.nodup_nil, ?_⟩
    · simp
    · rw [List.append_nil]
  | write _ hnext hsame ih =>
    obtain ⟨cells, hholds, hnodup, hperm⟩ := ih
    have hcells := hsame cells hholds.chain
    refine ⟨cells, ⟨?_, hholds.size, hholds.apart, ?_, ?_⟩, hnodup, hperm⟩
    · exact hholds.chain.congr fun c hc => (hcells c hc).2
    · exact fun c hc => Nat.lt_of_lt_of_le (hholds.lt c hc) hnext
    · exact fun c hc => Nat.lt_of_lt_of_le (hholds.handed_lt c hc) hnext
  | @pushCons _ _ handed _ x _ hx ih =>
    obtain ⟨cells, hholds, hnodup, hperm⟩ := ih
    refine ⟨x :: cells, (hholds.pushCons hx).congr fun c => ?_, hnodup.erase x, ?_⟩
    · rw [Set.mem_ofPred_eq, hnodup.mem_erase_iff]
      exact and_comm
    · have herase := List.perm_cons_erase hx
      refine List.Perm.trans ?_ hperm
      rw [List.cons_append]
      exact (List.perm_middle.symm).trans (List.Perm.append_left cells herase.symm)
  | @popCons _ _ _ _ handed added new x expand _ hnew hpop ih =>
    obtain ⟨cells, hholds, hnodup, hperm⟩ := ih
    obtain ⟨x', heap₁, pool₁, cells', hpop', hholds', hperm', hx, -⟩ := hholds.popCons hnew
    obtain ⟨rfl, hpair⟩ := Prod.mk.inj (Option.some.inj (hpop.symm.trans hpop'))
    obtain ⟨rfl, rfl⟩ := Prod.mk.inj hpair
    refine ⟨cells', hholds'.congr fun c => ?_, List.nodup_cons.mpr ⟨hx, hnodup⟩, ?_⟩
    · simp
    · refine List.perm_middle.trans ?_
      rw [← List.cons_append]
      refine (hperm'.append_right handed).trans ?_
      rw [List.append_assoc]
      exact hperm.append_left new
  | @pushList _ _ _ _ handed _ list lst _ hlist hhanded hpush ih =>
    obtain ⟨cells, hholds, hnodup, hperm⟩ := ih
    obtain ⟨heap₁, pool₁, hpush', hholds', -⟩ := hholds.pushList hlist hhanded
    obtain ⟨rfl, rfl⟩ := Prod.mk.inj (Option.some.inj (hpush.symm.trans hpush'))
    refine ⟨list ++ cells, hholds'.congr fun c => ?_, hnodup.diff, ?_⟩
    · rw [Set.mem_ofPred_eq, hnodup.mem_sdiff_iff]
      rfl
    · have hdiff : (list ++ handed.diff list).Perm handed :=
        List.subperm_append_diff_self_of_count_le fun c hc => by
          rw [List.count_eq_one_of_mem hlist.nodup hc]
          exact List.count_pos_iff.mpr (hhanded c hc)
      refine List.Perm.trans ?_ hperm
      rw [List.append_assoc]
      refine (List.perm_append_comm_assoc list cells _).trans ?_
      exact hdiff.append_left cells
  | @popList _ _ _ _ handed added new list lst lsize expand _ hlsize hnew hpop hlist ih =>
    obtain ⟨cells, hholds, hnodup, hperm⟩ := ih
    obtain ⟨lst', list', heap₁, pool₁, cells', hpop', hlist', -, hholds', hperm', hapart, -⟩ :=
      hholds.popList hlsize hnew
    obtain ⟨rfl, hpair⟩ := Prod.mk.inj (Option.some.inj (hpop.symm.trans hpop'))
    obtain ⟨rfl, rfl⟩ := Prod.mk.inj hpair
    obtain rfl := hlist.unique hlist'
    refine ⟨cells', hholds'.congr fun c => ?_,
      List.nodup_append'.mpr ⟨hlist.nodup, hnodup, fun c hc hc' => hapart c hc hc'⟩, ?_⟩
    · simp [or_comm]
    · refine (List.perm_append_comm_assoc cells' list handed).trans ?_
      rw [← List.append_assoc]
      refine (hperm'.append_right handed).trans ?_
      rw [List.append_assoc]
      exact hperm.append_left new

/-- The count is the length of the list, no cons has two owners and none is lost, and the calls give
what they promise. -/
structure Conserved (heap : Conses α) (pool : Pool) (handed added : List ℕ) : Prop where
  cells : ∃ cells, Chain heap.cdr pool.data cells ∧ pool.size = cells.length ∧
    (cells ++ handed).Nodup ∧ (cells ++ handed).Perm added
  expandConsPool : ∀ (newForm : ℕ → α) (needed : Prop) (delta : Option ℕ),
    (delta = none → 0 < pool.grow) →
    ∃ new, Provides needed (ConsPool.expandConsPool newForm) heap pool {c | c ∈ handed} delta new
  popCons : ∀ (expand : ExpandFunction α) (new : List ℕ),
    Provides (pool.size = 0) expand heap pool {c | c ∈ handed} none new →
    ∃ x heap' pool', ConsPool.popCons expand heap pool = some (x, heap', pool')
  pushList : ∀ (lst : ℕ) (list : List ℕ), Chain heap.cdr (some lst) list →
    (∀ c ∈ list, c ∈ handed) → ∃ heap' pool', ConsPool.pushList heap pool lst = some (heap', pool')
  popList : ∀ (expand : ExpandFunction α) (new : List ℕ) (lsize : ℕ), 0 < lsize →
    Provides (pool.size < lsize) expand heap pool {c | c ∈ handed} (some lsize) new →
    ∃ lst list heap' pool', ConsPool.popList expand heap pool lsize = some (lst, heap', pool') ∧
      Chain heap'.cdr lst list ∧ list.length = lsize

theorem consPool_conserved (h : Run heap pool handed added) : Conserved heap pool handed added := by
  obtain ⟨cells, hholds, hnodup, hperm⟩ := h.shared
  have hapart : List.Disjoint cells handed := fun c hc hc' => hholds.apart c hc hc'
  refine ⟨⟨cells, hholds.chain, hholds.size,
    List.nodup_append'.mpr ⟨hholds.nodup, hnodup, hapart⟩, hperm⟩, ?_, ?_, ?_, ?_⟩
  · exact hholds.expandConsPool_provides
  · intro expand new hnew
    obtain ⟨x, heap', pool', cells', hpop, -⟩ := hholds.popCons hnew
    exact ⟨x, heap', pool', hpop⟩
  · intro lst list hlist hhanded
    obtain ⟨heap', pool', hpush, -⟩ := hholds.pushList hlist hhanded
    exact ⟨heap', pool', hpush⟩
  · intro expand new lsize hlsize hnew
    obtain ⟨lst, list, heap', pool', cells', hpop, hlist, hlength, -⟩ := hholds.popList hlsize hnew
    exact ⟨lst, list, heap', pool', hpop, hlist, hlength⟩

def noConses : Conses ℕ where
  car := fun _ => 0
  cdr := fun _ => none
  next := 0

/-- A list of three conses is taken from a pool of two conses. -/
theorem consPool_conserved_three :
    ∃ (heap : Conses ℕ) (pool : Pool) (added : List ℕ), Run heap pool [4, 3, 2] added ∧
      pool.size = 2 ∧ Conserved heap pool [4, 3, 2] added := by
  have hchain : Chain ((noConses.cons 0 none).cons 0 (some 0)).cdr (some 1) [1, 0] :=
    .cons (.cons .nil)
  have hmake : Run ((noConses.cons 0 none).cons 0 (some 0)) ⟨some 1, 2, 1⟩ [] [1, 0] :=
    .make (rfl : makeConsPool 0 noConses none 2 1 = _) hchain (by decide)
  obtain ⟨cells, hshared⟩ := hmake.shared
  obtain ⟨new, hnew⟩ := hshared.holds.expandConsPool_provides (fun _ => 0) (2 < 3) (some 3) nofun
  have hrun : Run _ _ ([4, 3, 2] ++ []) (new ++ [1, 0]) :=
    hmake.popList (expandConsPool fun _ => 0) (by decide) hnew rfl (.cons (.cons (.cons .nil)))
  exact ⟨_, _, _, hrun, rfl, consPool_conserved hrun⟩

end Runs

end ConsPool

end Incudine

import Mathlib.Data.List.Nodup

/-!
# Lists with a pointer to the last cons

A tlist is a cons whose car is a list and whose cdr is the last cons of that list. The conses are
addresses taken from a pool, and each cons out of the pool has one owner.
-/

namespace Incudine.Pool

open Function

structure ConsPool where
  data : List ℕ
  next : ℕ
  grow : ℕ

namespace ConsPool

def expand (pool : ConsPool) (delta : ℕ) : ConsPool :=
  let size := if 0 < delta then delta else pool.grow
  { pool with data := List.range' pool.next size ++ pool.data, next := pool.next + size }

def popCons (pool : ConsPool) : Option (ℕ × ConsPool) :=
  let pool := if pool.data = [] then pool.expand 0 else pool
  match pool.data with
  | [] => none
  | entry :: data => some (entry, { pool with data := data })

def pushCons (pool : ConsPool) (entry : ℕ) : ConsPool :=
  { pool with data := entry :: pool.data }

end ConsPool

section Ownership

variable {ω : Type*} {owner : ℕ → Option ω} {pool : ConsPool} {entry : ℕ} {w : ω}

structure ConsPool.Valid (pool : ConsPool) (owner : ℕ → Option ω) : Prop where
  nodup : pool.data.Nodup
  unowned : ∀ entry ∈ pool.data, owner entry = none
  lt : ∀ entry ∈ pool.data, entry < pool.next
  fresh : ∀ entry, pool.next ≤ entry → owner entry = none
  grow : 0 < pool.grow

def Keeps (owner owner' : ℕ → Option ω) (w : ω) : Prop :=
  ∀ entry, owner entry = some w → owner' entry = some w

theorem Keeps.trans {owner' owner'' : ℕ → Option ω} (h : Keeps owner owner' w)
    (h' : Keeps owner' owner'' w) : Keeps owner owner'' w :=
  fun entry hentry => h' entry (h entry hentry)

theorem keeps_update (h : owner entry ≠ some w) (x : Option ω) :
    Keeps owner (update owner entry x) w := by
  intro c hc
  have hne : c ≠ entry := fun heq => h (heq ▸ hc)
  rw [update_of_ne hne, hc]

theorem keeps_of_none (h : owner entry = none) (x : Option ω) (w : ω) :
    Keeps owner (update owner entry x) w :=
  keeps_update (by rw [h]; exact nofun) x

theorem ConsPool.Valid.lt_next (h : pool.Valid owner) (howner : owner entry = some w) :
    entry < pool.next := by
  by_contra hlt
  rw [h.fresh entry (Nat.le_of_not_lt hlt)] at howner
  cases howner

theorem ConsPool.Valid.expand (h : pool.Valid owner) (delta : ℕ) :
    (pool.expand delta).Valid owner := by
  have hdisjoint : List.Disjoint (List.range' pool.next
      (if 0 < delta then delta else pool.grow)) pool.data := by
    intro entry hrange hdata
    have hge := (List.mem_range'_1.mp hrange).1
    exact absurd (h.lt entry hdata) (Nat.not_lt.mpr hge)
  refine ⟨List.nodup_append'.mpr ⟨List.nodup_range', h.nodup, hdisjoint⟩, fun entry hentry => ?_,
    fun entry hentry => ?_, fun entry hle => ?_, h.grow⟩
  · obtain hrange | hdata := List.mem_append.mp hentry
    · exact h.fresh entry (List.mem_range'_1.mp hrange).1
    · exact h.unowned entry hdata
  · obtain hrange | hdata := List.mem_append.mp hentry
    · exact (List.mem_range'_1.mp hrange).2
    · exact Nat.lt_add_right _ (h.lt entry hdata)
  · exact h.fresh entry (Nat.le_of_add_right_le hle)

theorem ConsPool.Valid.popCons (h : pool.Valid owner) (w : ω) :
    ∃ entry pool', pool.popCons = some (entry, pool') ∧ owner entry = none ∧
      pool'.Valid (update owner entry (some w)) := by
  have hexpanded : (if pool.data = [] then pool.expand 0 else pool).Valid owner := by
    split
    next => exact h.expand 0
    next => exact h
  have hne : (if pool.data = [] then pool.expand 0 else pool).data ≠ [] := by
    split
    next hdata =>
      have hsize : List.range' pool.next pool.grow ≠ [] := by
        rw [Ne, List.range'_eq_nil_iff]
        exact Nat.pos_iff_ne_zero.mp h.grow
      exact List.append_ne_nil_of_left_ne_nil hsize _
    next hdata => exact hdata
  rw [ConsPool.popCons]
  generalize (if pool.data = [] then pool.expand 0 else pool) = expanded at hexpanded hne
  obtain ⟨data, next, grow⟩ := expanded
  cases data with
  | nil => exact absurd rfl hne
  | cons entry data =>
    have hentry := hexpanded.unowned entry List.mem_cons_self
    obtain ⟨hnot, hnodup⟩ := List.nodup_cons.mp hexpanded.nodup
    refine ⟨entry, ⟨data, next, grow⟩, rfl, hentry, hnodup, fun c hc => ?_, fun c hc => ?_,
      fun c hle => ?_, hexpanded.grow⟩
    · have hne : c ≠ entry := fun heq => hnot (heq ▸ hc)
      rw [update_of_ne hne]
      exact hexpanded.unowned c (List.mem_cons_of_mem _ hc)
    · exact hexpanded.lt c (List.mem_cons_of_mem _ hc)
    · have hlt := hexpanded.lt entry List.mem_cons_self
      rw [update_of_ne (Nat.ne_of_gt (Nat.lt_of_lt_of_le hlt hle))]
      exact hexpanded.fresh c hle

theorem ConsPool.Valid.pushCons (h : pool.Valid owner) (howner : owner entry = some w) :
    (pool.pushCons entry).Valid (update owner entry none) := by
  have hnone : ∀ c, owner c = none → update owner entry none c = none := by
    intro c hc
    by_cases heq : c = entry
    · rw [heq, update_self]
    · rw [update_of_ne heq, hc]
  have hnot : entry ∉ pool.data := by
    intro hentry
    rw [h.unowned entry hentry] at howner
    cases howner
  refine ⟨List.nodup_cons.mpr ⟨hnot, h.nodup⟩, fun c hc => ?_, fun c hc => ?_,
    fun c hle => hnone c (h.fresh c hle), h.grow⟩
  · obtain rfl | hc := List.mem_cons.mp hc
    · exact update_self _ _ _
    · exact hnone c (h.unowned c hc)
  · obtain rfl | hc := List.mem_cons.mp hc
    · exact h.lt_next howner
    · exact h.lt c hc

end Ownership

/-- The conses of the list in the car, with their elements, and the cons in the cdr. -/
structure Tlist (α : Type*) where
  cons : ℕ
  cells : List (ℕ × α)
  last : Option ℕ

variable {α : Type*}

/-- The list after the assignment of the cdr of a cons, that is not changed if the cons is not in
the list. -/
def setCdr (cons : ℕ) (rest : List (ℕ × α)) : List (ℕ × α) → List (ℕ × α)
  | [] => []
  | cell :: cells => if cell.1 = cons then cell :: rest else cell :: setCdr cons rest cells

def makeTlist (pool : ConsPool) : Option (Tlist α × ConsPool) :=
  (pool.popCons).map fun (entry, pool) => (⟨entry, [], none⟩, pool)

namespace Tlist

def left (tl : Tlist α) : Option α := tl.cells.head?.map Prod.snd

def emptyP (tl : Tlist α) : Bool := tl.cells.isEmpty

def addLeft (tl : Tlist α) (obj : α) (pool : ConsPool) : Option (Tlist α × ConsPool) :=
  (pool.popCons).map fun (entry, pool) =>
    (⟨tl.cons, (entry, obj) :: tl.cells, if tl.emptyP then some entry else tl.last⟩, pool)

/-- There is an error if the tlist is not empty without a last cons. -/
def addRight (tl : Tlist α) (obj : α) (pool : ConsPool) : Option (Tlist α × ConsPool) :=
  (pool.popCons).bind fun (entry, pool) =>
    if tl.emptyP then some (⟨tl.cons, [(entry, obj)], some entry⟩, pool)
    else tl.last.map fun last =>
      (⟨tl.cons, setCdr last [(entry, obj)] tl.cells, some entry⟩, pool)

def removeLeft (tl : Tlist α) (pool : ConsPool) : Option α × Tlist α × ConsPool :=
  match tl.cells with
  | [] => (none, tl, pool)
  | (entry, obj) :: cells =>
    (some obj, ⟨tl.cons, cells, if cells.isEmpty then none else tl.last⟩, pool.pushCons entry)

/-- The last two conses of the list become the last one. There is an error if the list is empty. -/
def cutRight (tl : Tlist α) : Option (Tlist α) :=
  match tl.cells.drop (tl.cells.length - 2) with
  | [] => none
  | cell :: _ => some ⟨tl.cons, setCdr cell.1 [] tl.cells, some cell.1⟩

end Tlist

section Holds

variable {ω : Type*} {owner : ℕ → Option ω} {pool : ConsPool} {entry : ℕ} {w : ω} {tl : Tlist α}
  {items : List α} {obj : α}

/-- The tlist has the given elements, its last cons is the last one of the list and its conses are
distinct and have the same owner. -/
structure Tlist.Holds (tl : Tlist α) (owner : ℕ → Option ω) (w : ω) (items : List α) : Prop where
  items : tl.cells.map Prod.snd = items
  last : tl.last = tl.cells.getLast?.map Prod.fst
  nodup : (tl.cells.map Prod.fst).Nodup
  owned : ∀ cell ∈ tl.cells, owner cell.1 = some w

theorem Tlist.Holds.keeps {owner' : ℕ → Option ω} (h : tl.Holds owner w items)
    (hkeeps : Keeps owner owner' w) : tl.Holds owner' w items :=
  ⟨h.items, h.last, h.nodup, fun cell hcell => hkeeps cell.1 (h.owned cell hcell)⟩

theorem Tlist.Holds.left (h : tl.Holds owner w items) : tl.left = items.head? := by
  rw [Tlist.left, ← h.items, List.head?_map]

theorem Tlist.Holds.emptyP (h : tl.Holds owner w items) : tl.emptyP = items.isEmpty := by
  rw [Tlist.emptyP, ← h.items, List.isEmpty_map]

theorem holds_makeTlist (h : pool.Valid owner) (w w' : ω) :
    ∃ tl pool' entry, makeTlist pool = some (tl, pool') ∧ owner entry = none ∧
      pool'.Valid (update owner entry (some w)) ∧
      (tl : Tlist α).Holds (update owner entry (some w)) w' [] := by
  obtain ⟨entry, pool', hpop, hnone, hpool'⟩ := h.popCons w
  refine ⟨⟨entry, [], none⟩, pool', entry, by rw [makeTlist, hpop, Option.map_some], hnone, hpool', ?_⟩
  exact ⟨rfl, rfl, List.nodup_nil, fun _ => nofun⟩

theorem setCdr_append {cells : List (ℕ × α)} {cell : ℕ × α} {rest rest' : List (ℕ × α)}
    (h : cell.1 ∉ cells.map Prod.fst) :
    setCdr cell.1 rest (cells ++ cell :: rest') = cells ++ cell :: rest := by
  induction cells with
  | nil => rw [List.nil_append, setCdr, if_pos rfl, List.nil_append]
  | cons cell' cells ih =>
    rw [List.map_cons, List.mem_cons, not_or] at h
    rw [List.cons_append, setCdr, if_neg (Ne.symm h.1), ih h.2, List.cons_append]

theorem Tlist.Holds.addRight (h : tl.Holds owner w items) (hpool : pool.Valid owner) (obj : α) :
    ∃ tl' pool' entry, tl.addRight obj pool = some (tl', pool') ∧ owner entry = none ∧
      pool'.Valid (update owner entry (some w)) ∧
      tl'.Holds (update owner entry (some w)) w (items ++ [obj]) := by
  obtain ⟨entry, pool', hpop, hnone, hpool'⟩ := hpool.popCons w
  have hne : owner entry ≠ some w := by
    rw [hnone]
    exact nofun
  have hframe := h.keeps (keeps_update hne (some w))
  obtain hnil | ⟨cells, last, hcells⟩ := tl.cells.eq_nil_or_concat'
  · have hitems : items = [] := by rw [← h.items, hnil, List.map_nil]
    refine ⟨⟨tl.cons, [(entry, obj)], some entry⟩, pool', entry, ?_, hnone, hpool', ?_⟩
    · rw [Tlist.addRight, hpop, Option.bind_some, Tlist.emptyP, hnil]
      rfl
    · refine ⟨by rw [hitems]; rfl, rfl, List.nodup_singleton _, fun cell hcell => ?_⟩
      rw [List.mem_singleton.mp hcell, update_self]
  · have hlast : tl.last = some last.1 := by
      rw [h.last, hcells, List.getLast?_append, List.getLast?_singleton, Option.some_or,
        Option.map_some]
    have hnodup := h.nodup
    rw [hcells, List.map_append] at hnodup
    have hnot : last.1 ∉ cells.map Prod.fst := fun hmem =>
      (List.disjoint_of_nodup_append hnodup) hmem List.mem_cons_self
    have hempty : tl.emptyP = false := by
      rw [Tlist.emptyP, hcells, List.isEmpty_eq_false_iff]
      exact List.append_ne_nil_of_right_ne_nil _ (List.cons_ne_nil _ _)
    have hcells' : setCdr last.1 [(entry, obj)] tl.cells = tl.cells ++ [(entry, obj)] := by
      rw [hcells, setCdr_append hnot, List.append_assoc, List.singleton_append]
    have hentry : entry ∉ tl.cells.map Prod.fst := by
      intro hmem
      obtain ⟨cell, hcell, rfl⟩ := List.mem_map.mp hmem
      exact hne (h.owned cell hcell)
    refine ⟨⟨tl.cons, tl.cells ++ [(entry, obj)], some entry⟩, pool', entry, ?_, hnone, hpool', ?_⟩
    · rw [Tlist.addRight, hpop, Option.bind_some, hempty, hlast, ← hcells']
      rfl
    · refine ⟨by rw [List.map_append, h.items]; rfl, ?_, ?_, fun cell hcell => ?_⟩
      · rw [List.getLast?_append, List.getLast?_singleton, Option.some_or, Option.map_some]
      · rw [List.map_append, List.map_singleton]
        exact List.nodup_append'.mpr ⟨h.nodup, List.nodup_singleton _,
          List.disjoint_singleton.mpr hentry⟩
      · obtain hcell | hcell := List.mem_append.mp hcell
        · exact hframe.owned cell hcell
        · rw [List.mem_singleton.mp hcell, update_self]

theorem Tlist.Holds.addLeft (h : tl.Holds owner w []) (hpool : pool.Valid owner) (obj : α) :
    ∃ tl' pool' entry, tl.addLeft obj pool = some (tl', pool') ∧ owner entry = none ∧
      pool'.Valid (update owner entry (some w)) ∧
      tl'.Holds (update owner entry (some w)) w [obj] := by
  obtain ⟨entry, pool', hpop, hnone, hpool'⟩ := hpool.popCons w
  have hnil : tl.cells = [] := List.map_eq_nil_iff.mp h.items
  refine ⟨⟨tl.cons, [(entry, obj)], some entry⟩, pool', entry, ?_, hnone, hpool', ?_⟩
  · rw [Tlist.addLeft, hpop, Option.map_some, Tlist.emptyP, hnil]
    rfl
  · refine ⟨rfl, rfl, List.nodup_singleton _, fun cell hcell => ?_⟩
    rw [List.mem_singleton.mp hcell, update_self]

theorem Tlist.Holds.removeLeft_nil (h : tl.Holds owner w []) (pool : ConsPool) :
    tl.removeLeft pool = (none, tl, pool) := by
  rw [Tlist.removeLeft, List.map_eq_nil_iff.mp h.items]

theorem Tlist.Holds.removeLeft (h : tl.Holds owner w (obj :: items)) (hpool : pool.Valid owner) :
    ∃ tl' pool' entry, tl.removeLeft pool = (some obj, tl', pool') ∧ owner entry = some w ∧
      pool'.Valid (update owner entry none) ∧ tl'.Holds (update owner entry none) w items := by
  obtain ⟨⟨entry, obj'⟩, cells, hcells, hobj, hitems⟩ := List.map_eq_cons_iff.mp h.items
  cases hobj
  have howned : owner entry = some w := h.owned (entry, obj') (hcells ▸ List.mem_cons_self)
  have hnodup := h.nodup
  rw [hcells, List.map_cons] at hnodup
  obtain ⟨hnot, hnodup⟩ := List.nodup_cons.mp hnodup
  refine ⟨⟨tl.cons, cells, if cells.isEmpty then none else tl.last⟩, pool.pushCons entry, entry, ?_,
    howned, hpool.pushCons howned, hitems, ?_, hnodup, fun cell hcell => ?_⟩
  · rw [Tlist.removeLeft, hcells]
  · cases cells with
    | nil => rfl
    | cons cell cells =>
      rw [h.last, hcells, List.getLast?_cons_cons]
      rfl
  · have hmem : cell.1 ∈ cells.map Prod.fst := List.mem_map_of_mem hcell
    have hne : cell.1 ≠ entry := fun heq => hnot (heq ▸ hmem)
    rw [update_of_ne hne]
    exact h.owned cell (hcells ▸ List.mem_cons_of_mem _ hcell)

theorem Tlist.Holds.cutRight (h : tl.Holds owner w (items ++ [obj])) (hne : items ≠ []) :
    ∃ tl', tl.cutRight = some tl' ∧ tl'.Holds owner w items := by
  obtain ⟨cells, last, hcells, hitems, hlast⟩ := List.map_eq_append_iff.mp h.items
  obtain hnil | ⟨cells, cell, rfl⟩ := cells.eq_nil_or_concat'
  · rw [hnil, List.map_nil] at hitems
    exact absurd hitems.symm hne
  · have hlength : last.length = 1 := by
      rw [← List.length_map, hlast, List.length_singleton]
    have hdrop : tl.cells.drop (tl.cells.length - 2) = cell :: last := by
      rw [hcells, List.append_assoc, List.singleton_append, List.length_append, List.length_cons,
        hlength, Nat.add_sub_cancel, List.drop_left]
    have hnodup := h.nodup
    rw [hcells, List.append_assoc, List.map_append, List.singleton_append, List.map_cons] at hnodup
    have hnot : cell.1 ∉ cells.map Prod.fst := fun hmem =>
      (List.disjoint_of_nodup_append hnodup) hmem List.mem_cons_self
    have hcells' : setCdr cell.1 [] tl.cells = cells ++ [cell] := by
      rw [hcells, List.append_assoc, List.singleton_append, setCdr_append hnot]
    refine ⟨⟨tl.cons, cells ++ [cell], some cell.1⟩, ?_, hitems, ?_, ?_, fun c hc => ?_⟩
    · rw [Tlist.cutRight, hdrop, ← hcells']
    · rw [List.getLast?_append, List.getLast?_singleton, Option.some_or, Option.map_some]
    · have hnodup' := h.nodup
      rw [hcells, List.map_append] at hnodup'
      exact hnodup'.of_append_left
    · exact h.owned c (hcells ▸ List.mem_append_left _ hc)

end Holds

end Incudine.Pool

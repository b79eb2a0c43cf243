import Incudine.ConsPool

/-!
# Tlists in a store of conses

A tlist is a cons whose car is a list and whose cdr is the last cons of this list. Its conses come
from a pool, which can be shared by any number of tlists.
-/

namespace Incudine.Tlist

open Function Conses ConsPool

variable {β : Type*}

/-- An object of Lisp: NIL, a cons or another object. -/
inductive Value (β : Type*)
  | nil
  | cons (c : ℕ)
  | object (a : β)
  deriving DecidableEq

def Value.list : Value β → Option ℕ
  | .cons c => some c
  | _ => none

def Value.ofList : Option ℕ → Value β
  | none => .nil
  | some c => .cons c

abbrev Store (β : Type*) := Conses (Value β)

section Operations

def setCons (heap : Store β) (c : ℕ) (newCar : Value β) (newCdr : Option ℕ) : Store β :=
  (heap.setCar c newCar).setCdr c newCdr

def carOf (heap : Store β) : Value β → Value β
  | .cons c => heap.car c
  | _ => .nil

def makeTlist (expand : ExpandFunction (Value β)) (heap : Store β) (pool : Pool) :
    Option (ℕ × Store β × Pool) :=
  (popCons expand heap pool).map fun (entry, heap, pool) =>
    (entry, setCons heap entry .nil none, pool)

/-- `(caar tl)`. -/
def tlistLeft (heap : Store β) (tl : ℕ) : Value β :=
  carOf heap (heap.car tl)

/-- `(cadr tl)`. -/
def tlistRight (heap : Store β) (tl : ℕ) : Value β :=
  carOf heap (.ofList (heap.cdr tl))

def tlistEmptyP (heap : Store β) (tl : ℕ) : Bool :=
  match heap.car tl with
  | .nil => true
  | _ => false

def tlistAddLeft (expand : ExpandFunction (Value β)) (heap : Store β) (tl : ℕ) (obj : Value β)
    (pool : Pool) : Option (Store β × Pool) :=
  (popCons expand heap pool).map fun (entry, heap, pool) =>
    let heap := setCons heap entry obj (heap.car tl).list
    let heap := if tlistEmptyP heap tl then heap.setCdr tl (some entry) else heap
    (heap.setCar tl (.cons entry), pool)

def tlistAddRight (expand : ExpandFunction (Value β)) (heap : Store β) (tl : ℕ) (obj : Value β)
    (pool : Pool) : Option (Store β × Pool) :=
  (popCons expand heap pool).bind fun (entry, heap, pool) =>
    let heap := setCons heap entry obj none
    let heap :=
      if tlistEmptyP heap tl then some (heap.setCar tl (.cons entry))
      else (heap.cdr tl).map fun last => heap.setCdr last (some entry)
    heap.map fun heap => (heap.setCdr tl (some entry), pool)

def tlistRemoveLeft (heap : Store β) (tl : ℕ) (pool : Pool) :
    Option (Value β × Store β × Pool) :=
  match heap.car tl with
  | .nil => some (.nil, heap, pool)
  | .object _ => none
  | .cons entry =>
    let heap := heap.setCar tl (.ofList (heap.cdr entry))
    let (heap, pool) := pushCons heap pool entry
    let heap := if tlistEmptyP heap tl then heap.setCdr tl none else heap
    some (heap.car entry, heap, pool)

end Operations

section Representation

structure IsTlist (heap : Store β) (tl : ℕ) (cells : List ℕ) (items : List (Value β)) : Prop where
  car : heap.car tl = .ofList cells.head?
  chain : Chain heap.cdr cells.head? cells
  cdr : heap.cdr tl = cells.getLast?
  items : cells.map heap.car = items

variable {heap heap' : Store β} {pool : Pool} {tl x : ℕ} {cells : List ℕ}
  {items : List (Value β)} {obj : Value β}

def addedLeft (heap : Store β) (tl : ℕ) (obj : Value β) (x : ℕ) : Store β :=
  let heap := setCons heap x obj (heap.car tl).list
  let heap := if tlistEmptyP heap tl then heap.setCdr tl (some x) else heap
  heap.setCar tl (.cons x)

theorem car_setCons_of_ne (h : tl ≠ x) (l : Option ℕ) : (setCons heap x obj l).car tl = heap.car tl :=
  update_of_ne h _ _

theorem cdr_setCons_of_ne (h : tl ≠ x) (l : Option ℕ) : (setCons heap x obj l).cdr tl = heap.cdr tl :=
  update_of_ne h _ _

theorem emptyP_setCons (h : tl ≠ x) (l : Option ℕ) :
    tlistEmptyP (setCons heap x obj l) tl = tlistEmptyP heap tl := by
  rw [tlistEmptyP, car_setCons_of_ne h, tlistEmptyP]

theorem addedLeft_same (heap : Store β) (tl : ℕ) (obj : Value β) (x : ℕ) :
    SameAt heap (addedLeft heap tl obj x) {c | c ≠ tl ∧ c ≠ x} := by
  rintro c ⟨htl, hx⟩
  constructor
  · refine (update_of_ne htl _ _).trans ?_
    split
    · exact car_setCons_of_ne hx (heap.car tl).list
    · exact car_setCons_of_ne hx (heap.car tl).list
  · change (if _ then _ else _ : Store β).cdr c = heap.cdr c
    split
    · exact (update_of_ne htl _ _).trans (cdr_setCons_of_ne hx _)
    · exact cdr_setCons_of_ne hx _

section

variable (h : IsTlist heap tl cells items)
include h

theorem IsTlist.same (hsame : SameAt heap heap' {c | c ∈ tl :: cells}) :
    IsTlist heap' tl cells items where
  car := (hsame tl List.mem_cons_self).1.trans h.car
  chain := h.chain.congr fun c hc => (hsame c (List.mem_cons_of_mem tl hc)).2
  cdr := (hsame tl List.mem_cons_self).2.trans h.cdr
  items := by
    rw [← h.items]
    exact List.map_congr_left fun c hc => (hsame c (List.mem_cons_of_mem tl hc)).1

theorem IsTlist.emptyP : tlistEmptyP heap tl = cells.isEmpty := by
  rw [tlistEmptyP, h.car]
  cases cells with
  | nil => rfl
  | cons c cs => rfl

theorem IsTlist.left : tlistLeft heap tl = items.head?.getD .nil := by
  rw [tlistLeft, h.car, ← h.items]
  cases cells with
  | nil => rfl
  | cons c cs => rfl

theorem IsTlist.right : tlistRight heap tl = items.getLast?.getD .nil := by
  rw [tlistRight, h.cdr, ← h.items, List.getLast?_map]
  cases cells.getLast? with
  | none => rfl
  | some c => rfl

theorem IsTlist.addedLeft (htl : tl ∉ cells) (hne : tl ≠ x) (hx : x ∉ cells) :
    IsTlist (addedLeft heap tl obj x) tl (x :: cells) (obj :: items) := by
  have hsame := addedLeft_same heap tl obj x
  have hcells : ∀ c ∈ cells, c ≠ tl ∧ c ≠ x := fun c hc =>
    ⟨ne_of_mem_of_not_mem hc htl, ne_of_mem_of_not_mem hc hx⟩
  have hlist : (heap.car tl).list = cells.head? := by
    rw [h.car]
    cases cells with
    | nil => rfl
    | cons c cs => rfl
  have hcdr : (Tlist.addedLeft heap tl obj x).cdr x = cells.head? := by
    change (if _ then _ else _ : Store β).cdr x = _
    split
    · exact (update_of_ne hne.symm _ _).trans ((update_self _ _ _).trans hlist)
    · exact (update_self _ _ _).trans hlist
  have hcar : (Tlist.addedLeft heap tl obj x).car x = obj := by
    refine (update_of_ne hne.symm _ _).trans ?_
    split
    · exact update_self _ _ _
    · exact update_self _ _ _
  refine ⟨update_self _ _ _, .cons ?_, ?_, ?_⟩
  · rw [hcdr]
    exact h.chain.congr fun c hc => (hsame c (hcells c hc)).2
  · change (if _ then _ else _ : Store β).cdr tl = _
    rw [emptyP_setCons hne, h.emptyP]
    cases cells with
    | nil => exact update_self _ _ _
    | cons c cs => exact (cdr_setCons_of_ne hne _).trans h.cdr
  · rw [List.map_cons, hcar, ← h.items]
    exact congrArg (obj :: ·) (List.map_congr_left fun c hc => (hsame c (hcells c hc)).1)

end

/-- The store after `tlist-add-right` has taken the cons `x`, with the last cons of the tlist. -/
def addedRight (heap : Store β) (tl : ℕ) (obj : Value β) (x : ℕ) : Option ℕ → Store β
  | none => ((setCons heap x obj none).setCar tl (.cons x)).setCdr tl (some x)
  | some last => ((setCons heap x obj none).setCdr last (some x)).setCdr tl (some x)

theorem addedRight_same (heap : Store β) (tl : ℕ) (obj : Value β) (x : ℕ) (last : Option ℕ) :
    SameAt heap (addedRight heap tl obj x last) {c | c ≠ tl ∧ c ≠ x ∧ c ∉ last} := by
  rintro c ⟨htl, hx, hlast⟩
  cases last with
  | none =>
    exact ⟨(update_of_ne htl _ _).trans (car_setCons_of_ne hx _),
      (update_of_ne htl _ _).trans (cdr_setCons_of_ne hx _)⟩
  | some last =>
    have hne : c ≠ last := fun heq => hlast (congrArg some heq.symm)
    exact ⟨car_setCons_of_ne hx none,
      (update_of_ne htl _ _).trans ((update_of_ne hne _ _).trans (cdr_setCons_of_ne hx _))⟩

theorem IsTlist.addedRight (h : IsTlist heap tl cells items) (htl : tl ∉ cells)
    (hne : tl ≠ x) (hx : x ∉ cells) :
    IsTlist (addedRight heap tl obj x cells.getLast?) tl (cells ++ [x]) (items ++ [obj]) := by
  rcases List.eq_nil_or_concat cells with rfl | ⟨init, last, rfl⟩
  · obtain rfl : items = [] := h.items.symm
    have hcdr : (Tlist.addedRight heap tl obj x none).cdr x = none :=
      (update_of_ne hne.symm _ _).trans (update_self _ _ _)
    have hcar : (Tlist.addedRight heap tl obj x none).car x = obj :=
      (update_of_ne hne.symm _ _).trans (update_self _ _ _)
    refine ⟨update_self _ _ _, .cons ?_, update_self _ _ _, congrArg (· :: []) hcar⟩
    change Chain _ ((Tlist.addedRight heap tl obj x none).cdr x) []
    rw [hcdr]
    exact .nil
  · rw [List.concat_eq_append] at h htl hx ⊢
    have hlast : (init ++ [last]).getLast? = some last := by simp
    have hmem : last ∈ init ++ [last] := by simp
    have hne' : last ≠ tl := ne_of_mem_of_not_mem hmem htl
    have hnex : last ≠ x := ne_of_mem_of_not_mem hmem hx
    rw [hlast]
    have hcar {c : ℕ} (hc : c ∈ init ++ [last]) :
        (Tlist.addedRight heap tl obj x (some last)).car c = heap.car c :=
      car_setCons_of_ne (ne_of_mem_of_not_mem hc hx) none
    have hcdr : (Tlist.addedRight heap tl obj x (some last)).cdr =
        update (update (update heap.cdr x none) last (some x)) tl (some x) := rfl
    have hhead : (init ++ [last] ++ [x]).head? = (init ++ [last]).head? := by
      cases init with
      | nil => rfl
      | cons c cs => rfl
    refine ⟨?_, ?_, ?_, ?_⟩
    · rw [hhead, ← h.car]
      exact car_setCons_of_ne hne none
    · rw [hhead, hcdr]
      have hchain := h.chain.update hx none
      have hnew : Chain (update heap.cdr x none) (some x) [x] := by
        refine .cons ?_
        rw [update_self]
        exact .nil
      have hsplice := hchain.splice hnew (by simpa using hnex)
      rw [List.append_assoc]
      refine hsplice.update ?_ (some x)
      rw [List.mem_append, List.mem_cons, List.mem_singleton]
      rintro (hinit | rfl | rfl)
      · exact htl (List.mem_append_left _ hinit)
      · exact hne' rfl
      · exact hne rfl
    · rw [hcdr, update_self]
      simp
    · have hx' : (Tlist.addedRight heap tl obj x (some last)).car x = obj := update_self _ _ _
      rw [List.map_append, List.map_singleton, hx', ← h.items]
      exact congrArg (· ++ [obj]) (List.map_congr_left fun c hc => hcar hc)

/-- The store after `tlist-remove-left` has given the cons `x` to a pool with the list `data`. -/
def removedLeft (heap : Store β) (tl x : ℕ) (data : Option ℕ) : Store β :=
  let heap := (heap.setCar tl (.ofList (heap.cdr x))).setCdr x data
  if tlistEmptyP heap tl then heap.setCdr tl none else heap

theorem removedLeft_same (heap : Store β) (tl x : ℕ) (data : Option ℕ) :
    SameAt heap (removedLeft heap tl x data) {c | c ≠ tl ∧ c ≠ x} := by
  rintro c ⟨htl, hx⟩
  rw [removedLeft]
  split
  · exact ⟨update_of_ne htl _ _, (update_of_ne htl _ _).trans (update_of_ne hx _ _)⟩
  · exact ⟨update_of_ne htl _ _, update_of_ne hx _ _⟩

theorem removedLeft_cdr (heap : Store β) {tl x : ℕ} (hne : tl ≠ x) (data : Option ℕ) :
    (removedLeft heap tl x data).cdr x = data := by
  rw [removedLeft]
  split
  · exact (update_of_ne hne.symm _ _).trans (update_self _ _ _)
  · exact update_self _ _ _

theorem removedLeft_car (heap : Store β) {tl x : ℕ} (hne : tl ≠ x) (data : Option ℕ) :
    (removedLeft heap tl x data).car x = heap.car x := by
  rw [removedLeft]
  split
  · exact update_of_ne hne.symm _ _
  · exact update_of_ne hne.symm _ _

theorem IsTlist.removedLeft (h : IsTlist heap tl (x :: cells) (obj :: items))
    (htl : tl ∉ x :: cells) (data : Option ℕ) :
    IsTlist (removedLeft heap tl x data) tl cells items := by
  have hsame := removedLeft_same heap tl x data
  have hx : x ∉ cells := (List.nodup_cons.mp h.chain.nodup).1
  have hne : tl ≠ x := fun heq => htl (heq ▸ List.mem_cons_self)
  have hcells : ∀ c ∈ cells, c ≠ tl ∧ c ≠ x := fun c hc =>
    ⟨fun heq => htl (heq ▸ List.mem_cons_of_mem x hc), ne_of_mem_of_not_mem hc hx⟩
  have hrest := (chain_cons.mp h.chain).2
  have hhead : heap.cdr x = cells.head? := by
    cases cells with
    | nil => exact chain_nil.mp hrest
    | cons c cs => exact (chain_cons.mp hrest).1
  have hempty : tlistEmptyP ((heap.setCar tl (.ofList (heap.cdr x))).setCdr x data) tl =
      cells.isEmpty := by
    have hcar : ((heap.setCar tl (.ofList (heap.cdr x))).setCdr x data).car tl =
        .ofList (heap.cdr x) := update_self _ _ _
    rw [tlistEmptyP, hcar, hhead]
    cases cells with
    | nil => rfl
    | cons c cs => rfl
  refine ⟨?_, ?_, ?_, ?_⟩
  · rw [Tlist.removedLeft, ← hhead]
    split
    · exact update_self _ _ _
    · exact update_self _ _ _
  · rw [hhead] at hrest
    exact hrest.congr fun c hc => (hsame c (hcells c hc)).2
  · rw [Tlist.removedLeft, hempty]
    cases cells with
    | nil => exact update_self _ _ _
    | cons c cs =>
      refine (update_of_ne hne _ _).trans (h.cdr.trans ?_)
      exact List.getLast?_cons_cons
  · have htail : cells.map heap.car = items := (List.cons.inj h.items).2
    rw [← htail]
    exact List.map_congr_left fun c hc => (hsame c (hcells c hc)).1

end Representation

section Runs

def CellOf (heap : Store β) (tl c : ℕ) : Prop :=
  c = tl ∨ ∃ cells, Chain heap.cdr (heap.car tl).list cells ∧ c ∈ cells

def InUse (heap : Store β) (queues : ℕ → Option (List (Value β))) : Set ℕ :=
  {c | ∃ tl, (queues tl).isSome ∧ CellOf heap tl c}

/-- The contract of the function that expands the pool, if the next cons needs it. -/
def Ready (expand : ExpandFunction (Value β)) (heap : Store β) (pool : Pool)
    (queues : ℕ → Option (List (Value β))) : Prop :=
  ∃ new, Provides (pool.size = 0) expand heap pool (InUse heap queues) none new

/-- A new pool, then any calls on any number of tlists, with the abstract list of each tlist. -/
inductive Run : Store β → Pool → (ℕ → Option (List (Value β))) → Prop
  | makePool {heap heap' : Store β} {data : Option ℕ} {size grow : ℕ} {pool : Pool}
      {cells : List ℕ} :
      makeConsPool .nil heap data size grow = some (heap', pool) →
      Chain heap'.cdr pool.data cells → (∀ c ∈ cells, c < heap'.next) →
      Run heap' pool fun _ => none
  | make {heap heap' : Store β} {pool pool' : Pool} {queues : ℕ → Option (List (Value β))} {tl : ℕ}
      (expand : ExpandFunction (Value β)) :
      Run heap pool queues → Ready expand heap pool queues →
      makeTlist expand heap pool = some (tl, heap', pool') →
      Run heap' pool' (update queues tl (some []))
  | addLeft {heap heap' : Store β} {pool pool' : Pool} {queues : ℕ → Option (List (Value β))}
      {tl : ℕ} {items : List (Value β)} (expand : ExpandFunction (Value β)) (obj : Value β) :
      Run heap pool queues → queues tl = some items → Ready expand heap pool queues →
      tlistAddLeft expand heap tl obj pool = some (heap', pool') →
      Run heap' pool' (update queues tl (some (obj :: items)))
  | addRight {heap heap' : Store β} {pool pool' : Pool} {queues : ℕ → Option (List (Value β))}
      {tl : ℕ} {items : List (Value β)} (expand : ExpandFunction (Value β)) (obj : Value β) :
      Run heap pool queues → queues tl = some items → Ready expand heap pool queues →
      tlistAddRight expand heap tl obj pool = some (heap', pool') →
      Run heap' pool' (update queues tl (some (items ++ [obj])))
  | removeLeft {heap heap' : Store β} {pool pool' : Pool} {queues : ℕ → Option (List (Value β))}
      {tl : ℕ} {items : List (Value β)} {left : Value β} :
      Run heap pool queues → queues tl = some items →
      tlistRemoveLeft heap tl pool = some (left, heap', pool') →
      Run heap' pool' (update queues tl (some items.tail))

structure Owned (heap : Store β) (pool : Pool) (queues : ℕ → Option (List (Value β)))
    (owner : ℕ → Option ℕ) : Prop where
  pool : ∃ cells, Holds heap pool cells {c | (owner c).isSome}
  tlists : ∀ tl items, queues tl = some items → ∃ cells, IsTlist heap tl cells items ∧ tl ∉ cells ∧
    ∀ c, owner c = some tl ↔ c ∈ tl :: cells
  owners : ∀ c tl, owner c = some tl → (queues tl).isSome

variable {heap heap' : Store β} {pool pool' : Pool} {queues : ℕ → Option (List (Value β))}
  {owner : ℕ → Option ℕ} {tl x : ℕ} {items : List (Value β)} {obj : Value β}
  {expand : ExpandFunction (Value β)}

theorem IsTlist.cellOf_iff {cells : List ℕ} (h : IsTlist heap tl cells items) (c : ℕ) :
    CellOf heap tl c ↔ c ∈ tl :: cells := by
  have hlist : (heap.car tl).list = cells.head? := by
    rw [h.car]
    cases cells with
    | nil => rfl
    | cons c cs => rfl
  rw [CellOf, hlist, List.mem_cons]
  constructor
  · rintro (rfl | ⟨cs, hchain, hc⟩)
    · exact .inl rfl
    · rw [hchain.unique h.chain] at hc
      exact .inr hc
  · rintro (rfl | hc)
    · exact .inl rfl
    · exact .inr ⟨cells, h.chain, hc⟩

theorem Owned.inUse (h : Owned heap pool queues owner) :
    InUse heap queues = {c | (owner c).isSome} := by
  ext c
  constructor
  · rintro ⟨tl, htl, hc⟩
    obtain ⟨items, hitems⟩ := Option.isSome_iff_exists.mp htl
    obtain ⟨cells, hcells, -, howner⟩ := h.tlists tl items hitems
    exact Option.isSome_iff_exists.mpr ⟨tl, (howner c).mpr ((hcells.cellOf_iff c).mp hc)⟩
  · intro hc
    obtain ⟨tl, htl⟩ := Option.isSome_iff_exists.mp hc
    obtain ⟨items, hitems⟩ := Option.isSome_iff_exists.mp (h.owners c tl htl)
    obtain ⟨cells, hcells, -, howner⟩ := h.tlists tl items hitems
    exact ⟨tl, h.owners c tl htl, (hcells.cellOf_iff c).mpr ((howner c).mp htl)⟩

theorem Holds.same {cells : List ℕ} {s s' : Set ℕ} (h : Holds heap pool cells s)
    (hsame : SameAt heap heap' {c | c ∈ cells}) (hnext : heap'.next = heap.next)
    (hs : s' = s) : Holds heap' pool cells s' where
  chain := h.chain.congr fun c hc => (hsame c hc).2
  size := h.size
  apart := by
    rw [hs]
    exact h.apart
  lt := by
    rw [hnext]
    exact h.lt
  handed_lt := by
    rw [hnext, hs]
    exact h.handed_lt

theorem isSome_update (owner : ℕ → Option ℕ) (x tl : ℕ) :
    {c | (update owner x (some tl) c).isSome} = insert x {c | (owner c).isSome} := by
  ext c
  by_cases hc : c = x
  · subst hc
    simp
  · simp [hc]

section

variable (h : Owned heap pool queues owner)
include h

theorem Owned.taken {heap₁ : Store β} {cells' : List ℕ}
    (hholds : Holds heap₁ pool' cells' (insert x {c | (owner c).isSome})) (hx : owner x = none)
    (hsame₁ : SameAt heap heap₁ {c | (owner c).isSome})
    (hsame : SameAt heap₁ heap' {c | c ≠ x ∧ owner c ≠ some tl}) (hnext : heap'.next = heap₁.next)
    {cells : List ℕ} (htlist : IsTlist heap' tl cells items) (htl : tl ∉ cells)
    (hcells : ∀ c, c ∈ tl :: cells ↔ c = x ∨ owner c = some tl) :
    Owned heap' pool' (update queues tl (some items)) (update owner x (some tl)) where
  pool := by
    refine ⟨cells', Holds.same hholds (fun c hc => hsame c ?_) hnext (isSome_update owner x tl)⟩
    have happart := hholds.apart c hc
    refine ⟨fun heq => happart (.inl heq), fun howner => happart (.inr ?_)⟩
    exact Option.isSome_iff_exists.mpr ⟨tl, howner⟩
  tlists := by
    intro tl' items' hitems'
    by_cases hne : tl' = tl
    · subst hne
      rw [update_self] at hitems'
      obtain rfl := Option.some.inj hitems'
      refine ⟨cells, htlist, htl, fun c => ?_⟩
      rw [hcells]
      by_cases hc : c = x
      · subst hc
        simp
      · simp [hc]
    · rw [update_of_ne hne] at hitems'
      obtain ⟨cs, hcs, hcs', howner⟩ := h.tlists tl' items' hitems'
      have hother : ∀ c ∈ tl' :: cs, owner c = some tl' := fun c hc => (howner c).mpr hc
      refine ⟨cs, hcs.same fun c hc => ?_, hcs', fun c => ?_⟩
      · have hc' := hother c hc
        obtain ⟨hcar₁, hcdr₁⟩ := hsame₁ c (Option.isSome_iff_exists.mpr ⟨tl', hc'⟩)
        have hnot : c ≠ x ∧ owner c ≠ some tl := by
          refine ⟨fun heq => ?_, fun heq => hne (Option.some.inj (hc'.symm.trans heq))⟩
          rw [heq, hx] at hc'
          cases hc'
        obtain ⟨hcar, hcdr⟩ := hsame c hnot
        exact ⟨hcar.trans hcar₁, hcdr.trans hcdr₁⟩
      · rw [← howner]
        by_cases hc : c = x
        · subst hc
          rw [update_self, hx]
          exact iff_of_false (fun heq => hne (Option.some.inj heq).symm) (by simp)
        · rw [update_of_ne hc]
  owners := by
    intro c tl' howner
    by_cases hne : tl' = tl
    · subst hne
      simp
    · rw [update_of_ne hne]
      by_cases hc : c = x
      · subst hc
        rw [update_self] at howner
        exact absurd (Option.some.inj howner).symm hne
      · rw [update_of_ne hc] at howner
        exact h.owners c tl' howner

theorem Owned.popCons (hready : Ready expand heap pool queues) :
    ∃ x heap₁ pool₁ cells', popCons expand heap pool = some (x, heap₁, pool₁) ∧
      Holds heap₁ pool₁ cells' (insert x {c | (owner c).isSome}) ∧ owner x = none ∧
      SameAt heap heap₁ {c | (owner c).isSome} := by
  obtain ⟨cells, hholds⟩ := h.pool
  obtain ⟨new, hnew⟩ := hready
  rw [h.inUse] at hnew
  obtain ⟨x, heap₁, pool₁, cells', hpop, hholds', -, hx, -, hsame, -⟩ := hholds.popCons hnew
  refine ⟨x, heap₁, pool₁, cells', hpop, hholds', ?_, hsame⟩
  cases howner : owner x with
  | none => rfl
  | some tl => exact absurd (Option.isSome_iff_exists.mpr ⟨tl, howner⟩) hx

theorem Owned.make (hready : Ready expand heap pool queues) :
    ∃ tl heap' pool', makeTlist expand heap pool = some (tl, heap', pool') ∧
      ∃ owner', Owned heap' pool' (update queues tl (some [])) owner' := by
  obtain ⟨x, heap₁, pool₁, cells', hpop, hholds, hx, hsame⟩ := h.popCons hready
  have hnone : ∀ c, owner c ≠ some x := by
    intro c hc
    obtain ⟨items, hitems⟩ := Option.isSome_iff_exists.mp (h.owners c x hc)
    obtain ⟨cells, -, -, howner⟩ := h.tlists x items hitems
    have hself := (howner x).mpr List.mem_cons_self
    rw [hx] at hself
    cases hself
  have htlist : IsTlist (setCons heap₁ x .nil none) x [] ([] : List (Value β)) :=
    ⟨update_self _ _ _, .nil, update_self _ _ _, rfl⟩
  refine ⟨x, setCons heap₁ x .nil none, pool₁, by rw [makeTlist, hpop]; rfl, _,
    h.taken hholds hx hsame ?_ rfl htlist List.not_mem_nil fun c => ?_⟩
  · rintro c ⟨hc, -⟩
    exact ⟨update_of_ne hc _ _, update_of_ne hc _ _⟩
  · simp [hnone c]

theorem Owned.tlist_at (hitems : queues tl = some items) {heap₁ : Store β}
    (hsame : SameAt heap heap₁ {c | (owner c).isSome}) (hx : owner x = none) :
    ∃ cells, IsTlist heap₁ tl cells items ∧ tl ∉ cells ∧ tl ≠ x ∧ x ∉ cells ∧
      ∀ c, owner c = some tl ↔ c ∈ tl :: cells := by
  obtain ⟨cells, hcells, htl, howner⟩ := h.tlists tl items hitems
  have hnot : x ∉ tl :: cells := by
    intro hmem
    rw [← howner, hx] at hmem
    cases hmem
  refine ⟨cells, hcells.same fun c hc => hsame c ?_, htl,
    fun heq => hnot (heq ▸ List.mem_cons_self), fun hmem => hnot (List.mem_cons_of_mem tl hmem),
    howner⟩
  exact Option.isSome_iff_exists.mpr ⟨tl, (howner c).mpr hc⟩

theorem Owned.addLeft (hitems : queues tl = some items) (hready : Ready expand heap pool queues)
    (obj : Value β) :
    ∃ heap' pool', tlistAddLeft expand heap tl obj pool = some (heap', pool') ∧
      ∃ owner', Owned heap' pool' (update queues tl (some (obj :: items))) owner' := by
  obtain ⟨x, heap₁, pool₁, cells', hpop, hholds, hx, hsame⟩ := h.popCons hready
  obtain ⟨cells, hcells, htl, hne, hxcells, howner⟩ := h.tlist_at hitems hsame hx
  refine ⟨addedLeft heap₁ tl obj x, pool₁, by rw [tlistAddLeft, hpop]; rfl, _,
    h.taken hholds hx hsame ?_ ?_ (hcells.addedLeft htl hne hxcells) ?_ fun c => ?_⟩
  · rintro c ⟨hc, hctl⟩
    refine addedLeft_same heap₁ tl obj x c ⟨fun heq => hctl ?_, hc⟩
    rw [heq, howner]
    exact List.mem_cons_self
  · change (if _ then _ else _ : Store β).next = _
    split
    · rfl
    · rfl
  · exact fun hmem => (List.mem_cons.mp hmem).elim hne htl
  · rw [howner]
    simp only [List.mem_cons]
    tauto

theorem Owned.addRight (hitems : queues tl = some items) (hready : Ready expand heap pool queues)
    (obj : Value β) :
    ∃ heap' pool', tlistAddRight expand heap tl obj pool = some (heap', pool') ∧
      ∃ owner', Owned heap' pool' (update queues tl (some (items ++ [obj]))) owner' := by
  obtain ⟨x, heap₁, pool₁, cells', hpop, hholds, hx, hsame⟩ := h.popCons hready
  obtain ⟨cells, hcells, htl, hne, hxcells, howner⟩ := h.tlist_at hitems hsame hx
  have hadd : tlistAddRight expand heap tl obj pool =
      some (addedRight heap₁ tl obj x cells.getLast?, pool₁) := by
    rw [tlistAddRight, hpop, Option.bind_some]
    simp only
    rw [emptyP_setCons hne, hcells.emptyP, cdr_setCons_of_ne hne, hcells.cdr]
    cases cells with
    | nil => rfl
    | cons c cs =>
      rw [List.getLast?_cons]
      rfl
  refine ⟨_, _, hadd, _, h.taken hholds hx hsame ?_ ?_ (hcells.addedRight htl hne hxcells) ?_
    fun c => ?_⟩
  · rintro c ⟨hc, hctl⟩
    rw [Ne, howner] at hctl
    refine addedRight_same heap₁ tl obj x _ c ⟨fun heq => hctl (heq ▸ List.mem_cons_self), hc,
      fun hlast => hctl (List.mem_cons_of_mem tl (List.mem_of_getLast? hlast))⟩
  · cases cells.getLast? with
    | none => rfl
    | some last => rfl
  · rw [List.mem_append, List.mem_singleton]
    exact fun hmem => hmem.elim htl hne
  · rw [howner]
    simp only [List.mem_cons, List.mem_append, List.not_mem_nil, or_false]
    tauto

end

theorem holds_removedLeft {pcells : List ℕ} {x : ℕ}
    (h : Holds heap pool pcells {c | (owner c).isSome}) (hx : (owner x).isSome)
    (htl : (owner tl).isSome) (hne : tl ≠ x) :
    Holds (removedLeft heap tl x pool.data) (pushCons heap pool x).2 (x :: pcells)
      {c | (update owner x none c).isSome} := by
  have hsame := removedLeft_same heap tl x pool.data
  have hapart : ∀ c ∈ pcells, c ≠ tl ∧ c ≠ x := by
    intro c hc
    have hnot := h.apart c hc
    refine ⟨?_, ?_⟩
    · rintro rfl
      exact hnot htl
    · rintro rfl
      exact hnot hx
  refine Holds.same (h.pushCons (x := x) hx) ?_ ?_ ?_
  · intro c hc
    rcases List.mem_cons.mp hc with rfl | hc
    · exact ⟨removedLeft_car heap hne _,
        (removedLeft_cdr heap hne _).trans (update_self c pool.data heap.cdr).symm⟩
    · obtain ⟨hcar, hcdr⟩ := hsame c (hapart c hc)
      exact ⟨hcar, hcdr.trans (update_of_ne (hapart c hc).2 _ _).symm⟩
  · rw [Tlist.removedLeft]
    split
    · rfl
    · rfl
  · ext c
    by_cases hc : c = x
    · subst hc
      simp
    · simp [hc]

theorem Owned.removeLeft (h : Owned heap pool queues owner) (hitems : queues tl = some items) :
    ∃ heap' pool', tlistRemoveLeft heap tl pool = some (items.head?.getD .nil, heap', pool') ∧
      (∃ owner', Owned heap' pool' (update queues tl (some items.tail)) owner') ∧
      ∀ x, heap.car tl = .cons x → ∃ cells, Chain heap'.cdr pool'.data (x :: cells) := by
  obtain ⟨cells, hcells, htl, howner⟩ := h.tlists tl items hitems
  cases cells with
  | nil =>
    obtain rfl : items = [] := hcells.items.symm
    have hcar : heap.car tl = .nil := hcells.car
    have hsame : update queues tl (some ([] : List (Value β)).tail) = queues := by
      rw [List.tail_nil, ← hitems, update_eq_self]
    refine ⟨heap, pool, by rw [tlistRemoveLeft, hcar]; rfl, ⟨owner, by rwa [hsame]⟩, ?_⟩
    intro x hx
    rw [hcar] at hx
    cases hx
  | cons x cs =>
    obtain ⟨obj, rest, rfl⟩ : ∃ obj rest, items = obj :: rest :=
      ⟨_, _, hcells.items.symm⟩
    have hcar : heap.car tl = .cons x := hcells.car
    have hobj : heap.car x = obj := (List.cons.inj hcells.items).1
    have hne : tl ≠ x := fun heq => htl (heq ▸ List.mem_cons_self)
    have howned : (owner x).isSome :=
      Option.isSome_iff_exists.mpr ⟨tl, (howner x).mpr (List.mem_cons_of_mem tl List.mem_cons_self)⟩
    obtain ⟨pcells, hholds⟩ := h.pool
    have htowned : (owner tl).isSome :=
      Option.isSome_iff_exists.mpr ⟨tl, (howner tl).mpr List.mem_cons_self⟩
    have hremove : tlistRemoveLeft heap tl pool =
        some (obj, removedLeft heap tl x pool.data, (pushCons heap pool x).2) := by
      have hcarx := removedLeft_car heap hne pool.data
      rw [hobj] at hcarx
      rw [← hcarx, tlistRemoveLeft, hcar]
      rfl
    have hown : ∀ c, owner c = some tl ↔ c = x ∨ c ∈ tl :: cs := by
      intro c
      rw [howner]
      simp only [List.mem_cons]
      tauto
    have hxcs : x ∉ tl :: cs := fun hmem => (List.mem_cons.mp hmem).elim (fun heq => hne heq.symm)
      (List.nodup_cons.mp hcells.chain.nodup).1
    have hsame := removedLeft_same heap tl x pool.data
    have hpool := holds_removedLeft hholds howned htowned hne
    refine ⟨_, _, hremove, ⟨update owner x none, ⟨_, hpool⟩, ?_, ?_⟩, ?_⟩
    · intro tl' items' hitems'
      by_cases htl' : tl' = tl
      · subst htl'
        rw [update_self] at hitems'
        obtain rfl := Option.some.inj hitems'
        refine ⟨cs, hcells.removedLeft htl _, fun hmem => htl (List.mem_cons_of_mem x hmem),
          fun c => ?_⟩
        by_cases hc : c = x
        · subst hc
          rw [update_self]
          exact iff_of_false (by simp) hxcs
        · rw [update_of_ne hc, hown]
          simp [hc]
      · rw [update_of_ne htl'] at hitems'
        obtain ⟨cs', hcs', hnot, howner'⟩ := h.tlists tl' items' hitems'
        have hother : ∀ c ∈ tl' :: cs', c ≠ tl ∧ c ≠ x := by
          intro c hc
          have hc' := (howner' c).mpr hc
          have hne' : owner c ≠ some tl := fun heq =>
            htl' (Option.some.inj (hc'.symm.trans heq))
          rw [Ne, hown] at hne'
          exact ⟨fun heq => hne' (.inr (heq ▸ List.mem_cons_self)), fun heq => hne' (.inl heq)⟩
        refine ⟨cs', hcs'.same fun c hc => hsame c (hother c hc), hnot, fun c => ?_⟩
        by_cases hc : c = x
        · subst hc
          rw [update_self]
          exact iff_of_false (by simp) fun hmem => (hother c hmem).2 rfl
        · rw [update_of_ne hc, howner']
    · intro c tl' hc
      have hcx : c ≠ x := by
        rintro rfl
        rw [update_self] at hc
        cases hc
      rw [update_of_ne hcx] at hc
      by_cases htl' : tl' = tl
      · subst htl'
        simp
      · rw [update_of_ne htl']
        exact h.owners c tl' hc
    · intro y hy
      rw [hcar] at hy
      obtain rfl : x = y := Value.cons.inj hy
      exact ⟨pcells, hpool.chain⟩

theorem Run.owned (h : Run heap pool queues) : ∃ owner, Owned heap pool queues owner := by
  induction h with
  | makePool hmake hchain hlt =>
    have hholds := makeConsPool_holds hmake hchain hlt
    exact ⟨fun _ => none, ⟨_, hholds.congr fun c => by simp⟩, nofun, nofun⟩
  | make expand _ hready hmake ih =>
    obtain ⟨owner, ih⟩ := ih
    obtain ⟨tl, heap', pool', hmake', howned⟩ := ih.make hready
    obtain ⟨rfl, hpair⟩ := Prod.mk.inj (Option.some.inj (hmake'.symm.trans hmake))
    obtain ⟨rfl, rfl⟩ := Prod.mk.inj hpair
    exact howned
  | addLeft expand obj _ hitems hready hadd ih =>
    obtain ⟨owner, ih⟩ := ih
    obtain ⟨heap', pool', hadd', howned⟩ := ih.addLeft hitems hready obj
    obtain ⟨rfl, rfl⟩ := Prod.mk.inj (Option.some.inj (hadd'.symm.trans hadd))
    exact howned
  | addRight expand obj _ hitems hready hadd ih =>
    obtain ⟨owner, ih⟩ := ih
    obtain ⟨heap', pool', hadd', howned⟩ := ih.addRight hitems hready obj
    obtain ⟨rfl, rfl⟩ := Prod.mk.inj (Option.some.inj (hadd'.symm.trans hadd))
    exact howned
  | removeLeft _ hitems hremove ih =>
    obtain ⟨owner, ih⟩ := ih
    obtain ⟨heap', pool', hremove', howned, -⟩ := ih.removeLeft hitems
    obtain ⟨-, hpair⟩ := Prod.mk.inj (Option.some.inj (hremove'.symm.trans hremove))
    obtain ⟨rfl, rfl⟩ := Prod.mk.inj hpair
    exact howned

/-- The tlists are the abstract lists. The contract is met by `expandConsPool`, unless the pool has
to grow by zero conses. -/
structure Refines (heap : Store β) (pool : Pool) (queues : ℕ → Option (List (Value β))) :
    Prop where
  contents : ∀ tl items, queues tl = some items → ∃ cells,
    Chain heap.cdr (heap.car tl).list cells ∧ cells.map heap.car = items
  left : ∀ tl items, queues tl = some items → tlistLeft heap tl = items.head?.getD .nil
  right : ∀ tl items, queues tl = some items → tlistRight heap tl = items.getLast?.getD .nil
  emptyP : ∀ tl items, queues tl = some items → tlistEmptyP heap tl = items.isEmpty
  apart : ∀ tl tl', (queues tl).isSome → (queues tl').isSome → tl ≠ tl' →
    ∀ c, CellOf heap tl c → ¬ CellOf heap tl' c
  free : ∃ cells, Chain heap.cdr pool.data cells ∧ pool.size = cells.length ∧
    ∀ c ∈ cells, c ∉ InUse heap queues
  ready : ∀ newForm, 0 < pool.grow → Ready (expandConsPool newForm) heap pool queues
  make : ∀ expand, Ready expand heap pool queues → (makeTlist expand heap pool).isSome
  addLeft : ∀ expand tl items obj, queues tl = some items → Ready expand heap pool queues →
    (tlistAddLeft expand heap tl obj pool).isSome
  addRight : ∀ expand tl items obj, queues tl = some items → Ready expand heap pool queues →
    (tlistAddRight expand heap tl obj pool).isSome
  removeLeft : ∀ tl items, queues tl = some items → ∃ heap' pool',
    tlistRemoveLeft heap tl pool = some (items.head?.getD .nil, heap', pool') ∧
      ∀ x, heap.car tl = .cons x → ∃ cells, Chain heap'.cdr pool'.data (x :: cells)

theorem Owned.ready (h : Owned heap pool queues owner) (newForm : ℕ → Value β)
    (hgrow : 0 < pool.grow) : Ready (expandConsPool newForm) heap pool queues := by
  obtain ⟨cells, hholds⟩ := h.pool
  rw [Ready, h.inUse]
  exact hholds.expandConsPool_provides newForm _ none fun _ => hgrow

/-- After any calls on any tlists each tlist is its abstract list, the conses of two tlists and of
the pool are apart, and the removed cons is back in the pool. -/
theorem tlist_refines (h : Run heap pool queues) : Refines heap pool queues := by
  obtain ⟨owner, howned⟩ := h.owned
  have hlist {tl : ℕ} {cells : List ℕ} {items : List (Value β)}
      (hcells : IsTlist heap tl cells items) : (heap.car tl).list = cells.head? := by
    rw [hcells.car]
    cases cells with
    | nil => rfl
    | cons c cs => rfl
  refine ⟨?_, ?_, ?_, ?_, ?_, ?_, howned.ready, ?_, ?_, ?_, ?_⟩
  · intro tl items hitems
    obtain ⟨cells, hcells, -⟩ := howned.tlists tl items hitems
    exact ⟨cells, (hlist hcells).symm ▸ hcells.chain, hcells.items⟩
  · intro tl items hitems
    obtain ⟨cells, hcells, -⟩ := howned.tlists tl items hitems
    exact hcells.left
  · intro tl items hitems
    obtain ⟨cells, hcells, -⟩ := howned.tlists tl items hitems
    exact hcells.right
  · intro tl items hitems
    obtain ⟨cells, hcells, -⟩ := howned.tlists tl items hitems
    rw [hcells.emptyP, ← hcells.items, List.isEmpty_map]
  · intro tl tl' htl htl' hne c hc hc'
    obtain ⟨items, hitems⟩ := Option.isSome_iff_exists.mp htl
    obtain ⟨items', hitems'⟩ := Option.isSome_iff_exists.mp htl'
    obtain ⟨cells, hcells, -, howner⟩ := howned.tlists tl items hitems
    obtain ⟨cells', hcells', -, howner'⟩ := howned.tlists tl' items' hitems'
    have hfirst := (howner c).mpr ((hcells.cellOf_iff c).mp hc)
    have hsecond := (howner' c).mpr ((hcells'.cellOf_iff c).mp hc')
    exact hne (Option.some.inj (hfirst.symm.trans hsecond))
  · obtain ⟨cells, hholds⟩ := howned.pool
    refine ⟨cells, hholds.chain, hholds.size, fun c hc => ?_⟩
    rw [howned.inUse]
    exact hholds.apart c hc
  · intro expand hready
    obtain ⟨tl, heap', pool', hmake, -⟩ := howned.make hready
    exact Option.isSome_iff_exists.mpr ⟨_, hmake⟩
  · intro expand tl items obj hitems hready
    obtain ⟨heap', pool', hadd, -⟩ := howned.addLeft hitems hready obj
    exact Option.isSome_iff_exists.mpr ⟨_, hadd⟩
  · intro expand tl items obj hitems hready
    obtain ⟨heap', pool', hadd, -⟩ := howned.addRight hitems hready obj
    exact Option.isSome_iff_exists.mpr ⟨_, hadd⟩
  · intro tl items hitems
    obtain ⟨heap', pool', hremove, -, hpool⟩ := howned.removeLeft hitems
    exact ⟨heap', pool', hremove, hpool⟩

def noConses : Store ℕ where
  car := fun _ => .nil
  cdr := fun _ => none
  next := 0

/-- A tlist with two objects, from a pool of one cons that is expanded twice. -/
theorem tlist_refines_two :
    ∃ (heap : Store ℕ) (pool : Pool) (queues : ℕ → Option (List (Value ℕ))),
      queues 0 = some [.object 7, .object 8] ∧ tlistRight heap 0 = .object 8 ∧
        Refines heap pool queues := by
  have hpool : Run (noConses.cons .nil none) ⟨some 0, 1, 1⟩ fun _ => none :=
    .makePool (rfl : makeConsPool .nil noConses none 1 1 = _) (.cons .nil : Chain _ _ [0])
      (by decide)
  have hready {heap : Store ℕ} {pool : Pool} {queues : ℕ → Option (List (Value ℕ))}
      (hrun : Run heap pool queues) (hgrow : 0 < pool.grow) :
      Ready (expandConsPool fun _ => .nil) heap pool queues := by
    obtain ⟨owner, howned⟩ := hrun.owned
    exact howned.ready _ hgrow
  have hmake := hpool.make (expandConsPool fun _ => .nil) (hready hpool (by decide)) rfl
  have hone := hmake.addRight (expandConsPool fun _ => .nil) (.object 7) (update_self _ _ _)
    (hready hmake (by decide)) rfl
  have htwo := hone.addRight (expandConsPool fun _ => .nil) (.object 8) (update_self _ _ _)
    (hready hone (by decide)) rfl
  exact ⟨_, _, _, update_self _ _ _, rfl, tlist_refines htwo⟩

end Runs

end Incudine.Tlist

import Mathlib.Data.List.Nodup

/-!
# Threaded forests

An ordered forest whose nodes have a link to the parent, two links that thread the preorder and, for
the groups, a link to the last child. A position is a path of frames, innermost first, with the
siblings on the two sides.
-/

namespace Incudine.ThreadedForest

open Function

variable {ι : Type*}

/-- An ordered forest of leaves and groups, as first tree and rest. -/
inductive Forest (ι : Type*) where
  | nil
  | leaf (n : ι) (rest : Forest ι)
  | group (n : ι) (kids rest : Forest ι)
  deriving DecidableEq

namespace Forest

def nodes : Forest ι → List ι
  | nil => []
  | leaf n rest => n :: rest.nodes
  | group n kids rest => n :: (kids.nodes ++ rest.nodes)

def append : Forest ι → Forest ι → Forest ι
  | nil, f => f
  | leaf n rest, f => leaf n (rest.append f)
  | group n kids rest, f => group n kids (rest.append f)

instance : Append (Forest ι) := ⟨append⟩

def lastTop : Forest ι → Option ι
  | nil => none
  | leaf n rest => some (rest.lastTop.getD n)
  | group n _ rest => some (rest.lastTop.getD n)

@[simp] theorem nil_append (f : Forest ι) : nil ++ f = f := rfl

@[simp] theorem leaf_append (n : ι) (rest f : Forest ι) :
    leaf n rest ++ f = leaf n (rest ++ f) := rfl

@[simp] theorem group_append (n : ι) (kids rest f : Forest ι) :
    group n kids rest ++ f = group n kids (rest ++ f) := rfl

@[simp] theorem append_nil (f : Forest ι) : f ++ nil = f := by
  induction f with
  | nil => rfl
  | leaf n rest ih => rw [leaf_append, ih]
  | group n kids rest _ ih => rw [group_append, ih]

theorem append_assoc (f g h : Forest ι) : f ++ g ++ h = f ++ (g ++ h) := by
  induction f with
  | nil => rfl
  | leaf n rest ih => simp only [leaf_append, ih]
  | group n kids rest _ ih => simp only [group_append, ih]

@[simp] theorem nodes_nil : (nil : Forest ι).nodes = [] := rfl

@[simp] theorem nodes_leaf (n : ι) (rest : Forest ι) :
    (leaf n rest).nodes = n :: rest.nodes := rfl

@[simp] theorem nodes_group (n : ι) (kids rest : Forest ι) :
    (group n kids rest).nodes = n :: (kids.nodes ++ rest.nodes) := rfl

@[simp] theorem nodes_append (f g : Forest ι) : (f ++ g).nodes = f.nodes ++ g.nodes := by
  induction f with
  | nil => rfl
  | leaf n rest ih => simp [ih]
  | group n kids rest _ ih => simp [ih]

@[simp] theorem lastTop_nil : (nil : Forest ι).lastTop = none := rfl

@[simp] theorem lastTop_leaf (n : ι) (rest : Forest ι) :
    (leaf n rest).lastTop = some (rest.lastTop.getD n) := rfl

@[simp] theorem lastTop_group (n : ι) (kids rest : Forest ι) :
    (group n kids rest).lastTop = some (rest.lastTop.getD n) := rfl

theorem lastTop_append (f g : Forest ι) : (f ++ g).lastTop = g.lastTop.or f.lastTop := by
  induction f with
  | nil => simp
  | leaf n rest ih => cases hg : g.lastTop <;> simp [ih, hg]
  | group n kids rest _ ih => cases hg : g.lastTop <;> simp [ih, hg]

theorem lastTop_eq_none {f : Forest ι} : f.lastTop = none ↔ f = nil := by
  cases f <;> simp

theorem lastTop_mem {f : Forest ι} {n : ι} (h : f.lastTop = some n) : n ∈ f.nodes := by
  induction f with
  | nil => simp at h
  | leaf m rest ih =>
    rw [lastTop_leaf, Option.some.injEq] at h
    cases hr : rest.lastTop with
    | none => simp [← h, hr]
    | some k =>
      rw [hr, Option.getD_some] at h
      exact List.mem_cons_of_mem _ (ih (hr.trans (congrArg some h)))
  | group m kids rest _ ih =>
    rw [lastTop_group, Option.some.injEq] at h
    cases hr : rest.lastTop with
    | none => simp [← h, hr]
    | some k =>
      rw [hr, Option.getD_some] at h
      exact List.mem_cons_of_mem _ (List.mem_append_right _ (ih (hr.trans (congrArg some h))))

@[simp] theorem nodes_eq_nil {f : Forest ι} : f.nodes = [] ↔ f = nil := by
  cases f <;> simp

end Forest

/-- The links lead through the list and then to `e`. -/
def Thread (next : ι → Option ι) : List ι → Option ι → Prop
  | [], _ => True
  | a :: l, e => next a = l.head?.or e ∧ Thread next l e

/-- The links lead back through the list and then to `e`. -/
def Back (prev : ι → Option ι) : Option ι → List ι → Prop
  | _, [] => True
  | e, a :: l => prev a = e ∧ Back prev (some a) l

section Threads

variable {next next' prev prev' : ι → Option ι} {l l₁ l₂ : List ι} {e e' : Option ι}

theorem thread_append : Thread next (l₁ ++ l₂) e ↔
    Thread next l₁ (l₂.head?.or e) ∧ Thread next l₂ e := by
  induction l₁ with
  | nil => simp [Thread]
  | cons a l ih =>
    simp only [List.cons_append, Thread, ih, List.head?_append, Option.or_assoc]
    exact and_assoc.symm

theorem back_append : Back prev e (l₁ ++ l₂) ↔
    Back prev e l₁ ∧ Back prev (l₁.getLast?.or e) l₂ := by
  induction l₁ generalizing e with
  | nil => simp [Back]
  | cons a l ih =>
    simp only [List.cons_append, Back, ih, List.getLast?_cons]
    cases l.getLast? <;> simp [and_assoc]

theorem Thread.congr (h : Thread next l e) (hsame : ∀ a ∈ l, next' a = next a) :
    Thread next' l e := by
  induction l with
  | nil => exact h
  | cons a l ih =>
    refine ⟨(hsame a List.mem_cons_self).trans h.1, ih h.2 fun b hb => ?_⟩
    exact hsame b (List.mem_cons_of_mem a hb)

theorem Back.congr (h : Back prev e l) (hsame : ∀ a ∈ l, prev' a = prev a) :
    Back prev' e l := by
  induction l generalizing e with
  | nil => exact h
  | cons a l ih =>
    refine ⟨(hsame a List.mem_cons_self).trans h.1, ih h.2 fun b hb => ?_⟩
    exact hsame b (List.mem_cons_of_mem a hb)

theorem Thread.last_eq {a : ι} (h : Thread next (l ++ [a]) e) : next a = e := by
  have := (thread_append.mp h).2.1
  simpa using this

theorem Thread.relink {a : ι} (h : Thread next (l ++ [a]) e)
    (hsame : ∀ b ∈ l, next' b = next b) (hlast : next' a = e') :
    Thread next' (l ++ [a]) e' := by
  obtain ⟨hl, -⟩ := thread_append.mp h
  exact thread_append.mpr ⟨hl.congr hsame, by simpa [Thread] using hlast⟩

theorem Back.relink {a : ι} (h : Back prev e (a :: l)) (hsame : ∀ b ∈ l, prev' b = prev b)
    (hfirst : prev' a = e') : Back prev' e' (a :: l) :=
  ⟨hfirst, h.2.congr hsame⟩

variable {A B C : List ι} {a c : ι}

theorem Thread.insert (h : Thread next (A ++ [a] ++ B) e) (hmid : Thread next (C ++ [c]) e')
    (hnodup : (A ++ [a] ++ (C ++ [c] ++ B)).Nodup) (ha : next' a = (C ++ [c]).head?)
    (hc : next' c = B.head?.or e) (hsame : ∀ n, n ≠ a → n ≠ c → next' n = next n) :
    Thread next' (A ++ [a] ++ (C ++ [c] ++ B)) e := by
  obtain ⟨hA, hB⟩ := thread_append.mp h
  obtain ⟨hnodupA, hnodupCB, hdisjA⟩ := List.nodup_append'.mp hnodup
  obtain ⟨hnodupC, hnodupB, hdisjC⟩ := List.nodup_append'.mp hnodupCB
  refine thread_append.mpr ⟨hA.relink (fun n hn => hsame n ?_ ?_) (by simp [ha]),
    thread_append.mpr ⟨hmid.relink (fun n hn => hsame n ?_ ?_) hc,
      hB.congr fun n hn => hsame n ?_ ?_⟩⟩
  · rintro rfl
    exact (List.nodup_append'.mp hnodupA).2.2 hn (List.mem_singleton_self n)
  · rintro rfl
    exact hdisjA (List.mem_append_left _ hn) (by simp)
  · rintro rfl
    exact hdisjA (show n ∈ A ++ [n] by simp) (by simp [hn])
  · rintro rfl
    exact (List.nodup_append'.mp hnodupC).2.2 hn (List.mem_singleton_self n)
  · rintro rfl
    exact hdisjA (show n ∈ A ++ [n] by simp) (by simp [hn])
  · rintro rfl
    exact hdisjC (show n ∈ C ++ [n] by simp) hn

theorem Thread.remove (h : Thread next (A ++ [a] ++ (C ++ [c] ++ B)) e)
    (hnodup : (A ++ [a] ++ (C ++ [c] ++ B)).Nodup) (ha : next' a = B.head?.or e)
    (hsame : ∀ n, n ≠ a → next' n = next n) :
    Thread next' (A ++ [a] ++ B) e ∧ Thread next' (C ++ [c]) (B.head?.or e) := by
  obtain ⟨hA, hCB⟩ := thread_append.mp h
  obtain ⟨hC, hB⟩ := thread_append.mp hCB
  obtain ⟨hnodupA, -, hdisjA⟩ := List.nodup_append'.mp hnodup
  refine ⟨thread_append.mpr ⟨hA.relink (fun n hn => hsame n ?_) ha,
    hB.congr fun n hn => hsame n ?_⟩, hC.congr fun n hn => hsame n ?_⟩
  · rintro rfl
    exact (List.nodup_append'.mp hnodupA).2.2 hn (List.mem_singleton_self n)
  · rintro rfl
    exact hdisjA (show n ∈ A ++ [n] by simp) (by simp [hn])
  · rintro rfl
    exact hdisjA (show n ∈ A ++ [n] by simp) (List.mem_append_left _ hn)

theorem Back.insert (h : Back prev e (A ++ [a] ++ B)) (hmid : Back prev e' (c :: C))
    (hnodup : (A ++ [a] ++ (c :: C ++ B)).Nodup) (hc : prev' c = some a)
    (hB : ∀ b, B.head? = some b → prev' b = (c :: C).getLast?)
    (hsame : ∀ n, n ≠ c → B.head? ≠ some n → prev' n = prev n) :
    Back prev' e (A ++ [a] ++ (c :: C ++ B)) := by
  obtain ⟨hA, hBack⟩ := back_append.mp h
  obtain ⟨-, hnodupCB, hdisjA⟩ := List.nodup_append'.mp hnodup
  obtain ⟨hnodupC, hnodupB, hdisjC⟩ := List.nodup_append'.mp hnodupCB
  refine back_append.mpr ⟨hA.congr fun n hn => hsame n ?_ fun hb => ?_,
    back_append.mpr ⟨hmid.relink (fun n hn => hsame n ?_ fun hb => ?_) (by simp [hc]), ?_⟩⟩
  · rintro rfl
    exact hdisjA hn (by simp)
  · exact hdisjA hn (List.mem_append_right _ (List.mem_of_mem_head? hb))
  · rintro rfl
    exact (List.nodup_cons.mp hnodupC).1 hn
  · exact hdisjC (List.mem_cons_of_mem c hn) (List.mem_of_mem_head? hb)
  · cases B with
    | nil => trivial
    | cons b B =>
      refine hBack.relink (fun n hn => hsame n ?_ ?_) ?_
      · rintro rfl
        exact hdisjC List.mem_cons_self (List.mem_cons_of_mem b hn)
      · rw [List.head?_cons, ne_eq, Option.some.injEq]
        rintro rfl
        exact (List.nodup_cons.mp hnodupB).1 hn
      · rw [hB b rfl]
        simp [List.getLast?_cons]

theorem Back.remove (h : Back prev e (A ++ [a] ++ (c :: C ++ B)))
    (hnodup : (A ++ [a] ++ (c :: C ++ B)).Nodup)
    (hB : ∀ b, B.head? = some b → prev' b = some a)
    (hsame : ∀ n, B.head? ≠ some n → prev' n = prev n) :
    Back prev' e (A ++ [a] ++ B) ∧ Back prev' (some a) (c :: C) := by
  obtain ⟨hA, hCB⟩ := back_append.mp h
  obtain ⟨hC, hBack⟩ := back_append.mp hCB
  obtain ⟨-, hnodupCB, hdisjA⟩ := List.nodup_append'.mp hnodup
  obtain ⟨-, hnodupB, hdisjC⟩ := List.nodup_append'.mp hnodupCB
  have hC' : Back prev' (some a) (c :: C) := by
    refine Back.congr (by simpa using hC) fun n hn => hsame n fun hb => ?_
    exact hdisjC hn (List.mem_of_mem_head? hb)
  refine ⟨back_append.mpr ⟨hA.congr fun n hn => hsame n fun hb => ?_, ?_⟩, hC'⟩
  · exact hdisjA hn (List.mem_append_right _ (List.mem_of_mem_head? hb))
  · cases B with
    | nil => trivial
    | cons b B =>
      refine hBack.relink (fun n hn => hsame n ?_) ?_
      · rw [List.head?_cons, ne_eq, Option.some.injEq]
        rintro rfl
        exact (List.nodup_cons.mp hnodupB).1 hn
      · rw [hB b rfl]
        simp

end Threads

/-- The parent of the trees of the forest is `p`, and so on inside the groups. -/
def Parents (parent : ι → Option ι) (p : ι) : Forest ι → Prop
  | .nil => True
  | .leaf n rest => parent n = some p ∧ Parents parent p rest
  | .group n kids rest => parent n = some p ∧ Parents parent n kids ∧ Parents parent p rest

/-- Only the groups have a last child, which is none if they are empty. -/
def Lasts (last : ι → Option (Option ι)) : Forest ι → Prop
  | .nil => True
  | .leaf n rest => last n = none ∧ Lasts last rest
  | .group n kids rest => last n = some kids.lastTop ∧ Lasts last kids ∧ Lasts last rest

section Fields

variable {parent parent' : ι → Option ι} {last last' : ι → Option (Option ι)} {p : ι}
  {f g : Forest ι}

theorem parents_append : Parents parent p (f ++ g) ↔ Parents parent p f ∧ Parents parent p g := by
  induction f with
  | nil => simp [Parents]
  | leaf n rest ih => simp only [Forest.leaf_append, Parents, ih, and_assoc]
  | group n kids rest _ ih => simp only [Forest.group_append, Parents, ih, and_assoc]

theorem lasts_append : Lasts last (f ++ g) ↔ Lasts last f ∧ Lasts last g := by
  induction f with
  | nil => simp [Lasts]
  | leaf n rest ih => simp only [Forest.leaf_append, Lasts, ih, and_assoc]
  | group n kids rest _ ih => simp only [Forest.group_append, Lasts, ih, and_assoc]

theorem Parents.congr (h : Parents parent p f) (hsame : ∀ n ∈ f.nodes, parent' n = parent n) :
    Parents parent' p f := by
  induction f generalizing p with
  | nil => exact h
  | leaf n rest ih =>
    refine ⟨(hsame n (by simp)).trans h.1, ih h.2 fun m hm => hsame m (by simp [hm])⟩
  | group n kids rest ihk ih =>
    refine ⟨(hsame n (by simp)).trans h.1, ihk h.2.1 fun m hm => hsame m (by simp [hm]),
      ih h.2.2 fun m hm => hsame m (by simp [hm])⟩

theorem Lasts.congr (h : Lasts last f) (hsame : ∀ n ∈ f.nodes, last' n = last n) :
    Lasts last' f := by
  induction f with
  | nil => exact h
  | leaf n rest ih =>
    refine ⟨(hsame n (by simp)).trans h.1, ih h.2 fun m hm => hsame m (by simp [hm])⟩
  | group n kids rest ihk ih =>
    refine ⟨(hsame n (by simp)).trans h.1, ihk h.2.1 fun m hm => hsame m (by simp [hm]),
      ih h.2.2 fun m hm => hsame m (by simp [hm])⟩

theorem Parents.mem (h : Parents parent p f) {n : ι} (hn : n ∈ f.nodes) :
    ∃ m, parent n = some m ∧ (m = p ∨ m ∈ f.nodes) := by
  induction f generalizing p with
  | nil => simp at hn
  | leaf k rest ih =>
    rcases List.mem_cons.mp hn with rfl | hn
    · exact ⟨p, h.1, Or.inl rfl⟩
    · obtain ⟨m, hm, hmem⟩ := ih h.2 hn
      exact ⟨m, hm, hmem.imp_right (List.mem_cons_of_mem k)⟩
  | group k kids rest ihk ih =>
    rcases List.mem_cons.mp hn with rfl | hn
    · exact ⟨p, h.1, Or.inl rfl⟩
    · rcases List.mem_append.mp hn with hn | hn
      · obtain ⟨m, hm, hmem⟩ := ihk h.2.1 hn
        refine ⟨m, hm, Or.inr ?_⟩
        rcases hmem with rfl | hmem <;> simp [*]
      · obtain ⟨m, hm, hmem⟩ := ih h.2.2 hn
        refine ⟨m, hm, hmem.imp_right fun hmem => ?_⟩
        simp [hmem]

end Fields

/-- The way from a position to the root: for every enclosing group, the trees before it, the
group and the trees after it. -/
abbrev Path (ι : Type*) := List (Forest ι × ι × Forest ι)

variable {path : Path ι}

namespace Path

/-- The forest with the given children at the position. -/
def up : Path ι → Forest ι → Forest ι
  | [], k => k
  | (l, n, r) :: path, k => up path (l ++ .group n k r)

def before : Path ι → List ι
  | [] => []
  | (l, n, _) :: path => before path ++ (l.nodes ++ [n])

def after : Path ι → List ι
  | [] => []
  | (_, _, r) :: path => r.nodes ++ after path

def owner (root : ι) : Path ι → ι
  | [] => root
  | (_, n, _) :: _ => n

theorem nodes_up (path : Path ι) (k : Forest ι) :
    (up path k).nodes = before path ++ (k.nodes ++ after path) := by
  induction path generalizing k with
  | nil => simp [up, before, after]
  | cons frame path ih => simp [up, before, after, ih]

def ParentsOff (parent : ι → Option ι) (root : ι) : Path ι → Prop
  | [] => True
  | (l, n, r) :: path =>
    ParentsOff parent root path ∧ Parents parent (owner root path) l ∧
      parent n = some (owner root path) ∧ Parents parent (owner root path) r

def LastsOff (last : ι → Option (Option ι)) (root : ι) : Path ι → Prop
  | [] => True
  | (l, n, r) :: path =>
    LastsOff last root path ∧ last (owner root path) = some (some (r.lastTop.getD n)) ∧
      Lasts last l ∧ Lasts last r

variable {parent parent' : ι → Option ι} {last last' : ι → Option (Option ι)} {root : ι}

theorem parents_up {k : Forest ι} : Parents parent root (up path k) ↔
    ParentsOff parent root path ∧ Parents parent (owner root path) k := by
  induction path generalizing k with
  | nil => simp [up, owner, ParentsOff]
  | cons frame path ih =>
    obtain ⟨l, n, r⟩ := frame
    simp only [up, owner, ParentsOff, ih, parents_append, Parents]
    tauto

theorem lasts_up {k : Forest ι} :
    (last root = some (up path k).lastTop ∧ Lasts last (up path k)) ↔
      LastsOff last root path ∧ last (owner root path) = some k.lastTop ∧ Lasts last k := by
  induction path generalizing k with
  | nil => simp [up, owner, LastsOff]
  | cons frame path ih =>
    obtain ⟨l, n, r⟩ := frame
    simp only [up, owner, LastsOff, ih, lasts_append, Lasts, Forest.lastTop_append,
      Forest.lastTop_group, Option.some_or]
    tauto

theorem lasts_of_up {k : Forest ι} (h : Lasts last (up path k)) : Lasts last k := by
  induction path generalizing k with
  | nil => exact h
  | cons frame path ih => exact (lasts_append.mp (ih h)).2.2.1

theorem owner_mem (root : ι) (path : Path ι) : owner root path ∈ root :: before path := by
  cases path with
  | nil => simp [owner]
  | cons frame path => simp [owner, before]

theorem ParentsOff.congr (h : ParentsOff parent root path)
    (hsame : ∀ n ∈ before path ++ after path, parent' n = parent n) :
    ParentsOff parent' root path := by
  induction path with
  | nil => exact h
  | cons frame path ih =>
    obtain ⟨l, n, r⟩ := frame
    obtain ⟨hpath, hl, hn, hr⟩ := h
    have hsame' : ∀ m ∈ before path ++ after path, parent' m = parent m := by
      intro m hm
      apply hsame
      rcases List.mem_append.mp hm with hm | hm <;> simp [before, after, hm]
    refine ⟨ih hpath hsame', hl.congr fun m hm => ?_, (hsame n ?_).trans hn,
      hr.congr fun m hm => ?_⟩
    · exact hsame m (by simp [before, hm])
    · simp [before]
    · exact hsame m (by simp [after, hm])

theorem LastsOff.congr (h : LastsOff last root path)
    (hnodup : (root :: (before path ++ after path)).Nodup)
    (hsame : ∀ n ∈ root :: (before path ++ after path), n ≠ owner root path → last' n = last n) :
    LastsOff last' root path := by
  induction path with
  | nil => exact h
  | cons frame path ih =>
    obtain ⟨l, n, r⟩ := frame
    obtain ⟨hpath, howner, hl, hr⟩ := h
    have hsplit : root :: (before ((l, n, r) :: path) ++ after ((l, n, r) :: path)) =
        (root :: (before path ++ l.nodes)) ++ n :: (r.nodes ++ after path) := by
      simp [before, after]
    rw [hsplit, List.nodup_middle, List.nodup_cons] at hnodup
    obtain ⟨hn, hnodup⟩ := hnodup
    have hsame' : ∀ m ∈ (root :: (before path ++ l.nodes)) ++ (r.nodes ++ after path),
        last' m = last m := by
      intro m hm
      refine hsame m ?_ fun heq : m = n => hn (heq ▸ hm)
      rw [hsplit]
      rcases List.mem_append.mp hm with hm | hm
      · exact List.mem_append_left _ hm
      · exact List.mem_append_right _ (List.mem_cons_of_mem n hm)
    refine ⟨ih hpath ?_ fun m hm _ => hsame' m ?_, (hsame' _ ?_).trans howner,
      hl.congr fun m hm => hsame' m ?_, hr.congr fun m hm => hsame' m ?_⟩
    · refine hnodup.sublist ?_
      simp only [List.cons_append, List.append_assoc]
      exact ((List.Sublist.refl _).append ((List.sublist_append_right _ _).trans
        (List.sublist_append_right _ _))).cons_cons root
    · rcases List.mem_cons.mp hm with rfl | hm
      · simp
      · rcases List.mem_append.mp hm with hm | hm <;> simp [hm]
    · rcases List.mem_cons.mp (owner_mem root path) with heq | hm
      · simp [heq]
      · simp [hm]
    · simp [hm]
    · simp [hm]

end Path

/-- The links of the nodes. `last` is none for a leaf and `some none` for an empty group. -/
structure Links (ι : Type*) where
  parent : ι → Option ι
  prev : ι → Option ι
  next : ι → Option ι
  last : ι → Option (Option ι)

/-- The links store the tree with the given root and the forest of its descendants. -/
structure Represents (L : Links ι) (root : ι) (f : Forest ι) : Prop where
  nodup : (root :: f.nodes).Nodup
  next : Thread L.next (root :: f.nodes) none
  prev : Back L.prev none (root :: f.nodes)
  parentRoot : L.parent root = none
  parents : Parents L.parent root f
  lastRoot : L.last root = some f.lastTop
  lasts : Lasts L.last f

def tree (n : ι) : Option (Forest ι) → Forest ι
  | none => .leaf n .nil
  | some kids => .group n kids .nil

def descendants : Option (Forest ι) → Forest ι
  | none => .nil
  | some kids => kids

@[simp] theorem descendants_none : descendants (none : Option (Forest ι)) = .nil := rfl

@[simp] theorem descendants_some (kids : Forest ι) : descendants (some kids) = kids := rfl

@[simp] theorem nodes_tree (n : ι) (k : Option (Forest ι)) :
    (tree n k).nodes = n :: (descendants k).nodes := by
  cases k <;> simp [tree, descendants]

@[simp] theorem lastTop_tree_append (n : ι) (k : Option (Forest ι)) (f : Forest ι) :
    (tree n k ++ f).lastTop = some (f.lastTop.getD n) := by
  cases k <;> simp [tree]

theorem parents_tree {parent : ι → Option ι} {p n : ι} {k : Option (Forest ι)} :
    Parents parent p (tree n k) ↔ parent n = some p ∧ Parents parent n (descendants k) := by
  cases k <;> simp [tree, descendants, Parents]

theorem lasts_tree {last : ι → Option (Option ι)} {n : ι} {k : Option (Forest ι)} :
    Lasts last (tree n k) ↔ last n = k.map Forest.lastTop ∧ Lasts last (descendants k) := by
  cases k <;> simp [tree, descendants, Lasts]

/-- A tree linked inside, whatever the links of its root to the other nodes. -/
structure Floating (L : Links ι) (n : ι) (k : Option (Forest ι)) : Prop where
  nodup : (n :: (descendants k).nodes).Nodup
  next : ∃ e, Thread L.next (n :: (descendants k).nodes) e
  prev : ∃ e, Back L.prev e (n :: (descendants k).nodes)
  parents : Parents L.parent n (descendants k)
  last : L.last n = k.map Forest.lastTop
  lasts : Lasts L.last (descendants k)

structure Position (ι : Type*) where
  path : Path ι
  left : Forest ι
  right : Forest ι

namespace Position

variable (P : Position ι)

/-- The forest with the given trees at the position. -/
def plug (f : Forest ι) : Forest ι := Path.up P.path (P.left ++ (f ++ P.right))

def owner (root : ι) : ι := P.path.owner root

def before (root : ι) : List ι := root :: (P.path.before ++ P.left.nodes)

def after : List ι := P.right.nodes ++ P.path.after

theorem nodes_plug (root : ι) (f : Forest ι) :
    root :: (P.plug f).nodes = P.before root ++ (f.nodes ++ P.after) := by
  simp [plug, before, after, Path.nodes_up]

theorem owner_mem (root : ι) : P.owner root ∈ P.before root := by
  have := Path.owner_mem root P.path
  simp only [before, owner, List.mem_cons, List.mem_append] at this ⊢
  tauto

theorem parents_plug {parent : ι → Option ι} {root : ι} {f : Forest ι} :
    Parents parent root (P.plug f) ↔
      (Path.ParentsOff parent root P.path ∧ Parents parent (P.owner root) P.left ∧
        Parents parent (P.owner root) P.right) ∧ Parents parent (P.owner root) f := by
  simp only [plug, Path.parents_up, parents_append, owner]
  tauto

theorem lasts_plug {last : ι → Option (Option ι)} {root : ι} {f : Forest ι} :
    (last root = some (P.plug f).lastTop ∧ Lasts last (P.plug f)) ↔
      (Path.LastsOff last root P.path ∧ Lasts last P.left ∧ Lasts last P.right) ∧
        last (P.owner root) = some (P.left ++ (f ++ P.right)).lastTop ∧ Lasts last f := by
  simp only [plug, Path.lasts_up, lasts_append, owner]
  tauto

end Position

/-- The tree of a node, a leaf or a group with its children, occurs in the forest. -/
inductive Forest.Subtree : Forest ι → ι → Option (Forest ι) → Prop
  | leaf (n : ι) (rest : Forest ι) : Subtree (.leaf n rest) n none
  | leafRest {n m : ι} {rest : Forest ι} {k : Option (Forest ι)} :
      Subtree rest n k → Subtree (.leaf m rest) n k
  | group (n : ι) (kids rest : Forest ι) : Subtree (.group n kids rest) n (some kids)
  | groupKids {n m : ι} {kids rest : Forest ι} {k : Option (Forest ι)} :
      Subtree kids n k → Subtree (.group m kids rest) n k
  | groupRest {n m : ι} {kids rest : Forest ι} {k : Option (Forest ι)} :
      Subtree rest n k → Subtree (.group m kids rest) n k

namespace Forest

theorem exists_subtree {f : Forest ι} {n : ι} (hn : n ∈ f.nodes) : ∃ k, f.Subtree n k := by
  induction f with
  | nil => simp at hn
  | leaf m rest ih =>
    rcases List.mem_cons.mp hn with rfl | hn
    · exact ⟨none, .leaf n rest⟩
    · obtain ⟨k, hk⟩ := ih hn
      exact ⟨k, .leafRest hk⟩
  | group m kids rest ihk ih =>
    rcases List.mem_cons.mp hn with rfl | hn
    · exact ⟨some kids, .group n kids rest⟩
    · rcases List.mem_append.mp hn with hn | hn
      · obtain ⟨k, hk⟩ := ihk hn
        exact ⟨k, .groupKids hk⟩
      · obtain ⟨k, hk⟩ := ih hn
        exact ⟨k, .groupRest hk⟩

variable {f g : Forest ι} {n m : ι} {k : Option (Forest ι)}

theorem Subtree.append_left (h : f.Subtree n k) : (f ++ g).Subtree n k := by
  induction h with
  | leaf n rest => exact .leaf n _
  | leafRest _ ih => exact .leafRest ih
  | group n kids rest => exact .group n kids _
  | groupKids h _ => exact .groupKids h
  | groupRest _ ih => exact .groupRest ih

theorem Subtree.append_right (h : g.Subtree n k) : (f ++ g).Subtree n k := by
  induction f with
  | nil => exact h
  | leaf m rest ih => exact .leafRest ih
  | group m kids rest _ ih => exact .groupRest ih

theorem subtree_tree (n : ι) (k : Option (Forest ι)) : (tree n k).Subtree n k := by
  cases k with
  | none => exact .leaf n .nil
  | some kids => exact .group n kids .nil

theorem Subtree.up (h : f.Subtree n k) (path : Path ι) : (path.up f).Subtree n k := by
  induction path generalizing f with
  | nil => exact h
  | cons frame path ih => exact ih (Subtree.append_right (.groupKids h))

theorem subtree_plug (P : Position ι) (n : ι) (k : Option (Forest ι)) :
    (P.plug (tree n k)).Subtree n k :=
  ((subtree_tree n k).append_left.append_right).up P.path

theorem Subtree.trans {kids : Forest ι} (h : f.Subtree m (some kids)) (hk : kids.Subtree n k) :
    f.Subtree n k := by
  generalize hm : some kids = k' at h
  induction h with
  | leaf => cases hm
  | leafRest _ ih => exact .leafRest (ih hm)
  | group =>
    cases hm
    exact .groupKids hk
  | groupKids _ ih => exact .groupKids (ih hm)
  | groupRest _ ih => exact .groupRest (ih hm)

section

variable (h : f.Subtree n k)
include h

theorem Subtree.exists_up (path : Path ι) (left : Forest ι) :
    ∃ P : Position ι, path.up (left ++ f) = P.plug (tree n k) := by
  induction h generalizing path left with
  | leaf n rest => exact ⟨⟨path, left, rest⟩, rfl⟩
  | @leafRest n m rest k _ ih =>
    obtain ⟨P, hP⟩ := ih path (left ++ .leaf m .nil)
    exact ⟨P, by simpa [append_assoc] using hP⟩
  | group n kids rest => exact ⟨⟨path, left, rest⟩, rfl⟩
  | @groupKids n m kids rest k _ ih => exact ih ((left, m, rest) :: path) .nil
  | @groupRest n m kids rest k _ ih =>
    obtain ⟨P, hP⟩ := ih path (left ++ .group m kids .nil)
    exact ⟨P, by simpa [append_assoc] using hP⟩

theorem Subtree.exists_position : ∃ P : Position ι, f = P.plug (tree n k) :=
  h.exists_up [] .nil

theorem Subtree.nodes_eq : ∃ l r, f.nodes = l ++ (n :: (descendants k).nodes ++ r) := by
  obtain ⟨P, rfl⟩ := h.exists_position
  refine ⟨P.path.before ++ P.left.nodes, P.after, ?_⟩
  simp [Position.plug, Path.nodes_up, Position.after]

theorem Subtree.mem : n ∈ f.nodes := by
  obtain ⟨l, r, hf⟩ := h.nodes_eq
  simp [hf]

theorem Subtree.nodes_subset : (descendants k).nodes ⊆ f.nodes := by
  obtain ⟨l, r, hf⟩ := h.nodes_eq
  intro m hm
  simp [hf, hm]

theorem Subtree.parent_eq {parent : ι → Option ι} {p : ι} (hparents : Parents parent p f) :
    parent n = some p ∨
      ∃ m kids, f.Subtree m (some kids) ∧ kids.Subtree n k ∧ parent n = some m := by
  induction h generalizing p with
  | leaf n rest => exact Or.inl hparents.1
  | leafRest _ ih =>
    rcases ih hparents.2 with hp | ⟨m, kids, hm, hkids, hp⟩
    · exact Or.inl hp
    · exact Or.inr ⟨m, kids, .leafRest hm, hkids, hp⟩
  | group n kids rest => exact Or.inl hparents.1
  | @groupKids n m kids rest k h ih =>
    rcases ih hparents.2.1 with hp | ⟨m', kids', hm, hkids, hp⟩
    · exact Or.inr ⟨m, kids, .group m kids rest, h, hp⟩
    · exact Or.inr ⟨m', kids', .groupKids hm, hkids, hp⟩
  | groupRest _ ih =>
    rcases ih hparents.2.2 with hp | ⟨m, kids, hm, hkids, hp⟩
    · exact Or.inl hp
    · exact Or.inr ⟨m, kids, .groupRest hm, hkids, hp⟩

theorem Subtree.lasts {last : ι → Option (Option ι)} (hf : Lasts last f) :
    Lasts last (tree n k) := by
  obtain ⟨P, rfl⟩ := h.exists_position
  exact (lasts_append.mp (lasts_append.mp (Path.lasts_of_up hf)).2).1

end

theorem exists_last (h : f.lastTop = some n) : ∃ g k, f = g ++ tree n k := by
  induction f with
  | nil => simp at h
  | leaf m rest ih =>
    rw [lastTop_leaf, Option.some.injEq] at h
    cases hr : rest.lastTop with
    | none =>
      rw [lastTop_eq_none] at hr
      exact ⟨.nil, none, by simp_all [tree]⟩
    | some m' =>
      obtain ⟨g, k, hg⟩ := ih (hr.trans (congrArg some (by simpa [hr] using h)))
      exact ⟨.leaf m g, k, by rw [hg, leaf_append]⟩
  | group m kids rest _ ih =>
    rw [lastTop_group, Option.some.injEq] at h
    cases hr : rest.lastTop with
    | none =>
      rw [lastTop_eq_none] at hr
      exact ⟨.nil, some kids, by simp_all [tree]⟩
    | some m' =>
      obtain ⟨g, k, hg⟩ := ih (hr.trans (congrArg some (by simpa [hr] using h)))
      exact ⟨.group m kids g, k, by rw [hg, group_append]⟩

end Forest

def lastNode (n : ι) (k : Option (Forest ι)) : ι := (descendants k).nodes.getLast?.getD n

theorem nodes_eq_append_lastNode (n : ι) (k : Option (Forest ι)) :
    ∃ l, n :: (descendants k).nodes = l ++ [lastNode n k] := by
  unfold lastNode
  rcases List.eq_nil_or_concat (descendants k).nodes with h | ⟨l, a, h⟩
  · exact ⟨[], by simp [h]⟩
  · exact ⟨n :: l, by simp [h]⟩

theorem lastNode_of_append (n m : ι) (g : Forest ι) (k : Option (Forest ι)) :
    lastNode n (some (g ++ tree m k)) = lastNode m k := by
  simp only [lastNode, descendants, Forest.nodes_append, nodes_tree, List.getLast?_append,
    List.getLast?_cons, Option.some_or, Option.getD_some]

section Order

variable [DecidableEq ι] {l : List ι} {n m : ι}

theorem idxOf_middle {A B : List ι} (hnodup : (A ++ n :: B).Nodup) :
    (A ++ n :: B).idxOf n = A.length := by
  have hn : n ∉ A := fun hA => (List.nodup_append'.mp hnodup).2.2 hA List.mem_cons_self
  rw [List.idxOf_append_of_notMem hn, List.idxOf_cons_self, Nat.add_zero]

theorem Thread.next_idxOf {next : ι → Option ι} (h : Thread next l none) (hnodup : l.Nodup)
    (hn : n ∈ l) (hnext : next n = some m) : m ∈ l ∧ l.idxOf m = l.idxOf n + 1 := by
  obtain ⟨A, B, rfl⟩ := List.append_of_mem hn
  have hB : B.head? = some m := by
    rw [← hnext, (thread_append.mp h).2.1, Option.or_none]
  obtain ⟨B, rfl⟩ := List.head?_eq_some_iff.mp hB
  refine ⟨by simp, ?_⟩
  rw [idxOf_middle hnodup]
  rw [List.append_cons] at hnodup ⊢
  rw [idxOf_middle hnodup, List.length_append, List.length_singleton]

theorem Back.prev_idxOf {prev : ι → Option ι} (h : Back prev none l) (hnodup : l.Nodup)
    (hn : n ∈ l) (hprev : prev n = some m) : m ∈ l ∧ l.idxOf n = l.idxOf m + 1 := by
  obtain ⟨A, B, rfl⟩ := List.append_of_mem hn
  have hA : A.getLast? = some m := by
    rw [← hprev, (back_append.mp h).2.1, Option.or_none]
  obtain ⟨A, rfl⟩ := List.getLast?_eq_some_iff.mp hA
  refine ⟨by simp, ?_⟩
  rw [idxOf_middle hnodup, List.length_append, List.length_singleton]
  rw [← List.append_cons] at hnodup ⊢
  rw [idxOf_middle hnodup]

theorem Forest.Subtree.idxOf_le {f : Forest ι} {k : Option (Forest ι)} (h : f.Subtree n k)
    (hnodup : f.nodes.Nodup) (hm : m ∈ n :: (descendants k).nodes) :
    f.nodes.idxOf n ≤ f.nodes.idxOf m ∧ f.nodes.idxOf m ≤ f.nodes.idxOf (lastNode n k) := by
  obtain ⟨A, B, hf⟩ := h.nodes_eq
  obtain ⟨C, hC⟩ := nodes_eq_append_lastNode n k
  obtain ⟨D, E, hD⟩ := List.append_of_mem hm
  have hn : f.nodes.idxOf n = A.length := by
    rw [hf, List.cons_append] at hnodup ⊢
    exact idxOf_middle hnodup
  have hm' : f.nodes.idxOf m = A.length + D.length := by
    rw [hf, hD, List.append_assoc, List.cons_append, ← List.append_assoc] at hnodup ⊢
    rw [idxOf_middle hnodup, List.length_append]
  have hl : f.nodes.idxOf (lastNode n k) = A.length + C.length := by
    rw [hf, hC, List.append_assoc, List.singleton_append, ← List.append_assoc] at hnodup ⊢
    rw [idxOf_middle hnodup, List.length_append]
  have hlength : (D ++ m :: E).length = (C ++ [lastNode n k]).length := by rw [← hD, hC]
  simp only [List.length_append, List.length_cons, List.length_nil] at hlength
  omega

theorem Forest.Subtree.idxOf_lt {f kids : Forest ι} {k : Option (Forest ι)}
    (h : f.Subtree n (some kids)) (hk : kids.Subtree m k) (hnodup : f.nodes.Nodup) :
    f.nodes.idxOf n < f.nodes.idxOf m := by
  have hle := (h.idxOf_le hnodup (List.mem_cons_of_mem n hk.mem)).1
  refine Nat.lt_of_le_of_ne hle fun heq => ?_
  have hnm : n = m := (List.idxOf_inj h.mem).mp heq
  obtain ⟨A, B, hf⟩ := h.nodes_eq
  rw [hf] at hnodup
  have hnot := (List.nodup_cons.mp (List.nodup_append'.mp
    (List.nodup_append'.mp hnodup).2.1).1).1
  exact hnot (hnm ▸ hk.mem)

end Order

variable {L L' : Links ι} {root : ι} {P : Position ι}

namespace Position

theorem nodes_plug_eq (P : Position ι) (f : Forest ι) : (P.plug f).nodes =
    P.path.before ++ (P.left.nodes ++ (f.nodes ++ (P.right.nodes ++ P.path.after))) := by
  simp [plug, Path.nodes_up]

theorem exists_before (P : Position ι) (root : ι) : ∃ A a, P.before root = A ++ [a] := by
  rcases List.eq_nil_or_concat (P.before root) with h | ⟨A, a, h⟩
  · simp [before] at h
  · exact ⟨A, a, by simpa using h⟩

theorem before_of_left_nil {P : Position ι} (root : ι) (h : P.left = .nil) :
    ∃ A, P.before root = A ++ [P.owner root] := by
  obtain ⟨path, left, right⟩ := P
  cases path with
  | nil => exact ⟨[], by simp_all [before, owner, Path.before, Path.owner]⟩
  | cons frame path =>
    obtain ⟨l, n, r⟩ := frame
    refine ⟨root :: (Path.before path ++ l.nodes), ?_⟩
    simp_all [before, owner, Path.before, Path.owner]

theorem before_eq (P : Position ι) (root : ι) :
    ∃ A, P.before root = A ++ (P.owner root :: P.left.nodes) := by
  obtain ⟨A, hA⟩ := before_of_left_nil (P := ⟨P.path, .nil, P.right⟩) root rfl
  refine ⟨A, ?_⟩
  simp only [before, Forest.nodes_nil, List.append_nil] at hA
  rw [before, ← List.cons_append, hA, List.append_assoc]
  rfl

theorem subtree_owner (P : Position ι) (root : ι) (f : Forest ι) :
    (tree root (some (P.plug f))).Subtree (P.owner root) (some (P.left ++ (f ++ P.right))) := by
  obtain ⟨path, left, right⟩ := P
  cases path with
  | nil => exact .group root _ .nil
  | cons frame path =>
    obtain ⟨l, n, r⟩ := frame
    have h : (l ++ Forest.group n (left ++ (f ++ right)) r).Subtree n
        (some (left ++ (f ++ right))) := Forest.Subtree.append_right (.group _ _ _)
    exact .groupKids (h.up path)

theorem subtree_left {P : Position ι} {n : ι} {k : Option (Forest ι)} (h : P.left.Subtree n k)
    (root : ι) (f : Forest ι) : (tree root (some (P.plug f))).Subtree n k :=
  (P.subtree_owner root f).trans h.append_left

end Position

namespace Represents

variable {f : Forest ι} {A : List ι} {a b n : ι} {k : Option (Forest ι)}

theorem next_before (h : Represents L root (P.plug f)) (ha : P.before root = A ++ [a]) :
    L.next a = (f.nodes ++ P.after).head? := by
  have hnext := h.next
  rw [P.nodes_plug, ha] at hnext
  simpa using (thread_append.mp hnext).1.last_eq

theorem prev_first (h : Represents L root (P.plug f)) (ha : P.before root = A ++ [a])
    (hb : (f.nodes ++ P.after).head? = some b) : L.prev b = some a := by
  have hprev := h.prev
  obtain ⟨B, hB⟩ := List.head?_eq_some_iff.mp hb
  rw [P.nodes_plug, ha, hB] at hprev
  simpa using (back_append.mp hprev).2.1

theorem next_owner (h : Represents L root (P.plug f)) :
    L.next (P.owner root) = (P.left.nodes ++ (f.nodes ++ P.after)).head? := by
  obtain ⟨A, hA⟩ := P.before_eq root
  have hnext := h.next
  rw [P.nodes_plug, hA, List.append_assoc] at hnext
  simpa using (thread_append.mp hnext).2.1

section

variable (h : Represents L root (P.plug (tree n k)))
include h

theorem next_lastNode : L.next (lastNode n k) = P.after.head? := by
  obtain ⟨C, hC⟩ := nodes_eq_append_lastNode n k
  have hnext := h.next
  rw [P.nodes_plug, nodes_tree, hC] at hnext
  simpa using (thread_append.mp (thread_append.mp hnext).2).1.last_eq

theorem notMem_of_mem_tree {m : ι} (hm : m ∈ n :: (descendants k).nodes) :
    m ∉ P.before root ++ P.after := by
  have hnodup := h.nodup
  rw [P.nodes_plug, nodes_tree] at hnodup
  obtain ⟨-, hrest, hdisj⟩ := List.nodup_append'.mp hnodup
  intro hmem
  rcases List.mem_append.mp hmem with hmem | hmem
  · exact hdisj hmem (List.mem_append_left _ hm)
  · exact (List.nodup_append'.mp hrest).2.2 hm hmem

theorem nodup_tree : (n :: (descendants k).nodes).Nodup := by
  have hnodup := h.nodup
  rw [P.nodes_plug, nodes_tree] at hnodup
  exact (List.nodup_append'.mp (List.nodup_append'.mp hnodup).2.1).1

theorem parent_tree : L.parent n = some (P.owner root) :=
  (parents_tree.mp (P.parents_plug.mp h.parents).2).1

end

theorem last_owner (h : Represents L root (P.plug f)) :
    L.last (P.owner root) = some (P.left ++ (f ++ P.right)).lastTop :=
  (P.lasts_plug.mp ⟨h.lastRoot, h.lasts⟩).2.1

end Represents

section Surgery

variable {src a c : ι} {k : Option (Forest ι)} {A C : List ι}

theorem Position.fields_congr (hnodup : (P.before root ++ P.after).Nodup)
    (hparents : Path.ParentsOff L.parent root P.path ∧ Parents L.parent (P.owner root) P.left ∧
      Parents L.parent (P.owner root) P.right)
    (hlasts : Path.LastsOff L.last root P.path ∧ Lasts L.last P.left ∧ Lasts L.last P.right)
    (hparent : ∀ n ∈ P.before root ++ P.after, L'.parent n = L.parent n)
    (hlast : ∀ n ∈ P.before root ++ P.after, n ≠ P.owner root → L'.last n = L.last n) :
    (Path.ParentsOff L'.parent root P.path ∧ Parents L'.parent (P.owner root) P.left ∧
      Parents L'.parent (P.owner root) P.right) ∧
    (Path.LastsOff L'.last root P.path ∧ Lasts L'.last P.left ∧ Lasts L'.last P.right) := by
  obtain ⟨hoff, hleft, hright⟩ := hparents
  obtain ⟨hlastsOff, hlastsLeft, hlastsRight⟩ := hlasts
  have howner := Path.owner_mem root P.path
  have hsplit : P.before root ++ P.after =
      (root :: P.path.before) ++ (P.left.nodes ++ (P.right.nodes ++ P.path.after)) := by
    simp [before, after]
  rw [hsplit] at hnodup hparent hlast
  obtain ⟨-, -, hdisj⟩ := List.nodup_append'.mp hnodup
  refine ⟨⟨hoff.congr fun n hn => hparent n ?_, hleft.congr fun n hn => hparent n ?_,
    hright.congr fun n hn => hparent n ?_⟩, hlastsOff.congr ?_ fun n hn hne => hlast n ?_ hne,
    hlastsLeft.congr fun n hn => hlast n ?_ ?_, hlastsRight.congr fun n hn => hlast n ?_ ?_⟩
  · rcases List.mem_append.mp hn with hn | hn <;> simp [hn]
  · simp [hn]
  · simp [hn]
  · refine hnodup.sublist ?_
    rw [← List.cons_append]
    exact (List.Sublist.refl _).append ((List.sublist_append_right _ _).trans
      (List.sublist_append_right _ _))
  · rcases List.mem_cons.mp hn with rfl | hn
    · simp
    · rcases List.mem_append.mp hn with hn | hn <;> simp [hn]
  · simp [hn]
  · rintro rfl
    exact hdisj howner (List.mem_append_left _ hn)
  · simp [hn]
  · rintro rfl
    exact hdisj howner (List.mem_append_right _ (List.mem_append_left _ hn))

section

variable {f : Forest ι} (h : Represents L root f)
include h

theorem Represents.congr (hnext : ∀ n ∈ root :: f.nodes, L'.next n = L.next n)
    (hprev : ∀ n ∈ root :: f.nodes, L'.prev n = L.prev n)
    (hparent : ∀ n ∈ root :: f.nodes, L'.parent n = L.parent n)
    (hlast : ∀ n ∈ root :: f.nodes, L'.last n = L.last n) : Represents L' root f where
  nodup := h.nodup
  next := h.next.congr hnext
  prev := h.prev.congr hprev
  parentRoot := (hparent root List.mem_cons_self).trans h.parentRoot
  parents := h.parents.congr fun n hn => hparent n (List.mem_cons_of_mem root hn)
  lastRoot := (hlast root List.mem_cons_self).trans h.lastRoot
  lasts := h.lasts.congr fun n hn => hlast n (List.mem_cons_of_mem root hn)

theorem Represents.prev_of_next {n m : ι} (hn : n ∈ root :: f.nodes) (hnext : L.next n = some m) :
    L.prev m = some n := by
  obtain ⟨A, B, hf⟩ := List.append_of_mem hn
  have hthread := h.next
  have hback := h.prev
  rw [hf] at hthread hback
  have hB : B.head? = some m := by
    rw [← hnext, (thread_append.mp hthread).2.1, Option.or_none]
  obtain ⟨B, rfl⟩ := List.head?_eq_some_iff.mp hB
  exact (back_append.mp hback).2.2.1

theorem Represents.lasts_root : Lasts L.last (tree root (some f)) :=
  lasts_tree.mpr ⟨h.lastRoot, h.lasts⟩

theorem Represents.parent_eq {n : ι} (hn : (tree root (some f)).Subtree n k) :
    n = root ∧ L.parent n = none ∨
      ∃ m kids, (tree root (some f)).Subtree m (some kids) ∧ kids.Subtree n k ∧
        L.parent n = some m := by
  cases hn with
  | group => exact Or.inl ⟨rfl, h.parentRoot⟩
  | groupKids hn =>
    rcases hn.parent_eq h.parents with hp | ⟨m, kids, hm, hkids, hp⟩
    · exact Or.inr ⟨root, f, Forest.subtree_tree root (some f), hn, hp⟩
    · exact Or.inr ⟨m, kids, .groupKids hm, hkids, hp⟩
  | groupRest hn => cases hn

end

theorem Represents.attach (h : Represents L root (P.plug .nil)) (hS : Floating L src k)
    (hnew : ∀ n ∈ src :: (descendants k).nodes, n ∉ root :: (P.plug .nil).nodes)
    (ha : P.before root = A ++ [a]) (hc : src :: (descendants k).nodes = C ++ [c])
    (hnext_a : L'.next a = some src) (hnext_c : L'.next c = P.after.head?)
    (hnext : ∀ n, n ≠ a → n ≠ c → L'.next n = L.next n)
    (hprev_src : L'.prev src = some a) (hprev_b : ∀ b, P.after.head? = some b →
      L'.prev b = some c)
    (hprev : ∀ n, n ≠ src → P.after.head? ≠ some n → L'.prev n = L.prev n)
    (hparent_src : L'.parent src = some (P.owner root))
    (hparent : ∀ n, n ≠ src → L'.parent n = L.parent n)
    (hlast_owner : L'.last (P.owner root) = some (some (P.right.lastTop.getD src)))
    (hlast : ∀ n, n ≠ P.owner root → L'.last n = L.last n) :
    Represents L' root (P.plug (tree src k)) := by
  have hnodup := h.nodup
  have hnext₀ := h.next
  have hprev₀ := h.prev
  rw [P.nodes_plug, Forest.nodes_nil, List.nil_append] at hnodup hnext₀ hprev₀ hnew
  have howner := P.owner_mem root
  have hroot : root ∈ P.before root := by simp [Position.before]
  have hall : (P.before root ++ (src :: (descendants k).nodes ++ P.after)).Nodup := by
    obtain ⟨hbefore, hafter, hdisj⟩ := List.nodup_append'.mp hnodup
    refine List.nodup_append'.mpr ⟨hbefore, List.nodup_append'.mpr ⟨hS.nodup, hafter, ?_⟩, ?_⟩
    · exact fun n hn hmem => hnew n hn (List.mem_append_right _ hmem)
    · intro n hn hmem
      rcases List.mem_append.mp hmem with hmem | hmem
      · exact hnew n hmem (List.mem_append_left _ hn)
      · exact hdisj hn hmem
  have hsrc : ∀ n ∈ P.before root ++ P.after, n ≠ src :=
    fun n hn heq => hnew src List.mem_cons_self (heq ▸ hn)
  obtain ⟨e, hnextS⟩ := hS.next
  obtain ⟨e', hprevS⟩ := hS.prev
  obtain ⟨hparents, -⟩ := P.parents_plug.mp h.parents
  obtain ⟨hlasts, -⟩ := P.lasts_plug.mp ⟨h.lastRoot, h.lasts⟩
  obtain ⟨hparents', hlasts'⟩ := Position.fields_congr hnodup hparents hlasts
    (fun n hn => hparent n (hsrc n hn)) fun n _ hne => hlast n hne
  have hlastSrc : L'.last src = k.map Forest.lastTop := by
    rw [hlast src fun heq => hsrc _ (List.mem_append_left _ howner) heq.symm]
    exact hS.last
  have hlastsS : Lasts L'.last (descendants k) := by
    refine hS.lasts.congr fun n hn => hlast n ?_
    rintro rfl
    exact hnew _ (List.mem_cons_of_mem src hn) (List.mem_append_left _ howner)
  have howner' : L'.last (P.owner root) = some (P.left ++ (tree src k ++ P.right)).lastTop := by
    rw [hlast_owner, Forest.lastTop_append, lastTop_tree_append, Option.some_or]
  have hfields := P.lasts_plug.mpr ⟨hlasts', howner', lasts_tree.mpr ⟨hlastSrc, hlastsS⟩⟩
  constructor
  · rwa [P.nodes_plug, nodes_tree]
  · rw [P.nodes_plug, nodes_tree]
    rw [ha, hc] at hall ⊢
    rw [ha] at hnext₀
    rw [hc] at hnextS
    refine hnext₀.insert hnextS hall ?_ (by simpa using hnext_c) hnext
    rw [hnext_a, ← hc, List.head?_cons]
  · rw [P.nodes_plug, nodes_tree]
    rw [ha] at hall hprev₀ ⊢
    refine hprev₀.insert hprevS hall hprev_src (fun b hb => ?_) hprev
    rw [hprev_b b hb, hc]
    simp
  · rw [hparent root (hsrc root (List.mem_append_left _ hroot))]
    exact h.parentRoot
  · refine P.parents_plug.mpr ⟨hparents', parents_tree.mpr ⟨hparent_src, ?_⟩⟩
    refine hS.parents.congr fun n hn => hparent n ?_
    rintro rfl
    exact (List.nodup_cons.mp hS.nodup).1 hn
  · exact hfields.1
  · exact hfields.2

theorem Represents.detach (h : Represents L root (P.plug (tree src k)))
    (ha : P.before root = A ++ [a]) (hc : src :: (descendants k).nodes = C ++ [c])
    (hnext_a : L'.next a = P.after.head?) (hnext : ∀ n, n ≠ a → L'.next n = L.next n)
    (hprev_b : ∀ b, P.after.head? = some b → L'.prev b = some a)
    (hprev : ∀ n, P.after.head? ≠ some n → L'.prev n = L.prev n)
    (hparent : ∀ n, L'.parent n = L.parent n)
    (hlast_owner : L'.last (P.owner root) = some (P.left ++ P.right).lastTop)
    (hlast : ∀ n, n ≠ P.owner root → L'.last n = L.last n) :
    Represents L' root (P.plug .nil) ∧ Floating L' src k ∧
      Thread L'.next (src :: (descendants k).nodes) P.after.head? := by
  have hall := h.nodup
  have hnext₀ := h.next
  have hprev₀ := h.prev
  rw [P.nodes_plug, nodes_tree] at hall hnext₀ hprev₀
  have howner := P.owner_mem root
  obtain ⟨hbefore, hrest, hdisj⟩ := List.nodup_append'.mp hall
  obtain ⟨hS, hafter, hdisjS⟩ := List.nodup_append'.mp hrest
  have hnodup : (P.before root ++ P.after).Nodup :=
    List.nodup_append'.mpr ⟨hbefore, hafter, fun n hn hmem =>
      hdisj hn (List.mem_append_right _ hmem)⟩
  have hownerS : ∀ n ∈ src :: (descendants k).nodes, n ≠ P.owner root :=
    fun n hn heq => hdisj howner (heq ▸ List.mem_append_left _ hn)
  obtain ⟨hparents, hparentsS⟩ := P.parents_plug.mp h.parents
  obtain ⟨hlasts, -, hlastsS⟩ := P.lasts_plug.mp ⟨h.lastRoot, h.lasts⟩
  have hparents₀ : ∀ n ∈ P.before root ++ P.after, L'.parent n = L.parent n := fun n _ => hparent n
  obtain ⟨hparents', hlasts'⟩ := Position.fields_congr hnodup hparents hlasts hparents₀
    fun n _ hne => hlast n hne
  have hnil : Lasts L'.last .nil := trivial
  have hfields := P.lasts_plug.mpr ⟨hlasts', by simpa using hlast_owner, hnil⟩
  obtain ⟨hnext₁, hnext₂⟩ : Thread L'.next (P.before root ++ P.after) none ∧
      Thread L'.next (src :: (descendants k).nodes) P.after.head? := by
    rw [ha, hc] at hall hnext₀ ⊢
    simpa using hnext₀.remove hall (by simpa using hnext_a) hnext
  obtain ⟨hprev₁, hprev₂⟩ : Back L'.prev none (P.before root ++ P.after) ∧
      Back L'.prev (some a) (src :: (descendants k).nodes) := by
    rw [ha] at hall hprev₀ ⊢
    exact hprev₀.remove hall hprev_b hprev
  refine ⟨⟨?_, ?_, ?_, ?_, ?_, hfields.1, hfields.2⟩,
    ⟨hS, ⟨_, hnext₂⟩, ⟨_, hprev₂⟩, ?_, ?_, ?_⟩, hnext₂⟩
  · rwa [P.nodes_plug, Forest.nodes_nil, List.nil_append]
  · rwa [P.nodes_plug, Forest.nodes_nil, List.nil_append]
  · rwa [P.nodes_plug, Forest.nodes_nil, List.nil_append]
  · rw [hparent]
    exact h.parentRoot
  · exact P.parents_plug.mpr ⟨hparents', trivial⟩
  · exact (parents_tree.mp hparentsS).2.congr fun n _ => hparent n
  · rw [hlast src (hownerS src List.mem_cons_self)]
    exact (lasts_tree.mp hlastsS).1
  · exact (lasts_tree.mp hlastsS).2.congr fun n hn =>
      hlast n (hownerS n (List.mem_cons_of_mem src hn))

theorem Represents.insert [DecidableEq ι] (h : Represents L root (P.plug .nil))
    (hk : descendants k = .nil) (hnew : src ∉ root :: (P.plug .nil).nodes)
    (ha : P.before root = A ++ [a]) (hlastSrc : L.last src = k.map Forest.lastTop)
    (hnext : L'.next = update (update L.next src (L.next a)) a (some src))
    (hprevNone : L.next a = none → L'.prev = update L.prev src (some a))
    (hprevSome : ∀ b, L.next a = some b →
      L'.prev = update (update L.prev src (some a)) b (some src))
    (hparent : L'.parent = update L.parent src (some (P.owner root)))
    (hlast : L'.last = update L.last (P.owner root) (some (some (P.right.lastTop.getD src)))) :
    Represents L' root (P.plug (tree src k)) := by
  have hnodes : src :: (descendants k).nodes = [] ++ [src] := by rw [hk]; rfl
  have hafter : L.next a = P.after.head? := by simpa using h.next_before ha
  have hmem : ∀ n, n ∈ P.before root ++ P.after → n ≠ src := by
    rintro n hn rfl
    apply hnew
    rw [P.nodes_plug]
    simpa using hn
  have hsrc_a : src ≠ a := fun heq => hmem a (by simp [ha]) heq.symm
  have hfloating : Floating L src k := by
    refine ⟨by simp [hk], ⟨L.next src, ?_⟩, ⟨L.prev src, ?_⟩, ?_, hlastSrc, ?_⟩ <;> rw [hk]
    · exact ⟨by simp, trivial⟩
    · exact ⟨rfl, trivial⟩
    · trivial
    · trivial
  refine h.attach hfloating ?_ ha hnodes ?_ ?_ ?_ ?_ ?_ ?_ ?_ ?_ ?_ ?_
  · intro n hn
    rw [hnodes] at hn
    rwa [List.mem_singleton.mp hn]
  · rw [hnext, update_self]
  · rw [hnext, update_of_ne hsrc_a, update_self, hafter]
  · intro n hna hns
    rw [hnext, update_of_ne hna, update_of_ne hns]
  · cases hb : L.next a with
    | none => rw [hprevNone hb, update_self]
    | some b =>
      have hbs : src ≠ b := by
        rintro rfl
        exact hmem src (by simp [List.mem_of_mem_head? (hafter ▸ hb)]) rfl
      rw [hprevSome b hb, update_of_ne hbs, update_self]
  · intro b hb
    rw [hprevSome b (hafter.trans hb), update_self]
  · intro n hns hnb
    cases hb : L.next a with
    | none => rw [hprevNone hb, update_of_ne hns]
    | some b =>
      have hne : n ≠ b := by
        rintro rfl
        exact hnb (hafter ▸ hb)
      rw [hprevSome b hb, update_of_ne hne, update_of_ne hns]
  · rw [hparent, update_self]
  · intro n hn
    rw [hparent, update_of_ne hn]
  · rw [hlast, update_self]
  · intro n hn
    rw [hlast, update_of_ne hn]

end Surgery

section OfForest

variable [DecidableEq ι]

def parentIn (p : ι) : Forest ι → ι → Option ι
  | .nil, _ => none
  | .leaf m rest, n => if n = m then some p else parentIn p rest n
  | .group m kids rest, n => if n = m then some p else (parentIn m kids n).or (parentIn p rest n)

def lastIn : Forest ι → ι → Option (Option ι)
  | .nil, _ => none
  | .leaf m rest, n => if n = m then none else lastIn rest n
  | .group m kids rest, n => if n = m then some kids.lastTop else (lastIn kids n).or (lastIn rest n)

def Links.ofForest (root : ι) (f : Forest ι) : Links ι where
  parent := parentIn root f
  prev n := if n = root then none else (root :: f.nodes)[(root :: f.nodes).idxOf n - 1]?
  next n := (root :: f.nodes)[(root :: f.nodes).idxOf n + 1]?
  last n := if n = root then some f.lastTop else lastIn f n

end OfForest

end Incudine.ThreadedForest

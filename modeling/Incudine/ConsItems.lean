import Incudine.Conses
import Mathlib.Data.List.Sublists

/-!
# Items of shared lists

The cdr of a cons is an older cons, hence every list is proper. A destructive deletion lets the
conses of the list bypass the deleted ones, also in the lists that share them, which lose nothing
else.
-/

namespace Incudine.Conses

open Function

variable {α : Type*} {h h' : Conses α} {l m : Option ℕ} {c : ℕ} {a : α}

def Valid (h : Conses α) (l : Option ℕ) : Prop := ∀ c, l = some c → c < h.next

def Proper (h : Conses α) : Prop := ∀ c c', h.cdr c = some c' → c' < c

def items (h : Conses α) (l : Option ℕ) : List α := ((h.list l).getD []).map h.car

theorem valid_none (h : Conses α) : h.Valid none := nofun

theorem valid_some : h.Valid (some c) ↔ c < h.next := by
  constructor
  · intro hvalid
    exact hvalid c rfl
  · rintro hlt _ ⟨⟩
    exact hlt

theorem Proper.valid_cdr (hproper : h.Proper) (hc : c < h.next) : h.Valid (h.cdr c) := by
  intro c' hc'
  exact (hproper c c' hc').trans hc

theorem Proper.chain (hproper : h.Proper) (hl : h.Valid l) :
    ∃ cs, Chain h.cdr l cs ∧ ∀ c ∈ cs, c < h.next := by
  cases l with
  | none => exact ⟨[], .nil, nofun⟩
  | some c =>
    induction c using Nat.strong_induction_on with
    | _ c ih =>
      have hc := valid_some.mp hl
      have htail := hproper.valid_cdr hc
      obtain ⟨cs, hchain, hlt⟩ : ∃ cs, Chain h.cdr (h.cdr c) cs ∧ ∀ c ∈ cs, c < h.next := by
        cases hcdr : h.cdr c with
        | none => exact ⟨[], .nil, nofun⟩
        | some c' =>
          rw [hcdr] at htail
          exact ih c' (hproper c c' hcdr) htail
      refine ⟨c :: cs, .cons hchain, ?_⟩
      intro x hx
      rcases List.mem_cons.mp hx with rfl | hx
      · exact hc
      · exact hlt x hx

theorem Chain.items {cs : List ℕ} (hchain : Chain h.cdr l cs) (hlt : ∀ c ∈ cs, c < h.next) :
    h.items l = cs.map h.car := by
  rw [Conses.items, hchain.list hlt, Option.getD_some]

@[simp] theorem items_none (h : Conses α) : h.items none = [] :=
  Chain.items .nil nofun

theorem Proper.items_some (hproper : h.Proper) (hc : c < h.next) :
    h.items (some c) = h.car c :: h.items (h.cdr c) := by
  obtain ⟨cs, hchain, hlt⟩ := hproper.chain (hproper.valid_cdr hc)
  have hall : ∀ x ∈ c :: cs, x < h.next := by
    intro x hx
    rcases List.mem_cons.mp hx with rfl | hx
    · exact hc
    · exact hlt x hx
  rw [Chain.items (.cons hchain) hall, hchain.items hlt, List.map_cons]

theorem Proper.list_induction (hproper : h.Proper) {p : Option ℕ → Prop} (hnone : p none)
    (hsome : ∀ c < h.next, p (h.cdr c) → p (some c)) (hl : h.Valid l) : p l := by
  cases l with
  | none => exact hnone
  | some c =>
    induction c using Nat.strong_induction_on with
    | _ c ih =>
      have hc := valid_some.mp hl
      apply hsome c hc
      cases hcdr : h.cdr c with
      | none => exact hnone
      | some c' =>
        have htail := hproper.valid_cdr hc
        rw [hcdr] at htail
        exact ih c' (hproper c c' hcdr) htail

/-- Nothing but some items of the lists is lost, and the lists without the item `a` are the
same. -/
structure Shrinks (h h' : Conses α) : Prop where
  next_le : h.next ≤ h'.next
  proper : h'.Proper
  car_eq : ∀ c < h.next, h'.car c = h.car c
  sublist : ∀ {l}, h.Valid l → (h'.items l).Sublist (h.items l)

theorem Shrinks.refl (hproper : h.Proper) : Shrinks h h where
  next_le := le_rfl
  proper := hproper
  car_eq _ _ := rfl
  sublist _ := List.Sublist.refl _

theorem Shrinks.valid (hs : Shrinks h h') (hl : h.Valid l) : h'.Valid l :=
  fun c hc => (hl c hc).trans_le hs.next_le

theorem Proper.items_congr (hproper : h.Proper) (hproper' : h'.Proper) (hnext : h.next ≤ h'.next)
    (hcar : ∀ c < h.next, h'.car c = h.car c) {bound : ℕ}
    (hcdr : ∀ c < h.next, c < bound → h'.cdr c = h.cdr c) (hl : h.Valid l)
    (hbound : ∀ c, l = some c → c < bound) : h'.items l = h.items l := by
  refine hproper.list_induction (p := fun l => (∀ c, l = some c → c < bound) →
    h'.items l = h.items l) ?_ ?_ hl hbound
  · intro _
    rw [items_none, items_none]
  · intro c hc ih hbound
    have hlt := hbound c rfl
    rw [hproper.items_some hc, hproper'.items_some (hc.trans_le hnext), hcar c hc, hcdr c hc hlt]
    rw [ih fun c' hc' => (hproper c c' hc').trans hlt]

theorem cons_cdr_self (h : Conses α) (a : α) (l : Option ℕ) : (h.cons a l).cdr h.next = l :=
  update_self ..

theorem cons_cdr_of_ne (h : Conses α) (a : α) (l : Option ℕ) (hc : c ≠ h.next) :
    (h.cons a l).cdr c = h.cdr c :=
  update_of_ne hc ..

theorem setCdr_self (h : Conses α) (c : ℕ) (l : Option ℕ) : (h.setCdr c l).cdr c = l :=
  update_self ..

theorem setCdr_of_ne (h : Conses α) {c x : ℕ} (hx : x ≠ c) (l : Option ℕ) :
    (h.setCdr c l).cdr x = h.cdr x :=
  update_of_ne hx ..

section

variable (hproper : h.Proper) (hl : h.Valid l)
include hproper hl

theorem Proper.cons : (h.cons a l).Proper := by
  intro c c' hc'
  by_cases heq : c = h.next
  · subst heq
    rw [cons_cdr_self] at hc'
    exact hl c' hc'
  · rw [cons_cdr_of_ne h a l heq] at hc'
    exact hproper c c' hc'

theorem Proper.items_cons_of_valid (hm : h.Valid m) : (h.cons a l).items m = h.items m := by
  apply hproper.items_congr (hproper.cons hl) (Nat.le_succ _) _ _ hm hm
  · intro c hc
    exact update_of_ne hc.ne _ _
  · intro c hc _
    exact cons_cdr_of_ne h a l hc.ne

theorem Proper.items_cons : (h.cons a l).items (some h.next) = a :: h.items l := by
  rw [(hproper.cons hl).items_some (Nat.lt_succ_self h.next)]
  have hcar : (h.cons a l).car h.next = a := update_self ..
  rw [hcar, cons_cdr_self, hproper.items_cons_of_valid hl hl]

theorem Proper.shrinks_cons : Shrinks h (h.cons a l) where
  next_le := Nat.le_succ _
  proper := hproper.cons hl
  car_eq c hc := update_of_ne hc.ne _ _
  sublist hm := by
    rw [hproper.items_cons_of_valid hl hm]

end

section Delete

variable [DecidableEq α]

/-- The destructive deletion of an item from the first conses of a list. -/
def deleteFrom (a : α) : ℕ → Conses α → Option ℕ → Conses α × Option ℕ
  | _, h, none => (h, none)
  | 0, h, some c => (h, some c)
  | fuel + 1, h, some c =>
    let (h', rest) := deleteFrom a fuel h (h.cdr c)
    if h.car c = a then (h', rest) else (h'.setCdr c rest, some c)

/-- `delete` returns the list, whose conses are used again. -/
def delete (h : Conses α) (a : α) (l : Option ℕ) : Conses α × Option ℕ :=
  deleteFrom a h.next h l

/-- A list that begins after some conses of the item. -/
inductive Skips (h : Conses α) (a : α) : Option ℕ → Option ℕ → Prop
  | refl (l : Option ℕ) : Skips h a l l
  | skip {c : ℕ} {l : Option ℕ} (hcar : h.car c = a) (hl : Skips h a (h.cdr c) l) :
    Skips h a (some c) l

omit [DecidableEq α] in
theorem Skips.lt (hskips : Skips h a l m) (hproper : h.Proper) {bound : ℕ}
    (hl : ∀ c, l = some c → c < bound) : ∀ c, m = some c → c < bound := by
  induction hskips with
  | refl _ => exact hl
  | skip hcar hl' ih =>
    apply ih
    intro c' hc'
    exact (hproper _ c' hc').trans (hl _ rfl)

theorem Skips.items (hskips : Skips h a l m) (hproper : h.Proper) (hl : h.Valid l) :
    (h.items m).Sublist (h.items l) ∧
      (h.items m).filter (· ≠ a) = (h.items l).filter (· ≠ a) := by
  induction hskips with
  | refl _ => exact ⟨List.Sublist.refl _, rfl⟩
  | @skip c m hcar hl' ih =>
    have hc := valid_some.mp hl
    obtain ⟨hsub, hfilter⟩ := ih (hproper.valid_cdr hc)
    rw [hproper.items_some hc, hcar]
    refine ⟨hsub.cons a, ?_⟩
    rw [hfilter, List.filter_cons_of_neg (by simp)]

/-- The conses after a deletion, up to the first one of the list. -/
structure Deletes (h h' : Conses α) (a : α) (l l' : Option ℕ) : Prop where
  next_eq : h'.next = h.next
  car_eq : h'.car = h.car
  skips : ∀ c, Skips h a (h.cdr c) (h'.cdr c)
  newer : ∀ c, (∀ c', l = some c' → c' < c) → h'.cdr c = h.cdr c
  result : Skips h a l l'
  items : h'.items l' = (h.items l).filter (· ≠ a)

omit [DecidableEq α] in
theorem proper_of_skips (hproper : h.Proper) (hskips : ∀ c, Skips h a (h.cdr c) (h'.cdr c)) :
    h'.Proper :=
  fun c => (hskips c).lt hproper (hproper c)

theorem deleteFrom_spec (hproper : h.Proper) (hl : h.Valid l) :
    ∀ fuel, (∀ c, l = some c → c < fuel) →
      Deletes h (deleteFrom a fuel h l).1 a l (deleteFrom a fuel h l).2 := by
  refine hproper.list_induction (p := fun l => ∀ fuel, (∀ c, l = some c → c < fuel) →
    Deletes h (deleteFrom a fuel h l).1 a l (deleteFrom a fuel h l).2) ?_ ?_ hl
  · intro fuel _
    rw [deleteFrom]
    exact ⟨rfl, rfl, fun c => .refl _, fun _ _ => rfl, .refl _, by simp⟩
  · intro c hc ih fuel hfuel
    obtain ⟨fuel, rfl⟩ : ∃ n, fuel = n + 1 :=
      Nat.exists_eq_succ_of_ne_zero (Nat.ne_zero_of_lt (hfuel c rfl))
    have htail : ∀ c', h.cdr c = some c' → c' < fuel := by
      intro c' hc'
      exact (hproper c c' hc').trans_le (Nat.le_of_lt_succ (hfuel c rfl))
    have hrest := ih fuel htail
    rw [deleteFrom]
    set h' := (deleteFrom a fuel h (h.cdr c)).1
    set rest := (deleteFrom a fuel h (h.cdr c)).2
    have hnewer : ∀ x, c ≤ x → h'.cdr x = h.cdr x := by
      intro x hx
      exact hrest.newer x fun c' hc' => (hproper c c' hc').trans_le hx
    by_cases hcar : h.car c = a
    · simp only [if_pos hcar]
      constructor
      · exact hrest.next_eq
      · exact hrest.car_eq
      · exact hrest.skips
      · intro x hx
        exact hnewer x (hx c rfl).le
      · exact .skip hcar hrest.result
      · rw [hrest.items, hproper.items_some hc, hcar, List.filter_cons_of_neg (by simp)]
    · simp only [if_neg hcar]
      have hrestlt : ∀ c', rest = some c' → c' < c := hrest.result.lt hproper (hproper c)
      have hskips : ∀ x, Skips h a (h.cdr x) ((h'.setCdr c rest).cdr x) := by
        intro x
        by_cases hx : x = c
        · subst hx
          rw [setCdr_self]
          exact hrest.result
        · rw [setCdr_of_ne h' hx]
          exact hrest.skips x
      have hproper' := proper_of_skips hproper hrest.skips
      have hproper'' := proper_of_skips hproper hskips
      constructor
      · exact hrest.next_eq
      · exact hrest.car_eq
      · exact hskips
      · intro x hx
        have hne : x ≠ c := (hx c rfl).ne'
        rw [setCdr_of_ne h' hne]
        exact hnewer x (hx c rfl).le
      · exact .refl _
      · have hsame : (h'.setCdr c rest).items rest = h'.items rest := by
          apply hproper'.items_congr hproper'' le_rfl (fun _ _ => rfl) _ _ hrestlt
          · intro x _ hx
            exact setCdr_of_ne h' hx.ne rest
          · intro c' hc'
            rw [hrest.next_eq]
            exact (hrestlt c' hc').trans hc
        have hlt : c < (h'.setCdr c rest).next := by
          rw [setCdr, hrest.next_eq]
          exact hc
        have hcarEq : (h'.setCdr c rest).car c = h.car c := congrFun hrest.car_eq c
        rw [hproper''.items_some hlt, setCdr_self, hsame, hcarEq, hrest.items, hproper.items_some hc,
          List.filter_cons_of_pos (by simpa using hcar)]

theorem Proper.delete (hproper : h.Proper) (hl : h.Valid l) :
    Deletes h (h.delete a l).1 a l (h.delete a l).2 :=
  deleteFrom_spec hproper hl h.next hl

theorem Deletes.items_other {l' : Option ℕ} (hd : Deletes h h' a l l') (hproper : h.Proper)
    (hm : h.Valid m) : (h'.items m).Sublist (h.items m) ∧
      (h'.items m).filter (· ≠ a) = (h.items m).filter (· ≠ a) := by
  have hproper' := proper_of_skips hproper hd.skips
  have hlt : ∀ n, ∀ m, (∀ c, m = some c → c < n) → h.Valid m →
      (h'.items m).Sublist (h.items m) ∧
        (h'.items m).filter (· ≠ a) = (h.items m).filter (· ≠ a) := by
    intro n
    induction n with
    | zero =>
      intro m hn _
      cases m with
      | none => simp
      | some c => exact absurd (hn c rfl) (Nat.not_lt_zero c)
    | succ n ih =>
      intro m hn hm
      cases m with
      | none => simp
      | some c =>
        have hc := valid_some.mp hm
        have hskips := hd.skips c
        have hcdrlt : ∀ c', h'.cdr c = some c' → c' < n := by
          intro c' hc'
          exact (hproper' c c' hc').trans_le (Nat.le_of_lt_succ (hn c rfl))
        have hvalid : h.Valid (h'.cdr c) := by
          intro c' hc'
          exact (hproper' c c' hc').trans hc
        obtain ⟨hsub, hfilter⟩ := ih _ hcdrlt hvalid
        obtain ⟨hsub', hfilter'⟩ := hskips.items hproper (hproper.valid_cdr hc)
        have hcar : h'.car c = h.car c := congrFun hd.car_eq c
        have hnext : c < h'.next := by rw [hd.next_eq]; exact hc
        rw [hproper'.items_some hnext, hproper.items_some hc, hcar]
        refine ⟨(hsub.trans hsub').cons_cons _, ?_⟩
        rw [List.filter_cons, List.filter_cons, hfilter, hfilter']
  exact hlt h.next m hm hm

theorem Deletes.shrinks {l' : Option ℕ} (hd : Deletes h h' a l l') (hproper : h.Proper) :
    Shrinks h h' where
  next_le := hd.next_eq.ge
  proper := proper_of_skips hproper hd.skips
  car_eq c _ := congrFun hd.car_eq c
  sublist hm := (hd.items_other hproper hm).1

end Delete

end Incudine.Conses

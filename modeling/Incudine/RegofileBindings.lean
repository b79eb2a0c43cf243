import Mathlib.Data.List.Basic

/-!
# The bindings of an included score

The arguments of the inclusion of a score are values for its first local bindings, followed by new
bindings with a name. The loop over the arguments walks also the local bindings of the score.
-/

namespace Incudine

/-- The forms of Lisp. -/
inductive Sexp (σ : Type)
  | nil
  | atom (a : σ)
  | cons (car cdr : Sexp σ)
  deriving DecidableEq

namespace Sexp

variable {σ : Type}

def car : Sexp σ → Sexp σ
  | cons x _ => x
  | _ => nil

def cdr : Sexp σ → Sexp σ
  | cons _ x => x
  | _ => nil

def list (x y : Sexp σ) : Sexp σ := cons x (cons y nil)

def isAtom : Sexp σ → Bool
  | cons _ _ => false
  | _ => true

def isProper : Sexp σ → Bool
  | cons _ (atom _) => false
  | cons _ x => isProper x
  | _ => true

end Sexp

open Sexp

section Bindings

variable {σ : Type} [DecidableEq σ]

/-- The test of `included-regofile-bindings` for a value without a name. -/
def positional (quote : σ) (x : Sexp σ) : Bool :=
  x.isAtom || x.cdr.cdr ≠ nil || x.car = atom quote

/-- The loop over the arguments and the local bindings. -/
def includeArgs (quote : σ) : List (Sexp σ) → List (Sexp σ) → List (Sexp σ)
  | [], _ => []
  | _ :: _, [] => []
  | x :: xs, y :: ys =>
    if positional quote x then
      list y.car x :: ((if ys.isEmpty then xs else []) ++ includeArgs quote xs ys)
    else x :: xs

def assoc (name : Sexp σ) (args : List (Sexp σ)) : Option (Sexp σ) :=
  args.find? fun x => x.car = name

def includedRegofileBindings (quote : σ) (bindings args : List (Sexp σ)) : List (Sexp σ) :=
  let args := includeArgs quote args bindings
  (args.filter fun x => (assoc x.car bindings).isNone) ++
    bindings.map fun x => (assoc x.car args).getD x

/-- The bindings of the file with a value, a pair, or the default. -/
def documentedBindings (pairs : List (Sexp σ)) : List (Sexp σ) → List (Sexp σ) → List (Sexp σ)
  | [], _ => []
  | b :: bs, v :: vs => list b.car v :: documentedBindings pairs bs vs
  | b :: bs, [] => (assoc b.car pairs).getD b :: documentedBindings pairs bs []

/-- No binding that receives a value shares its name with another one. -/
def Unshared (bindings values : List (Sexp σ)) : Prop :=
  ∀ i j b c, i < values.length → i ≠ j → bindings[i]? = some b → bindings[j]? = some c →
    b.car ≠ c.car

def valuePairs (bindings values : List (Sexp σ)) : List (Sexp σ) :=
  List.zipWith (fun b v => list b.car v) bindings values

/-- The bindings that are used are the documented ones, and the name of each argument is bound by
an argument. -/
structure BindAsDocumented (quote : σ) (bindings values pairs : List (Sexp σ)) : Prop where
  eq : includedRegofileBindings quote bindings (values ++ pairs) =
    (pairs.filter fun x => (assoc x.car bindings).isNone) ++
      documentedBindings pairs bindings values
  kept : ∀ x ∈ valuePairs bindings values ++ pairs,
    ∃ y ∈ includedRegofileBindings quote bindings (values ++ pairs),
      y.car = x.car ∧ y ∈ valuePairs bindings values ++ pairs

/-- A pair `(name value)`. The form `(quote value)` is a value. -/
def IsPair (quote : σ) (x : Sexp σ) : Prop :=
  ∃ name value, name ≠ quote ∧ x = list (atom name) value

/-- A value without a name: an atom, a quoted form, or a form that is not a list of two elements. -/
def IsValue (quote : σ) (x : Sexp σ) : Prop :=
  x.isProper = true ∧ (x.isAtom = true ∨ x.car = atom quote ∨ ¬ ∃ y z, x = list y z)

variable {quote : σ} {bindings values pairs : List (Sexp σ)} {x : Sexp σ}

theorem not_positional_of_isPair (h : IsPair quote x) : positional quote x = false := by
  obtain ⟨name, value, hname, rfl⟩ := h
  simp [positional, list, Sexp.isAtom, Sexp.car, Sexp.cdr, hname]

theorem positional_iff (h : IsValue quote x) :
    positional quote x = true ↔ ¬ (x.car ≠ atom quote ∧ ∃ y, x = cons y nil) := by
  obtain ⟨hproper, h⟩ := h
  cases x with
  | nil | atom a =>
    refine ⟨fun _ => ?_, fun _ => rfl⟩
    rintro ⟨-, y, hy⟩
    exact nomatch hy
  | cons y d =>
    cases d with
    | nil =>
      have hpositional : positional quote (cons y nil) = decide (y = atom quote) := rfl
      rw [hpositional, decide_eq_true_iff]
      simp [Sexp.car]
    | atom a => exact nomatch hproper
    | cons z d =>
      cases d with
      | nil =>
        rcases h with h | h | h
        · exact nomatch h
        · simp [positional, h]
        · exact absurd ⟨y, z, rfl⟩ h
      | _ => simp [positional, Sexp.isAtom, Sexp.cdr]

theorem includeArgs_eq (hvalues : ∀ v ∈ values, positional quote v = true)
    (hpairs : ∀ p ∈ pairs, positional quote p = false) (hlength : values.length ≤ bindings.length)
    (hbindings : bindings ≠ [] ∨ pairs = []) :
    includeArgs quote (values ++ pairs) bindings = valuePairs bindings values ++ pairs := by
  induction values generalizing bindings with
  | nil =>
    have hnil : valuePairs bindings [] = [] := List.zipWith_nil_right
    rw [hnil, List.nil_append]
    cases pairs with
    | nil => rfl
    | cons p pairs =>
      cases bindings with
      | nil => simp at hbindings
      | cons b bindings =>
        have hp := hpairs p List.mem_cons_self
        rw [includeArgs, if_neg (by rw [hp]; exact Bool.false_ne_true)]
  | cons v values ih =>
    cases bindings with
    | nil => exact absurd hlength (Nat.not_succ_le_zero _)
    | cons b bindings =>
      have hv := hvalues v List.mem_cons_self
      have hvalues' := fun w hw => hvalues w (List.mem_cons_of_mem v hw)
      have hlength' : values.length ≤ bindings.length := Nat.le_of_succ_le_succ hlength
      rw [List.cons_append, includeArgs, if_pos hv, valuePairs, List.zipWith_cons_cons,
        List.cons_append]
      congr 1
      cases bindings with
      | nil =>
        have hempty : values = [] := List.length_eq_zero_iff.mp (Nat.le_zero.mp hlength')
        rw [hempty]
        cases pairs <;> simp [includeArgs]
      | cons c bindings =>
        exact ih hvalues' hlength' (Or.inl (List.cons_ne_nil c bindings))

omit [DecidableEq σ] in
theorem car_valuePairs (h : x ∈ valuePairs bindings values) : ∃ b ∈ bindings, x.car = b.car := by
  induction bindings generalizing values with
  | nil => exact nomatch h
  | cons b bindings ih =>
    cases values with
    | nil => exact nomatch h
    | cons v values =>
      rw [valuePairs, List.zipWith_cons_cons, List.mem_cons] at h
      rcases h with rfl | h
      · exact ⟨b, List.mem_cons_self, rfl⟩
      · obtain ⟨c, hc, heq⟩ := ih h
        exact ⟨c, List.mem_cons_of_mem b hc, heq⟩

omit [DecidableEq σ] in
theorem Unshared.of_cons {b v : Sexp σ} (h : Unshared (b :: bindings) (v :: values)) :
    (∀ c ∈ bindings, c.car ≠ b.car) ∧ Unshared bindings values := by
  constructor
  · intro c hc
    obtain ⟨j, hj⟩ := List.getElem?_of_mem hc
    exact (h 0 (j + 1) b c (Nat.zero_lt_succ _) (Nat.succ_ne_zero j).symm rfl hj).symm
  · intro i j c d hi hij hc hd
    exact h (i + 1) (j + 1) c d (Nat.succ_lt_succ hi) (fun heq => hij (Nat.succ.inj heq)) hc hd

theorem map_assoc_eq (hunshared : Unshared bindings values) {before : List (Sexp σ)}
    (hbefore : ∀ b ∈ bindings, ∀ x ∈ before, x.car ≠ b.car) :
    (bindings.map fun b => (assoc b.car (before ++ (valuePairs bindings values ++ pairs))).getD b) =
      documentedBindings pairs bindings values := by
  have hskip {name : Sexp σ} (rest : List (Sexp σ)) {before : List (Sexp σ)}
      (h : ∀ x ∈ before, x.car ≠ name) : assoc name (before ++ rest) = assoc name rest := by
    have hnone : before.find? (fun x => x.car = name) = none :=
      List.find?_eq_none.mpr fun x hx heq => h x hx (of_decide_eq_true heq)
    rw [assoc, List.find?_append, hnone]
    rfl
  induction bindings generalizing values before with
  | nil => rfl
  | cons b bindings ih =>
    have hb := hbefore b List.mem_cons_self
    have hrest := fun c hc => hbefore c (List.mem_cons_of_mem b hc)
    cases values with
    | nil =>
      have hnil (bs : List (Sexp σ)) : valuePairs bs [] = [] := List.zipWith_nil_right
      have htail := @ih [] (fun _ _ _ _ hi => nomatch hi) before hrest
      rw [hnil, List.nil_append] at htail ⊢
      rw [List.map_cons, documentedBindings, hskip pairs hb, htail]
    | cons v values =>
      obtain ⟨hne, hunshared'⟩ := hunshared.of_cons
      have hcons : valuePairs (b :: bindings) (v :: values) =
        list b.car v :: valuePairs bindings values := rfl
      have hfound : assoc b.car (list b.car v :: (valuePairs bindings values ++ pairs)) =
          some (list b.car v) := by
        rw [assoc, List.find?_cons, show (list b.car v).car = b.car from rfl,
          decide_eq_true (rfl : b.car = b.car)]
      have htail := @ih values hunshared' (before ++ [list b.car v]) (fun c hc x hx => by
        rcases List.mem_append.mp hx with hx | hx
        · exact hrest c hc x hx
        · rw [List.mem_singleton.mp hx]
          exact (hne c hc).symm)
      rw [List.append_assoc, List.singleton_append] at htail
      rw [hcons, List.cons_append, List.map_cons, documentedBindings, hskip _ hb, hfound, htail]
      rfl

theorem assoc_isNone_iff {name : Sexp σ} : (assoc name bindings).isNone = true ↔
    ∀ b ∈ bindings, b.car ≠ name := by
  rw [Option.isNone_iff_eq_none, assoc, List.find?_eq_none]
  simp

theorem bindAsDocumented (hunshared : Unshared bindings values)
    (hvalues : ∀ v ∈ values, positional quote v = true) (hpairs : ∀ p ∈ pairs, IsPair quote p)
    (hlength : values.length ≤ bindings.length) (hbindings : bindings ≠ [] ∨ pairs = []) :
    BindAsDocumented quote bindings values pairs := by
  have hargs := includeArgs_eq hvalues (fun p hp => not_positional_of_isPair (hpairs p hp)) hlength
    hbindings
  have hmap := @map_assoc_eq σ _ bindings values pairs hunshared [] (fun _ _ x hx => nomatch hx)
  rw [List.nil_append] at hmap
  have hfilter : ((valuePairs bindings values ++ pairs).filter fun x =>
      (assoc x.car bindings).isNone) = pairs.filter fun x => (assoc x.car bindings).isNone := by
    rw [List.filter_append, List.filter_eq_nil_iff.mpr, List.nil_append]
    intro x hx hnone
    obtain ⟨b, hb, heq⟩ := car_valuePairs hx
    exact assoc_isNone_iff.mp hnone b hb heq.symm
  have heq : includedRegofileBindings quote bindings (values ++ pairs) =
      (pairs.filter fun x => (assoc x.car bindings).isNone) ++
        documentedBindings pairs bindings values := by
    rw [includedRegofileBindings]
    simp only [hargs]
    rw [hfilter, hmap]
  refine ⟨heq, fun x hx => ?_⟩
  rw [heq, ← hfilter, ← hmap]
  by_cases hnone : (assoc x.car bindings).isNone = true
  · exact ⟨x, List.mem_append_left _ (List.mem_filter.mpr ⟨hx, hnone⟩), rfl, hx⟩
  · rw [assoc_isNone_iff] at hnone
    push Not at hnone
    obtain ⟨b, hb, hcar⟩ := hnone
    obtain ⟨y, hy⟩ : ∃ y, assoc b.car (valuePairs bindings values ++ pairs) = some y := by
      rw [← Option.isSome_iff_exists, assoc, List.find?_isSome]
      exact ⟨x, hx, decide_eq_true hcar.symm⟩
    rw [assoc] at hy
    have hyname : y.car = b.car := by simpa using List.find?_some hy
    refine ⟨y, List.mem_append_right _ (List.mem_map.mpr ⟨b, hb, by rw [assoc, hy]; rfl⟩),
      hyname.trans hcar, List.mem_of_find?_eq_some hy⟩

theorem includedRegofileBindings_nil (args : List (Sexp σ)) :
    includedRegofileBindings quote [] args = [] := by
  cases args <;> rfl

/-- The arguments of an included score: the condition is enough, and a file without bindings
binds no argument as documented. -/
theorem bindAsDocumented_of (hvalues : ∀ v ∈ values, IsValue quote v)
    (hpairs : ∀ p ∈ pairs, IsPair quote p) (hlength : values.length ≤ bindings.length) :
    (Unshared bindings values →
      (∀ v ∈ values, ¬ (v.car ≠ atom quote ∧ ∃ y, v = cons y nil)) →
      (bindings ≠ [] ∨ pairs = []) → BindAsDocumented quote bindings values pairs) ∧
    (BindAsDocumented quote bindings values pairs → bindings ≠ [] ∨ pairs = []) := by
  constructor
  · intro hunshared hone hbindings
    exact bindAsDocumented hunshared (fun v hv => (positional_iff (hvalues v hv)).mpr (hone v hv))
      hpairs hlength hbindings
  · intro h
    by_contra hnot
    rw [not_or, not_not] at hnot
    obtain ⟨x, hx⟩ := List.exists_mem_of_ne_nil pairs hnot.2
    obtain ⟨y, hy, -⟩ := h.kept x (List.mem_append_right _ hx)
    rw [hnot.1, includedRegofileBindings_nil] at hy
    exact nomatch hy

end Bindings

/-- A file without bindings drops the argument `(result 1)`. -/
theorem not_bindAsDocumented : ¬ ∀ (bindings values pairs : List (Sexp ℕ)),
    (∀ v ∈ values, IsValue 0 v) → (∀ p ∈ pairs, IsPair 0 p) → values.length ≤ bindings.length →
    BindAsDocumented 0 bindings values pairs := by
  intro h
  have hpair : IsPair 0 (list (atom 1) (atom 10) : Sexp ℕ) := ⟨1, atom 10, by decide, rfl⟩
  have heq := (h [] [] [list (atom 1) (atom 10)] (fun _ hv => nomatch hv)
    (fun p hp => List.mem_singleton.mp hp ▸ hpair) (Nat.le_refl 0)).eq
  revert heq
  decide

/-- A value, a pair for the last two bindings of the file and a new binding. -/
theorem bindAsDocumented_pairs : BindAsDocumented 0
    [list (atom 1) (atom 10), list (atom 3) (atom 20), list (atom 3) (atom 30)]
    [(atom 11 : Sexp ℕ)] [list (atom 4) (atom 40), list (atom 3) (atom 33)] := by
  refine (bindAsDocumented_of ?_ ?_ (by decide)).1 ?_ ?_ (Or.inl (by decide))
  · intro v hv
    rw [List.mem_singleton.mp hv]
    exact ⟨rfl, Or.inl rfl⟩
  · intro p hp
    rcases List.mem_pair.mp hp with rfl | rfl
    · exact ⟨4, atom 40, by decide, rfl⟩
    · exact ⟨3, atom 33, by decide, rfl⟩
  · intro i j b c hi hij hb hc
    obtain rfl : i = 0 := Nat.lt_one_iff.mp hi
    obtain rfl := Option.some.inj hb
    obtain rfl | rfl : c = list (atom 3) (atom 20) ∨ c = list (atom 3) (atom 30) := by
      match j with
      | 0 => exact absurd rfl hij
      | 1 => exact .inl (Option.some.inj hc).symm
      | 2 => exact .inr (Option.some.inj hc).symm
      | j + 3 => exact nomatch hc
    all_goals decide
  · intro v hv
    rw [List.mem_singleton.mp hv]
    rintro ⟨-, y, hy⟩
    exact nomatch hy

end Incudine

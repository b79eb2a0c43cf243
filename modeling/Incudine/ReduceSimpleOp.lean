import Mathlib.Algebra.BigOperators.Ring.List
import Mathlib.Tactic.FieldSimp
import Mathlib.Tactic.Linarith
import Mathlib.Tactic.Ring

/-!
# Reduction of the simple operations

The values of the variables of a VUG are trees of functions. `reduce-simple-op` folds the adjacent
numbers in the arguments of `+`, `-`, `*` and `/`, and removes the neutral ones.
-/

namespace Incudine.Vug

inductive Op
  | plus
  | minus
  | times
  | divide
  deriving DecidableEq

/-- A number, a variable or a function with one argument at least. -/
inductive Expr (V : Type)
  | number (q : ℚ)
  | var (v : V)
  | function (op : Op) (first : Expr V) (rest : List (Expr V))

/-- The function of the language. The division by zero is an error. -/
def Op.apply : Op → List ℚ → Option ℚ
  | .plus, qs => some qs.sum
  | .times, qs => some qs.prod
  | .minus, [] => none
  | .minus, [q] => some (-q)
  | .minus, q :: qs => some (q - qs.sum)
  | .divide, [] => none
  | .divide, [q] => if q = 0 then none else some q⁻¹
  | .divide, q :: qs => if 0 ∈ qs then none else some (q / qs.prod)

section Eval

variable {V : Type} (ρ : V → ℚ)

mutual

/-- The value of an expression, if it divides by no zero. -/
def eval : Expr V → Option ℚ
  | .number q => some q
  | .var v => some (ρ v)
  | .function op first rest => do
    let q ← eval first
    let qs ← evalAll rest
    op.apply (q :: qs)

def evalAll : List (Expr V) → Option (List ℚ)
  | [] => some []
  | e :: es => do
    let q ← eval e
    let qs ← evalAll es
    some (q :: qs)

end

end Eval

section Reduce

variable {V : Type}

def Expr.numberp : Expr V → Bool
  | .number _ => true
  | _ => false

def Expr.isNumber (q : ℚ) : Expr V → Bool
  | .number p => p = q
  | _ => false

/-- The value returned by `reduce-simple-op`: an atom or the new arguments. -/
inductive Reduced (V : Type)
  | atom (e : Expr V)
  | args (es : List (Expr V))

variable (op : Op)

def applyOp (acc : List (Expr V)) (stack : List ℚ) : Option (List (Expr V)) :=
  match stack with
  | [] => some acc
  | q :: rest =>
    if (op = .minus ∨ op = .divide) ∧ rest = [] then some (.number q :: acc)
    else
      let op := if acc ≠ [] ∧ op = .minus then .plus else op
      do
        let q ← op.apply (q :: rest).reverse
        some (.number q :: acc)

/-- The loop over the arguments. The test is `numberp` or its complement. -/
def reduceLoop (acc : List (Expr V)) (stack : List ℚ) (numberTest : Bool) :
    List (Expr V) → Option (List (Expr V))
  | [] => do
    let acc ← applyOp op acc stack
    some acc.reverse
  | .number q :: args => reduceLoop acc (q :: stack) true args
  | x :: args =>
    if numberTest then do
      let acc ← applyOp op acc stack
      reduceLoop (x :: acc) [] false args
    else reduceLoop (x :: acc) stack false args

def removeNeutral (args : List (Expr V)) (neutral : ℚ) : List (Expr V) :=
  args.filter fun x => !x.isNumber neutral

/-- An atom is returned if there is only one argument. -/
def Reduced.ofArgs : List (Expr V) → Reduced V
  | [x] => .atom x
  | es => .args es

/-- The result for the elements of the accumulator. -/
def reduceAcc (acc : List (Expr V)) : Reduced V :=
  match acc with
  | [] => .args []
  | [x] => if op = .minus ∧ !x.numberp then .args [x] else .atom x
  | x :: _ =>
    match op with
    | .plus => .ofArgs (removeNeutral acc 0)
    | .minus =>
      match removeNeutral acc 0 with
      | [y] => if x.numberp then .args [y] else .atom y
      | res => .args res
    | .times =>
      match acc.find? (Expr.isNumber 0) with
      | some zero => .atom zero
      | none => .ofArgs (removeNeutral acc 1)
    | .divide => if x.isNumber 0 then .atom x else .args acc

def reduceSimpleOp (args : List (Expr V)) : Option (Reduced V) :=
  match args with
  | [] => some (.args [])
  | [first] =>
    match first with
    | .number q => do
      let q ← op.apply [q]
      some (.atom (.number q))
    | first =>
      match op with
      | .plus | .times => some (.atom first)
      | .minus | .divide => some (.args [first])
  | first :: rest => do
    let args := if op = .divide then first :: removeNeutral rest 1 else first :: rest
    let acc ← reduceLoop op [] [] true args
    some (reduceAcc op acc)

end Reduce

section Values

variable {V : Type} {ρ : V → ℚ} {e : Expr V} {es es' : List (Expr V)} {q : ℚ} {qs qs' : List ℚ}

@[simp] theorem eval_number : eval ρ (.number q) = some q := by rw [eval]

@[simp] theorem evalAll_nil : evalAll ρ ([] : List (Expr V)) = some [] := by rw [evalAll]

theorem eval_function (op : Op) :
    eval ρ (.function op e es) = (evalAll ρ (e :: es)).bind op.apply := by
  rw [eval, evalAll]
  cases eval ρ e with
  | none => rfl
  | some q => cases evalAll ρ es <;> rfl

theorem evalAll_cons : evalAll ρ (e :: es) = some qs ↔
    ∃ p ps, eval ρ e = some p ∧ evalAll ρ es = some ps ∧ qs = p :: ps := by
  rw [evalAll]
  constructor
  · intro h
    obtain ⟨p, hp, h⟩ := Option.bind_eq_some_iff.mp h
    obtain ⟨ps, hps, h⟩ := Option.bind_eq_some_iff.mp h
    exact ⟨p, ps, hp, hps, (Option.some.inj h).symm⟩
  · rintro ⟨p, ps, hp, hps, rfl⟩
    rw [hp, hps]
    rfl

theorem evalAll_cons_some (he : eval ρ e = some q) (hes : evalAll ρ es = some qs) :
    evalAll ρ (e :: es) = some (q :: qs) :=
  evalAll_cons.mpr ⟨q, qs, he, hes, rfl⟩

theorem evalAll_append (h : evalAll ρ es = some qs) (h' : evalAll ρ es' = some qs') :
    evalAll ρ (es ++ es') = some (qs ++ qs') := by
  induction es generalizing qs with
  | nil =>
    rw [evalAll_nil] at h
    obtain rfl := Option.some.inj h
    exact h'
  | cons e es ih =>
    obtain ⟨p, ps, hp, hps, rfl⟩ := evalAll_cons.mp h
    exact evalAll_cons_some hp (ih hps)

theorem evalAll_append_iff {ps : List ℚ} : evalAll ρ (es ++ es') = some ps ↔
    ∃ qs qs', evalAll ρ es = some qs ∧ evalAll ρ es' = some qs' ∧ ps = qs ++ qs' := by
  constructor
  · intro h
    induction es generalizing ps with
    | nil => exact ⟨[], ps, evalAll_nil, h, rfl⟩
    | cons e es ih =>
      obtain ⟨p, rest, hp, hrest, rfl⟩ := evalAll_cons.mp h
      obtain ⟨qs, qs', hqs, hqs', rfl⟩ := ih hrest
      exact ⟨p :: qs, qs', evalAll_cons_some hp hqs, hqs', rfl⟩
  · rintro ⟨qs, qs', hqs, hqs', rfl⟩
    exact evalAll_append hqs hqs'

theorem evalAll_numbers (qs : List ℚ) : evalAll ρ (qs.map .number) = some qs := by
  induction qs with
  | nil => exact evalAll_nil
  | cons q qs ih => exact evalAll_cons_some eval_number ih

theorem evalAll_length (h : evalAll ρ es = some qs) : qs.length = es.length := by
  induction es generalizing qs with
  | nil =>
    rw [evalAll_nil] at h
    obtain rfl := Option.some.inj h
    rfl
  | cons e es ih =>
    obtain ⟨p, ps, -, hps, rfl⟩ := evalAll_cons.mp h
    rw [List.length_cons, List.length_cons, ih hps]

theorem isNumber_iff : e.isNumber q = true ↔ e = .number q := by
  cases e <;> simp [Expr.isNumber]

theorem numberp_iff : e.numberp = true ↔ ∃ q, e = .number q := by
  cases e <;> simp [Expr.numberp]

theorem isNumber_of_numberp (h : e.numberp = false) (q : ℚ) : e.isNumber q = false := by
  cases e <;> simp_all [Expr.numberp, Expr.isNumber]

theorem evalAll_removeNeutral (n : ℚ) (h : evalAll ρ es = some qs) :
    ∃ ps, evalAll ρ (removeNeutral es n) = some ps ∧ (∀ p ∈ ps, p ∈ qs) ∧
      (n = 0 → ps.sum = qs.sum) ∧ (n = 1 → ps.prod = qs.prod) := by
  induction es generalizing qs with
  | nil => 
    rw [evalAll_nil] at h
    obtain rfl := Option.some.inj h
    exact ⟨[], evalAll_nil, fun _ h => h, fun _ => rfl, fun _ => rfl⟩
  | cons e es ih =>
    obtain ⟨p, qs, hp, hqs, rfl⟩ := evalAll_cons.mp h
    obtain ⟨ps, hps, hmem, hsum, hprod⟩ := ih hqs
    by_cases he : e.isNumber n
    · obtain rfl := isNumber_iff.mp he
      rw [eval_number] at hp
      obtain rfl := Option.some.inj hp
      refine ⟨ps, ?_, fun p hp => List.mem_cons_of_mem _ (hmem p hp), ?_, ?_⟩
      · rw [removeNeutral, List.filter_cons_of_neg (by simp [he])]
        exact hps
      · intro hn
        rw [List.sum_cons, hn, zero_add, hsum hn]
      · intro hn
        rw [List.prod_cons, hn, one_mul, hprod hn]
    · refine ⟨p :: ps, ?_, ?_, ?_, ?_⟩
      · rw [removeNeutral, List.filter_cons_of_pos (by simp [he])]
        exact evalAll_cons_some hp hps
      · intro p' hp'
        rcases List.mem_cons.mp hp' with rfl | hp'
        · exact List.mem_cons_self
        · exact List.mem_cons_of_mem _ (hmem p' hp')
      · intro hn
        rw [List.sum_cons, List.sum_cons, hsum hn]
      · intro hn
        rw [List.prod_cons, List.prod_cons, hprod hn]

end Values

def firstNumber : Op → List ℚ → ℚ
  | .plus, qs => qs.sum
  | .times, qs => qs.prod
  | .minus, [] => 0
  | .minus, q :: qs => q - qs.sum
  | .divide, [] => 1
  | .divide, q :: qs => q / qs.prod

def laterNumber (op : Op) (qs : List ℚ) : ℚ :=
  if op = .minus then qs.sum else firstNumber op qs

section Runs

variable {V : Type} (op : Op)

/-- The element of the accumulator for the stack after the first run. -/
def laterRun (stack : List ℚ) : List (Expr V) :=
  if stack = [] then [] else [.number (laterNumber op stack.reverse)]

/-- The arguments after the first run, with a number for each run. -/
def laterArgs (stack : List ℚ) : List (Expr V) → List (Expr V)
  | [] => laterRun op stack
  | .number q :: args => laterArgs (q :: stack) args
  | x :: args => laterRun op stack ++ x :: laterArgs [] args

/-- The product of the numbers that follow another number. -/
def excess : Bool → List (Expr V) → ℚ
  | _, [] => 1
  | run, .number q :: args => (if run then q else 1) * excess true args
  | _, _ :: args => excess false args

variable {op} {acc args : List (Expr V)} {stack : List ℚ} {x : Expr V}

theorem laterArgs_cons (hx : x.numberp = false) :
    laterArgs op stack (x :: args) = laterRun op stack ++ x :: laterArgs op [] args := by
  cases x with
  | number q => cases hx
  | var v => rw [laterArgs]; exact fun _ h => nomatch h
  | function f first rest => rw [laterArgs]; exact fun _ h => nomatch h

theorem reduceLoop_cons (hx : x.numberp = false) (test : Bool) :
    reduceLoop op acc stack test (x :: args) =
      if test then (applyOp op acc stack).bind fun acc => reduceLoop op (x :: acc) [] false args
      else reduceLoop op (x :: acc) stack false args := by
  cases x with
  | number q => cases hx
  | var v => rw [reduceLoop]; rfl; exact fun _ h => nomatch h
  | function f first rest => rw [reduceLoop]; rfl; exact fun _ h => nomatch h

theorem excess_cons (hx : x.numberp = false) (run : Bool) :
    excess run (x :: args) = excess false args := by
  cases x with
  | number q => cases hx
  | var v => rw [excess]; exact fun _ h => nomatch h
  | function f first rest => rw [excess]; exact fun _ h => nomatch h

theorem apply_divide {q : ℚ} {qs : List ℚ} (h : 0 ∉ qs) (hne : qs ≠ []) :
    Op.divide.apply (q :: qs) = some (q / qs.prod) := by
  cases qs with
  | nil => exact absurd rfl hne
  | cons p ps => rw [Op.apply, if_neg h]; exact fun h => absurd h (List.cons_ne_nil _ _)

theorem apply_minus {q : ℚ} {qs : List ℚ} (hne : qs ≠ []) :
    Op.minus.apply (q :: qs) = some (q - qs.sum) := by
  cases qs with
  | nil => exact absurd rfl hne
  | cons p ps => rw [Op.apply]; exact fun h => absurd h (List.cons_ne_nil _ _)

theorem applyOp_later (hacc : acc ≠ []) (hzero : op = .divide → 0 ∉ stack) :
    applyOp op acc stack = some (laterRun op stack ++ acc) := by
  cases stack with
  | nil => rfl
  | cons q rest =>
    rw [applyOp, laterRun, if_neg (List.cons_ne_nil _ _)]
    by_cases hrest : rest = []
    · subst hrest
      cases op <;> simp [laterNumber, firstNumber, Op.apply]
    · rw [if_neg (fun h => hrest h.2)]
      obtain ⟨first, others, hreverse⟩ := List.exists_cons_of_ne_nil
        (List.reverse_ne_nil_iff.mpr (List.cons_ne_nil q rest))
      have hothers : others ≠ [] := by
        rintro rfl
        have hlength := congrArg List.length hreverse
        rw [List.length_reverse] at hlength
        exact hrest (List.length_eq_zero_iff.mp (Nat.succ.inj hlength))
      cases op with
      | plus | times => simp [laterNumber, firstNumber, Op.apply]
      | minus => simp [laterNumber, Op.apply, hacc]
      | divide =>
        have hnotin : 0 ∉ others := by
          intro hmem
          apply hzero rfl
          rw [← List.mem_reverse, hreverse]
          exact List.mem_cons_of_mem _ hmem
        simp only [reduceCtorEq, and_false, if_false, hreverse, apply_divide hnotin hothers,
          laterNumber, firstNumber]
        rfl

theorem reduceLoop_later (hacc : acc ≠ []) {test : Bool} (htest : test = false → stack = [])
    (hzero : op = .divide → 0 ∉ stack ∧ .number 0 ∉ args) :
    reduceLoop op acc stack test args = some (acc.reverse ++ laterArgs op stack args) := by
  induction args generalizing acc stack test with
  | nil =>
    rw [reduceLoop, applyOp_later hacc fun h => (hzero h).1, laterArgs]
    show some (laterRun op stack ++ acc).reverse = _
    rw [List.reverse_append]
    congr 2
    rw [laterRun]
    split_ifs <;> rfl
  | cons x args ih =>
    have hzero' : op = .divide → .number 0 ∉ args :=
      fun h hmem => (hzero h).2 (List.mem_cons_of_mem _ hmem)
    cases hx : x.numberp with
    | true =>
      obtain ⟨q, rfl⟩ := numberp_iff.mp hx
      rw [reduceLoop, laterArgs]
      apply @ih acc (q :: stack) hacc true (fun h => absurd h (by decide))
      intro h
      refine ⟨?_, hzero' h⟩
      intro hmem
      rcases List.mem_cons.mp hmem with rfl | hmem
      · exact (hzero h).2 List.mem_cons_self
      · exact (hzero h).1 hmem
    | false =>
      have hrest := fun acc => @ih (x :: acc) [] (List.cons_ne_nil _ _) false (fun _ => rfl)
        fun h => ⟨List.not_mem_nil, hzero' h⟩
      rw [reduceLoop_cons hx, laterArgs_cons hx]
      cases test with
      | true =>
        rw [if_pos rfl, applyOp_later hacc fun h => (hzero h).1, Option.bind_some, hrest,
          List.reverse_cons, List.reverse_append, List.append_assoc, List.append_assoc]
        congr 3
        rw [laterRun]
        split_ifs <;> rfl
      | false =>
        obtain rfl := htest rfl
        rw [if_neg Bool.false_ne_true, hrest, List.reverse_cons, List.append_assoc]
        rfl

end Runs

section FirstRun

variable {V : Type} {op : Op} {args : List (Expr V)} {x : Expr V} {lead : List ℚ}

theorem reduceLoop_numbers (stack : List ℚ) :
    reduceLoop op [] stack true (lead.map .number ++ args) =
      reduceLoop op [] (lead.reverse ++ stack) true args := by
  induction lead generalizing stack with
  | nil => rfl
  | cons q lead ih =>
    rw [List.map_cons, List.cons_append, reduceLoop, ih, List.reverse_cons, List.append_assoc]
    rfl

theorem applyOp_first {q : ℚ} {qs : List ℚ} (hzero : op = .divide → 0 ∉ qs) :
    applyOp op ([] : List (Expr V)) (q :: qs).reverse =
      some [.number (firstNumber op (q :: qs))] := by
  obtain ⟨last, others, hreverse⟩ := List.exists_cons_of_ne_nil
    (List.reverse_ne_nil_iff.mpr (List.cons_ne_nil q qs))
  have hback : (last :: others).reverse = q :: qs := by rw [← hreverse, List.reverse_reverse]
  rw [hreverse, applyOp]
  by_cases hqs : qs = []
  · subst hqs
    obtain ⟨rfl, rfl⟩ := List.cons.inj hreverse
    cases op <;> simp [firstNumber, Op.apply]
  · have hothers : others ≠ [] := by
      rintro rfl
      have hlength := congrArg List.length hback
      exact hqs (List.length_eq_zero_iff.mp (Nat.succ.inj hlength).symm)
    rw [if_neg (fun h => hothers h.2), hback]
    cases op with
    | plus | times => rfl
    | minus => simp [firstNumber, apply_minus hqs]
    | divide => simp [firstNumber, apply_divide (hzero rfl) hqs]

theorem reduceLoop_only_numbers {q : ℚ} {qs : List ℚ} (hzero : op = .divide → 0 ∉ qs) :
    reduceLoop op [] [] true ((q :: qs).map (Expr.number (V := V))) =
      some [.number (firstNumber op (q :: qs))] := by
  have hloop := @reduceLoop_numbers V op [] (q :: qs) []
  rw [List.append_nil, List.append_nil] at hloop
  rw [hloop, reduceLoop, applyOp_first hzero]
  rfl

def firstRun (op : Op) (lead : List ℚ) : List (Expr V) :=
  if lead = [] then [] else [.number (firstNumber op lead)]

theorem reduceLoop_eq (hx : x.numberp = false) (hlead : op = .divide → 0 ∉ lead.tail)
    (hzero : op = .divide → .number 0 ∉ args) :
    reduceLoop op [] [] true (lead.map .number ++ x :: args) =
      some (firstRun op lead ++ x :: laterArgs op [] args) := by
  have hlater := fun acc => @reduceLoop_later V op (x :: acc) args [] (List.cons_ne_nil _ _) false
    (fun _ => rfl) fun h => ⟨List.not_mem_nil, hzero h⟩
  rw [reduceLoop_numbers, List.append_nil, reduceLoop_cons hx, if_pos rfl, firstRun]
  cases lead with
  | nil =>
    rw [if_pos rfl, List.reverse_nil, applyOp, Option.bind_some, hlater]
    rfl
  | cons q qs =>
    rw [if_neg (List.cons_ne_nil _ _), @applyOp_first V op q qs hlead, Option.bind_some, hlater]
    rfl

theorem exists_lead (args : List (Expr V)) : ∃ (lead : List ℚ) (rest : List (Expr V)),
    args = lead.map .number ++ rest ∧ ∀ x t, rest = x :: t → x.numberp = false := by
  induction args with
  | nil => exact ⟨[], [], rfl, fun _ _ h => nomatch h⟩
  | cons x args ih =>
    cases hx : x.numberp with
    | true =>
      obtain ⟨q, rfl⟩ := numberp_iff.mp hx
      obtain ⟨lead, rest, rfl, hrest⟩ := ih
      exact ⟨q :: lead, rest, rfl, hrest⟩
    | false =>
      refine ⟨[], x :: args, rfl, ?_⟩
      intro y t h
      rw [← (List.cons.inj h).1]
      exact hx

end FirstRun

section LaterValues

variable {V : Type} {ρ : V → ℚ} {op : Op} {args : List (Expr V)} {stack qs : List ℚ}

theorem evalAll_laterRun : evalAll ρ (laterRun op stack) =
    some (if stack = [] then [] else [laterNumber op stack.reverse]) := by
  rw [laterRun]
  split_ifs
  · exact evalAll_nil
  · exact evalAll_cons_some eval_number evalAll_nil

theorem foldr_laterArgs {f : ℚ → ℚ → ℚ} {e : ℚ} [Std.Associative f] [Std.Commutative f]
    [Std.LawfulIdentity f e] (hrun : ∀ stack : List ℚ, (if stack = [] then [] else
      [laterNumber op stack.reverse]).foldr f e = stack.foldr f e) (h : evalAll ρ args = some qs) :
    ∃ ps, evalAll ρ (laterArgs op stack args) = some ps ∧
      ps.foldr f e = f (stack.foldr f e) (qs.foldr f e) := by
  have hleft : ∀ q, f e q = q := Std.LawfulLeftIdentity.left_id
  induction args generalizing stack qs with
  | nil =>
    rw [evalAll_nil] at h
    obtain rfl := Option.some.inj h
    rw [laterArgs]
    exact ⟨_, evalAll_laterRun, (hrun stack).trans (Std.LawfulRightIdentity.right_id _).symm⟩
  | cons x args ih =>
    obtain ⟨p, qs, hp, hqs, rfl⟩ := evalAll_cons.mp h
    cases hx : x.numberp with
    | true =>
      obtain ⟨q, rfl⟩ := numberp_iff.mp hx
      rw [eval_number] at hp
      obtain rfl := Option.some.inj hp
      rw [laterArgs]
      obtain ⟨ps, hps, hfold⟩ := @ih (q :: stack) qs hqs
      refine ⟨ps, hps, ?_⟩
      rw [hfold, List.foldr_cons, List.foldr_cons]
      ac_rfl
    | false =>
      obtain ⟨ps, hps, hfold⟩ := @ih [] qs hqs
      rw [List.foldr_nil, hleft] at hfold
      rw [laterArgs_cons hx]
      refine ⟨_, evalAll_append evalAll_laterRun (evalAll_cons_some hp hps), ?_⟩
      rw [List.foldr_append, List.foldr_cons, hfold, List.foldr_cons, ← hrun stack,
        ← @List.foldr_assoc _ f, hleft]

theorem sum_laterArgs (hop : op = .plus ∨ op = .minus) (h : evalAll ρ args = some qs) :
    ∃ ps, evalAll ρ (laterArgs op stack args) = some ps ∧ ps.sum = stack.sum + qs.sum := by
  refine foldr_laterArgs (f := (· + ·)) (fun stack => ?_) h
  split_ifs with hstack
  · rw [hstack]
  · show List.sum _ = stack.sum
    rcases hop with rfl | rfl <;> simp [laterNumber, firstNumber, List.sum_reverse]

theorem prod_laterArgs (h : evalAll ρ args = some qs) :
    ∃ ps, evalAll ρ (laterArgs .times stack args) = some ps ∧ ps.prod = stack.prod * qs.prod := by
  refine foldr_laterArgs (f := (· * ·)) (fun stack => ?_) h
  split_ifs with hstack
  · rw [hstack]
  · show List.prod _ = stack.prod
    simp [laterNumber, firstNumber, List.prod_reverse]

theorem prod_laterArgs_divide (h : evalAll ρ args = some qs) (hstack : 0 ∉ stack) (hqs : 0 ∉ qs) :
    ∃ ps, evalAll ρ (laterArgs .divide stack args) = some ps ∧ 0 ∉ ps ∧
      ps.prod * (stack.reverse.tail.prod * excess (decide (stack ≠ [])) args) ^ 2 =
        stack.prod * qs.prod := by
  have hrun : ∀ stack : List ℚ, 0 ∉ stack →
      0 ∉ (if stack = [] then [] else [laterNumber .divide stack.reverse]) ∧
      (if stack = [] then [] else [laterNumber .divide stack.reverse]).prod *
        stack.reverse.tail.prod ^ 2 = stack.prod := by
    intro stack hstack
    split_ifs with hnil
    · rw [hnil]
      exact ⟨List.not_mem_nil, by simp⟩
    · obtain ⟨first, others, hreverse⟩ := List.exists_cons_of_ne_nil
        (List.reverse_ne_nil_iff.mpr hnil)
      have hmem : ∀ q ∈ first :: others, q ≠ 0 := by
        rintro q hq rfl
        rw [← hreverse, List.mem_reverse] at hq
        exact hstack hq
      have hothers : others.prod ≠ 0 :=
        List.prod_ne_zero fun h => hmem 0 (List.mem_cons_of_mem _ h) rfl
      have hfirst := hmem first List.mem_cons_self
      rw [hreverse, ← List.prod_reverse stack, hreverse, List.tail_cons, List.prod_cons,
        List.prod_cons, List.prod_nil, mul_one, List.mem_singleton, laterNumber,
        if_neg (by decide), firstNumber]
      refine ⟨(div_ne_zero hfirst hothers).symm, ?_⟩
      field_simp
  induction args generalizing stack qs with
  | nil =>
    rw [evalAll_nil] at h
    obtain rfl := Option.some.inj h
    rw [laterArgs]
    refine ⟨_, evalAll_laterRun, (hrun stack hstack).1, ?_⟩
    rw [excess, mul_one, (hrun stack hstack).2, List.prod_nil, mul_one]
  | cons x args ih =>
    obtain ⟨p, qs, hp, hqs', rfl⟩ := evalAll_cons.mp h
    have hzero : 0 ∉ qs := fun h => hqs (List.mem_cons_of_mem _ h)
    cases hx : x.numberp with
    | true =>
      obtain ⟨q, rfl⟩ := numberp_iff.mp hx
      rw [eval_number] at hp
      obtain rfl := Option.some.inj hp
      have hq : 0 ∉ q :: stack := by
        intro hmem
        rcases List.mem_cons.mp hmem with rfl | hmem
        · exact hqs List.mem_cons_self
        · exact hstack hmem
      obtain ⟨ps, hps, hps0, hprod⟩ := @ih (q :: stack) qs hqs' hq hzero
      rw [laterArgs]
      refine ⟨ps, hps, hps0, ?_⟩
      rw [List.prod_cons, show q * stack.prod * qs.prod = stack.prod * (q * qs.prod) by ring] at hprod
      rw [List.prod_cons, ← hprod, excess]
      congr 2
      rw [List.reverse_cons]
      cases hreverse : stack.reverse with
      | nil =>
        have hnil : stack = [] := List.reverse_eq_nil_iff.mp hreverse
        simp [hnil]
      | cons first others =>
        have hne : stack ≠ [] := by
          rintro rfl
          cases hreverse
        simp [hne, mul_assoc]
    | false =>
      obtain ⟨ps, hps, hps0, hprod⟩ := @ih [] qs hqs' List.not_mem_nil hzero
      obtain ⟨hrun0, hrunprod⟩ := hrun stack hstack
      rw [laterArgs_cons hx]
      refine ⟨_, evalAll_append evalAll_laterRun (evalAll_cons_some hp hps), ?_, ?_⟩
      · intro hmem
        rcases List.mem_append.mp hmem with hmem | hmem
        · exact hrun0 hmem
        · rcases List.mem_cons.mp hmem with rfl | hmem
          · exact hqs List.mem_cons_self
          · exact hps0 hmem
      · simp only [List.reverse_nil, List.tail_nil, List.prod_nil, one_mul, ne_eq,
          not_true_eq_false, decide_false] at hprod
        rw [excess_cons hx, List.prod_append, List.prod_cons, List.prod_cons, ← hprod, ← hrunprod]
        ring

end LaterValues

section Shape

variable {V : Type} {ρ : V → ℚ} {op : Op} {args : List (Expr V)} {stack : List ℚ}

theorem length_laterRun :
    (laterRun op stack : List (Expr V)).length = if stack = [] then 0 else 1 := by
  rw [laterRun]
  split_ifs <;> rfl

theorem length_laterArgs :
    (laterArgs op stack args).length ≤ (if stack = [] then 0 else 1) + args.length ∧
      ((if stack = [] then 0 else 1) + args.length ≤ (laterArgs op stack args).length →
        excess (decide (stack ≠ [])) args = 1) := by
  induction args generalizing stack with
  | nil => exact ⟨(length_laterRun (V := V)).le, fun _ => by rw [excess]⟩
  | cons x args ih =>
    cases hx : x.numberp with
    | true =>
      obtain ⟨q, rfl⟩ := numberp_iff.mp hx
      obtain ⟨hle, heq⟩ := @ih (q :: stack)
      rw [if_neg (List.cons_ne_nil _ _)] at hle heq
      rw [laterArgs, List.length_cons, excess]
      by_cases hstack : stack = []
      · rw [if_pos hstack]
        refine ⟨by omega, fun h => ?_⟩
        have hone := heq (by omega)
        simp only [ne_eq, List.cons_ne_nil, not_false_eq_true, decide_true] at hone
        simp [hstack, hone]
      · rw [if_neg hstack]
        exact ⟨by omega, fun h => by omega⟩
    | false =>
      obtain ⟨hle, heq⟩ := @ih []
      rw [if_pos rfl] at hle heq
      rw [laterArgs_cons hx, List.length_append, length_laterRun, List.length_cons,
        List.length_cons, excess_cons hx]
      refine ⟨by omega, fun h => ?_⟩
      have hone := heq (by omega)
      simpa using hone

theorem laterArgs_ne_nil (h : args ≠ []) : laterArgs op stack args ≠ [] := by
  induction args generalizing stack with
  | nil => exact absurd rfl h
  | cons x args ih =>
    cases hx : x.numberp with
    | true =>
      obtain ⟨q, rfl⟩ := numberp_iff.mp hx
      rw [laterArgs]
      cases args with
      | nil =>
        rw [laterArgs, laterRun, if_neg (List.cons_ne_nil _ _)]
        exact List.cons_ne_nil _ _
      | cons y args => exact ih (List.cons_ne_nil _ _)
    | false =>
      rw [laterArgs_cons hx]
      exact List.append_ne_nil_of_right_ne_nil _ (List.cons_ne_nil _ _)

theorem removeNeutral_laterArgs_eq_nil :
    removeNeutral (laterArgs .minus stack args) 0 = [] ↔
      ∃ qs : List ℚ, args = qs.map .number ∧ stack.sum + qs.sum = 0 := by
  induction args generalizing stack with
  | nil =>
    rw [laterArgs, laterRun]
    by_cases hstack : stack = []
    · rw [if_pos hstack, hstack]
      exact iff_of_true rfl ⟨[], rfl, by simp⟩
    · rw [if_neg hstack]
      have hnumber : removeNeutral [Expr.number (V := V) (laterNumber .minus stack.reverse)] 0 = [] ↔
          stack.sum = 0 := by
        simp [removeNeutral, laterNumber, Expr.isNumber, List.sum_reverse]
      rw [hnumber]
      constructor
      · intro h
        exact ⟨[], rfl, by rw [h, List.sum_nil, add_zero]⟩
      · rintro ⟨qs, hqs, hsum⟩
        rw [List.map_eq_nil_iff.mp hqs.symm, List.sum_nil, add_zero] at hsum
        exact hsum
  | cons x args ih =>
    cases hx : x.numberp with
    | true =>
      obtain ⟨q, rfl⟩ := numberp_iff.mp hx
      rw [laterArgs, ih]
      constructor
      · rintro ⟨qs, rfl, hsum⟩
        refine ⟨q :: qs, rfl, ?_⟩
        rw [List.sum_cons] at hsum ⊢
        linarith
      · rintro ⟨qs, hqs, hsum⟩
        cases qs with
        | nil => cases hqs
        | cons p qs =>
          obtain ⟨hp, rfl⟩ := List.cons.inj hqs
          obtain rfl := Expr.number.inj hp
          refine ⟨qs, rfl, ?_⟩
          rw [List.sum_cons] at hsum ⊢
          linarith
    | false =>
      have hmem : x ∈ removeNeutral (laterArgs .minus stack (x :: args)) 0 := by
        rw [laterArgs_cons hx, removeNeutral, List.mem_filter]
        refine ⟨by simp, ?_⟩
        rw [isNumber_of_numberp hx]
        rfl
      refine iff_of_false (List.ne_nil_of_mem hmem) ?_
      rintro ⟨qs, hqs, -⟩
      cases qs with
      | nil => cases hqs
      | cons p qs =>
        rw [(List.cons.inj hqs).1] at hx
        cases hx

end Shape

end Incudine.Vug

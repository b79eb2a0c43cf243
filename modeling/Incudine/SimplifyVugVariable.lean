import Incudine.ReduceSimpleOpValue

/-!
# Simplification of the values of the variables

`simplify-vug-variable-value` reduces the simple operations of a tree from the leaves to the root.
The constants and the reduced variables are substituted; the inputs of a function are updated only
if they become fewer.
-/

namespace Incudine.Vug

section Simplify

variable {V : Type}

/-- The value returned by `simplify-vug-variable-value`, whether it replaces the old one, and the
old one after the update of its inputs. -/
structure Simplified (V : Type) where
  value : Expr V
  changed : Bool
  updated : Expr V

def updateInputs (op : Op) (first : Expr V) (rest : List (Expr V)) :
    Reduced V → Option (Simplified V)
  | .atom e => some ⟨e, true, .function op first rest⟩
  | .args [] => none
  | .args (x :: xs) =>
    if (x :: xs).length < (first :: rest).length then
      some ⟨.function op x xs, false, .function op x xs⟩
    else some ⟨.function op first rest, false, .function op first rest⟩

/-- An argument is the immediate value of a variable or the simplified input. -/
def immediateArg (immediate : V → Option (Expr V)) (x : Expr V) (s : Simplified V) : Expr V :=
  match x with
  | .var v => (immediate v).getD x
  | _ => s.value

variable (immediate : V → Option (Expr V))

mutual

def simplify : Expr V → Option (Simplified V)
  | .number q => some ⟨.number q, false, .number q⟩
  | .var v => some ⟨.var v, false, .var v⟩
  | .function op first rest => do
    let s ← simplify first
    let inputs ← getImmediateArgs rest
    let ret ← reduceSimpleOp op (immediateArg immediate first s :: inputs.map Prod.fst)
    updateInputs op s.updated (inputs.map Prod.snd) ret

def getImmediateArgs : List (Expr V) → Option (List (Expr V × Expr V))
  | [] => some []
  | x :: xs => do
    let s ← simplify x
    let inputs ← getImmediateArgs xs
    some ((immediateArg immediate x s, s.updated) :: inputs)

end

def simplified (e : Expr V) : Option (Expr V) :=
  (simplify immediate e).map fun s => if s.changed then s.value else s.updated

/-- The arguments of `reduce-simple-op` for a function. -/
def callArgs (first : Expr V) (rest : List (Expr V)) : Option (List (Expr V)) := do
  let s ← simplify immediate first
  let inputs ← getImmediateArgs immediate rest
  some (immediateArg immediate first s :: inputs.map Prod.fst)

variable (ρ : V → ℚ)

mutual

/-- Each call of `reduce-simple-op` reduces its arguments well. -/
def Meets : Expr V → Prop
  | .number _ => True
  | .var _ => True
  | .function op first rest => (Meets first ∧ MeetsAll rest) ∧
      ∀ args, callArgs immediate first rest = some args → ReducesWell ρ op args

def MeetsAll : List (Expr V) → Prop
  | [] => True
  | x :: xs => Meets x ∧ MeetsAll xs

end

/-- Each call for the inputs of the root reduces its arguments well. -/
def InputsMeet : Expr V → Prop
  | .function _ first rest => Meets immediate ρ first ∧ MeetsAll immediate ρ rest
  | _ => True

end Simplify

section Values

variable {V : Type} {ρ : V → ℚ} {immediate : V → Option (Expr V)} {e : Expr V} {op : Op}
  {first : Expr V} {rest args : List (Expr V)} {q v : ℚ} {qs : List ℚ}

theorem evalAll_function (h : eval ρ (.function op first rest) = some v) :
    ∃ q qs, eval ρ first = some q ∧ evalAll ρ rest = some qs ∧ op.apply (q :: qs) = some v := by
  rw [eval_function] at h
  obtain ⟨ps, hps, hv⟩ := Option.bind_eq_some_iff.mp h
  obtain ⟨q, qs, hq, hqs, rfl⟩ := evalAll_cons.mp hps
  exact ⟨q, qs, hq, hqs, hv⟩

/-- A substituted variable has the value of its substitute. -/
def Consistent (ρ : V → ℚ) (immediate : V → Option (Expr V)) : Prop :=
  ∀ v e, immediate v = some e → eval ρ e = some (ρ v)

theorem eval_immediateArg (h : Consistent ρ immediate) {s : Simplified V}
    (he : eval ρ e = some q) (hs : eval ρ s.value = some q) :
    eval ρ (immediateArg immediate e s) = some q := by
  cases e with
  | number p => exact hs
  | function f first rest => exact hs
  | var v =>
    rw [immediateArg]
    cases hv : immediate v with
    | none => exact he
    | some e' =>
      rw [Option.getD_some, h v e' hv, ← he, eval]

theorem eval_updateInputs {r : Reduced V} (hr : Sound ρ op args v r)
    (hfunction : eval ρ (.function op first rest) = some v)
    (hlength : args.length = (first :: rest).length) :
    ∃ s, updateInputs op first rest r = some s ∧
      (eval ρ (if s.changed then s.value else s.updated) = some v ↔ ReducesWell ρ op args) ∧
      (ReducesWell ρ op args → eval ρ s.value = some v ∧ eval ρ s.updated = some v) := by
  cases r with
  | atom e => exact ⟨_, rfl, hr.value, fun hwell => ⟨hr.value.mpr hwell, hfunction⟩⟩
  | args es =>
    cases es with
    | nil => exact absurd rfl (hr.proper [] rfl)
    | cons x xs =>
      have hvalue : eval ρ (.function op x xs) = some v ↔ ReducesWell ρ op args := by
        rw [eval_function]
        exact hr.value
      rw [updateInputs]
      by_cases hless : (x :: xs).length < (first :: rest).length
      · rw [if_pos hless]
        exact ⟨_, rfl, hvalue, fun hwell => ⟨hvalue.mpr hwell, hvalue.mpr hwell⟩⟩
      · rw [if_neg hless]
        have hwell := hr.same _ rfl (hlength.trans_le (Nat.le_of_not_lt hless))
        exact ⟨_, rfl, iff_of_true hfunction hwell, fun _ => ⟨hfunction, hfunction⟩⟩

theorem simplify_function (himmediate : Consistent ρ immediate) {s : Simplified V}
    {inputs : List (Expr V × Expr V)} (hv : op.apply (q :: qs) = some v)
    (hq : eval ρ first = some q) (hs : simplify immediate first = some s)
    (hvalue : eval ρ s.value = some q) (hupdated : eval ρ s.updated = some q)
    (hinputs : getImmediateArgs immediate rest = some inputs)
    (hargs : evalAll ρ (inputs.map Prod.fst) = some qs)
    (hrest : evalAll ρ (inputs.map Prod.snd) = some qs) :
    ∃ args s', callArgs immediate first rest = some args ∧
      simplify immediate (.function op first rest) = some s' ∧
      (eval ρ (if s'.changed then s'.value else s'.updated) = some v ↔ ReducesWell ρ op args) ∧
      (ReducesWell ρ op args → eval ρ s'.value = some v ∧ eval ρ s'.updated = some v) := by
  have hcall := evalAll_cons_some (eval_immediateArg himmediate hq hvalue) hargs
  obtain ⟨r, hreduce, hsound⟩ := sound_reduceSimpleOp hcall hv (List.cons_ne_nil _ _)
  have hfunction : eval ρ (.function op s.updated (inputs.map Prod.snd)) = some v := by
    rw [eval_function, evalAll_cons_some hupdated hrest, Option.bind_some, hv]
  obtain ⟨s', hs', hiff, hboth⟩ := eval_updateInputs hsound hfunction (by
    rw [List.length_cons, List.length_cons, List.length_map, List.length_map])
  refine ⟨_, s', ?_, ?_, hiff, hboth⟩
  · simp only [callArgs, hs, hinputs, Option.bind_eq_bind, Option.bind_some]
  · simp only [simplify, hs, hinputs, hreduce, hs', Option.bind_eq_bind, Option.bind_some]

mutual

theorem simplify_eq (himmediate : Consistent ρ immediate) : ∀ (e : Expr V) (v : ℚ),
    eval ρ e = some v → Meets immediate ρ e → ∃ s, simplify immediate e = some s ∧
      eval ρ s.value = some v ∧ eval ρ s.updated = some v
  | .number q, v, hv, _ => ⟨_, by rw [simplify], hv, hv⟩
  | .var x, v, hv, _ => ⟨_, by rw [simplify], hv, hv⟩
  | .function op first rest, v, hv, hmeets => by
    rw [Meets] at hmeets
    obtain ⟨⟨hfirst, hrest⟩, hwell⟩ := hmeets
    obtain ⟨q, qs, hq, hqs, happly⟩ := evalAll_function hv
    obtain ⟨s, hs, hvalue, hupdated⟩ := simplify_eq himmediate first q hq hfirst
    obtain ⟨inputs, hinputs, hargs, hinputs'⟩ := getImmediateArgs_eq himmediate rest qs hqs hrest
    obtain ⟨args, s', hcall, hs', -, hboth⟩ :=
      simplify_function himmediate happly hq hs hvalue hupdated hinputs hargs hinputs'
    exact ⟨s', hs', hboth (hwell args hcall)⟩

theorem getImmediateArgs_eq (himmediate : Consistent ρ immediate) :
    ∀ (es : List (Expr V)) (qs : List ℚ), evalAll ρ es = some qs → MeetsAll immediate ρ es →
      ∃ inputs, getImmediateArgs immediate es = some inputs ∧
        evalAll ρ (inputs.map Prod.fst) = some qs ∧ evalAll ρ (inputs.map Prod.snd) = some qs
  | [], qs, hqs, _ => ⟨[], by rw [getImmediateArgs], hqs, hqs⟩
  | e :: es, qs, hqs, hmeets => by
    rw [MeetsAll] at hmeets
    obtain ⟨p, ps, hp, hps, rfl⟩ := evalAll_cons.mp hqs
    obtain ⟨s, hs, hvalue, hupdated⟩ := simplify_eq himmediate e p hp hmeets.1
    obtain ⟨inputs, hinputs, hargs, hinputs'⟩ := getImmediateArgs_eq himmediate es ps hps hmeets.2
    refine ⟨(immediateArg immediate e s, s.updated) :: inputs, ?_, ?_, ?_⟩
    · simp only [getImmediateArgs, hs, hinputs, Option.bind_eq_bind, Option.bind_some]
    · exact evalAll_cons_some (eval_immediateArg himmediate hp hvalue) hargs
    · exact evalAll_cons_some hupdated hinputs'

end

theorem meets_iff : Meets immediate ρ (.function op first rest) ↔
    InputsMeet immediate ρ (.function op first rest) ∧
      ∀ args, callArgs immediate first rest = some args → ReducesWell ρ op args := by
  rw [Meets, InputsMeet]

theorem eval_simplified_iff (himmediate : Consistent ρ immediate) (hv : eval ρ e = some v)
    (hinputs : InputsMeet immediate ρ e) :
    (∃ e', simplified immediate e = some e' ∧ eval ρ e' = some v) ↔ Meets immediate ρ e := by
  cases e with
  | number q => exact iff_of_true ⟨_, by rw [simplified, simplify]; rfl, hv⟩ (by rw [Meets]; trivial)
  | var x => exact iff_of_true ⟨_, by rw [simplified, simplify]; rfl, hv⟩ (by rw [Meets]; trivial)
  | function op first rest =>
    obtain ⟨q, qs, hq, hqs, happly⟩ := evalAll_function hv
    obtain ⟨s, hs, hvalue, hupdated⟩ := simplify_eq himmediate first q hq hinputs.1
    obtain ⟨inputs, hget, hargs, hinputs'⟩ := getImmediateArgs_eq himmediate rest qs hqs hinputs.2
    obtain ⟨args, s', hcall, hs', hiff, -⟩ :=
      simplify_function himmediate happly hq hs hvalue hupdated hget hargs hinputs'
    rw [meets_iff, simplified, hs', Option.map_some]
    constructor
    · rintro ⟨e', he', hv'⟩
      obtain rfl := Option.some.inj he'
      refine ⟨hinputs, fun args' hcall' => ?_⟩
      rw [← Option.some.inj (hcall.symm.trans hcall')]
      exact hiff.mp hv'
    · rintro ⟨-, hwell⟩
      exact ⟨_, rfl, hiff.mpr (hwell args hcall)⟩

/-- The simplified tree has the value of the original one if each call of `reduce-simple-op`
reduces well; if the calls for the inputs of the root do, this is also necessary. -/
theorem eval_simplified (himmediate : Consistent ρ immediate) (hv : eval ρ e = some v) :
    (Meets immediate ρ e → ∃ e', simplified immediate e = some e' ∧ eval ρ e' = some v) ∧
      (InputsMeet immediate ρ e →
        (∃ e', simplified immediate e = some e' ∧ eval ρ e' = some v) → Meets immediate ρ e) := by
  have hinputs : Meets immediate ρ e → InputsMeet immediate ρ e := by
    intro h
    cases e with
    | number | var => trivial
    | function op first rest => exact (meets_iff.mp h).1
  exact ⟨fun h => (eval_simplified_iff himmediate hv (hinputs h)).mpr h,
    fun h => (eval_simplified_iff himmediate hv h).mp⟩

end Values

/-- `(+ 1 (/ a 2 1) (- 5 2 a) 2)` -/
def sumOfQuotient : Expr ℕ :=
  .function .plus (.number 1) [.function .divide (.var 0) [.number 2, .number 1],
    .function .minus (.number 5) [.number 2, .var 0], .number 2]

theorem eval_simplified_sumOfQuotient :
    ∃ e', simplified (fun _ => none) sumOfQuotient = some e' ∧ eval (fun _ => 6) e' = some 3 := by
  have hvalue : eval (fun _ => 6) sumOfQuotient = some 3 := by
    simp only [sumOfQuotient, eval, evalAll, Op.apply, Option.bind_eq_bind, Option.bind_some]
    norm_num
  refine (eval_simplified (fun _ _ h => absurd h (Option.some_ne_none _).symm) hvalue).1 ?_
  have hdivide : ReducesWell (fun _ : ℕ => 6) .divide [.var 0, .number 2, .number 1] :=
    .inr (by norm_num [removeNeutral, excess, Expr.numberp, Expr.isNumber])
  have hminus : ReducesWell (fun _ : ℕ => 6) .minus [.number 5, .number 2, .var 0] := by
    intro q qs x t hargs hx hsum
    cases qs with
    | nil =>
      cases hargs
      cases hx
    | cons r qs =>
      have hlength := congrArg List.length hargs
      simp only [List.length_append, List.length_map, List.length_cons, List.length_nil] at hlength
      obtain rfl : qs = [] := List.eq_nil_of_length_eq_zero (by omega)
      cases hargs
      norm_num at hsum
  rw [sumOfQuotient, Meets]
  refine ⟨⟨by rw [Meets]; trivial, ?_⟩, fun _ _ => trivial⟩
  simp only [MeetsAll, Meets, true_and, and_true]
  exact ⟨fun args hargs => Option.some.inj hargs ▸ hdivide,
    fun args hargs => Option.some.inj hargs ▸ hminus⟩

/-- `(- 0 a b)` -/
def difference : Expr ℕ := .function .minus (.number 0) [.var 0, .var 1]

def quotient : Expr ℕ := .function .divide (.var 0) [.number 2, .number 3]

/-- The folded difference is `(- a b)`, and the folded quotient is `(/ a 2/3)`. -/
theorem difference_quotient_folded : ∃ ρ : ℕ → ℚ,
    (∃ e', simplified (fun _ => none) difference = some e' ∧
      eval ρ difference = some (-3) ∧ eval ρ e' = some (-1)) ∧
    ∃ e', simplified (fun _ => none) quotient = some e' ∧
      eval ρ quotient = some (1 / 6) ∧ eval ρ e' = some (3 / 2) := by
  refine ⟨fun n => n + 1, ⟨.function .minus (.var 0) [.var 1], rfl, ?_, ?_⟩,
    .function .divide (.var 0) [.number (2 / 3)], ?_, ?_, ?_⟩
  · simp only [difference, eval, evalAll, Op.apply, Option.bind_eq_bind, Option.bind_some]
    norm_num
  · simp only [eval, evalAll, Op.apply, Option.bind_eq_bind, Option.bind_some]
    norm_num
  · simp [quotient, simplified, simplify, getImmediateArgs, immediateArg, reduceSimpleOp,
      removeNeutral, Expr.isNumber, reduceLoop, applyOp, Op.apply, reduceAcc, updateInputs]
  · simp only [quotient, eval, evalAll, Op.apply, Option.bind_eq_bind, Option.bind_some]
    norm_num
  · simp only [eval, evalAll, Op.apply, Option.bind_eq_bind, Option.bind_some]
    norm_num
end Incudine.Vug

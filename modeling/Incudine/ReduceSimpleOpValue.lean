import Incudine.ReduceSimpleOp

/-!
# The values of the reduced operations

A reduced operation has the value of the original one, except if a zero that is the first number of
a difference is removed, or if some adjacent numbers of a quotient are not the first ones: their
quotient is computed instead of their product.
-/

namespace Incudine.Vug

variable {V : Type} {ρ : V → ℚ} {op : Op} {args : List (Expr V)} {q v : ℚ} {qs : List ℚ}

def Reduced.eval (ρ : V → ℚ) (op : Op) : Reduced V → Option ℚ
  | .atom e => Vug.eval ρ e
  | .args es => (evalAll ρ es).bind op.apply

/-- The zero that is the first number of a difference is the only number that is removed with the
sign of what follows, and the numbers of a quotient that follow another number are multiplied
instead of being divided. -/
def ReducesWell (ρ : V → ℚ) : Op → List (Expr V) → Prop
  | .minus, args => ∀ (q : ℚ) (qs : List ℚ) (x : Expr V) (t : List (Expr V)),
      args = (q :: qs).map .number ++ x :: t → x.numberp = false → q = qs.sum →
        Vug.eval ρ x = some 0 ∨ ∃ ps : List ℚ, t = ps.map .number ∧ ps.sum = 0
  | .divide, first :: rest => Vug.eval ρ first = some 0 ∨
      excess false ((first :: removeNeutral rest 1).dropWhile Expr.numberp) ^ 2 = 1
  | _, _ => True

/-- The value is preserved exactly if the condition holds, and it is if no argument is removed. -/
structure Sound (ρ : V → ℚ) (op : Op) (args : List (Expr V)) (v : ℚ) (r : Reduced V) : Prop where
  proper : ∀ es, r = .args es → es ≠ []
  value : r.eval ρ op = some v ↔ ReducesWell ρ op args
  same : ∀ es, r = .args es → args.length ≤ es.length → ReducesWell ρ op args

variable {es : List (Expr V)}

theorem eval_ofArgs (hop : op = .plus ∨ op = .times) (h : evalAll ρ es = some qs) :
    (Reduced.ofArgs es).eval ρ op = op.apply qs := by
  have hargs : (Reduced.args es).eval ρ op = op.apply qs := by
    rw [Reduced.eval, h, Option.bind_some]
  match es with
  | [] | _ :: _ :: _ => exact hargs
  | [e] =>
    obtain ⟨p, ps, hp, hps, rfl⟩ := evalAll_cons.mp h
    rw [evalAll_nil] at hps
    obtain rfl := Option.some.inj hps
    rw [Reduced.ofArgs, Reduced.eval, hp]
    rcases hop with rfl | rfl <;> simp [Op.apply]

theorem ofArgs_proper (h : es ≠ []) : ∀ es', Reduced.ofArgs es = .args es' → es' ≠ [] := by
  intro es' heq
  match es with
  | [] => exact absurd rfl h
  | [e] => cases heq
  | _ :: _ :: _ =>
    rw [← Reduced.args.inj heq]
    exact List.cons_ne_nil _ _

theorem Sound.of_value {r : Reduced V} (hproper : ∀ es, r = .args es → es ≠ [])
    (hvalue : r.eval ρ op = some v) (hwell : ReducesWell ρ op args) : Sound ρ op args v r :=
  ⟨hproper, iff_of_true hvalue hwell, fun _ _ _ => hwell⟩

theorem Sound.of_number (hvalue : q = v) (hwell : ReducesWell ρ op args) :
    Sound ρ op args v (.atom (.number q)) := by
  refine .of_value (fun _ h => by cases h) ?_ hwell
  rw [Reduced.eval, eval_number, hvalue]

theorem args_cons_proper {e : Expr V} : ∀ es', Reduced.args (e :: es) = .args es' → es' ≠ [] := by
  intro es' heq
  rw [← Reduced.args.inj heq]
  exact List.cons_ne_nil e es

theorem mem_removeNeutral {x : Expr V} (hx : x.numberp = false) (h : x ∈ es) (n : ℚ) :
    x ∈ removeNeutral es n := by
  rw [removeNeutral, List.mem_filter, isNumber_of_numberp hx]
  exact ⟨h, rfl⟩

theorem mem_of_number_mem (h : evalAll ρ es = some qs) (hmem : .number q ∈ es) : q ∈ qs := by
  induction es generalizing qs with
  | nil => cases hmem
  | cons e es ih =>
    obtain ⟨p, ps, hp, hps, rfl⟩ := evalAll_cons.mp h
    rcases List.mem_cons.mp hmem with rfl | hmem
    · rw [eval_number] at hp
      rw [Option.some.inj hp]
      exact List.mem_cons_self
    · exact List.mem_cons_of_mem _ (ih hps hmem)

theorem reduceLoop_cases (hargs : args ≠ []) (hzero : op = .divide → .number 0 ∉ args.tail) :
    (∃ q qs, args = (q :: qs).map .number ∧
      reduceLoop op [] [] true args = some [.number (firstNumber op (q :: qs))]) ∨
    ∃ lead x t, args = lead.map .number ++ x :: t ∧ x.numberp = false ∧
      reduceLoop op [] [] true args = some (firstRun op lead ++ x :: laterArgs op [] t) := by
  obtain ⟨lead, rest, rfl, hrest⟩ := exists_lead args
  cases rest with
  | nil =>
    left
    cases lead with
    | nil => exact absurd rfl hargs
    | cons q qs =>
      rw [List.append_nil] at hzero ⊢
      refine ⟨q, qs, rfl, reduceLoop_only_numbers fun h hmem => hzero h ?_⟩
      exact List.mem_map_of_mem hmem
  | cons x t =>
    right
    refine ⟨lead, x, t, rfl, hrest x t rfl, reduceLoop_eq (hrest x t rfl) ?_ ?_⟩
    · intro h hmem
      apply hzero h
      cases lead with
      | nil => cases hmem
      | cons q qs => exact List.mem_append_left _ (List.mem_map_of_mem hmem)
    · intro h hmem
      apply hzero h
      cases lead with
      | nil => exact hmem
      | cons q qs => exact List.mem_append_right _ (List.mem_cons_of_mem _ hmem)

variable {lead : List ℚ}

theorem evalAll_lead {x : Expr V} {t : List (Expr V)}
    (h : evalAll ρ (lead.map .number ++ x :: t) = some qs) :
    ∃ p ps, Vug.eval ρ x = some p ∧ evalAll ρ t = some ps ∧ qs = lead ++ p :: ps := by
  obtain ⟨ls, rest, hls, hrest, rfl⟩ := evalAll_append_iff.mp h
  rw [evalAll_numbers] at hls
  obtain rfl := Option.some.inj hls
  obtain ⟨p, ps, hp, hps, rfl⟩ := evalAll_cons.mp hrest
  exact ⟨p, ps, hp, hps, rfl⟩

theorem evalAll_firstRun {lead : List ℚ} : evalAll ρ (firstRun op lead : List (Expr V)) =
    some (if lead = [] then [] else [firstNumber op lead]) := by
  rw [firstRun]
  split_ifs
  · exact evalAll_nil
  · exact evalAll_cons_some eval_number evalAll_nil

theorem acc_eq_cons_cons {lead : List ℚ} {x : Expr V} {t : List (Expr V)}
    (h : 2 ≤ (lead.map Expr.number ++ x :: t).length) :
    ∃ y z es, firstRun op lead ++ x :: laterArgs op [] t = y :: z :: es := by
  rw [firstRun]
  by_cases hlead : lead = []
  · subst hlead
    have ht : t ≠ [] := by
      rintro rfl
      exact absurd h (by simp)
    obtain ⟨z, es, hlater⟩ := List.exists_cons_of_ne_nil (@laterArgs_ne_nil V op t [] ht)
    exact ⟨x, z, es, by rw [hlater]; rfl⟩
  · rw [if_neg hlead]
    exact ⟨_, x, _, rfl⟩

theorem reduceSimpleOp_cons {a b : Expr V} {rest : List (Expr V)} (hop : op ≠ .divide) :
    reduceSimpleOp op (a :: b :: rest) =
      (reduceLoop op [] [] true (a :: b :: rest)).map (reduceAcc op) := by
  simp only [reduceSimpleOp, if_neg hop]
  cases reduceLoop op [] [] true (a :: b :: rest) <;> rfl

theorem lead_unique {lead' : List ℚ} {x x' : Expr V} {t t' : List (Expr V)} (hx : x.numberp = false)
    (hx' : x'.numberp = false)
    (h : lead.map Expr.number ++ x :: t = lead'.map Expr.number ++ x' :: t') :
    lead = lead' ∧ x = x' ∧ t = t' := by
  induction lead generalizing lead' with
  | nil =>
    cases lead' with
    | nil =>
      obtain ⟨rfl, rfl⟩ := List.cons.inj h
      exact ⟨rfl, rfl, rfl⟩
    | cons q lead' =>
      rw [(List.cons.inj h).1] at hx
      cases hx
  | cons q lead ih =>
    cases lead' with
    | nil =>
      rw [← (List.cons.inj h).1] at hx'
      cases hx'
    | cons q' lead' =>
      obtain ⟨hq, hrest⟩ := List.cons.inj h
      obtain ⟨rfl, rfl, rfl⟩ := ih hrest
      exact ⟨by rw [Expr.number.inj hq], rfl, rfl⟩

theorem reducesWell_minus {x : Expr V} {t : List (Expr V)} (hx : x.numberp = false) :
    ReducesWell ρ .minus (lead.map .number ++ x :: t) ↔
      ∀ q qs, lead = q :: qs → q = qs.sum →
        Vug.eval ρ x = some 0 ∨ ∃ ps : List ℚ, t = ps.map .number ∧ ps.sum = 0 := by
  constructor
  · rintro h q qs rfl
    exact h q qs x t rfl hx
  · intro h q qs x' t' heq hx'
    obtain ⟨hlead, rfl, rfl⟩ := lead_unique hx hx' heq
    exact h q qs hlead

theorem reduceAcc_minus {x y : Expr V} : reduceAcc .minus (x :: y :: es) =
    match removeNeutral (x :: y :: es) 0 with
    | [y] => if x.numberp then .args [y] else .atom y
    | res => .args res := rfl

section Calls

variable {a b : Expr V} {rest : List (Expr V)}

theorem sound_of_cases (hop : op ≠ .divide) (hargs : evalAll ρ (a :: b :: rest) = some qs)
    (hnumbers : ∀ p ps, ps ≠ [] → qs = p :: ps →
      Sound ρ op ((p :: ps).map .number) v (.atom (.number (firstNumber op (p :: ps)))))
    (hlead : ∀ lead x t p ps, 2 ≤ (lead.map Expr.number ++ x :: t).length → x.numberp = false →
      Vug.eval ρ x = some p → evalAll ρ t = some ps → qs = lead ++ p :: ps →
      Sound ρ op (lead.map .number ++ x :: t) v
        (reduceAcc op (firstRun op lead ++ x :: laterArgs op [] t))) :
    ∃ r, reduceSimpleOp op (a :: b :: rest) = some r ∧ Sound ρ op (a :: b :: rest) v r := by
  have hcases := @reduceLoop_cases V op (a :: b :: rest) (List.cons_ne_nil _ _)
    fun h => absurd h hop
  rw [reduceSimpleOp_cons hop]
  have hlength : 2 ≤ (a :: b :: rest).length := Nat.le_add_left _ _
  generalize a :: b :: rest = args at hargs hcases hlength ⊢
  rcases hcases with ⟨q, qs', rfl, hloop⟩ | ⟨lead, x, t, rfl, hx, hloop⟩
  · rw [evalAll_numbers] at hargs
    have hne : qs' ≠ [] := by
      rintro rfl
      exact absurd hlength (by simp)
    rw [hloop]
    refine ⟨_, rfl, ?_⟩
    cases op <;> exact hnumbers q qs' hne (Option.some.inj hargs).symm
  · obtain ⟨p, ps, hp, hps, heq⟩ := evalAll_lead hargs
    rw [hloop]
    exact ⟨_, rfl, hlead lead x t p ps hlength hx hp hps heq⟩

theorem sound_plus (hargs : evalAll ρ (a :: b :: rest) = some qs) (hv : qs.sum = v) :
    ∃ r, reduceSimpleOp .plus (a :: b :: rest) = some r ∧ Sound ρ .plus (a :: b :: rest) v r := by
  refine sound_of_cases (by decide) hargs ?_ ?_
  · rintro p ps - rfl
    exact .of_number hv trivial
  · rintro lead x t p ps hlength hx hp hps rfl
    obtain ⟨ls, hls, hsum⟩ := @sum_laterArgs V ρ .plus t [] ps (.inl rfl) hps
    have hacc := evalAll_append (@evalAll_firstRun V ρ .plus lead) (evalAll_cons_some hp hls)
    obtain ⟨rs, hrs, -, hrsum, -⟩ := evalAll_removeNeutral 0 hacc
    obtain ⟨y, z, es, heq⟩ := @acc_eq_cons_cons V .plus lead x t hlength
    have hmem : x ∈ removeNeutral (firstRun .plus lead ++ x :: laterArgs .plus [] t) 0 :=
      mem_removeNeutral hx (by simp) 0
    have hreduce : reduceAcc .plus (firstRun .plus lead ++ x :: laterArgs .plus [] t) =
        .ofArgs (removeNeutral (firstRun .plus lead ++ x :: laterArgs .plus [] t) 0) := by
      rw [heq]
      rfl
    rw [hreduce]
    refine .of_value (ofArgs_proper (List.ne_nil_of_mem hmem)) ?_ trivial
    rw [eval_ofArgs (.inl rfl) hrs, Op.apply, hrsum rfl, ← hv, List.sum_append, List.sum_append,
      List.sum_cons, List.sum_cons, hsum, List.sum_nil, zero_add]
    congr 2
    split_ifs with hlead
    · rw [hlead]
    · simp [firstNumber]

theorem reduceAcc_times {acc : List (Expr V)} {x y : Expr V} (h : acc = x :: y :: es) :
    reduceAcc .times acc = ((acc.find? (Expr.isNumber 0)).map Reduced.atom).getD
      (.ofArgs (removeNeutral acc 1)) := by
  subst h
  cases hfind : (x :: y :: es).find? (Expr.isNumber 0) with
  | some zero => simp only [reduceAcc, hfind, Option.map_some, Option.getD_some]
  | none => simp only [reduceAcc, hfind, Option.map_none, Option.getD_none]

theorem sound_times (hargs : evalAll ρ (a :: b :: rest) = some qs) (hv : qs.prod = v) :
    ∃ r, reduceSimpleOp .times (a :: b :: rest) = some r ∧ Sound ρ .times (a :: b :: rest) v r := by
  refine sound_of_cases (by decide) hargs ?_ ?_
  · rintro p ps - rfl
    exact .of_number hv trivial
  · rintro lead x t p ps hlength hx hp hps rfl
    obtain ⟨ls, hls, hprod⟩ := @prod_laterArgs V ρ t [] ps hps
    have hacc := evalAll_append (@evalAll_firstRun V ρ .times lead) (evalAll_cons_some hp hls)
    have hvalue : ((if lead = [] then [] else [firstNumber .times lead]) ++ p :: ls).prod = v := by
      rw [← hv, List.prod_append, List.prod_append, List.prod_cons, List.prod_cons, hprod,
        List.prod_nil, one_mul]
      congr 1
      split_ifs with hlead
      · rw [hlead]
      · simp [firstNumber]
    obtain ⟨y, z, es, heq⟩ := @acc_eq_cons_cons V .times lead x t hlength
    have hmem : x ∈ firstRun .times lead ++ x :: laterArgs .times [] t := by simp
    generalize firstRun .times lead ++ x :: laterArgs .times [] t = acc at *
    generalize (if lead = [] then [] else [firstNumber .times lead]) ++ p :: ls = as at *
    rw [reduceAcc_times heq]
    cases hfind : acc.find? (Expr.isNumber 0) with
    | some zero =>
      have hzero := isNumber_iff.mp (List.find?_some hfind)
      have hmem0 := List.mem_of_find?_eq_some hfind
      refine .of_value (fun _ h => by cases h) ?_ trivial
      rw [hzero] at hmem0 ⊢
      rw [Option.map_some, Option.getD_some, Reduced.eval, eval_number, ← hvalue, eq_comm]
      congr 1
      exact List.prod_eq_zero (mem_of_number_mem hacc hmem0)
    | none =>
      obtain ⟨rs, hrs, -, -, hrprod⟩ := evalAll_removeNeutral 1 hacc
      refine .of_value (ofArgs_proper (List.ne_nil_of_mem (mem_removeNeutral hx hmem 1))) ?_ trivial
      rw [Option.map_none, Option.getD_none, eval_ofArgs (.inr rfl) hrs, Op.apply, hrprod rfl, hvalue]

theorem removeNeutral_cons {x : Expr V} (hx : x.numberp = false) (n : ℚ) :
    removeNeutral (x :: es) n = x :: removeNeutral es n := by
  rw [removeNeutral, List.filter_cons_of_pos (by rw [isNumber_of_numberp hx]; rfl)]
  rfl

theorem evalAll_subtracted {t : List (Expr V)} {ps : List ℚ} (hps : evalAll ρ t = some ps) :
    ∃ rs, evalAll ρ (removeNeutral (laterArgs .minus [] t) 0) = some rs ∧ rs.sum = ps.sum := by
  obtain ⟨ls, hls, hsum⟩ := @sum_laterArgs V ρ .minus t [] ps (.inr rfl) hps
  obtain ⟨rs, hrs, -, hrsum, -⟩ := evalAll_removeNeutral 0 hls
  exact ⟨rs, hrs, by rw [hrsum rfl, hsum, List.sum_nil, zero_add]⟩

section Minus

variable {x : Expr V} {t : List (Expr V)} {p l : ℚ} {ps ls : List ℚ}

theorem reducesWell_minus_cons (hx : x.numberp = false) :
    ReducesWell ρ .minus ((l :: ls).map .number ++ x :: t) ↔
      (l = ls.sum → Vug.eval ρ x = some 0 ∨ ∃ ps : List ℚ, t = ps.map .number ∧ ps.sum = 0) := by
  rw [reducesWell_minus hx]
  constructor
  · intro h
    exact h l ls rfl
  · rintro h q qs heq
    obtain ⟨rfl, rfl⟩ := List.cons.inj heq
    exact h

theorem sound_minus_numbers (hv : q - qs.sum = v) :
    Sound ρ .minus ((q :: qs).map (Expr.number (V := V))) v
      (.atom (.number (firstNumber .minus (q :: qs)))) := by
  refine .of_number hv ?_
  intro p ps x t heq hx
  have hmem : x ∈ (q :: qs).map (Expr.number (V := V)) := by
    rw [heq]
    simp
  obtain ⟨p', -, rfl⟩ := List.mem_map.mp hmem
  cases hx

section

variable (hx : x.numberp = false) (hp : Vug.eval ρ x = some p) (hps : evalAll ρ t = some ps)
include hx hp hps

theorem sound_minus_first (ht : t ≠ []) (hv : p - ps.sum = v) :
    Sound ρ .minus (x :: t) v (reduceAcc .minus (x :: laterArgs .minus [] t)) := by
  have hwell : ReducesWell ρ .minus ([].map Expr.number ++ x :: t) :=
    (reducesWell_minus hx).mpr fun q qs h => by cases h
  obtain ⟨rs, hrs, hsum⟩ := evalAll_subtracted hps
  obtain ⟨z, es, hz⟩ := List.exists_cons_of_ne_nil (@laterArgs_ne_nil V .minus t [] ht)
  rw [hz, reduceAcc_minus, ← hz, removeNeutral_cons hx]
  cases hrem : removeNeutral (laterArgs .minus [] t) 0 with
  | nil =>
    rw [hrem, evalAll_nil] at hrs
    obtain rfl := Option.some.inj hrs
    simp only [hx, Bool.false_eq_true, if_false]
    refine .of_value (fun _ h => by cases h) ?_ hwell
    rw [Reduced.eval, hp, ← hv, ← hsum, List.sum_nil, sub_zero]
  | cons y ys =>
    rw [hrem] at hrs
    have hne : rs ≠ [] := by
      rintro rfl
      cases (evalAll_length hrs)
    refine .of_value args_cons_proper ?_ hwell
    rw [Reduced.eval, evalAll_cons_some hp hrs, Option.bind_some, apply_minus hne, hsum, hv]

theorem sound_minus_removed (hzero : l = ls.sum) (hv : l - ls.sum - p - ps.sum = v) :
    Sound ρ .minus ((l :: ls).map .number ++ x :: t) v
      (reduceAcc .minus (.number (firstNumber .minus (l :: ls)) :: x :: laterArgs .minus [] t)) := by
  have hwell := @reducesWell_minus_cons V ρ x t l ls hx
  have hrest := @removeNeutral_laterArgs_eq_nil V t []
  have hremoved : removeNeutral (.number (firstNumber .minus (l :: ls)) :: x ::
      laterArgs .minus [] t) 0 = x :: removeNeutral (laterArgs .minus [] t) 0 := by
    rw [← removeNeutral_cons hx, removeNeutral, List.filter_cons_of_neg]
    · rfl
    · simp [Expr.isNumber, firstNumber, hzero]
  obtain ⟨rs, hrs, hsum⟩ := evalAll_subtracted hps
  rw [reduceAcc_minus, hremoved]
  cases hrem : removeNeutral (laterArgs .minus [] t) 0 with
  | nil =>
    obtain ⟨ts, rfl, hts⟩ := hrest.mp hrem
    rw [hrem, evalAll_nil] at hrs
    obtain rfl := Option.some.inj hrs
    refine .of_value args_cons_proper ?_ (hwell.mpr fun _ => .inr ⟨ts, rfl, ?_⟩)
    · show (evalAll ρ [x]).bind _ = _
      rw [evalAll_cons_some hp evalAll_nil, Option.bind_some, Op.apply, ← hv, ← hsum, hzero,
        List.sum_nil]
      congr 1
      ring
    · rw [List.sum_nil, zero_add] at hts
      exact hts
  | cons y ys =>
    rw [hrem] at hrs
    have hne : rs ≠ [] := by
      rintro rfl
      cases (evalAll_length hrs)
    refine ⟨args_cons_proper, ?_, fun es h hle => ?_⟩
    · rw [Reduced.eval, evalAll_cons_some hp hrs, Option.bind_some, apply_minus hne, hsum, ← hv,
        Option.some.injEq, hwell, hp, Option.some.injEq]
      constructor
      · intro h _
        left
        linarith
      · intro h
        rcases h hzero with rfl | ⟨ts, hts, hzero⟩
        · linarith
        · have hnil := hrest.mpr ⟨ts, hts, by rw [List.sum_nil, zero_add, hzero]⟩
          rw [hrem] at hnil
          cases hnil
    · have hlater := (@length_laterArgs V .minus t []).1
      rw [if_pos rfl, Nat.zero_add] at hlater
      have hcount := congrArg List.length hrem
      have hfilter := List.length_filter_le
        (fun x : Expr V => !x.isNumber 0) (laterArgs .minus [] t)
      rw [← Reduced.args.inj h] at hle
      simp only [removeNeutral, List.length_cons, List.length_append, List.length_map]
        at hcount hle
      omega

theorem sound_minus_kept (hzero : l ≠ ls.sum) (hv : l - ls.sum - p - ps.sum = v) :
    Sound ρ .minus ((l :: ls).map .number ++ x :: t) v
      (reduceAcc .minus (.number (firstNumber .minus (l :: ls)) :: x :: laterArgs .minus [] t)) := by
  have hkept : removeNeutral (.number (firstNumber .minus (l :: ls)) :: x ::
      laterArgs .minus [] t) 0 = .number (firstNumber .minus (l :: ls)) :: x ::
        removeNeutral (laterArgs .minus [] t) 0 := by
    rw [← removeNeutral_cons hx, removeNeutral, List.filter_cons_of_pos]
    · rfl
    · simp [Expr.isNumber, firstNumber, sub_eq_zero, hzero]
  obtain ⟨rs, hrs, hsum⟩ := evalAll_subtracted hps
  rw [reduceAcc_minus, hkept]
  refine .of_value args_cons_proper ?_ ((reducesWell_minus_cons hx).mpr fun h => absurd h hzero)
  show (evalAll ρ _).bind _ = _
  rw [evalAll_cons_some eval_number (evalAll_cons_some hp hrs), Option.bind_some,
    apply_minus (List.cons_ne_nil _ _), List.sum_cons, hsum, ← hv, firstNumber]
  congr 1
  ring

end

end Minus

theorem sound_minus (hargs : evalAll ρ (a :: b :: rest) = some qs)
    (hv : Op.minus.apply qs = some v) : ∃ r, reduceSimpleOp .minus (a :: b :: rest) = some r ∧
      Sound ρ .minus (a :: b :: rest) v r := by
  refine sound_of_cases (by decide) hargs ?_ ?_
  · rintro p ps hne rfl
    rw [apply_minus hne] at hv
    exact sound_minus_numbers (Option.some.inj hv)
  · rintro lead x t p ps hlength hx hp hps rfl
    cases lead with
    | nil =>
      have ht : t ≠ [] := by
        rintro rfl
        exact absurd hlength (by simp)
      have hps' : ps ≠ [] := by
        rintro rfl
        exact ht (List.length_eq_zero_iff.mp (evalAll_length hps).symm)
      rw [List.nil_append, apply_minus hps'] at hv
      rw [firstRun, if_pos rfl, List.nil_append]
      exact sound_minus_first hx hp hps ht (Option.some.inj hv)
    | cons l ls =>
      have hv' : l - ls.sum - p - ps.sum = v := by
        rw [List.cons_append, apply_minus (by simp), List.sum_append, List.sum_cons] at hv
        rw [← Option.some.inj hv]
        ring
      rw [firstRun, if_neg (List.cons_ne_nil _ _), List.singleton_append]
      by_cases hzero : l = ls.sum
      · exact sound_minus_removed hx hp hps hzero hv'
      · exact sound_minus_kept hx hp hps hzero hv'

theorem reduceSimpleOp_divide : reduceSimpleOp .divide (a :: b :: rest) =
    (reduceLoop .divide [] [] true (a :: removeNeutral (b :: rest) 1)).map (reduceAcc .divide) := by
  simp only [reduceSimpleOp, if_true]
  cases reduceLoop .divide [] [] true (a :: removeNeutral (b :: rest) 1) <;> rfl

theorem reduceAcc_divide {x y : Expr V} :
    reduceAcc .divide (x :: y :: es) = if x.isNumber 0 then .atom x else .args (x :: y :: es) := rfl

theorem dropWhile_numbers {x : Expr V} {t : List (Expr V)} (hx : x.numberp = false) :
    (lead.map Expr.number ++ x :: t).dropWhile Expr.numberp = x :: t := by
  induction lead with
  | nil => exact List.dropWhile_cons_of_neg (by rw [hx]; exact Bool.false_ne_true)
  | cons q lead ih => exact (List.dropWhile_cons_of_pos rfl).trans ih

theorem dropWhile_only_numbers (lead : List ℚ) :
    (lead.map (Expr.number (V := V))).dropWhile Expr.numberp = [] := by
  induction lead with
  | nil => rfl
  | cons q lead ih => exact (List.dropWhile_cons_of_pos rfl).trans ih

theorem div_eq_iff_sq {n d e : ℚ} (hd : d ≠ 0) (he : e ≠ 0) :
    n / d = n / (d * e ^ 2) ↔ n = 0 ∨ e ^ 2 = 1 := by
  have hsq : e ^ 2 ≠ 0 := pow_ne_zero 2 he
  rw [div_eq_div_iff hd (mul_ne_zero hd hsq), ← mul_assoc, mul_comm (n * d), ← sub_eq_zero]
  have hfactor : e ^ 2 * (n * d) - n * d = n * d * (e ^ 2 - 1) := by ring
  rw [hfactor, mul_eq_zero, mul_eq_zero, sub_eq_zero]
  simp [hd]

section Divide

variable {x : Expr V} {t : List (Expr V)} {p d : ℚ} {ts ls : List ℚ}

theorem evalAll_divided (hts : evalAll ρ t = some ts) (hzero : 0 ∉ ts) :
    ∃ ls, evalAll ρ (laterArgs .divide [] t) = some ls ∧ 0 ∉ ls ∧ excess false t ≠ 0 ∧
      ls.prod * excess false t ^ 2 = ts.prod := by
  obtain ⟨ls, hls, hls0, hsquare⟩ := @prod_laterArgs_divide V ρ t [] ts hts List.not_mem_nil hzero
  simp only [List.reverse_nil, List.tail_nil, List.prod_nil, one_mul, ne_eq, not_true_eq_false,
    decide_false] at hsquare
  refine ⟨ls, hls, hls0, ?_, hsquare⟩
  intro h
  rw [h] at hsquare
  apply List.prod_ne_zero hzero
  rw [← hsquare]
  ring

theorem excess_of_length_le (h : t.length ≤ (laterArgs .divide [] t).length) :
    excess false t = 1 := by
  obtain ⟨-, hsame⟩ := @length_laterArgs V .divide t []
  rw [if_pos rfl, Nat.zero_add] at hsame
  exact hsame h

theorem sound_divide_first (hx : x.numberp = false) (hp : Vug.eval ρ x = some p)
    (hts : evalAll ρ t = some ts) (hzero : 0 ∉ ts) (hv : p / ts.prod = v)
    (hwell : ReducesWell ρ .divide args ↔ p = 0 ∨ excess false t ^ 2 = 1)
    (hlength : (x :: t).length ≤ args.length) :
    Sound ρ .divide args v (reduceAcc .divide (x :: laterArgs .divide [] t)) := by
  obtain ⟨ls, hls, hls0, hexcess, hprod⟩ := evalAll_divided hts hzero
  cases hlist : laterArgs .divide [] t with
  | nil =>
    have ht : t = [] := by
      by_contra ht
      exact laterArgs_ne_nil ht hlist
    subst ht
    rw [evalAll_nil] at hts
    obtain rfl := Option.some.inj hts
    refine .of_value (fun _ h => by cases h) ?_ (hwell.mpr (.inr ?_))
    · show Vug.eval ρ x = _
      rw [hp, ← hv, List.prod_nil, div_one]
    · rw [excess, one_pow]
  | cons y ys =>
    rw [reduceAcc_divide, isNumber_of_numberp hx, if_neg Bool.false_ne_true, ← hlist]
    have hne : ls ≠ [] := by
      rintro rfl
      rw [hlist] at hls
      cases (evalAll_length hls)
    refine ⟨args_cons_proper, ?_, fun es h hle => ?_⟩
    · rw [Reduced.eval, evalAll_cons_some hp hls, Option.bind_some, apply_divide hls0 hne,
        hwell, ← hv, Option.some.injEq, ← hprod]
      exact div_eq_iff_sq (List.prod_ne_zero hls0) hexcess
    · rw [← Reduced.args.inj h] at hle
      have hone := excess_of_length_le (Nat.le_of_succ_le_succ (hlength.trans hle))
      rw [hwell, hone, one_pow]
      exact .inr rfl

theorem sound_divide_number {first : ℚ} (hfirst : first = q / d) (hd : d ≠ 0)
    (hp : Vug.eval ρ x = some p) (hp0 : p ≠ 0) (hts : evalAll ρ t = some ts) (hzero : 0 ∉ ts)
    (hv : q / (d * p * ts.prod) = v)
    (hwell : ReducesWell ρ .divide args ↔ q = 0 ∨ excess false t ^ 2 = 1)
    (hlength : t.length + 2 ≤ args.length) :
    Sound ρ .divide args v (reduceAcc .divide (.number first :: x :: laterArgs .divide [] t)) := by
  obtain ⟨ls, hls, hls0, hexcess, hprod⟩ := evalAll_divided hts hzero
  rw [reduceAcc_divide]
  by_cases hnumber : q = 0
  · have hnull : (Expr.number (V := V) first).isNumber 0 = true := by
      simp [Expr.isNumber, hfirst, hnumber]
    rw [if_pos hnull]
    refine .of_number ?_ (hwell.mpr (.inl hnumber))
    rw [hfirst, ← hv, hnumber, zero_div, zero_div]
  · have hnull : ¬ (Expr.number (V := V) first).isNumber 0 = true := by
      simp [Expr.isNumber, hfirst, hnumber, hd]
    have hpls : 0 ∉ p :: ls := by
      intro h
      rcases List.mem_cons.mp h with h | h
      · exact hp0 h.symm
      · exact hls0 h
    have hv' : q / (d * p * ls.prod * excess false t ^ 2) = v := by
      rw [mul_assoc, hprod, hv]
    rw [if_neg hnull]
    refine ⟨args_cons_proper, ?_, fun es h hle => ?_⟩
    · show (evalAll ρ _).bind _ = _ ↔ _
      rw [evalAll_cons_some eval_number (evalAll_cons_some hp hls), Option.bind_some,
        apply_divide hpls (List.cons_ne_nil _ _), hwell, Option.some.injEq, ← hv', hfirst,
        List.prod_cons, div_div, ← mul_assoc]
      exact div_eq_iff_sq (mul_ne_zero (mul_ne_zero hd hp0) (List.prod_ne_zero hls0)) hexcess
    · rw [← Reduced.args.inj h] at hle
      have hone := excess_of_length_le (Nat.le_of_add_le_add_right (hlength.trans hle))
      rw [hwell, hone, one_pow]
      exact .inr rfl

end Divide

theorem sound_divide {q : ℚ} (hargs : evalAll ρ (a :: b :: rest) = some (q :: qs))
    (hzero : 0 ∉ qs) (hv : q / qs.prod = v) :
    ∃ r, reduceSimpleOp .divide (a :: b :: rest) = some r ∧
      Sound ρ .divide (a :: b :: rest) v r := by
  obtain ⟨_, _, ha, hrest, heq⟩ := evalAll_cons.mp hargs
  obtain ⟨rfl, rfl⟩ := List.cons.inj heq
  obtain ⟨ps, hps, hmem, -, hprod⟩ := evalAll_removeNeutral 1 hrest
  have hps0 : 0 ∉ ps := fun h => hzero (hmem 0 h)
  have hfilter : (removeNeutral (b :: rest) 1).length ≤ (b :: rest).length :=
    List.length_filter_le _ _
  have hnumbers : Op.divide = .divide →
      Expr.number 0 ∉ (a :: removeNeutral (b :: rest) 1).tail :=
    fun _ h => hps0 (mem_of_number_mem hps h)
  have hcases := reduceLoop_cases (List.cons_ne_nil a (removeNeutral (b :: rest) 1)) hnumbers
  have hargs' := evalAll_cons_some ha hps
  have hwell : ReducesWell ρ .divide (a :: b :: rest) ↔ q = 0 ∨
      excess false ((a :: removeNeutral (b :: rest) 1).dropWhile Expr.numberp) ^ 2 = 1 := by
    rw [ReducesWell, ha, Option.some.injEq]
  rw [← hprod rfl] at hv
  have hlength : (a :: removeNeutral (b :: rest) 1).length ≤ (a :: b :: rest).length :=
    Nat.succ_le_succ hfilter
  rw [reduceSimpleOp_divide]
  generalize a :: removeNeutral (b :: rest) 1 = args at hcases hargs' hwell hlength ⊢
  rcases hcases with ⟨l, ls, rfl, hloop⟩ | ⟨lead, x, t, rfl, hx, hloop⟩
  · rw [evalAll_numbers] at hargs'
    obtain ⟨rfl, rfl⟩ := List.cons.inj (Option.some.inj hargs')
    rw [hloop]
    refine ⟨_, rfl, .of_number hv (hwell.mpr (.inr ?_))⟩
    rw [dropWhile_only_numbers, excess, one_pow]
  · obtain ⟨p, ts, hp, hts, hvalues⟩ := evalAll_lead hargs'
    rw [dropWhile_numbers hx, excess_cons hx] at hwell
    rw [hloop, Option.map_some]
    refine ⟨_, rfl, ?_⟩
    cases lead with
    | nil =>
      obtain ⟨rfl, rfl⟩ := List.cons.inj hvalues
      rw [firstRun, if_pos rfl, List.nil_append]
      exact sound_divide_first hx hp hts hps0 hv hwell hlength
    | cons l lead =>
      rw [List.cons_append] at hvalues
      obtain ⟨rfl, rfl⟩ := List.cons.inj hvalues
      obtain ⟨hlead0, hpts⟩ := not_or.mp (mt List.mem_append.mpr hps0)
      obtain ⟨hp0, hts0⟩ := not_or.mp (mt List.mem_cons.mpr hpts)
      have hv' : q / (lead.prod * p * ts.prod) = v := by
        rw [← hv, List.prod_append, List.prod_cons, mul_assoc]
      have hcount : t.length + 2 ≤ (a :: b :: rest).length := by
        simp only [List.length_cons, List.length_append, List.length_map] at hlength ⊢
        omega
      rw [firstRun, if_neg (List.cons_ne_nil _ _), List.singleton_append]
      exact sound_divide_number rfl (List.prod_ne_zero hlead0) hp (Ne.symm hp0) hts hts0 hv' hwell
        hcount

end Calls

theorem reduceSimpleOp_singleton {a : Expr V} (ha : a.numberp = false) :
    reduceSimpleOp op [a] =
      some (if op = .plus ∨ op = .times then .atom a else .args [a]) := by
  cases a with
  | number q => cases ha
  | var v => cases op <;> rfl
  | function f first rest => cases op <;> rfl

theorem sound_reduceSimpleOp (hargs : evalAll ρ args = some qs) (hv : op.apply qs = some v)
    (hne : args ≠ []) : ∃ r, reduceSimpleOp op args = some r ∧ Sound ρ op args v r := by
  obtain ⟨a, rest, rfl⟩ := List.exists_cons_of_ne_nil hne
  cases rest with
  | nil =>
    obtain ⟨q, _, ha, hnil, rfl⟩ := evalAll_cons.mp hargs
    rw [evalAll_nil] at hnil
    obtain rfl := Option.some.inj hnil
    have hwell : ReducesWell ρ op [a] := by
      cases op with
      | plus | times => trivial
      | minus =>
        intro p ps x t heq
        have hlength := congrArg List.length heq
        simp at hlength
      | divide =>
        right
        cases a <;> simp [removeNeutral, excess, List.dropWhile, Expr.numberp]
    cases ha' : a.numberp with
    | true =>
      obtain ⟨p, rfl⟩ := numberp_iff.mp ha'
      rw [eval_number] at ha
      obtain rfl := Option.some.inj ha
      refine ⟨.atom (.number v), ?_, .of_value (fun _ h => by cases h) ?_ hwell⟩
      · simp only [reduceSimpleOp, hv]
        rfl
      · exact @eval_number V ρ v
    | false =>
      have hvalue : (Reduced.args [a]).eval ρ op = some v := by
        rw [Reduced.eval, evalAll_cons_some ha evalAll_nil, Option.bind_some, hv]
      refine ⟨_, reduceSimpleOp_singleton ha', ?_⟩
      by_cases hop : op = .plus ∨ op = .times
      · rw [if_pos hop]
        refine .of_value (fun _ h => by cases h) ?_ hwell
        rw [← hv, Reduced.eval, ha]
        rcases hop with rfl | rfl <;> simp [Op.apply]
      · rw [if_neg hop]
        refine .of_value (fun es h => ?_) hvalue hwell
        rw [← Reduced.args.inj h]
        exact List.cons_ne_nil _ _
  | cons b rest =>
    cases op with
    | plus => exact sound_plus hargs (Option.some.inj hv)
    | times => exact sound_times hargs (Option.some.inj hv)
    | minus => exact sound_minus hargs hv
    | divide =>
      obtain ⟨q, qs', -, hrest, rfl⟩ := evalAll_cons.mp hargs
      have hne' : qs' ≠ [] := by
        rintro rfl
        cases evalAll_length hrest
      by_cases hzero : 0 ∈ qs'
      · have herror : Op.divide.apply (q :: qs') = none := by
          cases qs' with
          | nil => exact absurd rfl hne'
          | cons p ps => rw [Op.apply, if_pos hzero]; exact fun h => absurd h (List.cons_ne_nil _ _)
        rw [herror] at hv
        cases hv
      · rw [apply_divide hzero hne'] at hv
        exact sound_divide hargs hzero (Option.some.inj hv)

end Incudine.Vug

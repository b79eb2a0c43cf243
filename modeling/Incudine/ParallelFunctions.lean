import Mathlib.Algebra.BigOperators.Group.List.Basic
import Mathlib.Algebra.Ring.Rat
import Mathlib.Data.List.TakeWhile

/-!
# Parallel functions

The functions with the same time-tag are on one line, separated by `//`. The numbers before the name
of a function are increments of its time, and a function with a quoted name is ignored.
-/

namespace Incudine.ParallelFunctions

inductive Datum where
  | nil
  | number (value : ℚ)
  | symbol (name : String)
  | string (value : String)
  | cons (car cdr : Datum)
  deriving DecidableEq

namespace Datum

def numberp : Datum → Bool
  | number _ => true
  | _ => false

def stringp : Datum → Bool
  | string _ => true
  | _ => false

def separator : Datum := symbol "//"

def quote (d : Datum) : Datum := cons (symbol "QUOTE") (cons d nil)

end Datum

/-- The time of a statement, that is the time-tag of the line or a variable with its value. -/
inductive Base where
  | form (time : Datum)
  | gensym

inductive TimeForm where
  | base (time : Base)
  | plus (time : Base) (increments : List Datum)

/-- A form `(at-fname time name . args)`, or the inclusion of a score macro or of a regofile. -/
inductive Statement where
  | at (time : TimeForm) (form : List Datum)
  | inclusion (name : Option Datum) (time : TimeForm) (rest : List Datum)

inductive Expansion where
  | quoteNil
  | single (statement : Statement)
  | letTime (time : Datum) (statements : List Statement)

def ignoreFuncP : Option Datum → Bool
  | none => true
  | some fname => match fname with
    | .nil => true
    | .symbol name => name = "QUOTE"
    | .cons car _ => car = .symbol "QUOTE"
    | .number _ | .string _ => false

/-- The positions of the first datum after the delimiters and of the first delimiter. -/
def functionPosition : List Datum → ℕ → Option ℕ → Option ℕ × Option ℕ
  | [], _, delimiterPosition => (none, delimiterPosition)
  | d :: list, i, delimiterPosition =>
    let delim := if d = .separator then some i else none
    if delimiterPosition.isSome && delim.isNone then
      (some i, delimiterPosition)
    else
      functionPosition list (i + 1) (delimiterPosition.or delim)

theorem functionPosition_separator (list : List Datum) (i : ℕ) (delimiterPosition : Option ℕ) :
    functionPosition (.separator :: list) i delimiterPosition =
      functionPosition list (i + 1) (delimiterPosition.or (some i)) := by
  rw [functionPosition, if_pos rfl, Option.isNone_some, Bool.and_false]
  rfl

theorem functionPosition_found {d : Datum} (hd : d ≠ .separator) (list : List Datum) (i p : ℕ) :
    functionPosition (d :: list) i (some p) = (some i, some p) := by
  rw [functionPosition, if_neg hd]
  rfl

theorem functionPosition_none {d : Datum} (hd : d ≠ .separator) (list : List Datum) (i : ℕ) :
    functionPosition (d :: list) i none = functionPosition list (i + 1) none := by
  rw [functionPosition, if_neg hd]
  rfl

theorem functionPosition_bounds {list : List Datum} {i funcPos : ℕ}
    {delimiterPosition : Option ℕ}
    (h : (functionPosition list i delimiterPosition).1 = some funcPos) :
    i ≤ funcPos ∧ funcPos < i + list.length ∧ (delimiterPosition = none → i < funcPos) := by
  induction list generalizing i delimiterPosition with
  | nil => cases h
  | cons d list ih =>
    rw [List.length_cons]
    by_cases hd : d = .separator
    · rw [hd, functionPosition_separator] at h
      have hbounds := ih h
      omega
    · cases delimiterPosition with
      | some p =>
        rw [functionPosition_found hd] at h
        obtain rfl := Option.some.inj h
        exact ⟨Nat.le_refl i, by omega, nofun⟩
      | none =>
        rw [functionPosition_none hd] at h
        have hbounds := ih h
        omega

def normalizeScoreStatementForm (time : Base) (form : List Datum) : TimeForm × List Datum :=
  if form.head?.any Datum.numberp then
    let funcPos := (form.findIdx? (!Datum.numberp ·)).getD 1
    (.plus time (form.take funcPos), form.drop funcPos)
  else
    (.base time, form)

def maybeExpandScoreStatementForm (scoreMacroNameP : Datum → Bool) :
    TimeForm × List Datum → Statement
  | (time, form) =>
    if form.head?.any fun name => name.stringp || scoreMacroNameP name then
      .inclusion form.head? time form.tail
    else
      .at time form

section Expand

variable (scoreMacroNameP : Datum → Bool)

/-- The local function of `score-expand-parallel-functions`. -/
def next (time : Base) (form : List Datum) : List Statement :=
  let rest := match _h : (functionPosition form 0 none).1 with
    | some funcPos => next time (form.drop funcPos)
    | none => []
  if ignoreFuncP (form.find? (!Datum.numberp ·)) then
    rest
  else
    let chunk := match (functionPosition form 0 none).2 with
      | some delimPos => form.take delimPos
      | none => form
    maybeExpandScoreStatementForm scoreMacroNameP (normalizeScoreStatementForm time chunk) :: rest
termination_by form.length
decreasing_by
  have hbounds := functionPosition_bounds _h
  have hpos := hbounds.2.2 rfl
  rw [List.length_drop]
  omega

/-- The expansion of the form `(at-fname time . form)`. -/
def scoreExpandParallelFunctions (time : Datum) (form : List Datum) : Expansion :=
  match form.idxOf? .separator with
  | none =>
    if ignoreFuncP form.head? then
      .quoteNil
    else
      .single (maybeExpandScoreStatementForm scoreMacroNameP
        (normalizeScoreStatementForm (.form time) form))
  | some 0 =>
    match _h : (functionPosition form 0 none).1 with
    | some funcPos => scoreExpandParallelFunctions time (form.drop funcPos)
    | none => .quoteNil
  | some _ => .letTime time (next scoreMacroNameP .gensym form)
termination_by form.length
decreasing_by
  have hbounds := functionPosition_bounds _h
  have hpos := hbounds.2.2 rfl
  rw [List.length_drop]
  omega

end Expand

structure Event where
  time : ℚ
  name : Option Datum
  args : List Datum
  inclusion : Bool
  deriving DecidableEq

section Events

variable (eval : Datum → ℚ)

def Datum.value : Datum → ℚ
  | number value => value
  | d => eval d

def Base.value (gensym : ℚ) : Base → ℚ
  | form time => time.value eval
  | .gensym => gensym

def TimeForm.value (gensym : ℚ) : TimeForm → ℚ
  | base time => time.value eval gensym
  | plus time increments => time.value eval gensym + (increments.map (Datum.value eval)).sum

def Statement.event (gensym : ℚ) : Statement → Event
  | .at time form => ⟨time.value eval gensym, form.head?, form.tail, false⟩
  | inclusion name time rest => ⟨time.value eval gensym, name, rest, true⟩

def Expansion.events : Expansion → List Event
  | quoteNil => []
  | single statement => [statement.event eval 0]
  | letTime time statements => statements.map (Statement.event eval (time.value eval))

end Events

inductive Chunk where
  | empty
  | call (increments : List ℚ) (muted : Bool) (name : Datum) (args : List Datum)

inductive FunctionName : Datum → Prop
  | symbol {name : String} (hseparator : name ≠ "//") (hquote : name ≠ "QUOTE") :
      FunctionName (.symbol name)
  | string (name : String) : FunctionName (.string name)

namespace Chunk

def function (muted : Bool) (name : Datum) : Datum := if muted then name.quote else name

def form : Chunk → List Datum
  | empty => []
  | call increments muted name args => increments.map .number ++ function muted name :: args

def isEmpty : Chunk → Bool
  | empty => true
  | call .. => false

/-- The chunk is not empty and its function is not ignored. -/
def played : Chunk → Bool
  | call _ false _ _ => true
  | call _ true _ _ | empty => false

inductive WellFormed : Chunk → Prop
  | empty : WellFormed .empty
  | call {increments : List ℚ} {muted : Bool} {name : Datum} {args : List Datum}
      (hname : FunctionName name) (hargs : .separator ∉ args) :
      WellFormed (.call increments muted name args)

/-- The event of a function, at the time of the line plus its own increments. -/
def event (scoreMacroNameP : Datum → Bool) (time : ℚ) : Chunk → Event
  | empty => ⟨time, none, [], false⟩
  | call increments muted name args =>
    ⟨time + increments.sum, some (function muted name), args,
      (function muted name).stringp || scoreMacroNameP (function muted name)⟩

end Chunk

def line : List Chunk → List Datum
  | [] => []
  | [chunk] => chunk.form
  | chunk :: chunk' :: chunks => chunk.form ++ .separator :: line (chunk' :: chunks)

section Positions

variable {a l form : List Datum}

def remaining (form : List Datum) : List Datum :=
  (functionPosition form 0 none).1.elim [] form.drop

theorem functionPosition_some (l : List Datum) (i p : ℕ) :
    functionPosition l i (some p) =
      (if l.dropWhile (· = .separator) = [] then none
        else some (i + (l.takeWhile (· = .separator)).length), some p) := by
  induction l generalizing i with
  | nil => rfl
  | cons d l ih =>
    by_cases hd : d = .separator
    · rw [hd, functionPosition_separator, Option.some_or, ih, List.dropWhile_cons_of_pos (by simp),
        List.takeWhile_cons_of_pos (by simp), List.length_cons]
      simp only [Nat.add_assoc, Nat.add_comm 1]
    · rw [functionPosition_found hd, List.dropWhile_cons_of_neg (by simpa using hd),
        List.takeWhile_cons_of_neg (by simpa using hd), if_neg (List.cons_ne_nil _ _)]
      rfl

theorem functionPosition_append (ha : .separator ∉ a) (l : List Datum) (i : ℕ) :
    functionPosition (a ++ .separator :: l) i none =
      functionPosition l (i + a.length + 1) (some (i + a.length)) := by
  induction a generalizing i with
  | nil => exact functionPosition_separator l i none
  | cons d a ih =>
    rw [List.mem_cons, not_or] at ha
    obtain ⟨hd, ha⟩ := ha
    rw [List.cons_append, functionPosition_none (Ne.symm hd), ih ha, List.length_cons,
      Nat.add_right_comm i 1, Nat.add_assoc i]

theorem functionPosition_not_mem (ha : .separator ∉ a) (i : ℕ) :
    functionPosition a i none = (none, none) := by
  induction a generalizing i with
  | nil => rfl
  | cons d a ih =>
    rw [List.mem_cons, not_or] at ha
    obtain ⟨hd, ha⟩ := ha
    rw [functionPosition_none (Ne.symm hd), ih ha]

theorem remaining_append (ha : .separator ∉ a) (l : List Datum) :
    remaining (a ++ .separator :: l) = l.dropWhile (· = .separator) := by
  rw [remaining, functionPosition_append ha, functionPosition_some]
  split
  next hnil => exact hnil.symm
  next hne =>
    rw [Option.elim_some, Nat.zero_add, Nat.add_assoc, Nat.add_comm 1, ← List.drop_drop,
      List.drop_left, List.drop_succ_cons]
    calc l.drop (l.takeWhile (· = .separator)).length
      _ = (l.takeWhile (· = .separator) ++ l.dropWhile (· = .separator)).drop
            (l.takeWhile (· = .separator)).length := by rw [List.takeWhile_append_dropWhile]
      _ = l.dropWhile (· = .separator) := List.drop_left

theorem remaining_not_mem (ha : .separator ∉ a) : remaining a = [] := by
  rw [remaining, functionPosition_not_mem ha]
  rfl

end Positions

variable {name : Datum}

section Expansion

variable {scoreMacroNameP : Datum → Bool} {chunk : Chunk} {chunks : List Chunk}

theorem next_nil (time : Base) : next scoreMacroNameP time [] = [] := by
  rw [next]
  rfl

theorem next_eq (time : Base) (form : List Datum) :
    next scoreMacroNameP time form =
      (if ignoreFuncP (form.find? (!Datum.numberp ·)) then []
        else [maybeExpandScoreStatementForm scoreMacroNameP (normalizeScoreStatementForm time
          ((functionPosition form 0 none).2.elim form form.take))]) ++
        next scoreMacroNameP time (remaining form) := by
  have hrest : (match _h : (functionPosition form 0 none).1 with
      | some funcPos => next scoreMacroNameP time (form.drop funcPos)
      | none => []) = next scoreMacroNameP time (remaining form) := by
    rw [remaining]
    split
    next funcPos h => rw [h, Option.elim_some]
    next h => rw [h, Option.elim_none, next_nil]
  rw [next, hrest]
  split
  next => rfl
  next =>
    cases (functionPosition form 0 none).2 with
    | none => rfl
    | some delimPos => rfl

namespace Chunk

theorem function_ne_separator {muted : Bool} (h : FunctionName name) :
    function muted name ≠ .separator := by
  cases muted with
  | true => exact nofun
  | false =>
    cases h with
    | symbol hseparator hquote => exact fun heq => hseparator (Datum.symbol.inj heq)
    | string name => exact nofun

theorem ignoreFuncP_function (muted : Bool) (h : FunctionName name) :
    ignoreFuncP (some (function muted name)) = muted := by
  cases muted with
  | true => rfl
  | false =>
    cases h with
    | symbol hseparator hquote => exact decide_eq_false hquote
    | string name => rfl

theorem numberp_function (muted : Bool) (h : FunctionName name) :
    (function muted name).numberp = false := by
  cases muted with
  | true => rfl
  | false => cases h <;> rfl

theorem separator_not_mem_form (h : chunk.WellFormed) : .separator ∉ chunk.form := by
  cases h with
  | empty => exact List.not_mem_nil
  | call hname hargs =>
    simp only [form, List.mem_append, List.mem_cons, List.mem_map, not_or, not_exists, not_and]
    exact ⟨fun _ _ => nofun, (function_ne_separator hname).symm, hargs⟩

theorem find?_form (increments : List ℚ) (muted : Bool) (hname : FunctionName name)
    (args l : List Datum) :
    ((call increments muted name args).form ++ l).find? (!Datum.numberp ·) =
      some (function muted name) := by
  induction increments with
  | nil => exact List.find?_cons_of_pos (by rw [numberp_function muted hname]; rfl)
  | cons increment increments ih => exact ih

theorem normalize_form (time : Base) (increments : List ℚ) (muted : Bool)
    (hname : FunctionName name) (args : List Datum) :
    normalizeScoreStatementForm time (call increments muted name args).form =
      (if increments = [] then .base time else .plus time (increments.map .number),
        function muted name :: args) := by
  have hnumber := numberp_function muted hname
  have hfind : (call increments muted name args).form.findIdx? (!Datum.numberp ·) =
      some increments.length := by
    have hnumbers : (increments.map Datum.number).findIdx? (!Datum.numberp ·) = none := by
      simp [Datum.numberp]
    rw [form, List.findIdx?_append, hnumbers, List.findIdx?_cons, hnumber]
    simp
  rw [normalizeScoreStatementForm, hfind, Option.getD_some]
  cases increments with
  | nil => simp [form, hnumber]
  | cons increment increments => simp [form, Datum.numberp]

theorem event_form (eval : Datum → ℚ) (gensym : ℚ) (time : Base) (increments : List ℚ)
    (muted : Bool) (hname : FunctionName name) (args : List Datum) :
    (maybeExpandScoreStatementForm scoreMacroNameP (normalizeScoreStatementForm time
      (call increments muted name args).form)).event eval gensym =
    (call increments muted name args).event scoreMacroNameP (time.value eval gensym) := by
  have htime : (if increments = [] then TimeForm.base time
      else .plus time (increments.map .number)).value eval gensym =
      time.value eval gensym + increments.sum := by
    split
    next hnil => rw [hnil, List.sum_nil, add_zero, TimeForm.value]
    next =>
      rw [TimeForm.value, List.map_map]
      have hvalue : Datum.value eval ∘ Datum.number = id := by
        funext value
        rfl
      rw [hvalue, List.map_id]
  rw [normalize_form time increments muted hname, maybeExpandScoreStatementForm, event, ← htime,
    List.head?_cons, Option.any_some, List.tail_cons]
  cases (function muted name).stringp || scoreMacroNameP (function muted name) <;> rfl

end Chunk

theorem line_cons (chunk : Chunk) (hne : chunks ≠ []) :
    line (chunk :: chunks) = chunk.form ++ .separator :: line chunks := by
  cases chunks with
  | nil => exact absurd rfl hne
  | cons chunk' chunks => rfl

theorem dropWhile_form (hchunk : chunk.WellFormed) (hempty : chunk.isEmpty = false)
    (l : List Datum) :
    (chunk.form ++ l).dropWhile (· = .separator) = chunk.form ++ l := by
  have hnot := Chunk.separator_not_mem_form hchunk
  have hne : chunk.form ≠ [] := by
    cases chunk with
    | empty => cases hempty
    | call => exact List.append_ne_nil_of_right_ne_nil _ (List.cons_ne_nil _ _)
  obtain ⟨d, form, hform⟩ := List.exists_cons_of_ne_nil hne
  rw [hform] at hnot ⊢
  have hd : d ≠ .separator := fun heq => hnot (heq ▸ List.mem_cons_self)
  exact List.dropWhile_cons_of_neg (by simpa using hd)

theorem dropWhile_line (h : ∀ chunk ∈ chunks, chunk.WellFormed) :
    (line chunks).dropWhile (· = .separator) = line (chunks.dropWhile Chunk.isEmpty) := by
  induction chunks with
  | nil => rfl
  | cons chunk chunks ih =>
    rw [List.forall_mem_cons] at h
    cases hempty : chunk.isEmpty with
    | false =>
      rw [List.dropWhile_cons_of_neg (by simp [hempty])]
      by_cases hchunks : chunks = []
      · rw [hchunks, line, ← List.append_nil chunk.form]
        exact dropWhile_form h.1 hempty []
      · rw [line_cons chunk hchunks]
        exact dropWhile_form h.1 hempty _
    | true =>
      rw [List.dropWhile_cons_of_pos hempty, ← ih h.2]
      have hform : chunk.form = [] := by
        cases chunk with
        | empty => rfl
        | call => cases hempty
      by_cases hchunks : chunks = []
      · rw [hchunks]
        simp only [line, hform]
      · rw [line_cons chunk hchunks, hform, List.nil_append,
          List.dropWhile_cons_of_pos (by simp)]

theorem next_line (time : Base) (hchunk : chunk.WellFormed) (hempty : chunk.isEmpty = false)
    (hchunks : ∀ chunk ∈ chunks, chunk.WellFormed) :
    next scoreMacroNameP time (line (chunk :: chunks)) =
      (if chunk.played then
        [maybeExpandScoreStatementForm scoreMacroNameP (normalizeScoreStatementForm time chunk.form)]
      else []) ++ next scoreMacroNameP time (line (chunks.dropWhile Chunk.isEmpty)) := by
  have hnot := Chunk.separator_not_mem_form hchunk
  have hignore : ∀ l, ignoreFuncP ((chunk.form ++ l).find? (!Datum.numberp ·)) = !chunk.played := by
    intro l
    cases hchunk with
    | empty => cases hempty
    | @call increments muted name args hname hargs =>
      rw [Chunk.find?_form increments muted hname args l, Chunk.ignoreFuncP_function muted hname]
      cases muted <;> rfl
  rw [next_eq]
  by_cases hnil : chunks = []
  · have hignore := hignore []
    rw [List.append_nil] at hignore
    rw [hnil, line, hignore, functionPosition_not_mem hnot, remaining_not_mem hnot]
    cases chunk.played <;> rfl
  · rw [line_cons chunk hnil, hignore, functionPosition_append hnot, functionPosition_some,
      remaining_append hnot, dropWhile_line hchunks]
    simp only [Nat.zero_add, Option.elim_some, List.take_left]
    cases chunk.played <;> rfl

theorem event_statements (eval : Datum → ℚ) (gensym : ℚ) (time : Base)
    (hchunk : chunk.WellFormed) (hplayed : chunk.played = true) :
    (maybeExpandScoreStatementForm scoreMacroNameP
      (normalizeScoreStatementForm time chunk.form)).event eval gensym =
      chunk.event scoreMacroNameP (time.value eval gensym) := by
  cases hchunk with
  | empty => cases hplayed
  | call hname hargs => exact Chunk.event_form eval gensym time _ _ hname _

theorem events_next (eval : Datum → ℚ) (gensym : ℚ) (h : ∀ chunk ∈ chunks, chunk.WellFormed) :
    (next scoreMacroNameP .gensym (line (chunks.dropWhile Chunk.isEmpty))).map
        (Statement.event eval gensym) =
      (chunks.filter Chunk.played).map (Chunk.event scoreMacroNameP gensym) := by
  induction chunks with
  | nil =>
    rw [List.dropWhile_nil, line, next_nil]
    rfl
  | cons chunk chunks ih =>
    rw [List.forall_mem_cons] at h
    cases hempty : chunk.isEmpty with
    | true =>
      have hplayed : chunk.played = false := by
        cases chunk with
        | empty => rfl
        | call => cases hempty
      rw [List.dropWhile_cons_of_pos hempty, ih h.2, List.filter_cons_of_neg (by simp [hplayed])]
    | false =>
      rw [List.dropWhile_cons_of_neg (by simp [hempty]), next_line .gensym h.1 hempty h.2,
        List.map_append, ih h.2]
      cases hplayed : chunk.played with
      | false => rw [List.filter_cons_of_neg (by simp [hplayed])]; rfl
      | true =>
        rw [List.filter_cons_of_pos hplayed, if_pos rfl, List.map_singleton,
          event_statements eval gensym .gensym h.1 hplayed]
        rfl

theorem expand_nil (time : Datum) :
    scoreExpandParallelFunctions scoreMacroNameP time [] = .quoteNil := by
  rw [scoreExpandParallelFunctions]
  rfl

theorem expand_separator (time : Datum) (l : List Datum) :
    scoreExpandParallelFunctions scoreMacroNameP time (.separator :: l) =
      scoreExpandParallelFunctions scoreMacroNameP time (l.dropWhile (· = .separator)) := by
  have hremaining := remaining_append (a := []) List.not_mem_nil l
  have hidx : (Datum.separator :: l).idxOf? .separator = some 0 := by
    rw [List.idxOf?_cons, if_pos (by simp)]
  rw [List.nil_append, remaining] at hremaining
  rw [scoreExpandParallelFunctions]
  simp only [hidx]
  split
  next funcPos h => rw [← hremaining, h, Option.elim_some]
  next h => rw [← hremaining, h, Option.elim_none, expand_nil]

theorem expand_line (time : Datum) (h : ∀ chunk ∈ chunks, chunk.WellFormed) :
    scoreExpandParallelFunctions scoreMacroNameP time (line chunks) =
      scoreExpandParallelFunctions scoreMacroNameP time (line (chunks.dropWhile Chunk.isEmpty)) := by
  rw [← dropWhile_line h]
  cases hline : line chunks with
  | nil => rfl
  | cons d l =>
    by_cases hd : d = .separator
    · rw [hd, expand_separator, List.dropWhile_cons_of_pos (by simp)]
    · rw [List.dropWhile_cons_of_neg (by simpa using hd)]

theorem idxOf?_of_not_mem {a : List Datum} (ha : .separator ∉ a) : a.idxOf? .separator = none :=
  List.idxOf?_eq_none_iff.mpr ha

theorem expand_form (time : Datum) (hchunk : chunk.WellFormed) :
    scoreExpandParallelFunctions scoreMacroNameP time chunk.form =
      if ignoreFuncP chunk.form.head? then .quoteNil
      else .single (maybeExpandScoreStatementForm scoreMacroNameP
        (normalizeScoreStatementForm (.form time) chunk.form)) := by
  rw [scoreExpandParallelFunctions]
  simp only [idxOf?_of_not_mem (Chunk.separator_not_mem_form hchunk)]

theorem expand_cons (time : Datum) (hchunk : chunk.WellFormed) (hempty : chunk.isEmpty = false)
    (hne : chunks ≠ []) :
    scoreExpandParallelFunctions scoreMacroNameP time (line (chunk :: chunks)) =
      .letTime time (next scoreMacroNameP .gensym (line (chunk :: chunks))) := by
  have hnone := idxOf?_of_not_mem (Chunk.separator_not_mem_form hchunk)
  have hidx : (line (chunk :: chunks)).idxOf? .separator = some chunk.form.length := by
    rw [List.idxOf?] at hnone ⊢
    rw [line_cons chunk hne, List.findIdx?_append, hnone, List.findIdx?_cons, if_pos (by simp)]
    simp only [Option.map_some, Nat.zero_add, Option.none_or]
  have hpos : chunk.form.length ≠ 0 := by
    cases chunk with
    | empty => cases hempty
    | call increments muted name args => simp [Chunk.form]
  rw [scoreExpandParallelFunctions]
  simp only [hidx]

variable (eval : Datum → ℚ)

theorem events_form (time : Datum) {increments : List ℚ} {muted : Bool} {args : List Datum}
    (h : (Chunk.call increments muted name args).WellFormed) :
    (scoreExpandParallelFunctions scoreMacroNameP time
      (Chunk.call increments muted name args).form).events eval =
      if muted ∧ increments = [] then []
      else [(Chunk.call increments muted name args).event scoreMacroNameP (time.value eval)] := by
  have hname : FunctionName name := by cases h; assumption
  have hhead : ignoreFuncP (Chunk.call increments muted name args).form.head? =
      (muted && increments.isEmpty) := by
    cases increments with
    | nil => exact (Chunk.ignoreFuncP_function muted hname).trans (Bool.and_true muted).symm
    | cons increment increments => exact (Bool.and_false muted).symm
  rw [expand_form time h, hhead]
  by_cases hmuted : muted = true ∧ increments = []
  · rw [if_pos hmuted, if_pos (by simp [hmuted.1, hmuted.2])]
    rfl
  · rw [if_neg hmuted, if_neg (by simpa using hmuted), Expansion.events,
      Chunk.event_form eval 0 (.form time) increments muted hname args]
    rfl

theorem filter_played (chunks : List Chunk) :
    (chunks.dropWhile Chunk.isEmpty).filter Chunk.played = chunks.filter Chunk.played := by
  induction chunks with
  | nil => rfl
  | cons chunk chunks ih =>
    cases chunk with
    | empty => exact ih
    | call => rfl

/-- The events of a line are the ones of its functions that are not muted, each at the time of the
line plus its own increments, as if they were on separate lines, if and only if the only function of
the line is not a muted one with increments. -/
theorem events_line_iff (time : Datum) (h : ∀ chunk ∈ chunks, chunk.WellFormed) :
    (scoreExpandParallelFunctions scoreMacroNameP time (line chunks)).events eval =
        ((chunks.filter Chunk.played).flatMap fun chunk =>
          (scoreExpandParallelFunctions scoreMacroNameP time (line [chunk])).events eval) ∧
      (scoreExpandParallelFunctions scoreMacroNameP time (line chunks)).events eval =
        (chunks.filter Chunk.played).map (Chunk.event scoreMacroNameP (time.value eval)) ↔
    ∀ increments name args,
      chunks.dropWhile Chunk.isEmpty = [.call increments true name args] → increments = [] := by
  have hseparate : ((chunks.filter Chunk.played).flatMap fun chunk =>
      (scoreExpandParallelFunctions scoreMacroNameP time (line [chunk])).events eval) =
      (chunks.filter Chunk.played).map (Chunk.event scoreMacroNameP (time.value eval)) := by
    rw [← List.flatMap_pure_eq_map]
    refine List.flatMap_congr fun chunk hchunk => ?_
    obtain ⟨hmem, hplayed⟩ := List.mem_filter.mp hchunk
    have hchunk := h chunk hmem
    cases hchunk with
    | empty => cases hplayed
    | @call increments muted name args hname hargs =>
      have hmuted : muted = false := by
        cases muted with
        | true => cases hplayed
        | false => rfl
      rw [line, events_form eval time (.call hname hargs), if_neg (by simp [hmuted])]
      rfl
  rw [hseparate, and_self, expand_line time h]
  have hrest : ∀ chunk ∈ chunks.dropWhile Chunk.isEmpty, chunk.WellFormed :=
    fun chunk hchunk => h chunk ((List.dropWhile_sublist _).subset hchunk)
  have hhead := List.head?_dropWhile_not Chunk.isEmpty chunks
  rw [← filter_played]
  cases hdrop : chunks.dropWhile Chunk.isEmpty with
  | nil =>
    rw [line, expand_nil]
    exact ⟨fun _ _ _ _ => nofun, fun _ => rfl⟩
  | cons chunk rest =>
    rw [hdrop] at hhead hrest
    rw [List.forall_mem_cons] at hrest
    have hempty : chunk.isEmpty = false := hhead
    cases rest with
    | nil =>
      cases chunk with
      | empty => cases hempty
      | call increments muted name args =>
        rw [line, events_form eval time hrest.1]
        cases muted with
        | false => exact ⟨fun _ _ _ _ => nofun, fun _ => rfl⟩
        | true =>
          have hfilter : [Chunk.call increments true name args].filter Chunk.played = [] := rfl
          rw [hfilter, List.map_nil]
          constructor
          · intro hevents increments' name' args' heq
            cases heq
            by_contra hne
            rw [if_neg (by simp [hne])] at hevents
            cases hevents
          · intro hnil
            rw [if_pos ⟨rfl, hnil increments name args rfl⟩]
    | cons chunk' rest =>
      rw [expand_cons time hrest.1 hempty (List.cons_ne_nil _ _), Expansion.events, ← hdrop,
        filter_played, events_next eval (time.value eval) h, hdrop]
      exact ⟨fun _ _ _ _ => nofun, fun _ => rfl⟩

end Expansion

/-- The line `0 // .11 i1 1 // // 'i2 // .25 i3 //`. -/
theorem events_line_iff_five :
    (scoreExpandParallelFunctions (fun _ => false) (.number 0)
      [.separator, .number (11 / 100), .symbol "I1", .number 1, .separator, .separator,
        (Datum.symbol "I2").quote, .separator, .number (1 / 4), .symbol "I3", .separator]).events
        (fun _ => 0) =
      [⟨11 / 100, some (.symbol "I1"), [.number 1], false⟩,
        ⟨1 / 4, some (.symbol "I3"), [], false⟩] := by
  have h : ∀ chunk ∈ [Chunk.empty, .call [11 / 100] false (.symbol "I1") [.number 1], .empty,
      .call [] true (.symbol "I2") [], .call [1 / 4] false (.symbol "I3") [], .empty],
      chunk.WellFormed := by
    simp only [List.forall_mem_cons]
    exact ⟨.empty, .call (.symbol (by decide) (by decide)) (by decide), .empty,
      .call (.symbol (by decide) (by decide)) (by decide),
      .call (.symbol (by decide) (by decide)) (by decide), .empty, nofun⟩
  have hevents := (@events_line_iff (fun _ => false) _ (fun _ => 0) (.number 0) h).mpr
    (by rintro increments name args ⟨⟩)
  have hplayed : [Chunk.call [11 / 100] false (.symbol "I1") [.number 1],
      .call [1 / 4] false (.symbol "I3") []].map (Chunk.event (fun _ => false) 0) =
      [⟨11 / 100, some (.symbol "I1"), [.number 1], false⟩,
        ⟨1 / 4, some (.symbol "I3"), [], false⟩] := by
    simp [Chunk.event, Chunk.function, Datum.stringp]
  exact hevents.2.trans hplayed

/-- The line `0 .1 'foo` has an event, but its only function is muted. -/
theorem expand_muted :
    ¬ ∀ chunks : List Chunk, (∀ chunk ∈ chunks, chunk.WellFormed) →
      (scoreExpandParallelFunctions (fun _ => false) (.number 0) (line chunks)).events
          (fun _ => 0) =
        (chunks.filter Chunk.played).map (Chunk.event (fun _ => false) 0) := by
  intro hall
  have hchunk : (Chunk.call [1 / 10] true (.symbol "FOO") []).WellFormed :=
    .call (.symbol (by decide) (by decide)) List.not_mem_nil
  have hevents := hall [.call [1 / 10] true (.symbol "FOO") []] (by simpa using hchunk)
  rw [line, events_form _ _ hchunk, if_neg (by simp)] at hevents
  cases hevents

end Incudine.ParallelFunctions

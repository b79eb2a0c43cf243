import Mathlib.Data.List.DropRight

/-!
# Lines of a score

A line that starts with a list is a time-tagged function, where the list is the time, or a Lisp
statement. The line is trimmed and its comment removed before the choice, that depends on what
follows the list.
-/

namespace Incudine.ScoreLine

def blankCharP (c : Char) : Bool := c = ' ' || c = '\t'

def trimmedCharP (c : Char) : Bool := c = ' ' || c = '\t' || c = '\r'

def stringTrimBlank (str : List Char) : List Char :=
  (str.dropWhile trimmedCharP).rdropWhile trimmedCharP

def removeComment (str : List Char) : List Char := str.takeWhile (· ≠ ';')

def lineBreakP (str : List Char) : Bool :=
  1 < str.length && str[str.length - 1]? = some '\\' && str[str.length - 2]? ≠ some '\\'

def readScoreLine : List (List Char) → Option (List Char × List (List Char))
  | [] => none
  | line :: stream =>
    let s := removeComment (stringTrimBlank line)
    if lineBreakP s then
      match readScoreLine stream with
      | none => some (s.take (s.length - 2) ++ [' '], [])
      | some (next, stream') => some (s.take (s.length - 2) ++ ' ' :: next, stream')
    else
      some (s, stream)

/-- The local function of `line-parse-skip-string`. -/
def skipP (str : List Char) (last i : ℕ) : ℕ :=
  if i < last then
    match str[i]? with
    | some '"' => i
    | some '\\' => skipP str last (i + 2)
    | _ => skipP str last (i + 1)
  else
    i
termination_by last - i

def lineParseSkipString (str : List Char) (index last : ℕ) : ℕ := skipP str last (index + 1)

theorem le_skipP (str : List Char) (last i : ℕ) : i ≤ skipP str last i := by
  induction i using skipP.induct str last with
  | case1 i hlt hquote =>
    rw [skipP, if_pos hlt, hquote]
    exact Nat.le_refl i
  | case2 i hlt hescape ih =>
    rw [skipP, if_pos hlt, hescape]
    exact (Nat.le_add_right i 2).trans ih
  | case3 i hlt hquote hescape ih =>
    rw [skipP, if_pos hlt]
    split
    next h => exact absurd h hquote
    next h => exact absurd h hescape
    next => exact (Nat.le_succ i).trans ih
  | case4 i hge => rw [skipP, if_neg hge]

theorem lt_lineParseSkipString (str : List Char) (index last : ℕ) :
    index < lineParseSkipString str index last :=
  le_skipP str last (index + 1)

/-- The local function of `%time-tagged-function-p`. -/
def stmtP (s : List Char) (i unmatchedParens : ℕ) : Bool :=
  if i < s.length then
    match unmatchedParens with
    | 0 => (s.drop i).any (!blankCharP ·)
    | u + 1 =>
      match s[i]? with
      | some '"' => stmtP s (lineParseSkipString s i s.length) (u + 1)
      | some ')' => stmtP s (i + 1) u
      | some '(' => stmtP s (i + 1) (u + 2)
      | _ => stmtP s (i + 1) (u + 1)
  else
    false
termination_by s.length - i
decreasing_by
  · have := lt_lineParseSkipString s i s.length
    omega
  all_goals omega

def listTimeTaggedP (s : List Char) : Bool :=
  s[s.length - 1]? ≠ some ')' || stmtP s 1 1

def timeTaggedFunctionP (string : List Char) : Bool :=
  if string[0]? = some '(' then
    listTimeTaggedP string
  else
    match string.findIdx? blankCharP with
    | some spacePos => (string.drop spacePos).any (!blankCharP ·)
    | none => false

/-- The positions of the reader of Lisp inside a text. -/
inductive Position where
  | code
  | string
  | escape

def readForm : ℕ → Position → List Char → Option (List Char)
  | _, _, [] => none
  | depth, .escape, c :: text => (readForm depth .string text).map (c :: ·)
  | depth, .string, c :: text =>
    if c = '\\' then
      (readForm depth .escape text).map (c :: ·)
    else if c = '"' then
      if depth = 0 then some [c] else (readForm depth .code text).map (c :: ·)
    else
      (readForm depth .string text).map (c :: ·)
  | depth, .code, c :: text =>
    if c = '"' then
      (readForm depth .string text).map (c :: ·)
    else if c = '(' then
      (readForm (depth + 1) .code text).map (c :: ·)
    else if c = ')' then
      if depth ≤ 1 then some [c] else (readForm (depth - 1) .code text).map (c :: ·)
    else if depth = 0 then
      some (c :: text.takeWhile fun c => !(trimmedCharP c || c = '(' || c = ')' || c = '"'))
    else
      (readForm depth .code text).map (c :: ·)

inductive Sexp where
  | timeTagged (line : List Char)
  | statement (form : Option (List Char))
  deriving DecidableEq

def scoreLineToSexp (line : List Char) : Sexp :=
  if timeTaggedFunctionP line then
    .timeTagged line
  else
    .statement (readForm 0 .code (line.dropWhile trimmedCharP))

inductive StringBody : List Char → Prop
  | nil : StringBody []
  | char {c : Char} {l : List Char} (hquote : c ≠ '"') (hescape : c ≠ '\\') (h : StringBody l) :
      StringBody (c :: l)
  | escape {c : Char} {l : List Char} (h : StringBody l) : StringBody ('\\' :: c :: l)

/-- The text between the parentheses of a list. -/
inductive Items : List Char → Prop
  | nil : Items []
  | char {c : Char} {l : List Char} (hopen : c ≠ '(') (hclose : c ≠ ')') (hquote : c ≠ '"')
      (h : Items l) : Items (c :: l)
  | string {b l : List Char} (hb : StringBody b) (h : Items l) : Items ('"' :: (b ++ '"' :: l))
  | list {l₁ l₂ : List Char} (h₁ : Items l₁) (h₂ : Items l₂) : Items ('(' :: (l₁ ++ ')' :: l₂))

inductive Form : List Char → Prop
  | mk {l : List Char} (h : Items l) : Form ('(' :: (l ++ [')']))

theorem StringBody.readForm {b : List Char} (h : StringBody b) (depth : ℕ) (text : List Char) :
    readForm (depth + 1) .string (b ++ '"' :: text) =
      (readForm (depth + 1) .code text).map (b ++ '"' :: ·) := by
  induction h with
  | nil => simp [ScoreLine.readForm]
  | char hquote hescape h ih =>
    simp [ScoreLine.readForm, hquote, hescape, ih, Function.comp_def]
  | escape h ih => simp [ScoreLine.readForm, ih, Function.comp_def]

theorem Items.readForm {l : List Char} (h : Items l) (depth : ℕ) (text : List Char) :
    readForm (depth + 1) .code (l ++ text) = (readForm (depth + 1) .code text).map (l ++ ·) := by
  induction h generalizing depth text with
  | nil => simp
  | char hopen hclose hquote h ih =>
    simp [ScoreLine.readForm, hopen, hclose, hquote, ih, Function.comp_def]
  | string hb h ih => simp [ScoreLine.readForm, hb.readForm, ih, Function.comp_def]
  | list h₁ h₂ ih₁ ih₂ => simp [ScoreLine.readForm, ih₁, ih₂, Function.comp_def]

theorem Form.readForm {form : List Char} (h : Form form) (text : List Char) :
    readForm 0 .code (form ++ text) = some form := by
  cases h with
  | mk h => simp [ScoreLine.readForm, h.readForm]

section Scanner

variable {s l text form rest : List Char} {i u : ℕ}

theorem skipP_stop (str : List Char) (i : ℕ) :
    str.length ≤ skipP str str.length i ∨ str[skipP str str.length i]? = some '"' := by
  induction i using skipP.induct str str.length with
  | case1 i hlt hquote =>
    rw [skipP, if_pos hlt, hquote]
    exact .inr hquote
  | case2 i hlt hescape ih =>
    rw [skipP, if_pos hlt, hescape]
    exact ih
  | case3 i hlt hquote hescape ih =>
    rw [skipP, if_pos hlt]
    split
    next h => exact absurd h hquote
    next h => exact absurd h hescape
    next => exact ih
  | case4 i hge =>
    rw [skipP, if_neg hge]
    exact .inl (Nat.le_of_not_lt hge)

theorem stmtP_of_le (h : s.length ≤ i) : stmtP s i u = false := by
  rw [stmtP.eq_def, if_neg (Nat.not_lt.mpr h)]

/-- Inside a list, the scan goes on at the closing quote of a string as if it was the opening quote
of another one, thus it never gets out of the strings. -/
theorem stmtP_quote (h : s[i]? = some '"') : stmtP s i (u + 1) = false := by
  induction hn : s.length - i using Nat.strong_induction_on generalizing i with
  | _ n ih =>
    have hlt := (List.getElem?_eq_some_iff.mp h).1
    have hskip := lt_lineParseSkipString s i s.length
    rw [stmtP, if_pos hlt]
    simp only [h]
    obtain hend | hquote := skipP_stop s (i + 1)
    · exact stmtP_of_le hend
    · exact ih (s.length - lineParseSkipString s i s.length) (by omega) hquote rfl

theorem getElem?_of_drop {c : Char} (h : s.drop i = c :: text) : s[i]? = some c := by
  rw [← List.head?_drop, h, List.head?_cons]

theorem drop_succ_of_drop {c : Char} (h : s.drop i = c :: text) : s.drop (i + 1) = text := by
  rw [← List.drop_drop, h, List.drop_one, List.tail_cons]

theorem drop_length_of_drop (h : s.drop i = l ++ text) : s.drop (i + l.length) = text := by
  rw [← List.drop_drop, h, List.drop_left]

theorem lt_of_drop {c : Char} (h : s.drop i = c :: text) : i < s.length :=
  (List.getElem?_eq_some_iff.mp (getElem?_of_drop h)).1

theorem stmtP_char {c : Char} (h : s.drop i = c :: text) (hopen : c ≠ '(') (hclose : c ≠ ')')
    (hquote : c ≠ '"') : stmtP s i (u + 1) = stmtP s (i + 1) (u + 1) := by
  rw [stmtP, if_pos (lt_of_drop h)]
  simp only [getElem?_of_drop h]
  split
  next heq => exact absurd (Option.some.inj heq) hquote
  next heq => exact absurd (Option.some.inj heq) hclose
  next heq => exact absurd (Option.some.inj heq) hopen
  next => rfl

theorem stmtP_open (h : s.drop i = '(' :: text) :
    stmtP s i (u + 1) = stmtP s (i + 1) (u + 2) := by
  rw [stmtP, if_pos (lt_of_drop h)]
  simp only [getElem?_of_drop h]

theorem stmtP_close (h : s.drop i = ')' :: text) : stmtP s i (u + 1) = stmtP s (i + 1) u := by
  rw [stmtP, if_pos (lt_of_drop h)]
  simp only [getElem?_of_drop h]

theorem stmtP_zero (s : List Char) (i : ℕ) :
    stmtP s i 0 = (s.drop i).any (!blankCharP ·) := by
  rw [stmtP]
  split
  next => rfl
  next h => rw [List.drop_eq_nil_of_le (Nat.le_of_not_lt h), List.any_nil]

theorem Items.stmtP (h : Items l) (hstring : '"' ∉ l) (hdrop : s.drop i = l ++ text) :
    stmtP s i (u + 1) = ScoreLine.stmtP s (i + l.length) (u + 1) := by
  induction h generalizing i u text with
  | nil => rfl
  | @char c l hopen hclose hquote h ih =>
    rw [stmtP_char hdrop hopen hclose hquote,
      ih (List.not_mem_of_not_mem_cons hstring) (drop_succ_of_drop hdrop), List.length_cons,
      Nat.add_right_comm, Nat.add_assoc]
  | string hb h ih => exact absurd List.mem_cons_self hstring
  | @list l₁ l₂ h₁ h₂ ih₁ ih₂ =>
    simp only [List.mem_cons, List.mem_append, not_or] at hstring
    rw [List.cons_append, List.append_assoc, List.cons_append] at hdrop
    have hopen := drop_succ_of_drop hdrop
    have hclose := drop_length_of_drop hopen
    rw [stmtP_open hdrop, ih₁ hstring.2.1 hopen, stmtP_close hclose,
      ih₂ hstring.2.2.2 (drop_succ_of_drop hclose)]
    simp only [List.length_cons, List.length_append]
    congr 1
    omega

theorem Items.stmtP_string (h : Items l) (hstring : '"' ∈ l) (hdrop : s.drop i = l ++ text) :
    ScoreLine.stmtP s i (u + 1) = false := by
  induction h generalizing i u text with
  | nil => cases hstring
  | @char c l hopen hclose hquote h ih =>
    rw [stmtP_char hdrop hopen hclose hquote]
    exact ih ((List.mem_cons.mp hstring).resolve_left hquote.symm) (drop_succ_of_drop hdrop)
  | string hb h ih => exact stmtP_quote (getElem?_of_drop hdrop)
  | @list l₁ l₂ h₁ h₂ ih₁ ih₂ =>
    rw [List.cons_append, List.append_assoc, List.cons_append] at hdrop
    have hopen := drop_succ_of_drop hdrop
    have hclose := drop_length_of_drop hopen
    rw [stmtP_open hdrop]
    by_cases hleft : '"' ∈ l₁
    · exact ih₁ hleft hopen
    · simp only [List.mem_cons, List.mem_append, hleft, false_or] at hstring
      have hright : '"' ∈ l₂ := by simpa using hstring
      rw [h₁.stmtP hleft hopen, stmtP_close hclose]
      exact ih₂ hright (drop_succ_of_drop hclose)

theorem Form.stmtP (h : Form form) :
    ScoreLine.stmtP (form ++ rest) 1 1 =
      (decide ('"' ∉ form) && rest.any (!blankCharP ·)) := by
  cases h with
  | @mk l h =>
    have hdrop : ('(' :: (l ++ [')']) ++ rest).drop 1 = l ++ ')' :: rest := by simp
    have hclose := drop_length_of_drop hdrop
    by_cases hstring : '"' ∈ l
    · rw [h.stmtP_string hstring hdrop]
      simp [hstring]
    · rw [h.stmtP hstring hdrop, stmtP_close hclose, stmtP_zero, drop_succ_of_drop hclose]
      simp [hstring]

end Scanner

section Classification

variable {stream stream' : List (List Char)} {form rest : List Char}

theorem Form.getLast? (h : Form form) : form.getLast? = some ')' := by
  cases h with
  | mk h => simp [List.getLast?_cons]

theorem Form.timeTaggedFunctionP (h : Form form) (rest : List Char) :
    ScoreLine.timeTaggedFunctionP (form ++ rest) =
      (decide (rest.getLast?.or (some ')') ≠ some ')') ||
        decide ('"' ∉ form) && rest.any (!blankCharP ·)) := by
  have hopen : (form ++ rest)[0]? = some '(' := by
    cases h with
    | mk h => rfl
  rw [ScoreLine.timeTaggedFunctionP, if_pos hopen, listTimeTaggedP, h.stmtP,
    ← List.getLast?_eq_getElem?, List.getLast?_append, h.getLast?]

theorem Form.scoreLineToSexp (h : Form form) (rest : List Char) :
    ScoreLine.scoreLineToSexp (form ++ rest) =
      if ScoreLine.timeTaggedFunctionP (form ++ rest) then
        .timeTagged (form ++ rest)
      else
        .statement (some form) := by
  have htrim : (form ++ rest).dropWhile trimmedCharP = form ++ rest := by
    cases h with
    | mk h => rfl
  rw [ScoreLine.scoreLineToSexp, htrim, h.readForm]

/-- A line that starts with a list is a time-tagged function if something other than blanks follows
the list, otherwise it is a statement; exactly when the rest of the line, without the comment, is
empty or has something other than blanks, and a list that contains a string is not followed by a
text that ends with a closed parenthesis. -/
theorem scoreLineToSexp_iff (hread : readScoreLine stream = some (form ++ rest, stream'))
    (hform : Form form) :
    ((readScoreLine stream).map fun (line, _) => scoreLineToSexp line) =
        some (if rest.any (!trimmedCharP ·) then .timeTagged (form ++ rest)
          else .statement (some form)) ↔
      (rest ≠ [] → rest.any (!trimmedCharP ·)) ∧
        (rest.getLast? = some ')' → '"' ∉ form) := by
  have hsexp : ((readScoreLine stream).map fun (line, _) => scoreLineToSexp line) =
      some (scoreLineToSexp (form ++ rest)) := by rw [hread]; rfl
  rw [hsexp, hform.scoreLineToSexp, hform.timeTaggedFunctionP]
  cases hlast : rest.getLast? with
  | none =>
    have hnil := List.getLast?_eq_none_iff.mp hlast
    simp [hnil]
  | some c =>
    have hmem : c ∈ rest := List.mem_of_getLast? hlast
    have hne : rest ≠ [] := List.ne_nil_of_mem hmem
    by_cases hc : c = ')'
    · have hblank : rest.any (!blankCharP ·) = true :=
        List.any_eq_true.mpr ⟨c, hmem, by rw [hc]; rfl⟩
      have htrimmed : rest.any (!trimmedCharP ·) = true :=
        List.any_eq_true.mpr ⟨c, hmem, by rw [hc]; rfl⟩
      rw [hblank, htrimmed]
      by_cases hstring : '"' ∈ form <;> simp [hc, hstring]
    · cases hany : rest.any (!trimmedCharP ·) <;> simp [hc, hne]

theorem scoreLineToSexp_iff_event :
    (readScoreLine ["(* 2 3) foo (bar); baz".toList]).map (fun (line, _) => scoreLineToSexp line) =
      some (.timeTagged "(* 2 3) foo (bar)".toList) := by
  have hitems : Items "* 2 3".toList := by
    repeat refine .char (by decide) (by decide) (by decide) ?_
    exact .nil
  have hform : Form "(* 2 3)".toList := .mk hitems
  have hread : readScoreLine ["(* 2 3) foo (bar); baz".toList] =
      some ("(* 2 3)".toList ++ " foo (bar)".toList, []) := by decide +kernel
  exact (scoreLineToSexp_iff hread hform).mpr ⟨fun _ => by decide, fun _ => by decide⟩

/-- The statement `(setf x 1)` followed by a blank and a comment becomes a time-tagged function, and
the event `(length "ab") foo (bar)` becomes a statement. -/
theorem scoreLineToSexp_misclassifies :
    (∃ form rest, Form form ∧ rest.any (!trimmedCharP ·) = false ∧
      readScoreLine ["(setf x 1) ; comment".toList] = some (form ++ rest, []) ∧
      scoreLineToSexp (form ++ rest) = .timeTagged (form ++ rest)) ∧
    ∃ form rest, Form form ∧ rest.any (!trimmedCharP ·) = true ∧
      readScoreLine ["(length \"ab\") foo (bar)".toList] = some (form ++ rest, []) ∧
      scoreLineToSexp (form ++ rest) = .statement (some form) := by
  have hsetf : Items "setf x 1".toList := by
    repeat refine .char (by decide) (by decide) (by decide) ?_
    exact .nil
  have hstring : StringBody "ab".toList := .char (by decide) (by decide)
    (.char (by decide) (by decide) .nil)
  have hlength : Items "length \"ab\"".toList := by
    iterate 7 refine .char (by decide) (by decide) (by decide) ?_
    exact .string hstring .nil
  have hstatement : Form "(setf x 1)".toList := .mk hsetf
  have htime : Form "(length \"ab\")".toList := .mk hlength
  refine ⟨⟨_, [' '], hstatement, rfl, by decide +kernel, ?_⟩,
    ⟨_, " foo (bar)".toList, htime, by decide, by decide +kernel, ?_⟩⟩
  · rw [hstatement.scoreLineToSexp, hstatement.timeTaggedFunctionP]
    rfl
  · rw [htime.scoreLineToSexp, htime.timeTaggedFunctionP]
    rfl

end Classification

end Incudine.ScoreLine

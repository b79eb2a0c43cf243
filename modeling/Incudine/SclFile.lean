import Mathlib.Algebra.Group.Int.Defs
import Mathlib.Data.List.DropRight
import Mathlib.Data.Rat.Defs

/-!
# Scala files

The pitches of a scale and the file format of the scales. The Lisp reader and the operations on the
floating point numbers are parameters, and there is an error if they have no value.
-/

namespace Incudine.SclFile

/-- A Lisp object as note of a scale. -/
inductive Pitch (C D : Type) where
  | single (x : C)
  | double (x : D)
  | rational (q : ℚ)
  | other

structure PitchOps (C D : Type) where
  /-- `(rationalize (expt 2 (* pch 1/1200)))` -/
  ratioOfCents : C → Option ℚ
  /-- `(* 1200f0 (coerce (log pch 2) 'single-float))` -/
  centsOfRatio : ℚ → Option C
  singleOfDouble : D → Option C
  singleOfRational : ℚ → Option C
  readFromString : List Char → Option (Pitch C D)

variable {C D : Type} (ops : PitchOps C D)

def blank (c : Char) : Bool := c = ' ' ∨ c = '\t'

def sclString (string : List Char) : List Char := (string.dropWhile blank).rdropWhile blank

def sclCommentP (string : List Char) : Bool := string.head? = some '!'

def sclSkipLineP (string : List Char) : Bool := string.isEmpty || sclCommentP string

/-- The next line that is not a comment, and the lines after it. The end of the file is an error. -/
def sclRead : List (List Char) → Option (List Char × List (List Char))
  | [] => none
  | line :: lines =>
    let string := sclString line
    if sclCommentP string then sclRead lines else some (string, lines)

def sclDescription (lines : List (List Char)) : Option (List Char × List (List Char)) :=
  sclRead lines

def sclNumOfNotes (lines : List (List Char)) : Option (ℕ × List (List Char)) := do
  let (string, lines) ← sclRead lines
  match ← ops.readFromString string with
  | .rational q =>
    if q.den = 1 ∧ 0 < q.num ∧ q.num < 2 ^ 62 then some (q.num.toNat, lines) else none
  | _ => none

def sclNumberDotP (string : List Char) : Bool := '.' ∈ string.takeWhile (· ≠ '!')

def separateComment (string : List Char) : List Char :=
  match string.findIdx? (· = '!') with
  | some pos => if (string[pos - 1]?).any blank then string else string.set pos ' '
  | none => string

/-- No value for a line to skip, and an error if the pitch is not valid. -/
def readPitchFromString (string : List Char) : Option (Option (Pitch C D)) :=
  if sclSkipLineP string then some none
  else do
    let string := separateComment string
    match ← ops.readFromString string with
    | .single x => some (some (.single x))
    | .rational q =>
      if 0 < q then
        if sclNumberDotP string then (ops.singleOfRational q).map fun x => some (.single x)
        else some (some (.rational q))
      else none
    | _ => none

def sclReadNotes : ℕ → List (List Char) → List (Pitch C D) → Option (List (Pitch C D))
  | _, [], _ => none
  | num, line :: lines, acc =>
    let string := sclString line
    if sclCommentP string then sclReadNotes num lines acc
    else
      match readPitchFromString ops string with
      | none => none
      | some none => sclReadNotes num lines acc
      | some (some value) =>
        if num - 1 = 0 then some (value :: acc).reverse
        else sclReadNotes (num - 1) lines (value :: acc)

/-- The notes, their number and the description. There are no lines if the file does not exist. -/
def loadSclfile (file : Option (List (List Char))) : Option (List (Pitch C D) × ℕ × List Char) := do
  let (descr, lines) ← sclDescription (← file)
  let (n, lines) ← sclNumOfNotes ops lines
  let notes ← sclReadNotes ops n lines []
  if notes ≠ [] ∧ notes.length = n then some (notes, n, descr) else none

def SclValidPitch : Pitch C D → Prop
  | .single _ => True
  | .rational q => 0 < q
  | _ => False

variable {ops}

/-- A line to skip, or the value of a pitch. -/
theorem readPitchFromString_cases {string : List Char} {value : Option (Pitch C D)}
    (h : readPitchFromString ops string = some value) :
    sclSkipLineP string = true ∧ value = none ∨ ∃ v, value = some v ∧ SclValidPitch v := by
  rw [readPitchFromString] at h
  split_ifs at h with hskip
  · exact .inl ⟨hskip, (Option.some.inj h).symm⟩
  obtain ⟨v, -, hv⟩ := Option.bind_eq_some_iff.mp h
  cases v with
  | single x => exact .inr ⟨_, (Option.some.inj hv).symm, trivial⟩
  | rational q =>
    simp only at hv
    split_ifs at hv with hpos
    · obtain ⟨x, -, rfl⟩ := Option.map_eq_some_iff.mp hv
      exact .inr ⟨_, rfl, trivial⟩
    · exact .inr ⟨_, (Option.some.inj hv).symm, hpos⟩
  | double x => exact nomatch hv
  | other => exact nomatch hv

/-- The lines that are not comments. -/
def sclStrings (lines : List (List Char)) : List (List Char) :=
  (lines.map sclString).filter fun string => !sclCommentP string

theorem sclRead_eq {lines rest : List (List Char)} {string : List Char}
    (h : sclRead lines = some (string, rest)) : sclStrings lines = string :: sclStrings rest := by
  induction lines with
  | nil => exact nomatch h
  | cons line lines ih =>
    simp only [sclRead] at h
    rw [sclStrings, List.map_cons]
    split_ifs at h with hcomment
    · rw [List.filter_cons_of_neg (by simpa using hcomment)]
      exact ih h
    · obtain ⟨rfl, rfl⟩ := Prod.mk.inj (Option.some.inj h)
      rw [List.filter_cons_of_pos (by simpa using hcomment)]
      rfl

theorem sclNumOfNotes_eq {lines rest : List (List Char)} {n : ℕ}
    (h : sclNumOfNotes ops lines = some (n, rest)) :
    ∃ header, sclStrings lines = header :: sclStrings rest ∧
      ops.readFromString header = some (.rational n) ∧ 0 < n := by
  simp only [sclNumOfNotes, Option.bind_eq_bind, Option.bind_eq_some_iff] at h
  obtain ⟨⟨header, lines'⟩, hline, value, hvalue, hn⟩ := h
  cases value with
  | rational q =>
    simp only at hn
    split_ifs at hn with hq
    obtain ⟨rfl, rfl⟩ := Prod.mk.inj (Option.some.inj hn)
    have hnum : ((q.num.toNat : ℕ) : ℚ) = q := by
      rw [← Rat.intCast_natCast, Int.toNat_of_nonneg (Int.le_of_lt hq.2.1)]
      exact Rat.coe_int_num_of_den_eq_one hq.1
    refine ⟨header, sclRead_eq hline, by rw [hvalue, hnum], ?_⟩
    have hpos := hq.2.1
    omega
  | single x | double x => exact nomatch hn
  | other => exact nomatch hn

/-- The notes are the values of the first lines that are not skipped. -/
theorem sclReadNotes_eq {num : ℕ} {lines : List (List Char)} {acc notes : List (Pitch C D)}
    (hnum : 0 < num) (h : sclReadNotes ops num lines acc = some notes) :
    ∃ values, notes = acc.reverse ++ values ∧ values.length = num ∧
      (((sclStrings lines).filter fun string => !string.isEmpty).take num).map
        (readPitchFromString ops) = values.map fun value => some (some value) := by
  induction lines generalizing num acc with
  | nil => exact nomatch h
  | cons line lines ih =>
    rw [sclReadNotes] at h
    rw [sclStrings, List.map_cons]
    by_cases hcomment : sclCommentP (sclString line)
    · rw [if_pos hcomment] at h
      rw [List.filter_cons_of_neg (by simpa using hcomment)]
      exact ih hnum h
    rw [if_neg hcomment] at h
    rw [List.filter_cons_of_pos (by simpa using hcomment)]
    by_cases hempty : (sclString line).isEmpty
    · have hskip : readPitchFromString ops (sclString line) = some none := by
        rw [readPitchFromString, sclSkipLineP, hempty]
        rfl
      rw [hskip] at h
      rw [List.filter_cons_of_neg (by simpa using hempty)]
      exact ih hnum h
    rw [List.filter_cons_of_pos (by simpa using hempty)]
    obtain ⟨num, rfl⟩ := Nat.exists_eq_succ_of_ne_zero hnum.ne'
    rw [List.take_succ_cons, List.map_cons]
    cases hread : readPitchFromString ops (sclString line) with
    | none =>
      rw [hread] at h
      exact nomatch h
    | some value? =>
      rw [hread] at h
      cases value? with
      | none =>
        rcases readPitchFromString_cases hread with ⟨hskip, -⟩ | ⟨v, hv, -⟩
        · rw [sclSkipLineP, Bool.or_eq_true] at hskip
          exact absurd hskip (not_or.mpr ⟨hempty, hcomment⟩)
        · exact nomatch hv
      | some value =>
        simp only [Nat.succ_sub_one] at h
        split_ifs at h with hlast
        · subst hlast
          obtain rfl := Option.some.inj h
          exact ⟨[value], List.reverse_cons, rfl, rfl⟩
        · obtain ⟨values, hnotes, hlength, hvalues⟩ := ih (Nat.pos_of_ne_zero hlast) h
          refine ⟨value :: values, ?_, congrArg Nat.succ hlength, ?_⟩
          · rw [hnotes, List.reverse_cons, List.append_assoc]
            rfl
          · rw [List.map_cons, ← hvalues]
            rfl

/-- The number of notes is the one of the header line, and the notes are the values of that many
lines that follow. -/
theorem loadSclfile_valid {file : Option (List (List Char))} {notes : List (Pitch C D)} {n : ℕ}
    {descr : List Char} (h : loadSclfile ops file = some (notes, n, descr)) :
    ∃ lines header rest, file = some lines ∧ sclStrings lines = descr :: header :: rest ∧
      ops.readFromString header = some (.rational n) ∧ 0 < n ∧ notes.length = n ∧
      ((rest.filter fun string => !string.isEmpty).take n).map (readPitchFromString ops) =
        notes.map (fun value => some (some value)) ∧ ∀ value ∈ notes, SclValidPitch value := by
  simp only [loadSclfile, Option.bind_eq_bind, Option.bind_eq_some_iff] at h
  obtain ⟨lines, hfile, ⟨descr', lines'⟩, hdescr, ⟨n', rest⟩, hnum, notes', hread, hif⟩ := h
  split_ifs at hif
  obtain ⟨rfl, rfl, rfl⟩ := Prod.mk.inj (Option.some.inj hif) |>.imp_right Prod.mk.inj
  obtain ⟨header, hlines, hheader, hpos⟩ := sclNumOfNotes_eq hnum
  obtain ⟨values, rfl, hlength, hvalues⟩ := sclReadNotes_eq hpos hread
  refine ⟨lines, header, sclStrings rest, hfile, ?_, hheader, hpos, hlength, hvalues,
    fun value hvalue => ?_⟩
  · rw [sclRead_eq hdescr, hlines]
  · have hmem : some (some value) ∈ notes'.map fun value => some (some value) :=
      List.mem_map_of_mem hvalue
    rw [← hvalues] at hmem
    obtain ⟨string, -, hstring⟩ := List.mem_map.mp hmem
    rcases readPitchFromString_cases hstring with ⟨-, hnone⟩ | ⟨v, hv, hvalid⟩
    · exact nomatch hnone
    · exact Option.some.inj hv ▸ hvalid

/-- A comment, the number of the notes, an empty line and two notes. -/
theorem loadSclfile_two : ∃ ops : PitchOps Unit Unit,
    loadSclfile ops (some [['a'], ['!'], ['2'], [], ['3'], [' ', '4']]) =
        some ([.rational 3, .rational 4], 2, ['a']) ∧
      ∀ value ∈ [(.rational 3 : Pitch Unit Unit), .rational 4], SclValidPitch value := by
  let ops : PitchOps Unit Unit := ⟨fun _ => none, fun _ => none, some, fun _ => none,
    fun s => some (.rational (if s = ['2'] then 2 else if s = ['3'] then 3 else 4))⟩
  have hload : loadSclfile ops (some [['a'], ['!'], ['2'], [], ['3'], [' ', '4']]) =
      some ([.rational 3, .rational 4], 2, ['a']) := rfl
  obtain ⟨-, -, -, -, -, -, -, -, -, hvalid⟩ := loadSclfile_valid hload
  exact ⟨ops, hload, hvalid⟩

end Incudine.SclFile

import Mathlib.Data.List.Basic

/-!
# Numeric text files

The scanner of a text file counts the numbers without parsing them. The loop that skips a line
comment reads the same stream and does not test the end of the file.
-/

namespace Incudine.Textfile

section Source

def validCharP (code : UInt8) : Bool :=
  (47 < code && code < 58) || [9, 10, 12, 13, 32, 43, 45, 46, 68, 69, 100, 101].contains code

def separatorP (code : UInt8) : Bool := [9, 10, 12, 13, 32].contains code

def newlineP : Option UInt8 → Bool
  | some code => [10, 12, 13].contains code
  | none => false

def readByte : List UInt8 → Option UInt8 × List UInt8
  | [] => (none, [])
  | code :: f => (some code, f)

def skipLoop : ℕ → List UInt8 → Option (Option UInt8 × List UInt8)
  | 0, _ => none
  | fuel + 1, f =>
    let (code, f) := readByte f
    if newlineP code then some (code, f) else skipLoop fuel f

theorem skipLoop_cons (fuel : ℕ) (code : UInt8) (f : List UInt8) :
    skipLoop (fuel + 1) (code :: f) =
      if newlineP (some code) then some (some code, f) else skipLoop fuel f := rfl

/-- The outer loop, which also ends without fuel. -/
def checkLoop : ℕ → List UInt8 → Bool → ℕ → Option (Bool × ℕ)
  | 0, _, _, _ => none
  | fuel + 1, f, sep, count =>
    match readByte f with
    | (none, _) => some (true, count)
    | (some code, f) => do
      let (code, f, sep) ←
        if code = 59 then do
          let sep := if !sep then true else sep
          let (code, f) ← skipLoop fuel f
          pure (code, f, sep)
        else pure (some code, f, sep)
      let code ← code
      if validCharP code then
        if sep then
          if !separatorP code then checkLoop fuel f false (count + 1)
          else checkLoop fuel f sep count
        else if separatorP code then checkLoop fuel f true count
        else checkLoop fuel f sep count
      else some (false, count)

/-- `check-numeric-textfile` with the bytes of the file: whether it is valid and the number of the
counted values, or nothing if more than `fuel` iterations are necessary. -/
def checkNumericTextfile (fuel : ℕ) (file : List UInt8) : Option (Bool × ℕ) :=
  checkLoop fuel file true 0

end Source

section Specification

/-- The bytes of a file without the ones in a comment, which goes from a semicolon up to the next
newline. The flag says if the file begins inside a comment. -/
def outside : Bool → List UInt8 → List (Option UInt8)
  | _, [] => []
  | true, code :: f =>
    if newlineP (some code) then some code :: outside false f else none :: outside true f
  | false, code :: f =>
    if code = 59 then none :: outside true f else some code :: outside false f

def separates : Option UInt8 → Bool
  | some code => separatorP code
  | none => true

/-- The number of the maximal runs of bytes that don't separate. -/
def runs (codes : List (Option UInt8)) : ℕ := (codes.splitOnP separates).countP (!·.isEmpty)

def inComment : Bool → List UInt8 → Bool
  | comment, [] => comment
  | true, code :: f => inComment (!newlineP (some code)) f
  | false, code :: f => inComment (code = 59) f

def Admitted (comment : Bool) (file : List UInt8) : Prop :=
  ∀ code, some code ∈ outside comment file → validCharP code = true

/-- The scanner ends, and it decides whether the file is valid. -/
def Decides (file : List UInt8) : Prop :=
  ∃ fuel valid count, checkNumericTextfile fuel file = some (valid, count) ∧
    (valid = true ↔ Admitted false file) ∧ (valid = true → count = runs (outside false file))

end Specification

variable {code : UInt8} {fuel : ℕ} {f f' : List UInt8}

section Scan

/-- The loop byte by byte, where the flag says if the byte is in a comment; nothing if the file ends
inside a comment. -/
def scan : Bool → List UInt8 → Bool → ℕ → Option (Bool × ℕ)
  | true, [], _, _ => none
  | false, [], _, count => some (true, count)
  | true, code :: f, sep, count =>
    if newlineP (some code) then scan false f sep count else scan true f sep count
  | false, code :: f, sep, count =>
    if code = 59 then scan true f true count
    else if validCharP code then
      if separatorP code then scan false f true count
      else scan false f false (if sep then count + 1 else count)
    else some (false, count)

theorem newline_cases (h : newlineP (some code) = true) : code = 10 ∨ code = 12 ∨ code = 13 := by
  simpa [newlineP] using h

theorem valid_newline (h : newlineP (some code) = true) : validCharP code = true := by
  rcases newline_cases h with rfl | rfl | rfl <;> decide

theorem separator_newline (h : newlineP (some code) = true) : separatorP code = true := by
  rcases newline_cases h with rfl | rfl | rfl <;> decide

theorem skipLoop_scan {code : Option UInt8} (h : skipLoop fuel f = some (code, f')) (sep : Bool)
    (count : ℕ) :
    (∃ c, code = some c ∧ newlineP (some c) = true) ∧ f'.length < f.length ∧
      scan true f sep count = scan false f' sep count := by
  induction fuel generalizing f with
  | zero => cases h
  | succ fuel ih =>
    cases f with
    | nil => exact absurd (ih h).2.1 (Nat.not_lt_zero _)
    | cons c f =>
      rw [skipLoop_cons] at h
      by_cases hc : newlineP (some c) = true
      · rw [if_pos hc, Option.some_inj, Prod.mk.injEq] at h
        obtain ⟨rfl, rfl⟩ := h
        exact ⟨⟨c, rfl, hc⟩, Nat.lt_succ_self _, if_pos hc⟩
      · rw [if_neg hc] at h
        obtain ⟨hcode, hlt, hscan⟩ := ih h
        exact ⟨hcode, Nat.lt_succ_of_lt hlt, (if_neg hc).trans hscan⟩

theorem skipLoop_none (hfuel : f.length ≤ fuel) (h : skipLoop fuel f = none) (sep : Bool)
    (count : ℕ) : scan true f sep count = none := by
  induction f generalizing fuel with
  | nil => rfl
  | cons c f ih =>
    cases fuel with
    | zero => cases hfuel
    | succ fuel =>
      rw [skipLoop_cons] at h
      by_cases hc : newlineP (some c) = true
      · rw [if_pos hc] at h
        cases h
      rw [if_neg hc] at h
      exact (if_neg hc).trans (ih (Nat.le_of_succ_le_succ hfuel) h)

theorem checkLoop_cons (h : code ≠ 59) (fuel : ℕ) (f : List UInt8) (sep : Bool) (count : ℕ) :
    checkLoop (fuel + 1) (code :: f) sep count =
      if validCharP code then
        if separatorP code then checkLoop fuel f true count
        else checkLoop fuel f false (if sep then count + 1 else count)
      else some (false, count) := by
  simp only [checkLoop, readByte, h, if_false, Option.bind_eq_bind, Option.bind_some,
    Option.pure_def]
  cases sep <;> cases separatorP code <;> rfl

theorem checkLoop_comment (fuel : ℕ) (f : List UInt8) (sep : Bool) (count : ℕ) :
    checkLoop (fuel + 1) (59 :: f) sep count =
      (skipLoop fuel f).bind fun r => checkLoop fuel r.2 true count := by
  have hsep : (if (!sep) = true then true else sep) = true := by cases sep <;> rfl
  simp only [checkLoop, readByte, if_true, hsep, Option.bind_eq_bind, Option.pure_def]
  cases hskip : skipLoop fuel f with
  | none => rfl
  | some result =>
    obtain ⟨code, f'⟩ := result
    obtain ⟨⟨c, rfl, hc⟩, -⟩ := skipLoop_scan hskip sep count
    simp [valid_newline hc, separator_newline hc]

theorem checkLoop_sound {sep : Bool} {count : ℕ} {r : Bool × ℕ}
    (h : checkLoop fuel f sep count = some r) : scan false f sep count = some r := by
  induction fuel generalizing f sep count with
  | zero => cases h
  | succ fuel ih =>
    cases f with
    | nil => exact h
    | cons code f =>
      rw [scan]
      by_cases hcomment : code = 59
      · subst hcomment
        rw [checkLoop_comment] at h
        obtain ⟨⟨code, f'⟩, hskip, hloop⟩ := Option.bind_eq_some_iff.mp h
        obtain ⟨-, -, hscan⟩ := skipLoop_scan hskip true count
        rw [if_pos rfl, hscan]
        exact ih hloop
      · rw [checkLoop_cons hcomment] at h
        rw [if_neg hcomment]
        by_cases hvalid : validCharP code = true
        · rw [if_pos hvalid] at h ⊢
          by_cases hseparator : separatorP code = true
          · rw [if_pos hseparator] at h ⊢
            exact ih h
          · rw [if_neg hseparator] at h ⊢
            exact ih h
        · rw [if_neg hvalid] at h ⊢
          exact h

theorem checkLoop_eq (hfuel : f.length < fuel) (sep : Bool) (count : ℕ) :
    checkLoop fuel f sep count = scan false f sep count := by
  induction fuel generalizing f sep count with
  | zero => cases hfuel
  | succ fuel ih =>
    cases f with
    | nil => rfl
    | cons code f =>
      have hlt : f.length < fuel := Nat.lt_of_succ_lt_succ hfuel
      rw [scan]
      by_cases hcomment : code = 59
      · subst hcomment
        rw [checkLoop_comment, if_pos rfl]
        cases hskip : skipLoop fuel f with
        | none => exact (skipLoop_none (Nat.le_of_lt hlt) hskip true count).symm
        | some result =>
          obtain ⟨-, hless, hscan⟩ := skipLoop_scan hskip true count
          rw [hscan]
          exact ih (Nat.lt_trans hless hlt) true count
      · rw [checkLoop_cons hcomment, if_neg hcomment, ih hlt, ih hlt]

theorem checkNumericTextfile_unique {fuel' : ℕ} {file : List UInt8} {r r' : Bool × ℕ}
    (h : checkNumericTextfile fuel file = some r) (h' : checkNumericTextfile fuel' file = some r') :
    r = r' :=
  Option.some_inj.mp ((checkLoop_sound h).symm.trans (checkLoop_sound h'))

end Scan

section Decision

/-- The runs that are counted from here on: the first one is already counted, unless the byte
before it separates. -/
def runsFrom (sep : Bool) (codes : List (Option UInt8)) : ℕ :=
  if sep then runs codes else (codes.splitOnP separates).tail.countP (!·.isEmpty)

theorem runsFrom_nil (sep : Bool) : runsFrom sep [] = 0 := by
  cases sep <;> rfl

theorem runsFrom_separates {code : Option UInt8} (h : separates code = true) (sep : Bool)
    (codes : List (Option UInt8)) : runsFrom sep (code :: codes) = runsFrom true codes := by
  have hsplit : (code :: codes).splitOnP separates = [] :: codes.splitOnP separates := by
    rw [List.splitOnP_cons_eq_if_modifyHead, if_pos h]
  cases sep <;> simp [runsFrom, runs, hsplit]

theorem runsFrom_code {code : Option UInt8} (h : separates code = false) (sep : Bool)
    (codes : List (Option UInt8)) :
    runsFrom sep (code :: codes) = (if sep then 1 else 0) + runsFrom false codes := by
  obtain ⟨piece, pieces, hpieces⟩ := List.exists_cons_of_ne_nil (List.splitOnP_ne_nil separates codes)
  have hsplit : (code :: codes).splitOnP separates = (code :: piece) :: pieces := by
    rw [List.splitOnP_cons_eq_if_modifyHead, h, hpieces]
    rfl
  cases sep <;> simp [runsFrom, runs, hsplit, hpieces, Nat.add_comm]

theorem admitted_none {comment comment' : Bool}
    (h : outside comment f = none :: outside comment' f') :
    Admitted comment f ↔ Admitted comment' f' := by
  simp [Admitted, h]

theorem admitted_some {comment comment' : Bool}
    (h : outside comment f = some code :: outside comment' f') :
    Admitted comment f ↔ validCharP code = true ∧ Admitted comment' f' := by
  simp [Admitted, h]

structure Scanned (comment : Bool) (f : List UInt8) (sep : Bool) (count : ℕ)
    (r : Option (Bool × ℕ)) : Prop where
  ends : r = none ↔ Admitted comment f ∧ inComment comment f = true
  valid : ∀ p, r = some p → (p.1 = true ↔ Admitted comment f)
  count_eq : ∀ p, r = some p → p.1 = true → p.2 = count + runsFrom sep (outside comment f)

theorem Scanned.skip {comment comment' sep sep' : Bool} {f f' : List UInt8} {count : ℕ}
    {r : Option (Bool × ℕ)} (h : Scanned comment' f' sep' count r)
    (houtside : outside comment f = none :: outside comment' f')
    (hends : inComment comment f = inComment comment' f') (hsep : sep' = true) :
    Scanned comment f sep count r where
  ends := by rw [h.ends, admitted_none houtside, hends]
  valid := by
    intro p hp
    rw [h.valid p hp, admitted_none houtside]
  count_eq := by
    intro p hp hvalid
    rw [h.count_eq p hp hvalid, houtside, @runsFrom_separates none rfl, hsep]

theorem Scanned.accept {comment comment' sep sep' : Bool} {count count' : ℕ} {r : Option (Bool × ℕ)}
    (h : Scanned comment' f' sep' count' r)
    (houtside : outside comment f = some code :: outside comment' f')
    (hends : inComment comment f = inComment comment' f') (hcode : validCharP code = true)
    (hcount : count' + runsFrom sep' (outside comment' f') =
      count + runsFrom sep (some code :: outside comment' f')) : Scanned comment f sep count r where
  ends := by rw [h.ends, admitted_some houtside, hends, and_iff_right hcode]
  valid := by
    intro p hp
    rw [h.valid p hp, admitted_some houtside, and_iff_right hcode]
  count_eq := by
    intro p hp hvalid
    rw [h.count_eq p hp hvalid, houtside, hcount]

theorem scan_spec (comment : Bool) (f : List UInt8) (sep : Bool) (count : ℕ)
    (hsep : comment = true → sep = true) :
    Scanned comment f sep count (scan comment f sep count) := by
  induction f generalizing comment sep count with
  | nil =>
    cases comment with
    | true => exact ⟨by simp [scan, Admitted, outside, inComment], nofun, nofun⟩
    | false =>
      refine ⟨by simp [scan, inComment], ?_, ?_⟩
      · rintro p hp
        obtain rfl := Option.some_inj.mp hp
        simp [Admitted, outside]
      · rintro p hp -
        obtain rfl := Option.some_inj.mp hp
        rw [outside, runsFrom_nil, Nat.add_zero]
  | cons code f ih =>
    cases comment with
    | true =>
      obtain rfl := hsep rfl
      rw [scan]
      by_cases hnewline : newlineP (some code) = true
      · rw [if_pos hnewline]
        refine (ih false true count nofun).accept (if_pos hnewline) ?_ (valid_newline hnewline) ?_
        · rw [inComment, hnewline, Bool.not_true]
        · rw [@runsFrom_separates (some code) (separator_newline hnewline)]
      · rw [if_neg hnewline]
        refine (ih true true count fun _ => rfl).skip (if_neg hnewline) ?_ rfl
        rw [inComment, Bool.eq_false_iff.mpr hnewline, Bool.not_false]
    | false =>
      rw [scan]
      by_cases hcomment : code = 59
      · rw [if_pos hcomment]
        refine (ih true true count fun _ => rfl).skip (if_pos hcomment) ?_ rfl
        rw [inComment, decide_eq_true hcomment]
      rw [if_neg hcomment]
      have houtside : outside false (code :: f) = some code :: outside false f := if_neg hcomment
      have hends : inComment false (code :: f) = inComment false f := by
        rw [inComment, decide_eq_false hcomment]
      by_cases hvalid : validCharP code = true
      · rw [if_pos hvalid]
        by_cases hseparator : separatorP code = true
        · rw [if_pos hseparator]
          refine (ih false true count nofun).accept houtside hends hvalid ?_
          rw [@runsFrom_separates (some code) hseparator]
        · rw [if_neg hseparator]
          refine (ih false false _ nofun).accept houtside hends hvalid ?_
          rw [@runsFrom_code (some code) (Bool.eq_false_iff.mpr hseparator), ← Nat.add_assoc]
          cases sep <;> rfl
      · rw [if_neg hvalid]
        have hnot : ¬ Admitted false (code :: f) := fun h => hvalid ((admitted_some houtside).mp h).1
        refine ⟨by simp [hnot], ?_, ?_⟩
        · rintro p hp
          obtain rfl := Option.some_inj.mp hp
          simp [hnot]
        · rintro p hp htrue
          obtain rfl := Option.some_inj.mp hp
          cases htrue

theorem Decides.scan_ne_none {file : List UInt8} (h : Decides file) : scan false file true 0 ≠ none := by
  obtain ⟨fuel, valid, count, hcheck, -⟩ := h
  rw [checkNumericTextfile] at hcheck
  rw [checkLoop_sound hcheck]
  exact Option.some_ne_none _

/-- The scanner decides the format, unless the admitted bytes are followed by a comment without a
newline: then it does not end. -/
theorem decides_iff (file : List UInt8) :
    Decides file ↔ ¬ (Admitted false file ∧ inComment false file = true) := by
  have hscan := scan_spec false file true 0 nofun
  rw [← hscan.ends]
  constructor
  · exact Decides.scan_ne_none
  · intro hsome
    obtain ⟨⟨valid, count⟩, hr⟩ := Option.ne_none_iff_exists'.mp hsome
    refine ⟨file.length + 1, valid, count, ?_, hscan.valid _ hr, fun hvalid => ?_⟩
    · rw [checkNumericTextfile, checkLoop_eq (Nat.lt_succ_self _), hr]
    · have hcount := hscan.count_eq _ hr hvalid
      rw [Nat.zero_add] at hcount
      exact hcount

/-- A comment at the end of the file, as in `1 ;`. -/
theorem not_decides : ¬ Decides [49, 32, 59] := fun h => h.scan_ne_none rfl

end Decision

end Incudine.Textfile

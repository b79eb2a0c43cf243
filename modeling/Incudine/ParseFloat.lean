import Mathlib.Tactic.FieldSimp
import Mathlib.Tactic.Linarith
import Mathlib.Tactic.Ring

/-!
# Parsing of a decimal number

The integer and the fractional part are parsed as two integers. The sign of the number is taken from
the integer part, which loses it if it is zero.
-/

namespace Incudine.ParseFloat

/-- The characters of the numbers. -/
structure Alphabet (α : Type) where
  whitespace : α → Bool
  digit : α → Option ℕ
  minus : α
  plus : α
  point : α
  digit_lt : ∀ c d, digit c = some d → d < 10
  digit_whitespace : ∀ c, whitespace c → digit c = none
  digit_minus : digit minus = none
  digit_plus : digit plus = none
  digit_point : digit point = none
  whitespace_minus : whitespace minus = false
  whitespace_plus : whitespace plus = false
  minus_ne_plus : minus ≠ plus

variable {α : Type}

/-- The characters of the standard syntax, with the decimal digits of ASCII. -/
def ascii : Alphabet Char where
  whitespace c := c ∈ [' ', '\t', '\n', '\r', '\x0c', '\x7f']
  digit c := if c.isDigit then some (c.toNat - 48) else none
  minus := '-'
  plus := '+'
  point := '.'
  digit_lt c d h := by
    split at h
    · rename_i hc
      simp only [Char.isDigit, Bool.and_eq_true, decide_eq_true_eq] at hc
      have hle : c.toNat ≤ 57 := hc.2
      obtain rfl := Option.some.inj h
      omega
    · exact nomatch h
  digit_whitespace c hc := by
    simp only [List.mem_cons, List.not_mem_nil, or_false, decide_eq_true_eq] at hc
    rcases hc with rfl | rfl | rfl | rfl | rfl | rfl <;> rfl
  digit_minus := rfl
  digit_plus := rfl
  digit_point := rfl
  whitespace_minus := rfl
  whitespace_plus := rfl
  minus_ne_plus := by decide

/-- The first index from `i` of a character that is not of a kind, or the end. -/
def scan (p : α → Bool) (string : List α) (stop i : ℕ) : ℕ :=
  if i < stop ∧ (string[i]?).any p then scan p string stop (i + 1) else i
termination_by stop - i

def digitsLoop (A : Alphabet α) (string : List α) (stop i result : ℕ) (foundDigit : Bool) :
    ℕ × Bool × ℕ :=
  if i < stop then
    match (string[i]?).bind A.digit with
    | some weight => digitsLoop A string stop (i + 1) (weight + result * 10) true
    | none => (result, foundDigit, i)
  else (result, foundDigit, i)
termination_by stop - i

def slice (string : List α) (start stop : ℕ) : List α := (string.take stop).drop start

section Scan

variable {A : Alphabet α} {string l r : List α} {c : α} {i stop : ℕ}

theorem slice_cons (h : slice string i stop = c :: l) :
    i < stop ∧ string[i]? = some c ∧ slice string (i + 1) stop = l := by
  have hget : (string.take stop)[i]? = some c := by
    rw [← List.head?_drop]
    exact congrArg List.head? h
  have hlt : i < stop := by
    by_contra hge
    rw [List.getElem?_eq_none (by rw [List.length_take]; omega)] at hget
    exact nomatch hget
  refine ⟨hlt, by rwa [List.getElem?_take_of_lt hlt] at hget, ?_⟩
  rw [slice, ← List.drop_drop]
  change (slice string i stop).drop 1 = l
  rw [h]
  rfl

theorem slice_head (hi : i < stop) : string[i]? = (slice string i stop).head? := by
  rw [slice, List.head?_drop, List.getElem?_take_of_lt hi]

theorem slice_append (h : slice string i stop = l ++ r) :
    slice string (i + l.length) stop = r := by
  rw [slice, ← List.drop_drop]
  change (slice string i stop).drop l.length = r
  rw [h, List.drop_left]

theorem scan_append {p : α → Bool} (h : slice string i stop = l ++ r) (hl : ∀ c ∈ l, p c)
    (hr : ∀ c, r.head? = some c → p c = false) : scan p string stop i = i + l.length := by
  induction l generalizing i with
  | nil =>
    rw [scan, if_neg]
    · rfl
    · rintro ⟨hi, hany⟩
      rw [slice_head hi, h, List.nil_append] at hany
      cases hhead : r.head? with
      | none =>
        rw [hhead] at hany
        exact nomatch hany
      | some c =>
        rw [hhead, Option.any_some, hr c hhead] at hany
        exact nomatch hany
  | cons c l ih =>
    obtain ⟨hi, hget, hnext⟩ := slice_cons h
    have hc := hl c List.mem_cons_self
    rw [scan, if_pos ⟨hi, by rw [hget, Option.any_some, hc]⟩,
      ih hnext fun c hc => hl c (List.mem_cons_of_mem _ hc), List.length_cons]
    omega

theorem digitsLoop_append {result : ℕ} {foundDigit : Bool} (h : slice string i stop = l ++ r)
    (hl : ∀ c ∈ l, (A.digit c).isSome) (hr : ∀ c, r.head? = some c → A.digit c = none) :
    digitsLoop A string stop i result foundDigit =
      (l.foldl (fun result c => (A.digit c).getD 0 + result * 10) result,
        foundDigit || !l.isEmpty, i + l.length) := by
  induction l generalizing i result foundDigit with
  | nil =>
    rw [digitsLoop]
    by_cases hi : i < stop
    · rw [if_pos hi, slice_head hi, h, List.nil_append]
      cases hhead : r.head? with
      | none => simp
      | some c => simp [hr c hhead]
    · rw [if_neg hi]
      simp
  | cons c l ih =>
    obtain ⟨hi, hget, hnext⟩ := slice_cons h
    obtain ⟨weight, hweight⟩ := Option.isSome_iff_exists.mp (hl c List.mem_cons_self)
    rw [digitsLoop, if_pos hi, hget, Option.bind_some, hweight]
    simp only
    rw [ih hnext fun c hc => hl c (List.mem_cons_of_mem _ hc), List.foldl_cons, hweight,
      Option.getD_some, Bool.true_or, List.isEmpty_cons, Bool.not_false, Bool.or_true,
      List.length_cons]
    congr 2
    omega

theorem whitespace_of_digit {c : α} (hc : (A.digit c).isSome) : A.whitespace c = false := by
  cases hwhite : A.whitespace c with
  | false => rfl
  | true =>
    rw [A.digit_whitespace c hwhite] at hc
    exact nomatch hc

theorem scan_blanks {start : ℕ} (h : slice string start stop = l ++ r)
    (hl : ∀ c ∈ l, A.whitespace c) (hne : r ≠ [])
    (hhead : ∀ c, r.head? = some c → A.whitespace c = false) :
    scan A.whitespace string stop start = start + l.length ∧
      slice string (start + l.length) stop = r ∧ start + l.length < stop := by
  have hslice := slice_append h
  refine ⟨scan_append h hl hhead, hslice, ?_⟩
  obtain ⟨c, l', hcons⟩ := List.exists_cons_of_ne_nil hne
  rw [hcons] at hslice
  exact (slice_cons hslice).1

end Scan

section Parser

variable [DecidableEq α]

def parseInteger (A : Alphabet α) (string : List α) (start stop : ℕ) : Option ℤ × ℕ :=
  let index := scan A.whitespace string stop start
  if index = stop then (none, stop)
  else
    let minusp := string[index]? = some A.minus
    let index :=
      if minusp then index + 1 else if string[index]? = some A.plus then index + 1 else index
    let (result, foundDigit, index) := digitsLoop A string stop index 0 false
    (if foundDigit then some (if minusp then -(result : ℤ) else result) else none, index)

/-- `parse-float`. The number of the fractional digits is an `(unsigned-byte 8)`, so without a value
there is an error. -/
def parseFloat (A : Alphabet α) (string : List α) (start : ℕ) (stop? : Option ℕ) :
    Option (Option ℚ × ℕ) :=
  let stop := stop?.getD string.length
  if ¬ (start ≤ stop ∧ stop ≤ string.length) then none
  else
  let (int, pos) := parseInteger A string start stop
  match int with
  | none => some (none, 0)
  | some int =>
    let fracStart := pos + 1
    if fracStart < stop ∧ string[pos]? = some A.point ∧
        ((string[fracStart]?).bind A.digit).isSome then
      let (frac, len) := parseInteger A string fracStart stop
      match frac with
      | none => none
      | some frac =>
        if len - fracStart ≤ 255 then
          some (some (int + frac / 10 ^ (len - fracStart) * if int < 0 then -1 else 1), len)
        else none
    else some (some int, pos)

end Parser

inductive Sign where
  | none
  | plus
  | minus
  deriving DecidableEq

variable {A : Alphabet α}

def Sign.chars (A : Alphabet α) : Sign → List α
  | .none => []
  | .plus => [A.plus]
  | .minus => [A.minus]

@[simp] theorem Sign.chars_none : Sign.none.chars A = [] := rfl

def digitsValue (A : Alphabet α) (l : List α) : ℕ :=
  l.foldl (fun result c => (A.digit c).getD 0 + result * 10) 0

/-- Optional blanks, an optional sign and digits, followed by an optional point with digits. -/
structure Numeral (A : Alphabet α) where
  blanks : List α
  sign : Sign
  int : List α
  frac : List α
  blanks_whitespace : ∀ c ∈ blanks, A.whitespace c
  int_ne_nil : int ≠ []
  int_digits : ∀ c ∈ int, (A.digit c).isSome
  frac_digits : ∀ c ∈ frac, (A.digit c).isSome

namespace Numeral

def fracChars (n : Numeral A) : List α := if n.frac = [] then [] else A.point :: n.frac

def chars (n : Numeral A) : List α := n.blanks ++ n.sign.chars A ++ n.int ++ n.fracChars

/-- The number with the sign of both the parts. -/
def value (n : Numeral A) : ℚ :=
  (if n.sign = .minus then -1 else 1) *
    (digitsValue A n.int + digitsValue A n.frac / 10 ^ n.frac.length)

def IsLongest (n : Numeral A) (l : List α) : Prop :=
  n.chars <+: l ∧ ∀ n' : Numeral A, n'.chars <+: l → n'.chars.length ≤ n.chars.length

theorem isLongest_chars (n : Numeral A) : n.IsLongest n.chars :=
  ⟨List.prefix_rfl, fun _ h => h.length_le⟩

end Numeral

section Integer

variable [DecidableEq α] {A : Alphabet α} {string blanks digits rest : List α} {start stop : ℕ}

theorem parseInteger_append {sign : Sign}
    (h : slice string start stop = blanks ++ (sign.chars A ++ (digits ++ rest)))
    (hblanks : ∀ c ∈ blanks, A.whitespace c) (hne : digits ≠ [])
    (hdigits : ∀ c ∈ digits, (A.digit c).isSome)
    (hrest : ∀ c, rest.head? = some c → A.digit c = none) :
    parseInteger A string start stop =
      (some (if sign = .minus then -(digitsValue A digits : ℤ) else digitsValue A digits),
        start + blanks.length + (sign.chars A).length + digits.length) := by
  obtain ⟨d, l, hcons⟩ := List.exists_cons_of_ne_nil hne
  have hd : (A.digit d).isSome := hdigits d (hcons ▸ List.mem_cons_self)
  have hempty : (false || !digits.isEmpty) = true := by
    rw [hcons]
    rfl
  cases sign with
  | none =>
    obtain ⟨hscan, hslice, hlt⟩ := scan_blanks h hblanks (by rw [hcons]; simp [Sign.chars]) (by
      intro c hc
      rw [hcons] at hc
      obtain rfl : d = c := by simpa [Sign.chars] using hc
      exact whitespace_of_digit hd)
    have hget : string[start + blanks.length]? = some d := by
      rw [slice_head hlt, hslice, hcons]
      rfl
    have hminus : some d ≠ some A.minus := fun heq => by
      rw [Option.some.inj heq, A.digit_minus] at hd
      exact nomatch hd
    have hplus : some d ≠ some A.plus := fun heq => by
      rw [Option.some.inj heq, A.digit_plus] at hd
      exact nomatch hd
    rw [parseInteger, hscan, if_neg hlt.ne]
    simp only [hget, hminus, hplus, if_false]
    rw [digitsLoop_append (show slice string _ stop = digits ++ rest from hslice) hdigits hrest]
    simp [hempty, digitsValue, Sign.chars]
  | plus =>
    obtain ⟨hscan, hslice, hlt⟩ := scan_blanks h hblanks (by simp [Sign.chars]) (by
      intro c hc
      obtain rfl : A.plus = c := by simpa [Sign.chars] using hc
      exact A.whitespace_plus)
    obtain ⟨-, hget, hnext⟩ := slice_cons hslice
    have hminus : some A.plus ≠ some A.minus := fun heq =>
      A.minus_ne_plus (Option.some.inj heq).symm
    rw [parseInteger, hscan, if_neg hlt.ne]
    simp only [hget, hminus, if_false]
    rw [if_pos trivial,
      digitsLoop_append (show slice string _ stop = digits ++ rest from hnext) hdigits hrest]
    simp [hempty, digitsValue, Sign.chars]
  | minus =>
    obtain ⟨hscan, hslice, hlt⟩ := scan_blanks h hblanks (by simp [Sign.chars]) (by
      intro c hc
      obtain rfl : A.minus = c := by simpa [Sign.chars] using hc
      exact A.whitespace_minus)
    obtain ⟨-, hget, hnext⟩ := slice_cons hslice
    rw [parseInteger, hscan, if_neg hlt.ne]
    simp only [hget, if_true]
    rw [digitsLoop_append (show slice string _ stop = digits ++ rest from hnext) hdigits hrest]
    simp [hempty, digitsValue, Sign.chars]

end Integer

namespace Numeral

variable {n : Numeral A} {rest : List α}

theorem fracChars_nil (h : n.frac = []) : n.fracChars = [] := if_pos h

theorem fracChars_cons (h : n.frac ≠ []) : n.fracChars = A.point :: n.frac := if_neg h

theorem length_chars (n : Numeral A) : n.chars.length =
    n.blanks.length + (n.sign.chars A).length + n.int.length + n.fracChars.length := by
  simp only [chars, List.length_append]

section

variable (h : n.IsLongest (n.chars ++ rest))
include h

theorem IsLongest.eq_nil {n' : Numeral A} {l r : List α} (hchars : n'.chars = n.chars ++ l)
    (hrest : rest = l ++ r) : l = [] := by
  have hle := h.2 n' ⟨r, by rw [hchars, hrest, List.append_assoc]⟩
  rw [hchars, List.length_append] at hle
  exact List.length_eq_zero_iff.mp (by omega)

theorem IsLongest.frac (hfrac : n.frac ≠ []) {c : α} (hc : rest.head? = some c) :
    A.digit c = none := by
  by_contra hdigit
  obtain ⟨r, hrest⟩ := List.head?_eq_some_iff.mp hc
  have hsome : (A.digit c).isSome := Option.isSome_iff_ne_none.mpr hdigit
  let n' : Numeral A := { n with
    frac := n.frac ++ [c]
    frac_digits :=
      List.forall_mem_append.mpr ⟨n.frac_digits, List.forall_mem_singleton.mpr hsome⟩ }
  have hchars : n'.chars = n.chars ++ [c] := by
    have hne : n'.frac ≠ [] := by simp [n']
    rw [chars, fracChars_cons hne, chars, fracChars_cons hfrac]
    simp [n']
  exact List.cons_ne_nil c [] (h.eq_nil hchars hrest)

theorem IsLongest.int (hfrac : n.frac = []) {c : α} (hc : rest.head? = some c) :
    A.digit c = none := by
  by_contra hdigit
  obtain ⟨r, hrest⟩ := List.head?_eq_some_iff.mp hc
  have hsome : (A.digit c).isSome := Option.isSome_iff_ne_none.mpr hdigit
  let n' : Numeral A := { n with
    int := n.int ++ [c]
    int_ne_nil := by simp
    int_digits :=
      List.forall_mem_append.mpr ⟨n.int_digits, List.forall_mem_singleton.mpr hsome⟩ }
  have hchars : n'.chars = n.chars ++ [c] := by
    rw [chars, fracChars_nil (show n'.frac = [] from hfrac), chars, fracChars_nil hfrac]
    simp [n']
  exact List.cons_ne_nil c [] (h.eq_nil hchars hrest)

theorem IsLongest.point (hfrac : n.frac = []) {c : α} {r : List α}
    (hrest : rest = A.point :: c :: r) : A.digit c = none := by
  by_contra hdigit
  have hsome : (A.digit c).isSome := Option.isSome_iff_ne_none.mpr hdigit
  let n' : Numeral A := { n with
    frac := [c]
    frac_digits := fun d hd => by rwa [List.mem_singleton.mp hd] }
  have hchars : n'.chars = n.chars ++ [A.point, c] := by
    rw [chars, fracChars_cons (show n'.frac ≠ [] by simp [n']), chars, fracChars_nil hfrac]
    simp [n']
  exact List.cons_ne_nil A.point [c] (h.eq_nil hchars hrest)

end

end Numeral

section Value

theorem pos_digits (n : Numeral A) : (0 : ℚ) < 10 ^ n.frac.length := by positivity

def Numeral.signedInt (n : Numeral A) : ℤ :=
  if n.sign = .minus then -(digitsValue A n.int : ℤ) else digitsValue A n.int

theorem value_eq_iff (n : Numeral A) :
    (n.signedInt : ℚ) + (digitsValue A n.frac : ℤ) / 10 ^ n.frac.length *
        (if n.signedInt < 0 then -1 else 1) = n.value ↔
      ¬ (n.sign = .minus ∧ digitsValue A n.int = 0 ∧ digitsValue A n.frac ≠ 0) := by
  have hpow := pos_digits n
  rw [Numeral.signedInt, Numeral.value]
  by_cases hsign : n.sign = .minus
  · rw [if_pos hsign, if_pos hsign]
    by_cases hzero : digitsValue A n.int = 0
    · rw [hzero, if_neg (by norm_num)]
      have hiff : (digitsValue A n.frac : ℚ) / 10 ^ n.frac.length = 0 ↔
          digitsValue A n.frac = 0 := by
        rw [div_eq_zero_iff, Nat.cast_eq_zero]
        exact or_iff_left hpow.ne'
      constructor
      · rintro heq ⟨-, -, hne⟩
        refine hne (hiff.mp ?_)
        push_cast at heq
        linarith
      · intro hnot
        have hfrac : digitsValue A n.frac = 0 := by
          by_contra hne
          exact hnot ⟨hsign, rfl, hne⟩
        rw [hfrac]
        norm_num
    · rw [if_pos (by omega)]
      refine iff_of_true ?_ fun hand => hzero hand.2.1
      push_cast
      ring
  · rw [if_neg hsign, if_neg hsign, if_neg (by omega)]
    refine iff_of_true ?_ fun hand => hsign hand.1
    push_cast
    ring

variable [DecidableEq α] {string : List α} {start : ℕ} {stop? : Option ℕ} {n : Numeral A}

def Numeral.fracIndex (n : Numeral A) (start : ℕ) : ℕ :=
  start + n.blanks.length + (n.sign.chars A).length + n.int.length

omit [DecidableEq α] in
theorem Numeral.slice_chars {stop : ℕ} {rest : List α}
    (h : n.chars ++ rest = slice string start stop) :
    slice string start stop =
        n.blanks ++ (n.sign.chars A ++ (n.int ++ (n.fracChars ++ rest))) ∧
      slice string (n.fracIndex start) stop = n.fracChars ++ rest := by
  have hslice : slice string start stop =
      (n.blanks ++ n.sign.chars A ++ n.int) ++ (n.fracChars ++ rest) := by
    rw [← h, Numeral.chars, List.append_assoc]
  have hnext := slice_append hslice
  simp only [List.length_append, ← Nat.add_assoc] at hnext
  exact ⟨by simpa only [List.append_assoc] using hslice, hnext⟩

theorem parseInteger_int {stop : ℕ} {rest : List α} (h : n.chars ++ rest = slice string start stop)
    (hrest : ∀ c, (n.fracChars ++ rest).head? = some c → A.digit c = none) :
    parseInteger A string start stop = (some n.signedInt, n.fracIndex start) :=
  parseInteger_append (Numeral.slice_chars h).1 n.blanks_whitespace n.int_ne_nil n.int_digits hrest

section

variable (hbounds : start ≤ stop?.getD string.length ∧ stop?.getD string.length ≤ string.length)
  (h : n.IsLongest (slice string start (stop?.getD string.length)))
include hbounds h

theorem parseFloat_int (hfrac : n.frac = []) :
    parseFloat A string start stop? = some (some (n.signedInt : ℚ), start + n.chars.length) := by
  set stop := stop?.getD string.length with hstop
  obtain ⟨rest, hrest⟩ := h.1
  have hlong : n.IsLongest (n.chars ++ rest) := by rwa [hrest]
  have hpos := (Numeral.slice_chars hrest).2
  have hnil := Numeral.fracChars_nil hfrac
  rw [hnil, List.nil_append] at hpos
  rw [parseFloat, if_neg (not_not.mpr hbounds), ← hstop, parseInteger_int hrest fun c hc =>
    hlong.int hfrac (by rwa [hnil, List.nil_append] at hc)]
  simp only
  rw [if_neg, n.length_chars, hnil, Numeral.fracIndex]
  · simp only [List.length_nil, Nat.add_assoc, Nat.add_zero]
  · rintro ⟨hlt, hpoint, hdigit⟩
    rw [slice_head (Nat.lt_of_succ_lt hlt)] at hpoint
    obtain ⟨r, hr⟩ := List.head?_eq_some_iff.mp hpoint
    rw [slice_head hlt, (slice_cons hr).2.2] at hdigit
    cases r with
    | nil => exact nomatch hdigit
    | cons c r =>
      rw [List.head?_cons, Option.bind_some, hlong.point hfrac (hpos.symm.trans hr)] at hdigit
      exact nomatch hdigit

theorem parseFloat_frac (hfrac : n.frac ≠ []) :
    parseFloat A string start stop? =
      if n.frac.length ≤ 255 then
        some (some ((n.signedInt : ℚ) + (digitsValue A n.frac : ℤ) / 10 ^ n.frac.length *
          (if n.signedInt < 0 then -1 else 1)), start + n.chars.length)
      else none := by
  set stop := stop?.getD string.length with hstop
  obtain ⟨rest, hrest⟩ := h.1
  have hlong : n.IsLongest (n.chars ++ rest) := by rwa [hrest]
  have hpos := (Numeral.slice_chars hrest).2
  have hcons := Numeral.fracChars_cons hfrac
  rw [hcons, List.cons_append] at hpos
  obtain ⟨-, hpoint, hnext⟩ := slice_cons hpos
  have hdigit : n.fracIndex start + 1 < stop ∧ string[n.fracIndex start]? = some A.point ∧
      ((string[n.fracIndex start + 1]?).bind A.digit).isSome := by
    obtain ⟨d, l, hd⟩ := List.exists_cons_of_ne_nil hfrac
    have hfirst := hnext
    rw [hd, List.cons_append] at hfirst
    obtain ⟨hlt, hget, -⟩ := slice_cons hfirst
    refine ⟨hlt, hpoint, ?_⟩
    rw [hget]
    exact n.frac_digits d (hd ▸ List.mem_cons_self)
  have hparts : slice string (n.fracIndex start + 1) stop =
      [] ++ (Sign.none.chars A ++ (n.frac ++ rest)) := hnext
  have hlength : start + n.chars.length = n.fracIndex start + 1 + n.frac.length := by
    rw [n.length_chars, hcons, List.length_cons, Numeral.fracIndex]
    omega
  rw [parseFloat, if_neg (not_not.mpr hbounds), ← hstop, parseInteger_int hrest fun c hc => by
    rw [hcons] at hc
    rw [← Option.some.inj hc, A.digit_point]]
  simp only
  rw [if_pos hdigit, parseInteger_append hparts (by simp) hfrac n.frac_digits fun c hc =>
    hlong.frac hfrac hc]
  simp only [reduceCtorEq, if_false]
  rw [hlength]
  simp only [Sign.chars_none, List.length_nil, Nat.add_zero, Nat.add_sub_cancel_left]

end

/-- The value is the one of the longest number iff a minus sign isn't lost with a zero integer part
and the length of the fractional part is an octet. -/
theorem parseFloat_iff (hbounds : start ≤ stop?.getD string.length ∧
      stop?.getD string.length ≤ string.length)
    (h : n.IsLongest (slice string start (stop?.getD string.length))) :
    parseFloat A string start stop? = some (some n.value, start + n.chars.length) ↔
      ¬ (n.sign = .minus ∧ digitsValue A n.int = 0 ∧ digitsValue A n.frac ≠ 0) ∧
        n.frac.length ≤ 255 := by
  rw [← value_eq_iff n]
  by_cases hfrac : n.frac = []
  · have hzero : digitsValue A n.frac = 0 := by
      rw [hfrac]
      rfl
    have hle : n.frac.length ≤ 255 := by
      rw [hfrac]
      exact Nat.zero_le _
    rw [parseFloat_int hbounds h hfrac, and_iff_left hle, hzero]
    simp
  · rw [parseFloat_frac hbounds h hfrac]
    by_cases hle : n.frac.length ≤ 255
    · rw [if_pos hle, and_iff_left hle]
      simp only [Option.some.injEq, Prod.mk.injEq, and_true]
    · rw [if_neg hle]
      exact iff_of_false (fun heq => nomatch heq) fun hand => hle hand.2

end Value

/-- A number with blanks and a sign, between other characters. -/
def quarter : Numeral ascii where
  blanks := [' ']
  sign := .minus
  int := ['1', '2']
  frac := ['2', '5']
  blanks_whitespace := by simp [ascii]
  int_ne_nil := List.cons_ne_nil _ _
  int_digits := by simp [ascii]
  frac_digits := by simp [ascii]

theorem parseFloat_iff_quarter :
    parseFloat ascii ['x', ' ', '-', '1', '2', '.', '2', '5', 'y'] 1 (some 8) =
      some (some quarter.value, 1 + quarter.chars.length) :=
  (parseFloat_iff (by decide) quarter.isLongest_chars).mpr (by decide)

def minusHalf : Numeral ascii where
  blanks := []
  sign := .minus
  int := ['0']
  frac := ['5']
  blanks_whitespace := by simp [ascii]
  int_ne_nil := List.cons_ne_nil _ _
  int_digits := by simp [ascii]
  frac_digits := by simp [ascii]

/-- The sign of `-0.5` is lost. -/
theorem not_parseFloat : ¬ ∀ (string : List Char) (start : ℕ) (stop? : Option ℕ)
    (n : Numeral ascii), start ≤ stop?.getD string.length →
    stop?.getD string.length ≤ string.length →
    n.IsLongest (slice string start (stop?.getD string.length)) →
    parseFloat ascii string start stop? = some (some n.value, start + n.chars.length) := by
  intro h
  have hvalue := h minusHalf.chars 0 none minusHalf (by decide) (by decide)
    minusHalf.isLongest_chars
  rw [parseFloat_frac (by decide) minusHalf.isLongest_chars (by decide),
    if_pos (by decide)] at hvalue
  have heq := congrArg Prod.fst (Option.some.inj hvalue)
  exact (value_eq_iff minusHalf).mp (Option.some.inj heq) (by decide)

end Incudine.ParseFloat

import Mathlib.Data.List.Nodup

/-!
# The arguments of a UGEN

The arguments of a call are sorted at compile time by `sort-ugen-callback-args`, or bound at run time
by a `lambda*` function. The positional values and the keywords give the same list in both cases.
-/

namespace Incudine.UgenArguments

structure Symbol where
  package : String
  name : String
  deriving DecidableEq

namespace Symbol

def nil : Symbol := ⟨"COMMON-LISP", "NIL"⟩

def rest : Symbol := ⟨"COMMON-LISP", "&REST"⟩

def makeKeyword (s : Symbol) : Symbol := ⟨"KEYWORD", s.name⟩

end Symbol

/-- A form, or its value. `list` is a list with an element at least. -/
inductive Object (α : Type*)
  | symbol (s : Symbol)
  | string (s : String)
  | character (c : Char)
  | list (xs : List (Object α))
  | other (x : α)

variable {α : Type*}

namespace Object

def nil : Object α := .symbol Symbol.nil

def memSymbols : Object α → List Symbol → Bool
  | .symbol s, symbols => s ∈ symbols
  | _, _ => false

def stringDesignator : Object α → Option String
  | .symbol s => some s.name
  | .string s => some s
  | .character c => some (String.singleton c)
  | _ => none

end Object

abbrev Alist (α : Type*) := List (Symbol × Object α)

/-- The value of the first parameter with the name `key`. `string=` fails if it is not a name. -/
def setValue : Alist α → Object α → Object α → Option (Alist α)
  | [], _, _ => some []
  | box :: al, key, value =>
    key.stringDesignator.bind fun name =>
      if name = box.1.name then some ((box.1, value) :: al)
      else (setValue al key value).map (box :: ·)

/-- The parameters of a definition. `extra` are the parameters that follow in the function, as the
variable `ugen-node` of a UGEN. The keywords are different, and a parameter is not the constant
`nil`. -/
structure LambdaList (α : Type*) where
  argNames : List Symbol
  defaults : List (Object α)
  extra : Alist α
  length_eq : defaults.length = argNames.length
  nodup : ((argNames ++ extra.map Prod.fst).map Symbol.name).Nodup
  not_nil : Symbol.nil.name ∉ argNames.map Symbol.name

namespace LambdaList

def names (l : LambdaList α) : List Symbol := l.argNames ++ l.extra.map Prod.fst

end LambdaList

/-- Positional values, then keywords and values for the parameters that remain. -/
structure Call (l : LambdaList α) where
  positional : List (Object α)
  pairs : Alist α
  not_keyword : ∀ v ∈ positional, v.memSymbols (l.names.map Symbol.makeKeyword) = false
  pairs_nodup : (pairs.map Prod.fst).Nodup
  pairs_mem : ∀ p ∈ pairs, p.1 ∈ l.argNames.drop positional.length

def assign (al : Alist α) (a : String × Object α) : Alist α :=
  al.map fun box => if a.1 = box.1.name then (box.1, a.2) else box

section Assign

variable {al : Alist α}

end Assign

variable {keys : List Symbol} {positional : List (Object α)}

section Sorting

variable {argNames : List Symbol} {al : Alist α} {pairs : Alist α}

end Sorting

section Star

variable {pairs : Alist α}

end Star

section Agreement

variable {l : LambdaList α}

end Agreement

end Incudine.UgenArguments

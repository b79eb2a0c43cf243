import Mathlib.Algebra.GroupWithZero.Nat
import Mathlib.Data.Nat.Cast.Defs

/-!
# The numerals of the definitions

The instances of Mathlib for the numerals of the definitions, as constants: a definition does not
depend on the others that have the same numeral.
-/

namespace Literals

scoped instance atLeastTwo_2 : Nat.AtLeastTwo 2 := inferInstance

scoped instance atLeastTwo_3 : Nat.AtLeastTwo 3 := inferInstance

scoped instance atLeastTwo_4 : Nat.AtLeastTwo 4 := inferInstance

scoped instance atLeastTwo_5 : Nat.AtLeastTwo 5 := inferInstance

scoped instance atLeastTwo_12 : Nat.AtLeastTwo 12 := inferInstance

scoped instance atLeastTwo_100 : Nat.AtLeastTwo 100 := inferInstance

scoped instance atLeastTwo_440 : Nat.AtLeastTwo 440 := inferInstance

scoped instance atLeastTwo_1200 : Nat.AtLeastTwo 1200 := inferInstance

scoped instance neZero_3 : NeZero 3 := inferInstance

scoped instance neZero_9 : NeZero 9 := inferInstance

scoped instance neZero_128 : NeZero 128 := inferInstance

end Literals

/-!
# `StackForm.Word`: the values that instructions compute

Every value is a 64-bit two's-complement word. This module fixes how a word is
written, which integers are words, and which words can number a local variable.
-/

set_option autoImplicit false

namespace StackForm

/-- A 64-bit two's-complement integer. -/
abbrev Word := Int64

/-- Locals and frame slots are numbered by the naturals below this bound. -/
def indexLimit : Nat := 4294967296

namespace Word

/-- The decimal text of a word, with a leading minus sign when it is negative. -/
def decimal (w : Word) : String := toString w.toInt

/-- The word with the given integer value. Integers that need more than 64 bits
have none. -/
def ofInt? (i : Int) : Option Word :=
  if -9223372036854775808 ≤ i ∧ i ≤ 9223372036854775807 then some (Int64.ofInt i) else none

/-- A truth value as a word, one for true and zero for false. -/
def ofBool (b : Bool) : Word := if b then 1 else 0

/-- The number of the local that a word names. Negative words and words at or
beyond `indexLimit` name none. -/
def index? (w : Word) : Option Nat :=
  if 0 ≤ w.toInt ∧ w.toInt < indexLimit then some w.toInt.toNat else none

end Word

end StackForm

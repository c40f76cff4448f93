import StackForm.Word

/-!
# `StackForm.Directive.Number`: reading bounded integers

A number is read digit by digit, and the first digit with which it leaves its bounds
ends the reading. So of two faults the one further left is reported, and a character
that is no digit counts as further left than the overflow that it would have caused.
-/

set_option autoImplicit false

namespace StackForm

/-- Why a text is no number within its bounds. -/
inductive NumberFault where
  | empty
  | invalidDigit
  | tooLarge
  | tooSmall
  deriving DecidableEq, Repr

def NumberFault.message : NumberFault → String
  | empty => "cannot parse integer from empty string"
  | invalidDigit => "invalid digit found in string"
  | tooLarge => "number too large to fit in target type"
  | tooSmall => "number too small to fit in target type"

namespace Number

/-- Reads digits after those with the value `acc`. A value beyond `limit` is the fault
`beyond`. -/
def readDigits (limit : Nat) (beyond : NumberFault) (acc : Nat) :
    List Char → Except NumberFault Nat
  | [] => return acc
  | c :: cs =>
    if ¬ c.isDigit then throw .invalidDigit
    else if limit < 10 * acc + (c.toNat - '0'.toNat) then throw beyond
    else readDigits limit beyond (10 * acc + (c.toNat - '0'.toNat)) cs

/-- Reads the number of a local. It has no sign. -/
def readIndex (cs : List Char) : Except NumberFault Nat :=
  if cs.isEmpty then throw .empty else readDigits (indexLimit - 1) .tooLarge 0 cs

/-- Reads a word, with a minus sign or without. -/
def readWord : List Char → Except NumberFault Word
  | [] => throw .empty
  | ['-'] => throw .invalidDigit
  | '-' :: cs => do
    let n ← readDigits 9223372036854775808 .tooSmall 0 cs
    return Int64.ofInt (-n)
  | cs => do
    let n ← readDigits 9223372036854775807 .tooLarge 0 cs
    return Int64.ofInt n

end Number

end StackForm

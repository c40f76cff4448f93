import StackForm.Directive.Number
import StackForm.Text.Blank

/-!
# `StackForm.Directive.Basic`: checks written as comments

A comment that starts with `#!` is a directive. It gives values to locals before the
block runs and may say, behind an arrow, which values are expected after it:

    #! locals: 0=1, 1=2 -> 0=3

Pairs are separated by commas, and empty places between commas do not count.
-/

set_option autoImplicit false

namespace StackForm

/-- Locals with the values that they have or are to have. -/
abbrev Pairs := List (Nat × Word)

/-- A check of a block from one initial store. -/
structure Directive where
  /-- The comment as it is written. -/
  text : String
  locals : Pairs
  /-- What the locals should hold in the end. Without it only the agreement of the two
  ways to run the block is checked. -/
  expected : Option Pairs
  deriving DecidableEq, Repr

/-- Why a comment is no directive. -/
inductive DirectiveFault where
  | badFormat (comment : String)
  | badPair (pair : String)
  | badNumber (fault : NumberFault)
  deriving DecidableEq, Repr

def DirectiveFault.message : DirectiveFault → String
  | badFormat comment =>
    "Parsing Error:\nComment: `" ++ comment ++
      "`\nExpected Format: `#! locals: 0=1, 1=2 -> 0=3`."
  | badPair pair => "`" ++ pair ++ "` is not a `local=value` pair"
  | badNumber fault => fault.message

namespace Directive

open Text

/-- What a directive starts with. -/
def mark : List Char := ['#', '!']

/-- Whether a character can be part of a list of pairs. -/
def isPairChar (c : Char) : Bool := c.isDigit || c == '=' || c == ',' || c == '-' || isBlank c

/-- The texts before and behind the arrow, if there is one, provided that they could
be lists of pairs. -/
def splitArrow (cs : List Char) : Option (List Char × Option (List Char)) :=
  let before := cs.takeWhile (· ≠ '>')
  match cs.dropWhile (· ≠ '>') with
  | [] => if before.all isPairChar then some (before, none) else none
  | _ :: after =>
    if before.getLast? = some '-' ∧ before.all isPairChar ∧ after.all isPairChar then
      some (before.dropLast, some after)
    else none

/-- The two lists of pairs of a directive, as texts. -/
def body? (comment : List Char) : Option (List Char × Option (List Char)) :=
  (mark.isPrefixOf? comment).bind fun cs =>
    ("locals:".toList.isPrefixOf? (cs.dropWhile isBlank)).bind splitArrow

/-- Reads one pair, the local first. -/
def readPair (cs : List Char) : Except DirectiveFault (Nat × Word) :=
  match cs.dropWhile (· ≠ '=') with
  | [] => throw (.badPair (String.ofList cs))
  | _ :: value => do
    let n ← (Number.readIndex (trim (cs.takeWhile (· ≠ '=')))).mapError .badNumber
    let v ← (Number.readWord (trim value)).mapError .badNumber
    return (n, v)

/-- Reads a list of pairs, up to the first that is none. -/
def readPairs (cs : List Char) : Except DirectiveFault Pairs :=
  (((cs.splitOn ',').map trim).filter (!·.isEmpty)).mapM readPair

/-- Reads a directive. -/
def parse (comment : String) : Except DirectiveFault Directive :=
  match body? comment.toList with
  | none => throw (.badFormat comment)
  | some (before, after) => do
    let locals ← readPairs before
    let expected ← after.mapM readPairs
    return { text := comment, locals, expected }

/-- Whether a comment is meant as a directive. -/
def isDirective (comment : String) : Bool := mark.isPrefixOf comment.toList

/-- The directives among comments, up to the first that cannot be read. -/
def ofComments (comments : List String) : Except DirectiveFault (List Directive) :=
  (comments.filter isDirective).mapM parse

end Directive

end StackForm

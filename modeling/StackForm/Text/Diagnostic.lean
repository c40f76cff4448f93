import StackForm.Opcode
import StackForm.Text.Matcher

/-!
# `StackForm.Text.Diagnostic`: what is wrong with a text, and where

A text that cannot be read is reported by diagnostics: a problem and the piece of the
text that has it. The report of a text of the wrong shape quotes the line at fault,
so the wording of a diagnostic needs the text.
-/

set_option autoImplicit false

namespace StackForm.Text

/-- What can be wrong with a text. -/
inductive Problem where
  /-- The text does not have the shape of a block. -/
  | malformed (expected : List Rule)
  /-- An integer needs more than 64 bits. -/
  | numberOutOfBounds
  /-- No earlier statement has this name. -/
  | undefinedValue (name : String)
  /-- This is not an opcode. -/
  | unknownInstr (name : String)
  /-- An earlier statement has this name too. -/
  | duplicateName (name : String)
  /-- A name stands before an opcode that has no result. -/
  | unexpectedName (opcode : Opcode)
  | argCount (expected actual : Nat)
  deriving DecidableEq, Repr

/-- A problem and the piece of text that has it. -/
structure Diagnostic where
  problem : Problem
  span : Span
  deriving DecidableEq, Repr

/-- Names joined for a sentence: `a`, `a or b`, `a, b, or c`. -/
def enumerate : List String → String
  | [] => ""
  | [a] => a
  | [a, b] => a ++ " or " ++ b
  | names => ", ".intercalate names.dropLast ++ ", or " ++ names.getLastD ""

namespace Place

/-- As many blanks as the line number has digits. -/
def margin (p : Place) : String := String.ofList (List.replicate (toString p.line).length ' ')

/-- The line as it is quoted. Line ends are made visible if the place is at one, and
are left out otherwise. -/
def quoted (p : Place) : List Char :=
  let ahead := if p.ended then p.tail ++ ['\n'] else p.tail
  if ahead.head?.any fun c => c == '\n' || c == '\r' then
    (p.head ++ ahead).map fun c => if c = '\r' then '␍' else if c = '\n' then '␊' else c
  else (p.head ++ ahead).filter fun c => c != '\r' && c != '\n'

/-- Blanks that reach up to the place, where tabs stay tabs. -/
def padding (p : Place) : List Char :=
  (p.quoted.take (p.column - 1)).map fun c => if c = '\t' then '\t' else ' '

end Place

/-- The report that at an offset none of the expected rules matched. -/
def expectation (source : String) (offset : Nat) (expected : List Rule) : String :=
  let p := Place.of source.toList offset
  let s := p.margin
  "\n".intercalate
    [s ++ "--> " ++ toString p.line ++ ":" ++ toString p.column,
      s ++ " |",
      toString p.line ++ " | " ++ String.ofList p.quoted,
      s ++ " | " ++ String.ofList p.padding ++ "^---",
      s ++ " |",
      s ++ " = expected " ++ enumerate (expected.map Rule.name)]

/-- The wording of a diagnostic of the given text. -/
def Diagnostic.message (source : String) (d : Diagnostic) : String :=
  match d.problem with
  | .malformed expected => expectation source d.span.start expected
  | .numberOutOfBounds => "number out of bounds"
  | .undefinedValue name => "undefined value: `" ++ name ++ "`"
  | .unknownInstr name => "unknown inst: `" ++ name ++ "`"
  | .duplicateName name => "value name `" ++ name ++ "` is already defined"
  | .unexpectedName opcode => "`" ++ opcode.name ++ "` has no result to name"
  | .argCount expected actual =>
    "expected `" ++ toString expected ++ "` number of arguments, but given `" ++
      toString actual ++ "`"

end StackForm.Text

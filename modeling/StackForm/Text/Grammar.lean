import StackForm.Text.Matcher

/-!
# `StackForm.Text.Grammar`: the shape of a block's text

A text has a statement a line at most. A statement is an opcode with operands that are
separated by commas, and a value name with an equals sign may stand before it:

    # the square of a local
    v0 = load_local 0
    v1 = mul v0, v0
    store_local 1, v1

Between any two parts of a line there may be blanks, and a comment runs from a number
sign to the end of its line. Both are taken by `skip`, which the rules place between
their parts. A statement owns what is skipped while more of it is looked for: after
the opcode and after the first operand. So the span of a statement with fewer than
two operands takes in the blanks and the comment behind it.
-/

set_option autoImplicit false

namespace StackForm.Text

/-- A word of the text and where it stands. -/
structure Lexeme where
  text : String
  span : Span
  deriving DecidableEq, Repr

/-- An operand as it is written. -/
inductive OperandText where
  | name (lexeme : Lexeme)
  | integer (lexeme : Lexeme)
  deriving DecidableEq, Repr

/-- A statement as it is written. -/
structure Statement where
  /-- The name given to the result. -/
  label : Option Lexeme
  opcode : Lexeme
  operands : List OperandText
  span : Span
  deriving DecidableEq, Repr

/-- A text that has the right shape. -/
structure Listing where
  statements : List Statement
  /-- The comments in source order, without white space at their ends. -/
  comments : List String
  deriving DecidableEq, Repr

/-! ### Words -/

/-- Blanks separate words within a line. -/
def isSpacing (c : Char) : Bool := c == ' ' || c == '\t'

/-- Characters that end a line. -/
def isLineEnd (c : Char) : Bool := c == '\n' || c == '\r'

/-- One or more digits. -/
def findDigits (cs : List Char) : Option (List Char) :=
  let digits := cs.takeWhile Char.isDigit
  if digits.isEmpty then none else some digits

/-- A `v` and one or more digits. -/
def findValueName : List Char → Option (List Char)
  | 'v' :: cs => (findDigits cs).map ('v' :: ·)
  | _ => none

/-- One or more digits, with a minus sign or without. -/
def findInteger : List Char → Option (List Char)
  | '-' :: cs => (findDigits cs).map ('-' :: ·)
  | cs => findDigits cs

/-- Whether an opcode can start with a character. -/
def startsOpcode (c : Char) : Bool := c.isLower || c == '_'

/-- Whether an opcode can go on with a character. -/
def continuesOpcode (c : Char) : Bool := c.isAlphanum || c == '_'

/-- Letters, digits and underscores, a small letter or an underscore first. -/
def findOpcode : List Char → Option (List Char)
  | c :: cs => if startsOpcode c then some (c :: cs.takeWhile continuesOpcode) else none
  | [] => none

/-- A number sign and the rest of the line. -/
def findComment : List Char → Option (List Char)
  | '#' :: cs => some ('#' :: cs.takeWhile (!isLineEnd ·))
  | _ => none

/-- The end of a line. A carriage return with a line feed is one. -/
def findNewline : List Char → Option (List Char)
  | '\n' :: _ => some ['\n']
  | '\r' :: '\n' :: _ => some ['\r', '\n']
  | '\r' :: _ => some ['\r']
  | _ => none

/-! ### Rules -/

namespace Grammar

open Matcher

/-- A word of the text, as a rule of its own. -/
def lexeme (name : Rule) (find : List Char → Option (List Char)) : Matcher Lexeme :=
  rule name do
    let start ← offset
    let cs ← scan find
    let stop ← offset
    return { text := String.ofList cs, span := .ofRange start stop }

def valueName : Matcher Lexeme := lexeme .valueName findValueName

def integer : Matcher Lexeme := lexeme .integer findInteger

def opcode : Matcher Lexeme := lexeme .opcode findOpcode

/-- Any number of blanks. -/
def spacing : Matcher Unit := do
  let _ ← scan fun cs => some (cs.takeWhile isSpacing)

/-- Adds a comment to those read so far. -/
def keepComment (cs : List Char) : Matcher Unit := fun r t =>
  (some ((), { r with comments := String.ofList (trimEnd cs) :: r.comments }), t)

def comment : Matcher Unit := do
  let cs ← rule .comment (scan findComment)
  keepComment cs

/-- What may stand between two parts of a text: blanks and comments. -/
def skip : Matcher Unit := do
  spacing
  let _ ← many do
    comment
    spacing

/-- Any number of matches, with skipping in between. -/
def spaced {α : Type} (m : Matcher α) : Matcher (List α) := do
  let found ← optional do
    let first ← m
    let others ← many do
      skip
      m
    return first :: others
  return found.getD []

def newline : Matcher Unit := do
  let _ ← scan findNewline

/-- One or more line ends. -/
def newlines : Matcher Unit := do
  newline
  skip
  let _ ← spaced newline

def operand : Matcher OperandText :=
  orElse (do return .name (← valueName)) (do return .integer (← integer))

/-- An operand after a comma. -/
def furtherOperand : Matcher OperandText := do
  char ','
  skip
  operand

def operands : Matcher (List OperandText) := do
  let first ← operand
  skip
  let others ← spaced furtherOperand
  return first :: others

/-- The name of a statement's result, with the equals sign behind it. -/
def label : Matcher Lexeme := do
  let name ← valueName
  skip
  char '='
  return name

def statement : Matcher Statement :=
  rule .statement do
    let start ← offset
    let label ← optional label
    skip
    let opcode ← opcode
    skip
    let operands ← optional operands
    let stop ← offset
    return { label, opcode, operands := operands.getD [], span := .ofRange start stop }

/-- A statement after one or more line ends. -/
def furtherStatement : Matcher Statement := do
  newlines
  skip
  statement

def statements : Matcher (List Statement) := do
  let first ← statement
  skip
  let others ← spaced furtherStatement
  return first :: others

/-- Matches only where nothing is left to read. -/
def endOfInput : Matcher Unit :=
  rule .endOfInput fun r t => (if r.rest.isEmpty then some ((), r) else none, t)

/-- A whole text. -/
def block : Matcher (List Statement) :=
  rule .block do
    skip
    let _ ← spaced newline
    skip
    let found ← optional statements
    skip
    let _ ← spaced newline
    skip
    endOfInput
    return found.getD []

end Grammar

/-- Reads a text as statements and comments. A text of another shape gives the record
of what was expected at the furthest place. -/
def Listing.ofText (text : List Char) : Except Attempts Listing :=
  match Grammar.block (.ofText text) {} with
  | (some (statements, r), _) => return { statements, comments := r.comments.reverse }
  | (none, attempts) => throw attempts

end StackForm.Text

import StackForm.Text.Blank
import StackForm.Text.Span

/-!
# `StackForm.Text.Matcher`: matching a text against rules

A matcher reads from the front of a text and either matches, giving a value and the
rest, or fails. Alternatives are tried in order, each from the same place, and a
repetition takes all it can get. Matching never looks back into an alternative that
was taken.

Beside the reading goes a record of the rules that failed at the furthest offset
where any did. When the whole match fails, the record says where the text went wrong
and what could have stood there. A rule that fails without its parts getting beyond
its own start stands in for those parts, unless there is just one.
-/

set_option autoImplicit false

namespace StackForm.Text

/-- The rules that a failed match is explained by, in the order of explanation. -/
inductive Rule where
  | endOfInput
  | comment
  | block
  | statement
  | valueName
  | integer
  | opcode
  deriving DecidableEq, Repr

namespace Rule

/-- Every rule once, in the order of explanation. -/
def all : List Rule :=
  [.endOfInput, .comment, .block, .statement, .valueName, .integer, .opcode]

/-- The name of a rule in explanations. -/
def name : Rule → String
  | endOfInput => "EOI"
  | comment => "COMMENT"
  | block => "block"
  | statement => "stmt"
  | valueName => "value_name"
  | integer => "integer"
  | opcode => "opcode"

end Rule

/-- The rules that failed at the furthest offset where any failed. -/
structure Attempts where
  offset : Nat := 0
  /-- The rules, in the order of their failures. -/
  rules : List Rule := []
  deriving DecidableEq, Repr

namespace Attempts

/-- The number of failures on record for an offset. -/
def countAt (a : Attempts) (offset : Nat) : Nat := if a.offset = offset then a.rules.length else 0

/-- Records that a rule failed which was entered at `offset`, when the record was
`before`. If its parts left exactly one failure there, that one is kept. Otherwise
the rule takes the place of what its parts left there. -/
def fail (before now : Attempts) (rule : Rule) (offset : Nat) : Attempts :=
  if now.countAt offset = before.countAt offset + 1 then now
  else if now.offset = offset then
    { now with rules := now.rules.take (before.countAt offset) ++ [rule] }
  else if now.offset < offset then { offset, rules := [rule] }
  else now

/-- The rules on record, each once and in the order of explanation. -/
def expected (a : Attempts) : List Rule := Rule.all.filter a.rules.contains

end Attempts

/-- The part of a text that is still to be read. -/
structure Reader where
  /-- The number of bytes of the whole text. -/
  size : Nat
  rest : List Char
  /-- The byte offset at which the rest starts. -/
  offset : Nat := 0
  /-- The comments read so far, last one first. -/
  comments : List String := []

namespace Reader

/-- A reader at the start of a text. -/
def ofText (text : List Char) : Reader := { size := byteLength text, rest := text }

/-- Reads past the given characters, with which the rest is known to start. -/
def advance (r : Reader) (cs : List Char) : Reader :=
  { r with rest := r.rest.drop cs.length, offset := r.offset + byteLength cs }

end Reader

/-- Reads from the front of a text. -/
def Matcher (α : Type) : Type := Reader → Attempts → Option (α × Reader) × Attempts

namespace Matcher

variable {α β : Type}

instance : Monad Matcher where
  pure a := fun r t => (some (a, r), t)
  bind m f := fun r t =>
    match m r t with
    | (some (a, r), t) => f a r t
    | (none, t) => (none, t)

/-- The current offset. -/
def offset : Matcher Nat := fun r t => (some (r.offset, r), t)

/-- Tries one matcher and, from the same place, another if that fails. -/
def orElse (m n : Matcher α) : Matcher α := fun r t =>
  match m r t with
  | (some found, t) => (some found, t)
  | (none, t) => n r t

/-- Matches if it can, and otherwise reads nothing. -/
def optional (m : Matcher α) : Matcher (Option α) := fun r t =>
  match m r t with
  | (some (a, r), t) => (some (some a, r), t)
  | (none, t) => (some (none, r), t)

/-- Matches as often as possible, `fuel` times at most. -/
def manyUpTo (m : Matcher α) : Nat → Matcher (List α)
  | 0 => fun r t => (some ([], r), t)
  | fuel + 1 => fun r t =>
    match m r t with
    | (none, t) => (some ([], r), t)
    | (some (a, r), t) =>
      match manyUpTo m fuel r t with
      | (some (as, r), t) => (some (a :: as, r), t)
      | (none, t) => (none, t)

/-- Matches as often as possible. Each match is to read something, so that one more
try than there are bytes left is enough. -/
def many (m : Matcher α) : Matcher (List α) := fun r t => m.manyUpTo (r.size - r.offset + 1) r t

/-- Reads the piece that `find` gives of the text ahead, and fails if it gives none. -/
def scan (find : List Char → Option (List Char)) : Matcher (List Char) := fun r t =>
  match find r.rest with
  | some cs => (some (cs, r.advance cs), t)
  | none => (none, t)

/-- Reads one given character. -/
def char (c : Char) : Matcher Unit := fun r t =>
  match r.rest with
  | d :: _ => if c = d then (some ((), r.advance [d]), t) else (none, t)
  | [] => (none, t)

/-- A rule that explains the failure of its matcher. -/
def rule (name : Rule) (m : Matcher α) : Matcher α := fun r t =>
  match m r t with
  | (some found, t) => (some found, t)
  | (none, now) => (none, t.fail now name r.offset)

end Matcher

end StackForm.Text

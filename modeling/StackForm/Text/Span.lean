import StackForm.Word

/-!
# `StackForm.Text.Span`: pieces of a source text

Places in a text are given by byte offsets into its UTF-8 form. Line numbers and
columns, for people to read, are found from them.
-/

set_option autoImplicit false

namespace StackForm.Text

/-- A range of byte offsets. -/
structure Span where
  start : Nat
  stop : Nat
  deriving DecidableEq, Repr

/-- The span of a range of offsets. An offset that is too large to be represented
counts as the largest that is not. -/
def Span.ofRange (start stop : Nat) : Span :=
  ⟨min start (indexLimit - 1), min stop (indexLimit - 1)⟩

/-- The empty span at an offset. -/
def Span.point (offset : Nat) : Span := .ofRange offset offset

/-- The number of bytes of a text in UTF-8. -/
def byteLength (cs : List Char) : Nat := cs.foldr (fun c n => c.utf8Size + n) 0

/-- Cuts a text at a byte offset, or after the character that the offset falls in. -/
def cutAt (offset : Nat) : List Char → List Char × List Char
  | [] => ([], [])
  | c :: cs =>
    if offset = 0 then ([], c :: cs)
    else
      let (before, after) := cutAt (offset - c.utf8Size) cs
      (c :: before, after)

/-- Where in a text an offset lies, for a reader who counts lines. -/
structure Place where
  /-- The line, counted from one. Lines end at line feeds. -/
  line : Nat
  /-- The column in characters, counted from one. -/
  column : Nat
  /-- The text of the line before the offset. -/
  head : List Char
  /-- The text of the line from the offset on, without its line feed. -/
  tail : List Char
  /-- Whether a line feed ends the line. -/
  ended : Bool

/-- The place of a byte offset. -/
def Place.of (text : List Char) (offset : Nat) : Place :=
  let (before, after) := cutAt offset text
  let head := (before.reverse.takeWhile (· ≠ '\n')).reverse
  let tail := after.takeWhile (· ≠ '\n')
  { line := before.count '\n' + 1
    column := head.length + 1
    head, tail
    ended := (after.dropWhile (· ≠ '\n')).head? = some '\n' }

end StackForm.Text

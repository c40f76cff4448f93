import StackForm.Text.Blank
import StackForm.Text.Diagnostic
import StackForm.Text.Row
import StackForm.Text.Window

/-!
# `StackForm.Text.Excerpt`: diagnostics as source excerpts

An excerpt shows the line that a diagnostic is about, with its file, line and column,
and marks the piece at fault by carets with the wording behind them. On a terminal the
frame is blue, and the marks and the word "error" are red. An excerpt is made for texts
of ASCII characters without tabs and carriage returns.

Line numbers stand in a gutter that is as wide as the number. Behind it come a bar and
the line. The carets stand below the columns of the piece, at least one of them.
-/

set_option autoImplicit false

namespace StackForm.Text

/-- What an excerpt shows. -/
structure Excerpt where
  path : String
  /-- The line number. -/
  line : Nat
  /-- The column of the piece at fault in characters, counted from one. -/
  column : Nat
  /-- The text of the line. -/
  text : List Char
  /-- The first column below which a caret stands, counted from zero. -/
  start : Nat
  /-- The column after the last caret. -/
  stop : Nat
  /-- The wording. -/
  label : String

namespace Excerpt

/-- The room for a row. -/
def rowWidth : Nat := 140

/-- What stands at the edge of a line that is cut. -/
def dots : List Char := ['.', '.', '.']

/-- The excerpt of a diagnostic of the given text, which stands in the file `path`. -/
def ofDiagnostic (path source : String) (d : Diagnostic) : Excerpt :=
  let p := Place.of source.toList d.span.start
  let piece := (cutAt (d.span.stop - d.span.start) p.tail).1
  let start := columns p.head
  { path, start
    line := p.line
    column := p.column
    text := p.head ++ p.tail
    stop := start + max 1 (columns piece)
    label := d.message source }

/-- The width of the line number. -/
def gutter (x : Excerpt) : Nat := (toString x.line).length

/-- Where the text of the line starts in a row. -/
def textColumn (x : Excerpt) : Nat := x.gutter + 3

/-- The part of the line that is shown. The gutter that the room is reckoned with is
the one of the next line. -/
def window (x : Excerpt) : Window :=
  .of
    { length := x.text.length
      indent := (x.text.takeWhile isBlank).length
      start := x.start
      stop := x.stop
      label := x.label.utf8ByteSize + 1
      room := rowWidth - (3 + (toString (x.line + 1)).length) }

/-- The row that says what kind of report this is. -/
def titleRow : Row :=
  ((Row.empty.append .fault "error").append .plain ": ").append .strong "parse error"

/-- The row with file, line and column. -/
def originRow (x : Excerpt) : Row :=
  ((Row.empty.write x.gutter .frame "-->".toList).write (x.gutter + 4) .plain
    x.path.toList).append .plain (":" ++ toString x.line ++ ":" ++ toString x.column)

/-- The row with the bar only. -/
def barRow (x : Excerpt) : Row := Row.empty.write (x.gutter + 1) .frame ['|']

/-- The row with the line, where dots replace the edge of what is cut away. -/
def lineRow (x : Excerpt) : Row :=
  let w := x.window
  let shown := (x.text.drop w.left).take w.size
  let row := (Row.empty.write 0 .frame (toString x.line ++ " |").toList).write x.textColumn
    .plain shown
  let row := if w.cutLeft then row.write x.textColumn .frame dots else row
  if w.cutRight then row.write (x.textColumn + shown.length - dots.length) .frame dots else row

/-- The row with the carets and the wording, below the line as far as it is shown. -/
def markRow (x : Excerpt) : Row :=
  let left := x.window.left
  let first := x.textColumn + x.start - left
  let last := x.textColumn + (x.stop - 1) - left
  let row := x.barRow.write (x.textColumn + (x.stop + 1 - left)) .fault x.label.toList
  row.write first .fault (List.replicate (last + 1 - first) '^')

/-- The excerpt as it is printed. -/
def render (x : Excerpt) (colors : Bool) : String :=
  String.join
    ([titleRow, x.originRow, x.barRow, x.lineRow, x.markRow, x.barRow].map
      fun row => row.render colors ++ "\n")

end Excerpt

/-- The excerpt of a diagnostic of the given text, which stands in the file `path`. -/
def Diagnostic.excerpt (path source : String) (colors : Bool) (d : Diagnostic) : String :=
  (Excerpt.ofDiagnostic path source d).render colors

end StackForm.Text

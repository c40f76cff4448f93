/-!
# `StackForm.Text.Row`: rows of styled characters

A row of a printed report is a line of cells, each a character in a style. Text is
written into a row from a column on and replaces what stands there. Columns that
nobody wrote to, left of what is written, are blank. On a terminal a run of cells in
one style is opened and closed by escape codes, and the plain style has none.
-/

set_option autoImplicit false

namespace StackForm.Text

/-- How a character is shown. Every style but the plain one is bold. -/
inductive Style where
  | plain
  | strong
  /-- The frame around the quoted text, in blue. -/
  | frame
  /-- What points at a fault, in red. -/
  | fault
  deriving DecidableEq, Repr

/-- The codes that turn a style on. -/
def Style.opening : Style → String
  | plain => ""
  | strong => "\x1b[1m"
  | frame => "\x1b[1m\x1b[94m"
  | fault => "\x1b[1m\x1b[91m"

/-- The code that turns a style off. -/
def Style.closing : Style → String
  | plain => ""
  | _ => "\x1b[0m"

/-- A character in a style. -/
structure Cell where
  char : Char
  style : Style
  deriving DecidableEq, Repr

/-- The cell of a column that nobody wrote to. -/
def Cell.blank : Cell := ⟨' ', .plain⟩

/-- A line of cells. -/
structure Row where
  cells : List Cell
  deriving DecidableEq, Repr

namespace Row

/-- The row without cells. -/
def empty : Row := ⟨[]⟩

/-- Writes a text from a column on. Without a text nothing is written, so the row does
not grow up to the column either. -/
def write (row : Row) (column : Nat) (style : Style) (text : List Char) : Row :=
  if text.isEmpty then row
  else
    ⟨row.cells.take column ++ List.replicate (column - row.cells.length) .blank ++
      text.map (⟨·, style⟩) ++ row.cells.drop (column + text.length)⟩

/-- Writes a text behind the last cell. -/
def append (row : Row) (style : Style) (text : String) : Row :=
  row.write row.cells.length style text.toList

/-- The cells with codes where the style changes. The given style is the open one. -/
def paintFrom : Style → List Cell → List Char
  | style, [] => style.closing.toList
  | style, cell :: cells =>
    if cell.style = style then cell.char :: paintFrom style cells
    else
      style.closing.toList ++ cell.style.opening.toList ++
        cell.char :: paintFrom cell.style cells

/-- The row as it is printed, with codes only if colours are wanted. -/
def render (colors : Bool) (row : Row) : String :=
  String.ofList (if colors then paintFrom .plain row.cells else row.cells.map Cell.char)

@[simp]
theorem write_nil (row : Row) (column : Nat) (style : Style) :
    row.write column style [] = row := rfl

/-- A text behind the last cell leaves the cells before it alone. -/
theorem cells_append (row : Row) (style : Style) (text : String) :
    (row.append style text).cells = row.cells ++ text.toList.map (⟨·, style⟩) := by
  unfold append write
  cases h : text.toList <;> simp

end Row

end StackForm.Text

/-!
# `StackForm.Text.Window`: the part of a line that is shown

A line is shown whole if it fits. Deep indentation is cut down, and of a line that is
too long a part around the marked piece is shown. A line of blanks only has nothing to
show and is cut away whole. Where something is cut away, three dots replace the
characters at the edge, so the window keeps room for them around what it has to show.
-/

set_option autoImplicit false

namespace StackForm.Text

/-- Whether a character is a control code, which takes no column. -/
def isControl (c : Char) : Bool :=
  c.toNat < 0x20 || (0x7F ≤ c.toNat && c.toNat < 0xA0)

/-- The number of columns that a text takes, for characters of at most one column. -/
def columns (cs : List Char) : Nat := cs.countP fun c => !isControl c

/-- A line to be shown, by its measures. -/
structure Extent where
  /-- The number of characters of the line. -/
  length : Nat
  /-- The number of blanks that the line starts with. -/
  indent : Nat
  /-- The first column of the marked piece. -/
  start : Nat
  /-- The column after the marked piece. -/
  stop : Nat
  /-- The room for the wording behind the mark. -/
  label : Nat
  /-- The room for the line. -/
  room : Nat

namespace Extent

/-- The room for dots on each side. -/
def dotRoom : Nat := 6

/-- Indentation up to this is shown whole, dots apart. -/
def deepIndent : Nat := 20

/-- What is left of deep indentation, dots apart. -/
def shownIndent : Nat := 16

/-- The indentation that can be cut away. -/
def spare (e : Extent) : Nat := e.indent - dotRoom

/-- The left edge of the marked piece, with room for dots. -/
def markLeft (e : Extent) : Nat := e.start - dotRoom

/-- The right edge of the marked piece, with room for dots. -/
def markRight (e : Extent) : Nat := e.stop + dotRoom

/-- The right edge of the wording, with room for dots. -/
def labelRight (e : Extent) : Nat := e.stop + e.label + dotRoom

/-- The first column to show if only deep indentation is cut. -/
def undented (e : Extent) : Nat :=
  if deepIndent < e.spare then e.spare - shownIndent else 0

/-- The first column to show and the one after the last. If the line does not fit,
the window is placed to hold, as far as there is room for it: the indented text up to
the end of the wording, the marked piece and the wording in the middle, the marked
piece a little left of the middle, or the marked piece alone. -/
def bounds (e : Extent) : Nat × Nat :=
  let whole := (e.undented, max e.length e.undented)
  if whole.2 - whole.1 ≤ e.room then whole
  else if e.labelRight - e.spare ≤ e.room then (e.spare, e.spare + e.room)
  else if e.labelRight - e.markLeft ≤ e.room then
    let left := e.markLeft - (e.room - (e.labelRight - e.markLeft)) / 2
    (left, left + e.room)
  else if e.markRight - e.markLeft ≤ e.room then
    let left := e.markLeft - (e.room - (e.markRight - e.markLeft)) / 5 * 2
    (left, left + e.room)
  else (e.markLeft, e.markRight)

end Extent

/-- The part of a line that is shown. -/
structure Window where
  /-- How many characters are left out at the start. -/
  left : Nat
  /-- How many characters are shown. -/
  size : Nat
  /-- Whether dots stand at the left edge. -/
  cutLeft : Bool
  /-- Whether dots stand at the right edge. -/
  cutRight : Bool
  deriving DecidableEq, Repr

/-- Nothing is shown of a line, and dots stand for it. -/
def Window.closed (e : Extent) : Window := ⟨e.length, 0, true, false⟩

/-- The part of a line between its bounds. Room for dots that is not needed on the right
does not count as cut. -/
def Window.between (e : Extent) (left right : Nat) : Window :=
  let shownLeft := min left e.length
  let shownRight := if e.length - left ≤ e.room then e.length else min e.length right
  let needed :=
    if right = e.markRight || right = e.labelRight then right - Extent.dotRoom else right
  { left := shownLeft
    size := shownRight - shownLeft
    cutLeft := 0 < left
    cutRight := needed < e.length && left + e.room < e.length }

/-- The window for a line. The indentation of a line of blanks has no end. -/
def Window.of (e : Extent) : Window :=
  if e.length ≤ e.indent then .closed e else .between e e.bounds.1 e.bounds.2

end StackForm.Text

import Std.Data.ExtTreeMap
import StackForm.Op

/-!
# `StackForm.Code`: code for the stack machine

Code is a sequence of stack-machine operations together with the frame that it works
in: the slots of the values that are kept, numbered upward from a base.
-/

set_option autoImplicit false

namespace StackForm

/-- How code is to be emitted. -/
structure Options where
  /-- Slots are not numbered below this. -/
  base : UInt32 := 0
  /-- Whether a value that is stored and at once read back is stored by a tee. -/
  fuse : Bool := true
  deriving DecidableEq, Repr

namespace Options

/-- The options that leave the first `n` locals to the program. -/
def forLocals (n : UInt32) : Options := { base := n }

/-- The options that leave all locals to the program that the block names by
constants. -/
def forBlock (b : Block) : Options := { base := .ofNat b.frameBase }

end Options

/-- Code for the stack machine. -/
structure Code where
  /-- The operations, in the order in which they run. -/
  ops : List Op
  /-- The slots of the positions whose values are kept. -/
  slots : Std.ExtTreeMap Nat Nat
  /-- The first slot. -/
  base : Nat
  /-- The number of slots. -/
  frameSize : Nat

namespace Code

def text (c : Code) : String := Op.listing c.ops

/-- The slot that holds the value of a position. -/
def slot? (c : Code) (pos : Nat) : Option Nat := c.slots[pos]?

/-- The slots with the positions whose values they hold, by increasing slot. -/
def slotList (c : Code) : List (Nat × Nat) :=
  (c.slots.toList.map fun (pos, s) => (s, pos)).mergeSort fun a b => a.1 ≤ b.1

/-- The number of operations that access a slot. -/
def slotAccesses (c : Code) : Nat := c.ops.countP Op.isSlotAccess

/-- The greatest stack depth that the code reaches. -/
def peakDepth (c : Code) : Nat := Op.peakDepth c.ops

end Code

end StackForm

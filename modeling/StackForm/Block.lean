import StackForm.Opcode
import StackForm.Word

/-!
# `StackForm.Block`: straight-line blocks

A block is a list of instructions. The instruction at position `k` defines the
value `vk`, and operands are constants or values named by position. A block is
plain data: whether its operands are right in number and refer backward is a
separate question (`StackForm.UseTable`), so blocks that are not well formed can be
built, printed and evaluated like any other.
-/

set_option autoImplicit false

namespace StackForm

/-- The name of the value defined at a position. -/
def valueName (pos : Nat) : String := "v" ++ toString pos

/-- What an instruction works on. -/
inductive Operand where
  /-- The value defined at a position. -/
  | ref (target : Nat)
  /-- A constant. -/
  | imm (value : Word)
  deriving DecidableEq, Repr

namespace Operand

/-- The position that an operand refers to. -/
def target? : Operand → Option Nat
  | ref t => some t
  | imm _ => none

/-- The constant that an operand holds. -/
def value? : Operand → Option Word
  | ref _ => none
  | imm v => some v

/-- An operand as text, a value's name or a decimal number. -/
def text : Operand → String
  | ref t => valueName t
  | imm v => v.decimal

end Operand

/-- One operation with its operands. -/
structure Instr where
  opcode : Opcode
  operands : List Operand
  deriving DecidableEq, Repr

namespace Instr

/-- The positions that an instruction refers to, left to right. -/
def refs (i : Instr) : List Nat := i.operands.filterMap Operand.target?

/-- The opcode, then the operands separated by commas. -/
def text (i : Instr) : String :=
  if i.operands.isEmpty then i.opcode.name
  else i.opcode.name ++ " " ++ ", ".intercalate (i.operands.map Operand.text)

/-- The number of the local that an instruction is sure to access, known when its
first operand is a constant. -/
def constantLocal? (i : Instr) : Option Nat :=
  match i.opcode, i.operands with
  | .loadLocal, .imm v :: _ => v.index?
  | .storeLocal, .imm v :: _ => v.index?
  | _, _ => none

end Instr

/-- A straight-line sequence of instructions. -/
structure Block where
  instrs : List Instr := []
  deriving DecidableEq, Repr

namespace Block

/-- The number of instructions. -/
def length (b : Block) : Nat := b.instrs.length

def isEmpty (b : Block) : Bool := b.instrs.isEmpty

/-- The position of the last instruction. -/
def last? (b : Block) : Option Nat := if b.isEmpty then none else some (b.length - 1)

/-- Adds an instruction at the end. The first component is its position. -/
def push (b : Block) (i : Instr) : Nat × Block := (b.length, ⟨b.instrs ++ [i]⟩)

/-- One line of a printed block: the instruction, named if it has a result. -/
def line (pos : Nat) (i : Instr) : String :=
  if i.opcode.hasResult then valueName pos ++ " = " ++ i.text ++ "\n" else i.text ++ "\n"

/-- The block as text, one instruction a line. -/
def text (b : Block) : String := String.join (b.instrs.zipIdx.map fun (i, pos) => line pos i)

/-- The first local beyond those that the block names by constants, so that slots
from here on cannot meet them. The bound stays below `indexLimit`, also when the
last local of all is named. -/
def frameBase (b : Block) : Nat :=
  (b.instrs.filterMap Instr.constantLocal?).foldl
    (fun base n => max base (min (n + 1) (indexLimit - 1))) 0

end Block

end StackForm

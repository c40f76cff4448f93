import StackForm.Block

/-!
# `StackForm.Op`: the operations of the stack machine

Beside the opcodes of a block, which take their operands from the stack, the machine
pushes constants, drops values, and reads and writes frame slots. `Op.pops` and
`Op.pushes` are the static account of what an operation does to the depth of the
stack.
-/

set_option autoImplicit false

namespace StackForm

/-- One operation of the stack machine. -/
inductive Op where
  | push (value : Word)
  /-- Performs an opcode on the topmost values, the last operand on top. -/
  | perform (opcode : Opcode)
  /-- Pushes the value of a slot. -/
  | get (slot : Nat)
  /-- Pops a value into a slot. -/
  | set (slot : Nat)
  /-- Copies the topmost value into a slot. -/
  | tee (slot : Nat)
  | drop
  deriving DecidableEq, Repr

namespace Op

/-- An operation as a line of a listing. -/
def text : Op → String
  | push v => "push " ++ v.decimal
  | perform op => op.name
  | get s => "local.get " ++ toString s
  | set s => "local.set " ++ toString s
  | tee s => "local.tee " ++ toString s
  | drop => "drop"

/-- How many values an operation takes from the stack. -/
def pops : Op → Nat
  | push _ | get _ => 0
  | perform op => op.arity
  | set _ | tee _ | drop => 1

/-- How many values an operation puts on the stack. -/
def pushes : Op → Nat
  | push _ | get _ | tee _ => 1
  | perform op => op.resultCount
  | set _ | drop => 0

/-- Whether an operation reads or writes a slot. -/
def isSlotAccess : Op → Bool
  | get _ | set _ | tee _ => true
  | _ => false

/-- The depth of a stack after an operation, counted without running it. A stack
that is too shallow counts as emptied. -/
def depthAfter (depth : Nat) (op : Op) : Nat := depth - op.pops + op.pushes

/-- The greatest depth after any operation of a sequence that starts at `depth`, or
`highest` if that is greater. -/
def peakFrom (depth highest : Nat) : List Op → Nat
  | [] => highest
  | op :: ops => peakFrom (op.depthAfter depth) (max highest (op.depthAfter depth)) ops

/-- The greatest stack depth that a sequence of operations reaches from an empty
stack. -/
def peakDepth (ops : List Op) : Nat := peakFrom 0 0 ops

/-- Operations as text, one a line. -/
def listing (ops : List Op) : String := String.join (ops.map fun op => op.text ++ "\n")

end Op

end StackForm

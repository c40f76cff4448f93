import StackForm.LowerFault

/-!
# `StackForm.UseTable`: checked blocks and how often their values are used

`Block.fault?` is the check that a block is well formed: every instruction has its
opcode's number of operands, and every reference names an earlier instruction that
has a result. The first offence in reading order is the one reported.
`UseTable.ofBlock` checks a block and then counts, for each position, the operands
that refer to it.
-/

set_option autoImplicit false

namespace StackForm

/-- What is wrong with operand number `operand` of the instruction at `pos`, in a block
with the given opcodes. -/
def Operand.fault? (opcodes : Array Opcode) (pos operand : Nat) : Operand → Option LowerFault
  | imm _ => none
  | ref target =>
    if pos ≤ target then some (.invalidReference pos operand target)
    else
      match opcodes[target]? with
      | some op => if op.hasResult then none else some (.voidReference pos operand target)
      | none => none

/-- What is wrong with the instruction at `pos`: the number of its operands, or
else its leftmost bad operand. -/
def Instr.fault? (opcodes : Array Opcode) (pos : Nat) (i : Instr) : Option LowerFault :=
  if i.operands.length ≠ i.opcode.arity then
    some (.arityMismatch pos i.opcode i.opcode.arity i.operands.length)
  else i.operands.zipIdx.findSome? fun (o, k) => o.fault? opcodes pos k

namespace Block

/-- The opcodes of a block, by position. -/
def opcodes (b : Block) : Array Opcode := (b.instrs.map Instr.opcode).toArray

/-- The first thing wrong with a block. A block without one is well formed. -/
def fault? (b : Block) : Option LowerFault :=
  let opcodes := b.opcodes
  b.instrs.zipIdx.findSome? fun (i, pos) => i.fault? opcodes pos

/-- The positions that the block's operands refer to, in reading order. -/
def refs (b : Block) : List Nat := b.instrs.flatMap Instr.refs

end Block

/-- How many operands refer to each position of a block. -/
structure UseTable where
  counts : Array Nat
  deriving DecidableEq, Repr

namespace UseTable

/-- The number of positions that a table covers. -/
def size (t : UseTable) : Nat := t.counts.size

def isEmpty (t : UseTable) : Bool := t.counts.isEmpty

/-- The number of uses of a position. Positions beyond the table have none. -/
def uses (t : UseTable) (pos : Nat) : Nat := t.counts.getD pos 0

def isUsedOnce (t : UseTable) (pos : Nat) : Bool := t.uses pos == 1

/-- The positions used exactly once. -/
def usedOnce (t : UseTable) : List Nat := (List.range t.size).filter t.isUsedOnce

/-- Counts the references of a block, well formed or not. -/
def tally (b : Block) : UseTable :=
  ⟨b.refs.foldl (fun counts t => counts.modify t (· + 1)) (Array.replicate b.length 0)⟩

/-- The use table of a well-formed block. -/
def ofBlock (b : Block) : Except LowerFault UseTable :=
  match b.fault? with
  | some f => throw f
  | none => return tally b

/-- A table can guide the lowering of a block of its own size only. -/
def checkFits (t : UseTable) (b : Block) : Except LowerFault Unit :=
  if t.size = b.length then return () else throw (.tableMismatch b.length t.size)

end UseTable

end StackForm

import StackForm.Tree
import StackForm.UseTable

/-!
# `StackForm.Folding`: which values stay on the stack

An operand's value can be computed in place, right where its consumer needs it,
when that changes neither how often nor in which order instructions run. The plan
is made in one sweep from the last instruction to the first. The sweep keeps the
consumers whose operands are not all decided, innermost first, and decides operands
right to left:

* a constant is taken as it is;
* a reference folds if no reference further right in the same consumer was kept, the
  value has no other use, and its instruction is the next one down, directly below
  everything that is already in place;
* any other reference is kept, and its value will be read back from a slot.

A folded instruction becomes the innermost consumer. When there is nothing left to
decide the next instruction down starts a new tree.

References that do not go backward have no place in a plan. They are marked as
dangling and left to the reader of the plan to report.
-/

set_option autoImplicit false

namespace StackForm

/-- Why a referenced value is kept in a slot and not computed in place. -/
inductive KeepReason where
  /-- A reference further right in the same consumer was kept. -/
  | stopped
  /-- The value is not used exactly once. -/
  | uses (count : Nat)
  /-- Other instructions stand between the value and what is already in place. -/
  | notAdjacent
  deriving DecidableEq, Repr

/-- A reason as the report gives it, at the end of its line. -/
def KeepReason.text : KeepReason → String
  | stopped => "stopped"
  | uses n => toString n ++ " uses"
  | notAdjacent => "not adjacent"

/-- What was decided about a reference that does not fold. -/
inductive Verdict where
  | kept (target : Nat) (reason : KeepReason)
  /-- Operand number `operand` names a position that is not before its consumer. -/
  | dangling (operand target : Nat)
  deriving DecidableEq, Repr

/-- A consumer whose operands are being decided. -/
structure Consumer where
  pos : Nat
  opcode : Opcode
  /-- The operands that are not decided yet, right to left. -/
  pending : List Operand
  /-- The decided operands, left to right. -/
  decided : List (Child Verdict) := []

namespace Consumer

/-- A consumer with nothing decided. -/
def ofInstr (pos : Nat) (i : Instr) : Consumer :=
  { pos, opcode := i.opcode, pending := i.operands.reverse }

/-- Whether a reference of this consumer was already kept. -/
def stopped (c : Consumer) : Bool := c.decided.any Child.isRef

/-- Decides the reference of operand number `operand` to `target`, where all
instructions from `low` on are in place. No verdict means that the value folds. -/
def verdict? (uses : UseTable) (low : Nat) (c : Consumer) (operand target : Nat) :
    Option Verdict :=
  if c.pos ≤ target then some (.dangling operand target)
  else if c.stopped then some (.kept target .stopped)
  else if uses.uses target ≠ 1 then some (.kept target (.uses (uses.uses target)))
  else if target + 1 ≠ low then some (.kept target .notAdjacent)
  else none

/-- Takes up a decided operand, left of those decided before. -/
def take (c : Consumer) (child : Child Verdict) : Consumer :=
  { c with decided := child :: c.decided }

/-- The tree of a consumer whose operands are all decided. -/
def close (c : Consumer) : Tree Verdict := .node c.pos c.opcode c.decided

/-- Decides the pending operands up to the first that folds. The result is a
finished tree, or the consumer as it waits for the tree of that operand. -/
def advanceWith (uses : UseTable) (low : Nat) (c : Consumer) :
    List Operand → Tree Verdict ⊕ Consumer
  | [] => .inl { c with pending := [] }.close
  | .imm v :: pending => advanceWith uses low (c.take (.imm v)) pending
  | .ref target :: pending =>
    match c.verdict? uses low pending.length target with
    | some v => advanceWith uses low (c.take (.ref v)) pending
    | none => .inr { c with pending }

def advance (uses : UseTable) (low : Nat) (c : Consumer) : Tree Verdict ⊕ Consumer :=
  c.advanceWith uses low c.pending

end Consumer

/-- The state of the sweep between two instructions. -/
structure Sweep where
  /-- The consumers that wait for the tree of an operand, innermost first. -/
  waiting : List Consumer := []
  /-- The finished trees, by increasing position. -/
  trees : List (Tree Verdict) := []

namespace Sweep

/-- Advances the innermost consumer and hands its tree, when finished, to the next
one out. -/
def settle (uses : UseTable) (low : Nat) (trees : List (Tree Verdict)) (c : Consumer) :
    List Consumer → Sweep
  | [] =>
    match c.advance uses low with
    | .inl tree => { trees := tree :: trees }
    | .inr c => { waiting := [c], trees }
  | outer :: rest =>
    match c.advance uses low with
    | .inl tree => settle uses low trees (outer.take (.nested tree)) rest
    | .inr c => { waiting := c :: outer :: rest, trees }

/-- Takes up the next instruction down: the operand that the innermost consumer
waits for, or a new root if none waits. -/
def step (uses : UseTable) (s : Sweep) (pos : Nat) (i : Instr) : Sweep :=
  settle uses pos s.trees (.ofInstr pos i) s.waiting

/-- Sweeps over numbered instructions, last one first. -/
def run (uses : UseTable) (instrs : List (Instr × Nat)) : Sweep :=
  instrs.foldr (fun (i, pos) s => s.step uses pos i) {}

end Sweep

/-- The folding decisions for a block, as trees by increasing position. -/
def Block.plan (b : Block) (uses : UseTable) : List (Tree Verdict) :=
  (Sweep.run uses b.instrs.zipIdx).trees

end StackForm

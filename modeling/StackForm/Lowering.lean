import StackForm.Emission
import StackForm.Forest

/-!
# `StackForm.Lowering`: from a block to its stack form

Lowering checks a block, counts its uses, recovers its expression trees and emits
its code. Trees and code come from the same folding plan.
-/

set_option autoImplicit false

namespace StackForm

/-- The stack form of a block. -/
structure Lowering where
  uses : UseTable
  forest : Forest
  code : Code

namespace Block

/-- Lowers a block. -/
def lower (b : Block) (opts : Options) : Except LowerFault Lowering := do
  let uses ← UseTable.ofBlock b
  let forest ← Forest.ofBlock b uses
  let code ← b.emit uses opts
  return { uses, forest, code }

/-- Lowers a block and tells how, by the events of the emission. -/
def lowerTraced (b : Block) (opts : Options) : Except LowerFault (Lowering × List Event) := do
  let uses ← UseTable.ofBlock b
  let forest ← Forest.ofBlock b uses
  let (code, events) ← b.emitTraced uses opts
  return ({ uses, forest, code }, events)

end Block

/-- The report of how the code came about. -/
def Lowering.report (l : Lowering) (events : List Event) : String :=
  Trace.report l.code.slotList events l.code.ops

end StackForm

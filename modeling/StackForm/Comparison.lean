import StackForm.Code
import StackForm.Machine

/-!
# `StackForm.Comparison`: a block against its code

Evaluating a block and running its code from the same store should look the same to
the program: the same success or failure, the same log of stores, and the same
locals below the slots.
-/

set_option autoImplicit false

namespace StackForm

/-- The outcomes of evaluating a block and of running code, from the same store. -/
structure Comparison where
  evaluation : Evaluation
  machine : Machine
  fault? : Option MachineFault

namespace Comparison

/-- Evaluates a block and runs code, both from the given store. -/
def run (b : Block) (c : Code) (store : Store) : Comparison :=
  let (machine, fault?) := ({ store } : Machine).run c.ops
  { evaluation := b.evaluate store, machine, fault? }

/-- Whether both succeeded or both failed. -/
def sameEnding (c : Comparison) : Bool := c.evaluation.outcome.isOk == c.fault?.isNone

def sameLog (c : Comparison) : Bool := c.evaluation.store.log == c.machine.store.log

/-- Whether the locals below `base` came out equal. -/
def sameBelow (c : Comparison) (base : Nat) : Bool :=
  c.evaluation.store.below base == c.machine.store.below base

/-- Whether the two outcomes look the same to a program that owns the locals below
`base`. -/
def agrees (c : Comparison) (base : Nat) : Bool :=
  c.sameEnding && c.sameLog && c.sameBelow base

end Comparison

end StackForm

import StackForm.Eval
import StackForm.Op

/-!
# `StackForm.Machine`: the stack machine

The machine runs operations one after the other on an operand stack and a store. A
run starts with an empty stack and should end with one. A run that faults leaves
stack and store as they are at that point: an operation that finds too few values
takes none, and an opcode that fails has taken its operands.
-/

set_option autoImplicit false

namespace StackForm

/-- Why a run failed. Operations are numbered from zero. -/
inductive MachineFault where
  /-- The operation found too few values on the stack. -/
  | stackUnderflow (pc : Nat)
  /-- The operation read a slot that was never written. -/
  | unsetSlot (pc slot : Nat)
  /-- The opcode failed. -/
  | eval (pc : Nat) (source : EvalFault)
  /-- The run ended with values on the stack. -/
  | unbalancedStack (depth : Nat)
  deriving DecidableEq, Repr

def MachineFault.message : MachineFault → String
  | stackUnderflow pc => "stack underflow at op " ++ toString pc
  | unsetSlot pc slot =>
    "`local.get " ++ toString slot ++ "` at op " ++ toString pc ++
      " reads a slot that was never written"
  | eval pc source => "op " ++ toString pc ++ " failed: " ++ source.message
  | unbalancedStack depth => toString depth ++ " values left on the stack"

/-- A stack machine. -/
structure Machine where
  /-- The operand stack, topmost value first. -/
  stack : List Word := []
  store : Store := {}

namespace Machine

/-- Performs an opcode on the topmost values, of which there have to be enough. -/
def perform (m : Machine) (pc : Nat) (op : Opcode) : Machine × Option MachineFault :=
  if m.stack.length < op.arity then (m, some (.stackUnderflow pc))
  else
    let rest := m.stack.drop op.arity
    match op.apply (m.stack.take op.arity).reverse m.store with
    | .error e => ({ m with stack := rest }, some (.eval pc e))
    | .ok (some v, store) => ({ stack := v :: rest, store }, none)
    | .ok (none, store) => ({ stack := rest, store }, none)

/-- Runs operation number `pc`. -/
def step (m : Machine) (pc : Nat) : Op → Machine × Option MachineFault
  | .push v => ({ m with stack := v :: m.stack }, none)
  | .perform op => m.perform pc op
  | .get slot =>
    match m.store.get? slot with
    | some v => ({ m with stack := v :: m.stack }, none)
    | none => (m, some (.unsetSlot pc slot))
  | .set slot =>
    match m.stack with
    | v :: rest => ({ stack := rest, store := m.store.set slot v }, none)
    | [] => (m, some (.stackUnderflow pc))
  | .tee slot =>
    match m.stack with
    | v :: _ => ({ m with store := m.store.set slot v }, none)
    | [] => (m, some (.stackUnderflow pc))
  | .drop =>
    match m.stack with
    | _ :: rest => ({ m with stack := rest }, none)
    | [] => (m, some (.stackUnderflow pc))

/-- Runs operations, the first of them number `pc`. -/
def runFrom (m : Machine) (pc : Nat) : List Op → Machine × Option MachineFault
  | [] => (m, if m.stack.isEmpty then none else some (.unbalancedStack m.stack.length))
  | op :: ops =>
    match m.step pc op with
    | (m, some f) => (m, some f)
    | (m, none) => m.runFrom (pc + 1) ops

/-- Runs a program from an empty stack. -/
def run (m : Machine) (ops : List Op) : Machine × Option MachineFault :=
  { m with stack := [] }.runFrom 0 ops

end Machine

end StackForm

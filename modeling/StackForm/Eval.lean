import StackForm.Block
import StackForm.Store

/-!
# `StackForm.Eval`: what a block means

The meaning of a block is its evaluation in position order: each instruction reads
its operands, computes, and may load or store a local. Arithmetic wraps to 64 bits,
division truncates toward zero, and shift amounts count modulo 64. Evaluation stops
at the first fault and keeps the store as it was when that instruction began.
-/

set_option autoImplicit false

namespace StackForm

/-- Why an instruction has no outcome. -/
inductive EvalFault where
  | divisionByZero
  /-- A word was used as a local number and is none. -/
  | invalidLocal (index : Word)
  /-- An operand names a position that holds no value. -/
  | undefined (target : Nat)
  | argCount (opcode : Opcode) (expected actual : Nat)
  deriving DecidableEq, Repr

def EvalFault.message : EvalFault → String
  | divisionByZero => "division by zero"
  | invalidLocal i => "invalid local index `" ++ i.decimal ++ "`"
  | undefined t => "`" ++ valueName t ++ "` has no value"
  | argCount op expected actual =>
    "`" ++ op.name ++ "` expects " ++ toString expected ++ " operands, but " ++
      toString actual ++ " given"

namespace Opcode

/-- The local that a word numbers. -/
def localIndex (w : Word) : Except EvalFault Nat :=
  match w.index? with
  | some n => return n
  | none => throw (.invalidLocal w)

/-- A computed value leaves the store alone. -/
def pureResult (store : Store) (v : Word) : Except EvalFault (Option Word × Store) :=
  return (some v, store)

/-- Performs one operation: its result, if it has one, and the store after it. -/
def apply (op : Opcode) (args : List Word) (store : Store) :
    Except EvalFault (Option Word × Store) :=
  match op, args with
  | neg, [x] => pureResult store (-x)
  | not, [x] => pureResult store (~~~x)
  | isZero, [x] => pureResult store (Word.ofBool (x == 0))
  | add, [x, y] => pureResult store (x + y)
  | sub, [x, y] => pureResult store (x - y)
  | mul, [x, y] => pureResult store (x * y)
  | sdiv, [x, y] => if y = 0 then throw .divisionByZero else pureResult store (x / y)
  | smod, [x, y] => if y = 0 then throw .divisionByZero else pureResult store (x % y)
  | shl, [x, y] => pureResult store (x <<< y)
  | shr, [x, y] => pureResult store (x >>> y)
  | and, [x, y] => pureResult store (x &&& y)
  | or, [x, y] => pureResult store (x ||| y)
  | xor, [x, y] => pureResult store (x ^^^ y)
  | eq, [x, y] => pureResult store (Word.ofBool (x == y))
  | ne, [x, y] => pureResult store (Word.ofBool (x != y))
  | lt, [x, y] => pureResult store (Word.ofBool (decide (x < y)))
  | gt, [x, y] => pureResult store (Word.ofBool (decide (y < x)))
  | le, [x, y] => pureResult store (Word.ofBool (decide (x ≤ y)))
  | ge, [x, y] => pureResult store (Word.ofBool (decide (y ≤ x)))
  | select, [c, x, y] => pureResult store (if c = 0 then y else x)
  | loadLocal, [i] => do
    let n ← localIndex i
    pureResult store (store.load n)
  | storeLocal, [i, v] => do
    let n ← localIndex i
    return (none, store.put n v)
  | op, args => throw (.argCount op op.arity args.length)

end Opcode

/-- The word that an operand stands for, given the results of the earlier
instructions. -/
def Operand.resolve (results : Array (Option Word)) : Operand → Except EvalFault Word
  | imm v => return v
  | ref t =>
    match results[t]? with
    | some (some v) => return v
    | _ => throw (.undefined t)

/-- Evaluates one instruction after those that gave `results`. Its operands are read
left to right. -/
def Instr.evaluate (i : Instr) (results : Array (Option Word)) (store : Store) :
    Except EvalFault (Option Word × Store) := do
  let args ← i.operands.mapM (·.resolve results)
  i.opcode.apply args store

/-- How an evaluation ended: the store reached, and the results of all
instructions or the fault of the first that had none. -/
structure Evaluation where
  store : Store
  outcome : Except EvalFault (Array (Option Word))

/-- Evaluates instructions that follow those that gave `results`. -/
def evaluateFrom (results : Array (Option Word)) (store : Store) : List Instr → Evaluation
  | [] => ⟨store, .ok results⟩
  | i :: is =>
    match i.evaluate results store with
    | .error e => ⟨store, .error e⟩
    | .ok (result, store) => evaluateFrom (results.push result) store is

/-- Evaluates a block in position order. -/
def Block.evaluate (b : Block) (store : Store) : Evaluation := evaluateFrom #[] store b.instrs

end StackForm

import StackForm.Comparison
import StackForm.Directive.Basic
import StackForm.Lowering

/-!
# `StackForm.Directive.Check`: running a block against a directive

The block is evaluated and its code is run, both from the directive's locals. They
have to end alike, with equal logs and equal locals below the slots, and those locals
have to be as expected. If both fail with the same evaluation fault there is nothing
more to compare.
-/

set_option autoImplicit false

namespace StackForm

/-- How a check can go wrong. -/
inductive Mismatch where
  /-- The block has no code. -/
  | lowering (fault : LowerFault)
  /-- The evaluation and the run did not end alike. -/
  | ending (evaluation : Option EvalFault) (run : Option MachineFault)
  | logs (evaluation run : Pairs)
  | locals (evaluation run : Pairs)
  /-- A local does not hold what the directive expects. -/
  | value (index : Nat) (expected actual : Word)
  deriving DecidableEq, Repr

/-! ### Wording -/

/-- An opcode's name with its words run together, each with a capital. -/
def Opcode.title (op : Opcode) : String :=
  String.join ((op.name.toList.splitOn '_').map fun
    | [] => ""
    | c :: cs => String.ofList (c.toUpper :: cs))

/-- An evaluation fault with its details, for comparison at a glance. -/
def EvalFault.outline : EvalFault → String
  | divisionByZero => "DivisionByZero"
  | invalidLocal i => "InvalidLocal(" ++ i.decimal ++ ")"
  | undefined t => "Undefined(" ++ valueName t ++ ")"
  | argCount op expected actual =>
    "ArgCount \x7b opcode: " ++ op.title ++ ", expected: " ++ toString expected ++
      ", actual: " ++ toString actual ++ " \x7d"

/-- A machine fault with its details, for comparison at a glance. -/
def MachineFault.outline : MachineFault → String
  | stackUnderflow pc => "StackUnderflow \x7b pc: " ++ toString pc ++ " \x7d"
  | unsetSlot pc slot =>
    "UnsetSlot \x7b pc: " ++ toString pc ++ ", slot: " ++ toString slot ++ " \x7d"
  | eval pc source =>
    "Eval \x7b pc: " ++ toString pc ++ ", source: " ++ source.outline ++ " \x7d"
  | unbalancedStack depth => "UnbalancedStack \x7b depth: " ++ toString depth ++ " \x7d"

namespace Mismatch

/-- How something ended, given the outline of its fault. -/
def endingText : Option String → String
  | none => "Ok(())"
  | some fault => "Err(" ++ fault ++ ")"

/-- Stores in the order in which they were made. -/
def logText (log : Pairs) : String :=
  "[" ++ ", ".intercalate (log.map fun (n, v) => "(" ++ toString n ++ ", " ++ v.decimal ++ ")") ++
    "]"

/-- Locals with their values. -/
def localsText (locals : Pairs) : String :=
  "\x7b" ++ ", ".intercalate (locals.map fun (n, v) => toString n ++ ": " ++ v.decimal) ++ "\x7d"

/-- Two sides of a comparison, on a line each. -/
def sides (expected actual : String) : String :=
  "Expected: " ++ expected ++ "\nEvaluated: " ++ actual

def message : Mismatch → String
  | lowering f => f.message
  | ending evaluation run =>
    sides (endingText (evaluation.map EvalFault.outline))
      (endingText (run.map MachineFault.outline))
  | logs evaluation run => "Store log differs.\n" ++ sides (logText evaluation) (logText run)
  | locals evaluation run =>
    "Program locals differ.\n" ++ sides (localsText evaluation) (localsText run)
  | value index expected actual =>
    "Local " ++ toString index ++ ".\n" ++ sides expected.decimal actual.decimal

end Mismatch

/-! ### Checking -/

/-- The fault that an evaluation ended with. -/
def Evaluation.fault? (e : Evaluation) : Option EvalFault :=
  match e.outcome with
  | .ok _ => none
  | .error f => some f

namespace Directive

/-- The first local that does not hold what is expected. Locals from `base` on are not
the program's and count as zero. -/
def findUnexpected (store : Store) (base : Nat) : Pairs → Option Mismatch
  | [] => none
  | (n, v) :: rest =>
    let actual := ((store.below base).lookup n).getD 0
    if actual = v then findUnexpected store base rest else some (.value n v actual)

/-- What a comparison of two successful runs shows. -/
def compareStores (d : Directive) (c : Comparison) (base : Nat) : Option Mismatch :=
  let evaluated := c.evaluation.store
  let run := c.machine.store
  if ¬ c.sameLog then some (.logs evaluated.log.toList run.log.toList)
  else if ¬ c.sameBelow base then some (.locals (evaluated.below base) (run.below base))
  else
    match d.expected with
    | none => none
    | some pairs => findUnexpected run base pairs

/-- What a comparison shows. -/
def compare (d : Directive) (c : Comparison) (base : Nat) : Option Mismatch :=
  match c.evaluation.fault?, c.fault? with
  | none, none => d.compareStores c base
  | some e, some (.eval pc source) =>
    if source = e then none else some (.ending (some e) (some (.eval pc source)))
  | evaluation, run => some (.ending evaluation run)

/-- Checks a block. No mismatch means that the check passed. -/
def check (d : Directive) (b : Block) : Option Mismatch :=
  match b.lower (.forBlock b) with
  | .error f => some (.lowering f)
  | .ok l => d.compare (.run b l.code (.ofList d.locals)) (Options.forBlock b).base.toNat

/-- How the mismatch of a directive is reported. -/
def report (d : Directive) (m : Mismatch) : String := "[" ++ d.text ++ "]: " ++ m.message

end Directive

end StackForm

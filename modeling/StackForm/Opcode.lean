/-!
# `StackForm.Opcode`: the operations of a block

An opcode has a name, a fixed number of operands, and (all but `store_local`) one
result. The order of `Opcode.all` is the order in which opcodes are numbered.
-/

set_option autoImplicit false

namespace StackForm

/-- The operations that an instruction can perform. -/
inductive Opcode where
  | neg | not | isZero
  | add | sub | mul | sdiv | smod
  | shl | shr | and | or | xor
  | eq | ne | lt | gt | le | ge
  | select
  | loadLocal | storeLocal
  deriving DecidableEq, Repr, Inhabited

namespace Opcode

/-- Every opcode once, in numbering order. -/
def all : List Opcode :=
  [.neg, .not, .isZero, .add, .sub, .mul, .sdiv, .smod, .shl, .shr, .and, .or, .xor,
    .eq, .ne, .lt, .gt, .le, .ge, .select, .loadLocal, .storeLocal]

/-- The name under which an opcode is read and written. -/
def name : Opcode → String
  | neg => "neg"
  | not => "not"
  | isZero => "is_zero"
  | add => "add"
  | sub => "sub"
  | mul => "mul"
  | sdiv => "sdiv"
  | smod => "smod"
  | shl => "shl"
  | shr => "shr"
  | and => "and"
  | or => "or"
  | xor => "xor"
  | eq => "eq"
  | ne => "ne"
  | lt => "lt"
  | gt => "gt"
  | le => "le"
  | ge => "ge"
  | select => "select"
  | loadLocal => "load_local"
  | storeLocal => "store_local"

/-- The number of operands that an opcode takes. -/
def arity : Opcode → Nat
  | neg | not | isZero | loadLocal => 1
  | select => 3
  | _ => 2

/-- Whether an opcode produces a value. A store is the only one that does not. -/
def hasResult : Opcode → Bool
  | storeLocal => false
  | _ => true

/-- The number of values that an opcode produces. -/
def resultCount (op : Opcode) : Nat := if op.hasResult then 1 else 0

/-- The position of an opcode in `Opcode.all`. -/
def index (op : Opcode) : Nat := all.idxOf op

/-- The opcode of the given name, if there is one. -/
def ofName? (name : String) : Option Opcode := all.find? (·.name == name)

theorem mem_all (op : Opcode) : op ∈ all := by cases op <;> decide

/-- No two opcodes share a name. -/
theorem name_injective {a b : Opcode} (h : a.name = b.name) : a = b := by
  revert h
  cases a <;> cases b <;> decide

/-- Reading a name back gives the opcode that was written. -/
theorem ofName?_name (op : Opcode) : ofName? op.name = some op := by
  cases op <;> decide

/-- A name is only ever read as the opcode that is written that way. -/
theorem name_of_ofName? {name : String} {op : Opcode} (h : ofName? name = some op) :
    op.name = name := by
  simpa using List.find?_some h

end Opcode

/-- A text that was to name an opcode and does not. -/
structure UnknownOpcode where
  name : String
  deriving DecidableEq, Repr

/-- How an unknown opcode is reported. -/
def UnknownOpcode.message (e : UnknownOpcode) : String := "unknown opcode `" ++ e.name ++ "`"

/-- The opcode of the given name, or the report that there is none. -/
def Opcode.ofName (name : String) : Except UnknownOpcode Opcode :=
  match ofName? name with
  | some op => .ok op
  | none => .error ⟨name⟩

end StackForm

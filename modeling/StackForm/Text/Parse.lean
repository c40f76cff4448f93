import Std.Data.ExtTreeMap
import StackForm.Block
import StackForm.Text.Diagnostic
import StackForm.Text.Grammar

/-!
# `StackForm.Text.Parse`: from text to blocks

Reading a block has two halves. The grammar turns the text into statements, and
stops at the first place where it cannot. Then the statements are taken in order:
names are looked up among the statements before, integers are read, and the number
of operands is checked. This second half goes on after a problem and reports them
all. A statement without a known opcode defines no name.
-/

set_option autoImplicit false

namespace StackForm.Text

/-- The names defined so far, with the positions of their values. -/
abbrev Names := Std.ExtTreeMap String Nat

/-- The value of a sequence of digits. -/
def natOfDigits (cs : List Char) : Nat := cs.foldl (fun n c => 10 * n + (c.toNat - '0'.toNat)) 0

/-- The value of digits with a minus sign or without. -/
def intOfDigits : List Char → Int
  | '-' :: cs => -(natOfDigits cs : Int)
  | cs => natOfDigits cs

namespace OperandText

def lexeme : OperandText → Lexeme
  | name l => l
  | integer l => l

/-- The operand that is written, if its name is defined or its integer is a word. -/
def read (names : Names) : OperandText → Except Problem Operand
  | name l =>
    match names[l.text]? with
    | some pos => return .ref pos
    | none => throw (.undefinedValue l.text)
  | integer l =>
    match Word.ofInt? (intOfDigits l.text.toList) with
    | some v => return .imm v
    | none => throw .numberOutOfBounds

/-- What is wrong with an operand. -/
def diagnostic? (names : Names) (o : OperandText) : Option Diagnostic :=
  match o.read names with
  | .ok _ => none
  | .error problem => some { problem, span := o.lexeme.span }

end OperandText

namespace Statement

def opcode? (s : Statement) : Option Opcode := Opcode.ofName? s.opcode.text

/-- What is wrong with the label of a statement, apart from where it is used. -/
def labelDiagnostics (names : Names) (op : Opcode) (label : Lexeme) : List Diagnostic :=
  (if op.hasResult then [] else [⟨.unexpectedName op, label.span⟩]) ++
    if names.contains label.text then [⟨.duplicateName label.text, label.span⟩] else []

/-- What is wrong with a statement, given the names before it. -/
def diagnostics (names : Names) (s : Statement) : List Diagnostic :=
  let operands := s.operands.filterMap (·.diagnostic? names)
  match s.opcode? with
  | none => ⟨.unknownInstr s.opcode.text, s.opcode.span⟩ :: operands
  | some op =>
    operands ++
      (if s.operands.length = op.arity then []
        else [⟨.argCount op.arity s.operands.length, s.span⟩]) ++
      (s.label.map (labelDiagnostics names op)).getD []

/-- The names after a statement at `pos`. A name keeps its first meaning. -/
def define (names : Names) (pos : Nat) (s : Statement) : Names :=
  match s.opcode?, s.label with
  | some _, some label => names.insertIfNew label.text pos
  | _, _ => names

/-- The instruction of a statement that has nothing wrong with it. -/
def instr? (names : Names) (s : Statement) : Option Instr :=
  match s.opcode? with
  | none => none
  | some opcode =>
    some { opcode, operands := s.operands.filterMap fun o => (o.read names).toOption }

end Statement

/-- Statements taken in order. -/
structure Resolution where
  names : Names := ∅
  instrs : Array Instr := #[]
  diagnostics : Array Diagnostic := #[]

namespace Resolution

/-- Takes the next statement, which is at `pos`. -/
def take (r : Resolution) (pos : Nat) (s : Statement) : Resolution :=
  { names := s.define r.names pos
    instrs := r.instrs ++ (s.instr? r.names).toArray
    diagnostics := r.diagnostics ++ (s.diagnostics r.names).toArray }

/-- Takes statements, the first of them at `pos`. -/
def takeAll (r : Resolution) (pos : Nat) : List Statement → Resolution
  | [] => r
  | s :: ss => (r.take pos s).takeAll (pos + 1) ss

end Resolution

/-- What a text says. -/
structure Parsed where
  block : Block
  /-- The comments, in source order. -/
  comments : List String
  /-- The names that the text gives to values. -/
  names : Names

/-- The positions that have names, with their names, by increasing position. -/
def Parsed.valueNames (p : Parsed) : List (Nat × String) :=
  (p.names.toList.map fun (name, pos) => (pos, name)).mergeSort fun a b => a.1 ≤ b.1

/-- Looks up the names of a text of the right shape. -/
def Listing.resolve (l : Listing) : Except (List Diagnostic) Parsed :=
  let r := ({} : Resolution).takeAll 0 l.statements
  if r.diagnostics.isEmpty then
    return { block := ⟨r.instrs.toList⟩, comments := l.comments, names := r.names }
  else throw r.diagnostics.toList

/-- Reads a block from a text. -/
def parse (source : String) : Except (List Diagnostic) Parsed :=
  match Listing.ofText source.toList with
  | .ok listing => listing.resolve
  | .error attempts => throw [⟨.malformed attempts.expected, .point attempts.offset⟩]

end StackForm.Text

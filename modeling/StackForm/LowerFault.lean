import StackForm.Block

/-!
# `StackForm.LowerFault`: why a block has no stack form

Checking a block finds operands that are wrong in number or name no earlier value.
The later passes take the check on trust, together with a use table, and report
only what would keep them from doing their work.
-/

set_option autoImplicit false

namespace StackForm

/-- Why a block cannot be lowered. -/
inductive LowerFault where
  /-- Operand number `operand` of the instruction at `pos` names the value of
  `target`, which is not defined before it. -/
  | invalidReference (pos operand target : Nat)
  /-- Operand number `operand` of the instruction at `pos` names the value of
  `target`, which produces none. -/
  | voidReference (pos operand target : Nat)
  /-- The instruction at `pos` has `actual` operands, and its opcode takes `expected`. -/
  | arityMismatch (pos : Nat) (opcode : Opcode) (expected actual : Nat)
  /-- A use table was made for a block of another length. -/
  | tableMismatch (expected actual : Nat)
  /-- There are more slots than numbers for them. -/
  | slotOverflow
  deriving DecidableEq, Repr

def LowerFault.message : LowerFault → String
  | invalidReference pos operand target =>
    "operand " ++ toString operand ++ " of `" ++ valueName pos ++ "` refers to `" ++
      valueName target ++ "`, which is not defined before it"
  | voidReference pos operand target =>
    "operand " ++ toString operand ++ " of `" ++ valueName pos ++ "` refers to `" ++
      valueName target ++ "`, which has no result"
  | arityMismatch pos opcode expected actual =>
    "`" ++ valueName pos ++ "` (`" ++ opcode.name ++ "`) expects " ++ toString expected ++
      " operands, but " ++ toString actual ++ " given"
  | tableMismatch expected actual =>
    "use table covers " ++ toString actual ++ " instructions, but the block has " ++
      toString expected
  | slotOverflow => "frame slot index overflow"

end StackForm

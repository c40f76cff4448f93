import StackForm.Folding
import StackForm.Op

/-!
# `StackForm.Trace`: the report of a lowering

Emission notes what it does in the order in which it does it, which is from the end
of the block to its start. The report shows those events between the assignment of
slots and the finished code.
-/

set_option autoImplicit false

namespace StackForm

/-- One step of an emission. -/
inductive Event where
  /-- The instruction starts a tree. -/
  | root (pos : Nat)
  /-- The instruction is computed in place for its consumer. -/
  | fold (pos consumer : Nat)
  /-- The instruction's value goes to its slot by this operation. -/
  | store (pos : Nat) (op : Op)
  /-- The instruction's value is not used. -/
  | drop (pos : Nat)
  /-- The instruction's value gets a slot. -/
  | slot (slot pos : Nat)
  /-- The consumer reads the value back from its slot. -/
  | keep (pos consumer : Nat) (reason : KeepReason)
  deriving DecidableEq, Repr

/-- An event as a line of the report. Roots stand at the margin, and what belongs to them is
indented. -/
def Event.text : Event → String
  | root pos => "root " ++ valueName pos
  | fold pos consumer => "  fold " ++ valueName pos ++ " into " ++ valueName consumer
  | store pos op => "  store " ++ valueName pos ++ " with " ++ op.text
  | drop pos => "  drop " ++ valueName pos
  | slot s pos => "  slot " ++ toString s ++ " for " ++ valueName pos
  | keep pos consumer reason =>
    "  keep " ++ valueName pos ++ " in " ++ valueName consumer ++ ": " ++ reason.text

namespace Trace

/-- The line that assigns slots to values, left out when there are none. The pairs
are of a slot and the position whose value it holds. -/
def slotLine (slots : List (Nat × Nat)) : String :=
  if slots.isEmpty then ""
  else
    "slots: " ++ ", ".intercalate (slots.map fun (s, pos) => toString s ++ "=" ++ valueName pos) ++
      "\n"

/-- The whole report. An emission without events had nothing to emit. -/
def report (slots : List (Nat × Nat)) (events : List Event) (ops : List Op) : String :=
  if events.isEmpty then "<empty block>\n"
  else
    "STACKIFY\n" ++ slotLine slots ++ "trace:\n" ++
      String.join (events.map fun e => e.text ++ "\n") ++ "code:\n" ++ Op.listing ops

end Trace

end StackForm

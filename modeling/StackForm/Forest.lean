import StackForm.Folding

/-!
# `StackForm.Forest`: a block as expression trees

The forest of a block holds its instructions as expression trees, the roots in
position order. Its trees are those of the folding plan with the reasons left out.
-/

set_option autoImplicit false

namespace StackForm

mutual

/-- A planned tree without its reasons. Faults are met right to left, the order in
which the plan decided. -/
def Tree.erase : Tree Verdict → Except LowerFault (Tree Nat)
  | .node pos opcode cs => do
    let cs ← Child.eraseAll pos cs
    return .node pos opcode cs

/-- An operand of the consumer at `pos` without the reason for its place. -/
def Child.erase (pos : Nat) : Child Verdict → Except LowerFault (Child Nat)
  | .imm v => return .imm v
  | .ref (.kept target _) => return .ref target
  | .ref (.dangling operand target) => throw (.invalidReference pos operand target)
  | .nested t => do
    let t ← t.erase
    return .nested t

/-- The operands of the consumer at `pos` without the reasons for their places. -/
def Child.eraseAll (pos : Nat) : List (Child Verdict) → Except LowerFault (List (Child Nat))
  | [] => return []
  | c :: cs => do
    let cs ← Child.eraseAll pos cs
    let c ← c.erase pos
    return c :: cs

end

/-- Planned trees without their reasons, the last tree first. -/
def Tree.eraseAll (ts : List (Tree Verdict)) : Except LowerFault (List (Tree Nat)) :=
  ts.foldrM (fun t others => return (← t.erase) :: others) []

/-- A block as expression trees. -/
structure Forest where
  /-- The trees, by increasing position of their roots. -/
  roots : Array (Tree Nat)

namespace Forest

/-- Recovers the expression trees of a block, guided by a use table. -/
def ofBlock (b : Block) (uses : UseTable) : Except LowerFault Forest := do
  uses.checkFits b
  let roots ← Tree.eraseAll (b.plan uses)
  return { roots := roots.toArray }

/-- One line a tree: the name of the root's value and the tree. -/
def text (f : Forest) : String :=
  String.join (f.roots.toList.map fun t => valueName t.pos ++ ": " ++ t.text ++ "\n")

/-- The positions of all instructions in the forest, in increasing order. -/
def positions (f : Forest) : List Nat := (f.roots.toList.flatMap Tree.preorder).mergeSort

/-- Looks for the root at `pos` among those with index in `[lo, hi)`, by halving. -/
def searchRoot (f : Forest) (pos lo hi : Nat) : Option (Tree Nat) :=
  if lo < hi then
    let mid := (lo + hi) / 2
    match f.roots[mid]? with
    | none => none
    | some t =>
      if t.pos = pos then some t
      else if t.pos < pos then searchRoot f pos (mid + 1) hi
      else searchRoot f pos lo mid
  else none
termination_by hi - lo
decreasing_by all_goals omega

/-- The tree whose root is the instruction at `pos`. -/
def root? (f : Forest) (pos : Nat) : Option (Tree Nat) := f.searchRoot pos 0 f.roots.size

end Forest

end StackForm

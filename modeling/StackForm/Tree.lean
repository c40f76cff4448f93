import StackForm.Block

/-!
# `StackForm.Tree`: expression trees over a block

A tree node is an instruction of a block, and its children stand for the
instruction's operands: a constant, a reference to a value computed elsewhere, or
the nested tree that computes the operand in place. What a reference leaf carries
is a parameter. In a finished forest it is the position that is referred to, and
while folding is being decided it is the decision (`StackForm.Folding`).

`preorder` and `properSubtrees` visit a tree with a work list. The work list of
`preorder` is served left to right, that of `properSubtrees` right to left.
-/

set_option autoImplicit false

namespace StackForm

mutual

/-- An instruction with its operands in place. -/
inductive Tree (κ : Type) where
  | node (pos : Nat) (opcode : Opcode) (children : List (Child κ))

/-- What stands in the place of an operand. -/
inductive Child (κ : Type) where
  | imm (value : Word)
  | ref (leaf : κ)
  | nested (tree : Tree κ)

end

variable {κ : Type}

namespace Tree

/-- The position of the instruction at the root. -/
def pos : Tree κ → Nat
  | node p _ _ => p

def opcode : Tree κ → Opcode
  | node _ op _ => op

def children : Tree κ → List (Child κ)
  | node _ _ cs => cs

end Tree

namespace Child

/-- The tree nested in an operand's place. -/
def tree? : Child κ → Option (Tree κ)
  | nested t => some t
  | _ => none

/-- What a reference leaf carries. -/
def leaf? : Child κ → Option κ
  | ref r => some r
  | _ => none

/-- Whether the operand is a reference to a value computed elsewhere. -/
def isRef : Child κ → Bool
  | ref _ => true
  | _ => false

end Child

namespace Tree

/-- The trees nested directly in a node, left to right. -/
def subtrees (t : Tree κ) : List (Tree κ) := t.children.filterMap Child.tree?

/-- What the reference leaves directly below a node carry, left to right. -/
def leaves (t : Tree κ) : List κ := t.children.filterMap Child.leaf?

end Tree

mutual

/-- The number of nodes of a tree. -/
def Tree.size : Tree κ → Nat
  | .node _ _ cs => Child.sizes cs + 1

/-- The number of nodes below an operand's place. -/
def Child.size : Child κ → Nat
  | .imm _ => 0
  | .ref _ => 0
  | .nested t => t.size

/-- The number of nodes below a list of operands. -/
def Child.sizes : List (Child κ) → Nat
  | [] => 0
  | c :: cs => c.size + Child.sizes cs

end

/-- The number of nodes of a list of trees. -/
def Tree.totalSize (ts : List (Tree κ)) : Nat := ts.foldr (fun t n => t.size + n) 0

theorem Child.sizes_eq_totalSize (cs : List (Child κ)) :
    Child.sizes cs = Tree.totalSize (cs.filterMap Child.tree?) := by
  induction cs with
  | nil => rfl
  | cons c cs ih =>
    cases c <;> simp_all [Child.sizes, Child.size, Child.tree?, Tree.totalSize, List.filterMap_cons]

theorem Tree.totalSize_cons (t : Tree κ) (ts : List (Tree κ)) :
    Tree.totalSize (t :: ts) = t.size + Tree.totalSize ts := rfl

/-- A node counts once more than the trees nested in it. -/
theorem Tree.size_eq (t : Tree κ) : t.size = Tree.totalSize t.subtrees + 1 := by
  cases t with
  | node p op cs => simp [Tree.size, Tree.subtrees, Tree.children, Child.sizes_eq_totalSize]

theorem Tree.totalSize_append (ts us : List (Tree κ)) :
    Tree.totalSize (ts ++ us) = Tree.totalSize ts + Tree.totalSize us := by
  induction ts with
  | nil => exact (Nat.zero_add _).symm
  | cons t ts ih => rw [List.cons_append, totalSize_cons, totalSize_cons, ih, Nat.add_assoc]

theorem Tree.totalSize_reverse (ts : List (Tree κ)) :
    Tree.totalSize ts.reverse = Tree.totalSize ts := by
  induction ts with
  | nil => rfl
  | cons t ts ih =>
    rw [List.reverse_cons, totalSize_append, ih, totalSize_cons, totalSize_cons, Nat.add_comm]
    rfl

namespace Tree

/-- Visits the trees of a work list and everything below them: a node first, then
its subtrees left to right. -/
def preorderOf : List (Tree κ) → List Nat
  | [] => []
  | t :: work => t.pos :: preorderOf (t.subtrees ++ work)
termination_by work => totalSize work
decreasing_by
  rw [totalSize_append, totalSize_cons, size_eq]
  omega

/-- The positions of a tree's instructions, a node before its subtrees and those
left to right. -/
def preorder (t : Tree κ) : List Nat := preorderOf [t]

/-- Visits the trees of a work list and everything below them: a node first, then
its subtrees right to left. -/
def properSubtreesOf : List (Tree κ) → List (Tree κ)
  | [] => []
  | t :: work => t :: properSubtreesOf (t.subtrees.reverse ++ work)
termination_by work => totalSize work
decreasing_by
  rw [totalSize_append, totalSize_reverse, totalSize_cons, size_eq]
  omega

/-- All proper subtrees, a tree before its own subtrees and later siblings first. -/
def properSubtrees (t : Tree κ) : List (Tree κ) := properSubtreesOf t.subtrees.reverse

/-- What all reference leaves of a tree carry, node by node: the root's, then those
of `properSubtrees`. -/
def refs (t : Tree κ) : List κ := (t :: t.properSubtrees).flatMap leaves

end Tree

mutual

/-- A tree as text: the opcode and the operands, in parentheses. -/
def Tree.text : Tree Nat → String
  | .node _ op cs => "(" ++ op.name ++ Child.texts cs ++ ")"

/-- An operand as text. A reference is written as the value's name. -/
def Child.text : Child Nat → String
  | .imm v => v.decimal
  | .ref t => valueName t
  | .nested t => t.text

/-- Operands as text, each after a blank. -/
def Child.texts : List (Child Nat) → String
  | [] => ""
  | c :: cs => " " ++ c.text ++ Child.texts cs

end

end StackForm

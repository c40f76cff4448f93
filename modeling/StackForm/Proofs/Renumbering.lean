import StackForm.Proofs.Plan

/-!
# `StackForm.Proofs.Renumbering`: nodes numbered in running order

`Tree.renumber` gives the nodes of a tree new positions, from a given number on and in the order
in which they run. The positions of a tree then are consecutive (`Tree.postorder_renumber`), and
what a consumer holds reaches down to where the numbers of its operands begin
(`Child.low_renumberAll`). In a list of trees every node but the roots is nested in one node
(`Child.nested_perm`), so with different positions none is nested twice (`Tree.nested_nodup`).
-/

set_option autoImplicit false

namespace StackForm

variable {κ : Type}

/-! ### Numbers -/

mutual

/-- The same tree with its nodes numbered in running order, from `n` on. -/
def Tree.renumber (n : Nat) : Tree κ → Tree κ
  | .node _ op cs => .node (n + Child.sizes cs) op (Child.renumberAll n cs)

/-- The same operand with the nodes in its place numbered. -/
def Child.renumber (n : Nat) : Child κ → Child κ
  | .imm v => .imm v
  | .ref r => .ref r
  | .nested t => .nested (t.renumber n)

/-- The same operands with the nodes in their places numbered, left to right. -/
def Child.renumberAll (n : Nat) : List (Child κ) → List (Child κ)
  | [] => []
  | c :: cs => c.renumber n :: Child.renumberAll (n + c.size) cs

end

/-- The same trees with their nodes numbered, one tree after the other. -/
def Tree.renumberAll (n : Nat) : List (Tree κ) → List (Tree κ)
  | [] => []
  | t :: ts => t.renumber n :: Tree.renumberAll (n + t.size) ts

/-- The root of a tree comes last. -/
theorem Tree.pos_renumber (n : Nat) (t : Tree κ) : (t.renumber n).pos + 1 = n + t.size := by
  cases t with
  | node pos op cs => exact Nat.add_assoc n (Child.sizes cs) 1

/-- Numbering leaves opcodes as they are. -/
@[simp] theorem Tree.opcode_renumber (n : Nat) (t : Tree κ) :
    (t.renumber n).opcode = t.opcode := by
  cases t
  rfl

/-- The children of a numbered tree are its children, numbered from the same number on. -/
theorem Tree.children_renumber (n : Nat) (t : Tree κ) :
    (t.renumber n).children = Child.renumberAll n t.children := by
  cases t
  rfl

mutual

/-- A tree numbered from `n` on runs the positions from `n` on. -/
theorem Tree.postorder_renumber :
    (t : Tree κ) → ∀ n, (t.renumber n).postorder = List.range' n t.size
  | .node pos op cs, n => by
      rw [Tree.renumber, Tree.postorder, Tree.nodes, List.map_append, Child.postorder_renumberAll,
        Tree.size, List.range'_concat, Nat.one_mul]
      rfl

/-- Companion: the operands of a consumer. -/
theorem Child.postorder_renumberAll :
    (cs : List (Child κ)) → ∀ n,
      (Child.nodesOf (Child.renumberAll n cs)).map Tree.pos = List.range' n (Child.sizes cs)
  | [], _ => rfl
  | .imm _ :: cs, n => by
      simpa [Child.renumberAll, Child.renumber, Child.nodesOf, Child.nodes, Child.sizes, Child.size]
        using Child.postorder_renumberAll cs n
  | .ref _ :: cs, n => by
      simpa [Child.renumberAll, Child.renumber, Child.nodesOf, Child.nodes, Child.sizes, Child.size]
        using Child.postorder_renumberAll cs n
  | .nested t :: cs, n => by
      have ht : (t.renumber n).nodes.map Tree.pos = List.range' n t.size :=
        Tree.postorder_renumber t n
      simp only [Child.renumberAll, Child.renumber, Child.nodesOf, Child.nodes, Child.sizes,
        Child.size, List.map_append, ht, Child.postorder_renumberAll cs, ← List.range'_append,
        Nat.one_mul]

end

/-- Numbered trees have consecutive positions, from the first node to the last. -/
theorem Tree.postorder_renumberAll (ts : List (Tree κ)) (n : Nat) :
    (Tree.renumberAll n ts).flatMap Tree.postorder = List.range' n (Tree.totalSize ts) := by
  induction ts generalizing n with
  | nil => rfl
  | cons t ts ih =>
      rw [Tree.renumberAll, List.flatMap_cons, Tree.postorder_renumber, ih, Tree.totalSize_cons,
        ← List.range'_append, Nat.one_mul]

mutual

/-- The lowest position of a tree numbered from `n` on is `n`. -/
theorem Tree.low_renumber : (t : Tree κ) → ∀ n, (t.renumber n).low = n
  | .node _ _ cs, n => Child.low_renumberAll cs n

/-- Companion: what a consumer holds reaches down to where the numbers of its operands begin. -/
theorem Child.low_renumberAll :
    (cs : List (Child κ)) → ∀ n, Child.low (n + Child.sizes cs) (Child.renumberAll n cs) = n
  | [], _ => rfl
  | .imm _ :: cs, n => by
      simpa [Child.renumberAll, Child.renumber, Child.low, Child.sizes, Child.size]
        using Child.low_renumberAll cs n
  | .ref _ :: cs, n => by
      simpa [Child.renumberAll, Child.renumber, Child.low, Child.sizes, Child.size]
        using Child.low_renumberAll cs n
  | .nested t :: _, n => Tree.low_renumber t n

end

mutual

/-- The nodes of a numbered tree are nodes of the tree, numbered from somewhere on. -/
theorem Tree.mem_nodes_renumber :
    (t : Tree κ) → ∀ n, ∀ u ∈ (t.renumber n).nodes, ∃ s ∈ t.nodes, ∃ m, u = s.renumber m
  | .node pos op cs, n, u, hu => by
      rw [Tree.renumber, Tree.nodes, List.mem_append, List.mem_singleton] at hu
      rcases hu with hbelow | rfl
      · obtain ⟨s, hs, m, rfl⟩ := Child.mem_nodesOf_renumberAll cs n u hbelow
        exact ⟨s, List.mem_append_left _ hs, m, rfl⟩
      · exact ⟨.node pos op cs, Tree.self_mem_nodes _, n, rfl⟩

/-- Companion: the operands of a consumer. -/
theorem Child.mem_nodesOf_renumberAll :
    (cs : List (Child κ)) → ∀ n, ∀ u ∈ Child.nodesOf (Child.renumberAll n cs),
      ∃ s ∈ Child.nodesOf cs, ∃ m, u = s.renumber m
  | .imm _ :: cs, n, u, hu => Child.mem_nodesOf_renumberAll cs _ u hu
  | .ref _ :: cs, n, u, hu => Child.mem_nodesOf_renumberAll cs _ u hu
  | .nested t :: cs, n, u, hu => by
      rcases List.mem_append.mp hu with hut | hucs
      · obtain ⟨s, hs, m, rfl⟩ := Tree.mem_nodes_renumber t n u hut
        exact ⟨s, List.mem_append_left _ hs, m, rfl⟩
      · obtain ⟨s, hs, m, rfl⟩ := Child.mem_nodesOf_renumberAll cs _ u hucs
        exact ⟨s, List.mem_append_right _ hs, m, rfl⟩

end

/-- The nodes of numbered trees are the nodes of the trees, numbered. -/
theorem Tree.mem_nodes_renumberAll (ts : List (Tree κ)) (n : Nat) :
    ∀ u ∈ (Tree.renumberAll n ts).flatMap Tree.nodes,
      ∃ s ∈ ts.flatMap Tree.nodes, ∃ m, u = s.renumber m := by
  induction ts generalizing n with
  | nil => simp [Tree.renumberAll]
  | cons t ts ih =>
      intro u hu
      rcases List.mem_append.mp hu with hut | huts
      · obtain ⟨s, hs, m, rfl⟩ := Tree.mem_nodes_renumber t n u hut
        exact ⟨s, List.mem_append_left _ hs, m, rfl⟩
      · obtain ⟨s, hs, m, rfl⟩ := ih (n + t.size) u huts
        exact ⟨s, List.mem_append_right _ hs, m, rfl⟩

/-- Numbering leaves the number of children as it is. -/
theorem Child.length_renumberAll (cs : List (Child κ)) (n : Nat) :
    (Child.renumberAll n cs).length = cs.length := by
  induction cs generalizing n with
  | nil => rfl
  | cons c cs ih => simp [Child.renumberAll, ih]

/-- The trees in the places of numbered operands are those of the operands, numbered. -/
theorem Child.mem_trees_renumberAll (cs : List (Child κ)) (n : Nat) :
    ∀ w ∈ (Child.renumberAll n cs).filterMap Child.tree?,
      ∃ s ∈ cs.filterMap Child.tree?, ∃ m, w = s.renumber m := by
  induction cs generalizing n with
  | nil => simp [Child.renumberAll]
  | cons c cs ih =>
      intro w hw
      cases c with
      | imm v => exact ih _ w hw
      | ref r => exact ih _ w hw
      | nested t =>
          rcases List.mem_cons.mp hw with rfl | hw
          · exact ⟨t, List.mem_cons_self .., n, rfl⟩
          · obtain ⟨s, hs, m, rfl⟩ := ih _ w hw
            exact ⟨s, List.mem_cons_of_mem _ hs, m, rfl⟩

/-- What is nested in a numbered node has a smaller number. -/
theorem Tree.pos_lt_of_subtree {t w : Tree κ} {n : Nat} (hw : w ∈ (t.renumber n).subtrees) :
    w.pos < (t.renumber n).pos := by
  have hbelow : w ∈ Child.nodesOf (t.renumber n).children :=
    Tree.subtree_mem _ _ (Tree.self_mem_nodes _) w hw
  have hpos : w.pos ∈ (Child.nodesOf (Child.renumberAll n t.children)).map Tree.pos :=
    List.mem_map_of_mem (by rwa [← Tree.children_renumber])
  rw [Child.postorder_renumberAll, List.mem_range'_1] at hpos
  cases t with
  | node pos op cs => exact hpos.2

/-! ### Parents -/

mutual

/-- Every node of a tree but its root is nested in exactly one node. -/
theorem Tree.nested_perm :
    (t : Tree κ) →
      (t.pos :: t.nodes.flatMap fun u => u.subtrees.map Tree.pos).Perm t.postorder
  | .node pos op cs => by
      have hcs := Child.nested_perm cs
      simp only [Tree.pos, Tree.postorder, Tree.nodes, List.flatMap_append, List.map_append,
        List.flatMap_singleton, List.map_singleton]
      -- The node's own operands come last in its list, and the node comes first.
      exact ((List.perm_append_comm.trans hcs).cons pos).trans
        (List.perm_append_singleton pos _).symm

/-- Companion: the trees in the places of operands have no parent among themselves. -/
theorem Child.nested_perm :
    (cs : List (Child κ)) →
      ((cs.filterMap Child.tree?).map Tree.pos ++
        (Child.nodesOf cs).flatMap fun u => u.subtrees.map Tree.pos).Perm
      ((Child.nodesOf cs).map Tree.pos)
  | [] => .refl _
  | .imm _ :: cs => Child.nested_perm cs
  | .ref _ :: cs => Child.nested_perm cs
  | .nested t :: cs => by
      have ht := Tree.nested_perm t
      have hcs := Child.nested_perm cs
      simp only [List.filterMap_cons, Child.tree?, List.map_cons, Child.nodesOf, Child.nodes,
        List.flatMap_append, List.map_append, List.cons_append]
      exact ((List.perm_append_comm_assoc _ _ _).cons t.pos).trans (ht.append hcs)

end

/-- Of trees whose positions are all different, no node is nested twice. -/
theorem Tree.nested_nodup {ts : List (Tree κ)} (h : (ts.flatMap Tree.postorder).Nodup) :
    ((ts.flatMap Tree.nodes).flatMap fun u => u.subtrees.map Tree.pos).Nodup := by
  have hperm := Child.nested_perm (ts.map Child.nested)
  have htrees : (ts.map Child.nested).filterMap Child.tree? = ts := by
    simp [List.filterMap_map, Function.comp_def, Child.tree?]
  rw [Child.nodesOf_eq_flatMap, htrees, List.map_flatMap] at hperm
  exact (List.nodup_append.mp (hperm.nodup_iff.mpr h)).2.1

end StackForm

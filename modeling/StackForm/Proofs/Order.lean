import StackForm.Proofs.Emission
import StackForm.Proofs.Plan

/-!
# `StackForm.Proofs.Order`: lowering keeps every instruction in its place

Folding moves no instruction. Reading the trees of a forest in the order in which they
run gives the positions of the block, first to last and each once, and the code performs
the block's opcodes in just that order. This holds for every use table for which there is
a forest, also for one that counts the uses of another block: the table decides which
values are computed in place, and a value is computed in place only where its
instruction runs anyway.

`Forest.running_order` collects what follows for the forest and the code.
-/

set_option autoImplicit false

namespace StackForm

/-- Trees that lie side by side have increasing roots. -/
theorem Tree.Covers.roots_increase {b : Block} {uses : UseTable} {ts : List (Tree Verdict)}
    {lo : Nat} (h : Tree.Covers b uses lo ts) : (ts.map Tree.pos).Pairwise (· < ·) := by
  rw [List.pairwise_map]
  refine h.apart.imp_of_mem ?_
  intro t u _ hu hlow
  exact Nat.lt_of_lt_of_le hlow (h.stretch u hu).1

/-- Without their reasons the trees of a plan still run in order. -/
theorem Forest.postorder_ofBlock {b : Block} {uses : UseTable} {f : Forest}
    (h : Forest.ofBlock b uses = .ok f) :
    f.roots.toList.flatMap Tree.postorder = List.range b.length := by
  rw [(Forest.ofBlock_ok h).2, List.flatMap_map, ← b.plan_postorder uses]
  congr 1
  funext t
  exact Tree.postorder_map Verdict.target t

/-- Sorting the positions met in preorder gives those in running order, since they are the
same positions and the running order is sorted. -/
theorem Forest.positions_ofBlock {b : Block} {uses : UseTable} {f : Forest}
    (h : Forest.ofBlock b uses = .ok f) : f.positions = List.range b.length := by
  -- Preorder and postorder of each tree are permutations of each other.
  have hvisit : ∀ ts : List (Tree Nat),
      (ts.flatMap Tree.preorder).Perm (ts.flatMap Tree.postorder) := by
    intro ts
    induction ts with
    | nil => exact List.Perm.refl _
    | cons t ts ih =>
        rw [List.flatMap_cons, List.flatMap_cons]
        have ht := Tree.preorderOf_perm [t]
        rw [List.flatMap_cons, List.flatMap_nil, List.append_nil] at ht
        exact ht.append ih
  have hperm : f.positions.Perm (List.range b.length) := by
    rw [← Forest.postorder_ofBlock h]
    exact (List.mergeSort_perm _ _).trans (hvisit f.roots.toList)
  have hsorted : f.positions.Pairwise (· ≤ ·) := by
    have hsort := @List.pairwise_mergeSort Nat (fun a b => decide (a ≤ b))
      (fun a b c hab hbc => by simp at hab hbc ⊢; omega) (fun a b => by simp; omega)
      (f.roots.toList.flatMap Tree.preorder)
    exact hsort.imp fun hab => by simpa using hab
  have hrange : (List.range b.length).Pairwise (· ≤ ·) :=
    List.pairwise_lt_range.imp Nat.le_of_lt
  exact hperm.eq_of_pairwise (fun a b _ _ hab hba => Nat.le_antisymm hab hba) hsorted hrange

/-- The code of a block performs the block's opcodes in position order. -/
theorem Block.performed_emit {b : Block} {uses : UseTable} {opts : Options} {c : Code}
    (h : b.emit uses opts = .ok c) :
    c.ops.filterMap Op.performed? = b.instrs.map Instr.opcode := by
  obtain ⟨-, e, he, rfl⟩ := Block.emit_eq_ok_iff.mp h
  have hops := EmitContext.emitAll_performed (b.plan uses) he
  rw [List.filterMap_nil, List.append_nil,
    b.map_plan_nodes uses Tree.opcode Instr.opcode fun u i hop _ => hop] at hops
  exact hops

/-- Lowering keeps the order of instructions and loses none of them. For every block and
every use table for which there is a forest: the trees, read operands first, run through
the positions of the block in order; so the roots increase, every position occurs once,
each tree runs a stretch of positions that ends at its root, and the positions of the
forest are those of the block. Code for the same block and table performs the block's
opcodes in position order. -/
theorem Forest.running_order {b : Block} {uses : UseTable} {f : Forest}
    (h : Forest.ofBlock b uses = .ok f) :
    f.roots.toList.flatMap Tree.postorder = List.range b.length ∧
    (f.roots.toList.map Tree.pos).Pairwise (· < ·) ∧
    (∀ p < b.length, (f.roots.toList.flatMap Tree.postorder).count p = 1) ∧
    (∀ t ∈ f.roots.toList, ∃ lo ≤ t.pos, t.postorder = List.range' lo (t.pos + 1 - lo)) ∧
    f.positions = List.range b.length ∧
    ∀ opts c, b.emit uses opts = .ok c →
      c.ops.filterMap Op.performed? = b.instrs.map Instr.opcode := by
  have horder := Forest.postorder_ofBlock h
  have hroots := (Forest.ofBlock_ok h).2
  have hcovers := b.plan_covers uses
  refine ⟨horder, ?_, ?_, ?_, Forest.positions_ofBlock h, fun opts c => Block.performed_emit⟩
  · rw [hroots, List.map_map]
    have hpos : (Tree.pos ∘ Tree.map Verdict.target) = Tree.pos :=
      funext fun t => Tree.pos_map Verdict.target t
    rw [hpos]
    exact hcovers.roots_increase
  · intro p hp
    rw [horder]
    rw [List.nodup_range.count, if_pos (List.mem_range.mpr hp)]
  · intro t ht
    rw [hroots] at ht
    obtain ⟨u, hu, rfl⟩ := List.mem_map.mp ht
    obtain ⟨hlow, hstretch⟩ := hcovers.stretch u hu
    exact ⟨u.low, by rw [Tree.pos_map]; exact hlow,
      by rw [Tree.postorder_map, Tree.pos_map]; exact hstretch⟩

/-- A block that is not well formed: its last instruction has an operand too many. -/
def Block.surplus : Block :=
  ⟨[⟨.loadLocal, [.imm 0]⟩, ⟨.neg, [.ref 0]⟩, ⟨.add, [.ref 0, .ref 1, .imm 7]⟩]⟩

/-- The theorem at that block, under a table that counts one use of a value with two. The
forest is a single tree all the same. -/
theorem Forest.running_order_surplus :
    ∃ f, Forest.ofBlock .surplus ⟨#[1, 1, 0]⟩ = .ok f ∧
      f.roots.toList.flatMap Tree.postorder = [0, 1, 2] ∧ f.positions = [0, 1, 2] ∧
      ∀ opts c, Block.surplus.emit ⟨#[1, 1, 0]⟩ opts = .ok c →
        c.ops.filterMap Op.performed? = [.loadLocal, .neg, .add] := by
  obtain ⟨f, hf⟩ : ∃ f, Forest.ofBlock .surplus ⟨#[1, 1, 0]⟩ = .ok f := ⟨_, rfl⟩
  have horder := Forest.running_order hf
  exact ⟨f, hf, horder.1, horder.2.2.2.2.1, horder.2.2.2.2.2⟩

end StackForm

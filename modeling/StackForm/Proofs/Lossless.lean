import StackForm.Proofs.Recovery

/-!
# `StackForm.Proofs.Lossless`: a forest says all that its block says

Recovering the trees of a block nests instructions into each other and leaves nothing out.
Each node still shows its instruction: the opcode is the instruction's, and writing the
children back, nested trees by their positions, gives its operands (`Tree.Planned.instr`).
The nodes run in position order, so writing them all back gives the block
(`Block.ofTrees_roots`). None of this looks at the use table. The table decides which
references become nested trees, and a nested tree is written back as the same reference.

`Forest.lossless` collects what follows. In particular the forest alone determines the
block, without the table under which it was recovered.
-/

set_option autoImplicit false

namespace StackForm

/-! ### Children and operands -/

/-- Only a constant is written as a constant. -/
theorem Child.operand_eq_imm_iff {c : Child Nat} {v : Word} :
    c.operand = .imm v ↔ c = .imm v := by
  cases c <;> simp [Child.operand]

/-- What is written as a reference is one, or a tree rooted where it refers to. -/
theorem Child.operand_eq_ref_iff {c : Child Nat} {a : Nat} :
    c.operand = .ref a ↔ c = .ref a ∨ ∃ u, c = .nested u ∧ u.pos = a := by
  cases c <;> simp [Child.operand]

/-- Writing decided operands back gives the operands that were decided. A decision tells how
a value is to be had, and not which value it is. -/
theorem Child.Decided.operands {uses : UseTable} {pos k : Nat} {os : List Operand}
    {cs : List (Child Verdict)} (h : Child.Decided uses pos k os cs) :
    (Child.mapAll Verdict.target cs).map Child.operand = os := by
  induction h with
  | nil k => rfl
  | imm v rest ih => rw [Child.mapAll, List.map_cons, ih]; rfl
  | ref rest verdict ih =>
      rw [Child.mapAll, List.map_cons, ih, ← (Child.target_of_verdict? verdict).1]
      rfl
  | @nested k os cs t rest folds ih =>
      -- The tree is written by its position, which is that of the reference it stands for.
      have hroot : (Child.map Verdict.target (.nested t)).operand = .ref t.pos := by
        rw [Child.map, Child.operand, Tree.pos_map]
      rw [Child.mapAll, List.map_cons, ih, hroot]

/-! ### Nodes and instructions -/

/-- The operands of the instruction of a tree are those of its children, at the same places. -/
theorem Tree.getElem?_operands (t : Tree Nat) (j : Nat) :
    t.instr.operands[j]? = t.children[j]?.map Child.operand := List.getElem?_map

/-- A node whose opcode is that of an instruction, and whose children are decisions about its
operands, is written back as that instruction. -/
theorem Tree.instr_of_decided {uses : UseTable} {t : Tree Verdict} {i : Instr}
    (hop : t.opcode = i.opcode) (hdec : Child.Decided uses t.pos 0 i.operands t.children) :
    (t.map Verdict.target).instr = i := by
  have hoperands := hdec.operands
  rw [Child.mapAll_eq_map, ← Tree.children_map] at hoperands
  rw [Tree.instr, hoperands, Tree.opcode_map, hop]

/-- A planned node is written back as the instruction at its position. -/
theorem Tree.Planned.instr {b : Block} {uses : UseTable} {t : Tree Verdict}
    (h : t.Planned b uses) : b.instrs[t.pos]? = some (t.map Verdict.target).instr := by
  obtain ⟨i, hi, hop, hdec⟩ := h
  rw [hi, Tree.instr_of_decided hop hdec]

/-- Every node of a forest is written back as the instruction at its position. -/
theorem Forest.instr_of_mem_nodes {b : Block} {uses : UseTable} {f : Forest}
    (h : Forest.ofBlock b uses = .ok f) {t : Tree Nat}
    (ht : t ∈ f.roots.toList.flatMap Tree.nodes) : b.instrs[t.pos]? = some t.instr := by
  -- The node comes from one of the plan, which is planned whatever the table says.
  rw [Forest.nodes_ofBlock h] at ht
  obtain ⟨q, hq, rfl⟩ := List.mem_map.mp ht
  rw [Tree.pos_map]
  exact ((b.plan_covers uses).planned q hq).instr

/-- Writing the trees of a forest back gives the block. -/
theorem Block.ofTrees_roots {b : Block} {uses : UseTable} {f : Forest}
    (h : Forest.ofBlock b uses = .ok f) : Block.ofTrees f.roots.toList = b := by
  -- In running order the nodes stand for the instructions one by one.
  have hinstrs := b.map_plan_nodes uses (fun u => (u.map Verdict.target).instr) id
    fun u i hop hdec => Tree.instr_of_decided hop hdec
  rw [List.map_id] at hinstrs
  rw [Block.ofTrees, Forest.nodes_ofBlock h, List.map_map]
  exact congrArg Block.mk hinstrs

/-! ### Forests -/

/-- Nothing of a block is lost in its forest, under any use table for which there is one.
Every node has the opcode of the instruction at its position and a child for each of its
operands. A constant is in the place of the same constant, and in the place of a reference is
the same reference or a tree rooted there. So writing the trees back gives the block, and two
blocks with the same forest are the same. -/
theorem Forest.lossless {b : Block} {uses : UseTable} {f : Forest}
    (h : Forest.ofBlock b uses = .ok f) :
    (∀ t ∈ f.roots.toList.flatMap Tree.nodes, ∃ i, b.instrs[t.pos]? = some i ∧
      t.opcode = i.opcode ∧ t.children.length = i.operands.length ∧
      ∀ j : Nat, (∀ v, i.operands[j]? = some (.imm v) → t.children[j]? = some (.imm v)) ∧
        ∀ a, i.operands[j]? = some (.ref a) → t.children[j]? = some (.ref a) ∨
          ∃ u, t.children[j]? = some (.nested u) ∧ u.pos = a) ∧
    Block.ofTrees f.roots.toList = b ∧
    ∀ b' uses', Forest.ofBlock b' uses' = .ok f → b' = b := by
  refine ⟨?_, Block.ofTrees_roots h, ?_⟩
  · intro t ht
    refine ⟨t.instr, Forest.instr_of_mem_nodes h ht, rfl, ?_, fun j => ⟨?_, ?_⟩⟩
    · simp [Tree.instr]
    · intro v hv
      rw [Tree.getElem?_operands, Option.map_eq_some_iff] at hv
      obtain ⟨c, hc, hop⟩ := hv
      rw [hc, Child.operand_eq_imm_iff.mp hop]
    · intro a ha
      rw [Tree.getElem?_operands, Option.map_eq_some_iff] at ha
      obtain ⟨c, hc, hop⟩ := ha
      rcases Child.operand_eq_ref_iff.mp hop with rfl | ⟨u, rfl, hu⟩
      · exact Or.inl hc
      · exact Or.inr ⟨u, hc, hu⟩
  · intro b' uses' h'
    rw [← Block.ofTrees_roots h', Block.ofTrees_roots h]

/-- A block with two instructions that have more operands than their opcodes take. The first
value is used by both of them. -/
def Block.overfull : Block :=
  ⟨[⟨.loadLocal, [.imm 0]⟩, ⟨.neg, [.imm 9]⟩, ⟨.mul, [.ref 0, .ref 1, .imm 4]⟩,
    ⟨.add, [.imm 5, .ref 0, .ref 2, .imm 7]⟩]⟩

/-- The theorem at that block, under a table that counts one use of the first value. The value
is nested in the product, and the sum refers to it beside the product's tree. -/
theorem Forest.lossless_overfull :
    ∃ f, Forest.ofBlock .overfull ⟨#[1, 1, 1, 0]⟩ = .ok f ∧
      (∃ t ∈ f.roots.toList.flatMap Tree.nodes, t.pos = 3 ∧ t.opcode = .add ∧
        t.children[0]? = some (.imm 5) ∧ t.children[1]? = some (.ref 0) ∧
        (∃ u, t.children[2]? = some (.nested u) ∧ u.pos = 2) ∧
        t.children[3]? = some (.imm 7)) ∧
      Block.ofTrees f.roots.toList = .overfull ∧
      ∀ b' uses', Forest.ofBlock b' uses' = .ok f → b' = .overfull := by
  let product : Tree Nat := .node 2 .mul
    [.nested (.node 0 .loadLocal [.imm 0]), .nested (.node 1 .neg [.imm 9]), .imm 4]
  let sum : Tree Nat := .node 3 .add [.imm 5, .ref 0, .nested product, .imm 7]
  obtain ⟨f, hf, hroots⟩ : ∃ f, Forest.ofBlock .overfull ⟨#[1, 1, 1, 0]⟩ = .ok f ∧
      f.roots.toList = [sum] := ⟨_, rfl, rfl⟩
  have hsum : sum ∈ f.roots.toList.flatMap Tree.nodes := by
    rw [hroots]
    exact List.mem_flatMap.mpr ⟨sum, List.mem_singleton.mpr rfl, Tree.self_mem_nodes sum⟩
  obtain ⟨hnodes, hback, hunique⟩ := Forest.lossless hf
  obtain ⟨i, hi, hop, -, hchildren⟩ := hnodes sum hsum
  cases hi
  exact ⟨f, hf, ⟨sum, hsum, rfl, hop, (hchildren 0).1 5 rfl, rfl, ⟨product, rfl, rfl⟩,
    (hchildren 3).1 7 rfl⟩, hback, hunique⟩

end StackForm

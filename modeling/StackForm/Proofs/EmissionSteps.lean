import StackForm.Proofs.Emission
import StackForm.Proofs.Uses

/-!
# `StackForm.Proofs.EmissionSteps`: an emission as a list of steps

Emission follows the shape of a plan, tree by tree and operand by operand. What it does at
each place is one of three steps: it takes up an instruction, pushes a constant, or reads a
kept value back. `Tree.steps` lists the steps of a tree, the last one first, and
`EmitContext.emitAll_steps` says that an emission takes the steps of its plan one after the
other. So what a whole emission leaves behind is shown by induction on a list.

Two results say which steps those are. `Block.entered_plan`: the instructions are taken up from
the last one to the first. `Tree.steps_perm`: beside the root of the tree, the steps are those
of the operands of each node.
-/

set_option autoImplicit false

namespace StackForm

/-- A step of an emission. -/
inductive EmitStep where
  /-- The instruction at `pos` is taken up, for a consumer or as a root. -/
  | enter (consumer : Option Nat) (pos : Nat) (opcode : Opcode)
  | push (value : Word)
  /-- A reference of the consumer that does not fold is met. -/
  | read (consumer : Nat) (verdict : Verdict)

mutual

/-- The steps that emit a tree, the last one first. -/
def Tree.steps (consumer : Option Nat) : Tree Verdict → List EmitStep
  | .node pos op cs => Child.stepsOf pos cs ++ [.enter consumer pos op]

/-- The steps that emit one operand of the consumer at `pos`. -/
def Child.steps (pos : Nat) : Child Verdict → List EmitStep
  | .imm v => [.push v]
  | .ref v => [.read pos v]
  | .nested t => t.steps (some pos)

/-- The steps that emit operands of the consumer at `pos`. -/
def Child.stepsOf (pos : Nat) : List (Child Verdict) → List EmitStep
  | [] => []
  | c :: cs => c.steps pos ++ Child.stepsOf pos cs

end

namespace EmitContext

/-- Takes one step. -/
def step (ctx : EmitContext) : EmitStep → Emission → Except LowerFault Emission
  | .enter consumer pos op, e => .ok (ctx.enter consumer pos op e)
  | .push v, e => .ok (e.prepend (.push v))
  | .read pos v, e => ctx.emitChild pos (.ref v) e

/-- Takes steps one after the other, from the end of the list to its start. -/
def steps (ctx : EmitContext) (ss : List EmitStep) (e : Emission) : Except LowerFault Emission :=
  ss.foldrM ctx.step e

variable (ctx : EmitContext)

/-- Steps are carried out from the last to the first, as code is emitted from its end. -/
theorem steps_cons (s : EmitStep) (ss : List EmitStep) (e : Emission) :
    ctx.steps (s :: ss) e = ctx.steps ss e >>= ctx.step s :=
  List.foldrM_cons ..

/-- Two lists of steps are carried out one after the other, the second of them first. -/
theorem steps_append (ss ss' : List EmitStep) (e : Emission) :
    ctx.steps (ss ++ ss') e = ctx.steps ss' e >>= ctx.steps ss :=
  List.foldrM_append

/-- A list with one step is that step. -/
theorem steps_singleton (s : EmitStep) (e : Emission) : ctx.steps [s] e = ctx.step s e := by
  rw [steps_cons]
  rfl

mutual

/-- A tree is emitted by its steps. -/
theorem emitTree_steps :
    (t : Tree Verdict) → (consumer : Option Nat) → (e : Emission) →
      ctx.emitTree consumer t e = ctx.steps (t.steps consumer) e
  | .node pos op cs, consumer, e => by
      rw [emitTree, emitChildren_steps cs pos, Tree.steps, steps_append, steps_singleton]
      rfl

/-- Companion: one operand. -/
theorem emitChild_steps :
    (c : Child Verdict) → (pos : Nat) → (e : Emission) →
      ctx.emitChild pos c e = ctx.steps (c.steps pos) e
  | .imm v, pos, e => by
      rw [Child.steps, steps_singleton]
      rfl
  | .ref v, pos, e => by
      rw [Child.steps, steps_singleton]
      rfl
  | .nested t, pos, e => emitTree_steps t (some pos) e

/-- Companion: the operands of a consumer. -/
theorem emitChildren_steps :
    (cs : List (Child Verdict)) → (pos : Nat) → (e : Emission) →
      ctx.emitChildren pos cs e = ctx.steps (Child.stepsOf pos cs) e
  | [], _, e => rfl
  | c :: cs, pos, e => by
      rw [emitChildren, Child.stepsOf, steps_append, emitChildren_steps cs pos e]
      exact congrArg (ctx.steps (Child.stepsOf pos cs) e >>= ·)
        (funext fun d => emitChild_steps c pos d)

end

/-- A whole emission takes the steps of its plan. -/
theorem emitAll_steps (ts : List (Tree Verdict)) (e : Emission) :
    ctx.emitAll ts e = ctx.steps (ts.flatMap (Tree.steps none)) e := by
  induction ts with
  | nil => rfl
  | cons t ts ih =>
      rw [emitAll, List.foldrM_cons, List.flatMap_cons, steps_append, ← ih]
      exact congrArg (ctx.emitAll ts e >>= ·) (funext fun d => emitTree_steps ctx t none d)

end EmitContext

/-! ### The order of the instructions -/

/-- The instruction that a step takes up. -/
def EmitStep.entered? : EmitStep → Option (Nat × Opcode)
  | enter _ pos op => some (pos, op)
  | _ => none

mutual

/-- The instructions of a tree are taken up in the reverse of the order in which they run. -/
theorem Tree.entered_steps :
    (t : Tree Verdict) → (consumer : Option Nat) →
      (t.steps consumer).filterMap EmitStep.entered? = t.nodes.map fun u => (u.pos, u.opcode)
  | .node pos op cs, consumer => by
      rw [Tree.steps, List.filterMap_append, Child.entered_stepsOf cs pos, Tree.nodes,
        List.map_append]
      rfl

/-- Companion: the operands of a consumer. -/
theorem Child.entered_stepsOf :
    (cs : List (Child Verdict)) → (pos : Nat) →
      (Child.stepsOf pos cs).filterMap EmitStep.entered?
        = (Child.nodesOf cs).map fun u => (u.pos, u.opcode)
  | [], _ => rfl
  | .imm _ :: cs, pos => Child.entered_stepsOf cs pos
  | .ref _ :: cs, pos => Child.entered_stepsOf cs pos
  | .nested t :: cs, pos => by
      rw [Child.stepsOf, Child.steps, List.filterMap_append, Tree.entered_steps t,
        Child.entered_stepsOf cs pos, Child.nodesOf, Child.nodes, List.map_append]

end

/-- The instructions of a block with their positions. -/
def Block.numbered (b : Block) : List (Nat × Opcode) :=
  (List.range b.length).zip (b.instrs.map Instr.opcode)

/-- A plan takes up the instructions of its block one by one, the last one first. -/
theorem Block.entered_plan (b : Block) (uses : UseTable) :
    ((b.plan uses).flatMap (Tree.steps none)).filterMap EmitStep.entered? = b.numbered := by
  have hpos : ((b.plan uses).flatMap Tree.nodes).map Tree.pos = List.range b.length := by
    rw [List.map_flatMap]
    exact b.plan_postorder uses
  have hop : ((b.plan uses).flatMap Tree.nodes).map Tree.opcode = b.instrs.map Instr.opcode :=
    b.map_plan_nodes uses Tree.opcode Instr.opcode fun _ _ h _ => h
  rw [Block.numbered, ← hpos, ← hop, List.zip_map', List.filterMap_flatMap, List.map_flatMap]
  exact congrArg (List.flatMap · (b.plan uses)) (funext fun t => t.entered_steps none)

/-! ### The steps of the nodes -/

/-- The step that an operand of the consumer at `pos` begins with. -/
def Child.firstStep (pos : Nat) : Child Verdict → EmitStep
  | .imm v => .push v
  | .ref v => .read pos v
  | .nested t => .enter (some pos) t.pos t.opcode

/-- The steps that the operands of a node begin with. -/
def Tree.operandSteps (t : Tree Verdict) : List EmitStep :=
  t.children.map (Child.firstStep t.pos)

mutual

/-- The steps of a tree are that of its root and those of the operands of its nodes. -/
theorem Tree.steps_perm :
    (t : Tree Verdict) → (consumer : Option Nat) → (t.steps consumer).Perm
      (.enter consumer t.pos t.opcode :: t.nodes.flatMap Tree.operandSteps)
  | .node pos op cs, consumer => by
      rw [Tree.steps, Tree.nodes, List.flatMap_append, List.flatMap_singleton]
      refine (List.perm_append_singleton ..).trans ?_
      exact ((Child.stepsOf_perm cs pos).trans List.perm_append_comm).cons _

/-- Companion: the operands of a consumer. -/
theorem Child.stepsOf_perm :
    (cs : List (Child Verdict)) → (pos : Nat) → (Child.stepsOf pos cs).Perm
      (cs.map (Child.firstStep pos) ++ (Child.nodesOf cs).flatMap Tree.operandSteps)
  | [], _ => .nil
  | .imm _ :: cs, pos => (Child.stepsOf_perm cs pos).cons _
  | .ref _ :: cs, pos => (Child.stepsOf_perm cs pos).cons _
  | .nested t :: cs, pos => by
      rw [Child.stepsOf, Child.steps, Child.nodesOf, Child.nodes, List.flatMap_append,
        List.map_cons, List.cons_append]
      refine ((Tree.steps_perm t (some pos)).append (Child.stepsOf_perm cs pos)).trans ?_
      rw [List.cons_append]
      -- The steps inside the tree change places with those that the operands begin with.
      exact (List.perm_append_comm_assoc ..).cons _

end

end StackForm

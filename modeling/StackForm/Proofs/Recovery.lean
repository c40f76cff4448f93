import StackForm.Proofs.Numbering
import StackForm.Proofs.Renumbering
import StackForm.Proofs.Uniqueness

/-!
# `StackForm.Proofs.Recovery`: expressions are recovered from their instructions

A list of expressions can be written as a block: each expression operands first, one after the
other, with every nested expression named by its position. `Block.flatten_recovered` says that
nothing is lost by this. The forest of such a block is the list of expressions, and its code
needs no slot.

An expression is a tree without references, so a `Tree Empty`. `Tree.numbered` gives the nodes
of a list of expressions their positions, and `Block.ofTrees` writes trees with positions as a
block.

By `Block.plan_unique` it is enough to see that the expressions themselves cover the block. A
nested expression has one use, because every node has one parent (`Block.uses_flatten`), and it
ends where what stands to its right begins, because positions follow the running order
(`Child.decided_renumberAll`).
-/

set_option autoImplicit false

namespace StackForm

variable {κ : Type}

/-! ### Trees as a block -/

/-- What is written for an operand: a nested tree is named by its position. -/
def Child.operand : Child Nat → Operand
  | .imm v => .imm v
  | .ref target => .ref target
  | .nested t => .ref t.pos

/-- The instruction at the root of a tree. -/
def Tree.instr (t : Tree Nat) : Instr := ⟨t.opcode, t.children.map Child.operand⟩

/-- The expressions of a list with their positions: the number of a node is its place in the
running order of the whole list. -/
def Tree.numbered (ts : List (Tree Empty)) : List (Tree Nat) :=
  (Tree.renumberAll 0 ts).map (Tree.map Empty.elim)

/-- Trees written as a block, their nodes in running order. -/
def Block.ofTrees (ts : List (Tree Nat)) : Block := ⟨(ts.flatMap Tree.nodes).map Tree.instr⟩

/-- Every node has as many operands as its opcode takes, and every tree in an operand's place
has a result. -/
def Tree.Saturated (t : Tree κ) : Prop :=
  ∀ u ∈ t.nodes, u.children.length = u.opcode.arity ∧
    ∀ w ∈ u.subtrees, w.opcode.hasResult = true

/-- Nodes numbered in running order stand at their positions. -/
theorem Tree.getElem?_pos {nodes : List (Tree κ)} {n : Nat}
    (h : nodes.map Tree.pos = List.range n) {u : Tree κ} (hu : u ∈ nodes) :
    nodes[u.pos]? = some u := by
  obtain ⟨k, hk⟩ := List.mem_iff_getElem?.mp hu
  have hpos : (nodes.map Tree.pos)[k]? = some u.pos := by simp [hk]
  rw [h, List.getElem?_eq_some_iff] at hpos
  obtain ⟨hlt, heq⟩ := hpos
  rw [List.getElem_range] at heq
  rw [← heq, hk]

/-! ### Trees without references -/

/-- The references of an instruction that was written for a tree without references: the
positions of the trees nested in it. -/
theorem Child.targets_operand (cs : List (Child Empty)) :
    ((Child.mapAll Empty.elim cs).map Child.operand).filterMap Operand.target?
      = (cs.filterMap Child.tree?).map Tree.pos := by
  induction cs with
  | nil => rfl
  | cons c cs ih =>
      cases c with
      | imm v => exact ih
      | ref r => exact r.elim
      | nested t => simp [Child.mapAll, Child.map, Child.operand, Operand.target?, Child.tree?, ih]

/-- A tree without references has no operand but constants and the results of its subtrees. -/
theorem Tree.exists_subtree_of_ref {u : Tree Empty} {target : Nat}
    (h : .ref target ∈ (u.map Empty.elim).instr.operands) :
    ∃ w ∈ u.subtrees, w.pos = target := by
  have hin : target ∈ (u.map Empty.elim).instr.operands.filterMap Operand.target? :=
    List.mem_filterMap.mpr ⟨_, h, rfl⟩
  rw [Tree.instr, Tree.children_map, ← Child.mapAll_eq_map, Child.targets_operand] at hin
  exact List.mem_map.mp hin

/-- None of the children of a tree without references is one. -/
theorem Child.any_isRef_mapAll {μ : Type} (cs : List (Child Empty)) :
    (Child.mapAll (Empty.elim : Empty → μ) cs).any Child.isRef = false := by
  induction cs with
  | nil => rfl
  | cons c cs ih =>
      cases c with
      | imm v => exact ih
      | ref r => exact r.elim
      | nested t => exact ih

mutual

/-- The first position of a tree does not depend on its references. -/
theorem Tree.low_map {μ : Type} (f : κ → μ) : (t : Tree κ) → (t.map f).low = t.low
  | .node pos _ cs => Child.low_mapAll f pos cs

/-- The same for the children of a tree, of which the first nested one decides. -/
theorem Child.low_mapAll {μ : Type} (f : κ → μ) (pos : Nat) :
    (cs : List (Child κ)) → Child.low pos (Child.mapAll f cs) = Child.low pos cs
  | [] => rfl
  | .imm _ :: cs => Child.low_mapAll f pos cs
  | .ref _ :: cs => Child.low_mapAll f pos cs
  | .nested t :: _ => Tree.low_map f t

end

/-- The operands of an expression, numbered in running order, are what the folding rule makes of
the operands written for them, if each nested expression has one use. -/
theorem Child.decided_renumberAll {uses : UseTable} (cs : List (Child Empty)) (n k : Nat)
    (huses : ∀ t ∈ (Child.renumberAll n cs).filterMap Child.tree?, uses.uses t.pos = 1) :
    Child.Decided uses (n + Child.sizes cs) k
      ((Child.mapAll Empty.elim (Child.renumberAll n cs)).map Child.operand)
      (Child.mapAll Empty.elim (Child.renumberAll n cs)) := by
  induction cs generalizing n k with
  | nil => exact .nil k
  | cons c cs ih =>
      cases c with
      | imm v =>
          have hrest := ih n (k + 1) huses
          rw [show n + Child.sizes (.imm v :: cs) = n + Child.sizes cs by
            simp [Child.sizes, Child.size]]
          exact .imm v hrest
      | ref r => exact r.elim
      | nested t =>
          have hsize : n + Child.sizes (.nested t :: cs) = n + t.size + Child.sizes cs :=
            (Nat.add_assoc ..).symm
          have hroot := Tree.pos_renumber n t
          have hlow := Child.low_renumberAll cs (n + t.size)
          have hrest := ih (n + t.size) (k + 1) fun u hu => huses u (List.mem_cons_of_mem _ hu)
          rw [hsize]
          -- Nothing to the right of the operand is a reference, and what is nested there begins
          -- right behind it, so the rule folds the operand in place.
          have hnested := Child.Decided.nested (k := k) (t := (t.renumber n).map Empty.elim) hrest
            ((Child.verdict?_eq_none_iff ..).mpr ⟨?_, Child.any_isRef_mapAll _, ?_, ?_⟩)
          · rw [Tree.pos_map] at hnested
            simpa [Child.renumberAll, Child.renumber, Child.mapAll, Child.map, Child.operand,
              Child.size] using hnested
          · rw [Tree.pos_map]
            omega
          · rw [Tree.pos_map]
            exact huses _ (List.mem_cons_self ..)
          · rw [Tree.pos_map, Child.low_mapAll, hlow, hroot]

/-- Numbered expressions whose nodes are all planned cover a block from where their numbers
begin. -/
theorem Tree.covers_renumberAll {b : Block} {uses : UseTable} (ts : List (Tree Empty)) (n : Nat)
    (hlen : n + Tree.totalSize ts = b.length)
    (hplanned : ∀ u ∈ (Tree.renumberAll n ts).flatMap Tree.nodes,
      (u.map Empty.elim).Planned b uses) :
    Tree.Covers b uses n ((Tree.renumberAll n ts).map (Tree.map Empty.elim)) := by
  induction ts generalizing n with
  | nil => exact hlen
  | cons t ts ih =>
      rw [Tree.totalSize_cons] at hlen
      refine ⟨?_, ?_, ?_⟩
      · rw [Tree.low_map, Tree.low_renumber]
      · intro w hw
        rw [Tree.nodes_map] at hw
        obtain ⟨u, hu, rfl⟩ := List.mem_map.mp hw
        exact hplanned u (List.mem_append_left _ hu)
      · rw [Tree.pos_map, Tree.pos_renumber]
        exact ih (n + t.size) (by omega) fun u hu => hplanned u (List.mem_append_right _ hu)

namespace Block

/-- Expressions written as a block: operands left to right before their consumer, one expression
after the other, and each nested expression named by its position. -/
def flatten (ts : List (Tree Empty)) : Block := ofTrees (Tree.numbered ts)

variable {ts : List (Tree Empty)}

/-- The instructions of flattened trees are those of the nodes, once the nodes are numbered. -/
theorem instrs_flatten (ts : List (Tree Empty)) :
    (flatten ts).instrs
      = ((Tree.renumberAll 0 ts).flatMap Tree.nodes).map fun u => (u.map Empty.elim).instr := by
  simp only [flatten, ofTrees, Tree.numbered, List.flatMap_map, Tree.nodes_map, List.map_flatMap,
    List.map_map]
  rfl

/-- The nodes of flattened trees are numbered from zero on, in their order. -/
theorem positions_flatten (ts : List (Tree Empty)) :
    ((Tree.renumberAll 0 ts).flatMap Tree.nodes).map Tree.pos
      = List.range (Tree.totalSize ts) := by
  rw [List.map_flatMap, List.range_eq_range', ← Tree.postorder_renumberAll]
  rfl

/-- There is an instruction for every node. -/
theorem length_flatten (ts : List (Tree Empty)) : (flatten ts).length = Tree.totalSize ts := by
  rw [Block.length, instrs_flatten, List.length_map, ← List.length_map (f := Tree.pos),
    positions_flatten, List.length_range]

/-- Every node stands in the block at its position. -/
theorem getElem?_flatten {u : Tree Empty} (hu : u ∈ (Tree.renumberAll 0 ts).flatMap Tree.nodes) :
    (flatten ts).instrs[u.pos]? = some (u.map Empty.elim).instr := by
  rw [instrs_flatten, List.getElem?_map, Tree.getElem?_pos (positions_flatten ts) hu]
  rfl

/-- The references in flattened trees are to the subtrees of every node. -/
theorem refs_flatten (ts : List (Tree Empty)) : (flatten ts).refs
    = ((Tree.renumberAll 0 ts).flatMap Tree.nodes).flatMap fun u => u.subtrees.map Tree.pos := by
  rw [refs, instrs_flatten, List.flatMap_map]
  refine List.flatMap_congr fun u _ => ?_
  cases u with
  | node pos op cs => exact Child.targets_operand cs

/-- No instruction is referred to twice. -/
theorem nodup_refs_flatten (ts : List (Tree Empty)) : (flatten ts).refs.Nodup := by
  rw [refs_flatten]
  apply Tree.nested_nodup
  rw [Tree.postorder_renumberAll]
  exact List.nodup_range'

/-- A nested expression is referred to once, by its parent. -/
theorem uses_flatten {u w : Tree Empty} (hu : u ∈ (Tree.renumberAll 0 ts).flatMap Tree.nodes)
    (hw : w ∈ u.subtrees) : (UseTable.tally (flatten ts)).uses w.pos = 1 := by
  have hmem : w ∈ (Tree.renumberAll 0 ts).flatMap Tree.nodes := by
    obtain ⟨t, ht, hut⟩ := List.mem_flatMap.mp hu
    exact List.mem_flatMap.mpr ⟨t, ht, Tree.mem_nodes_of_below (Tree.subtree_mem t u hut w hw)⟩
  have hlt : w.pos < (flatten ts).length :=
    (List.getElem?_eq_some_iff.mp (getElem?_flatten hmem)).1
  have href : w.pos ∈ (flatten ts).refs := by
    rw [refs_flatten]
    exact List.mem_flatMap.mpr ⟨u, hu, List.mem_map_of_mem hw⟩
  rw [UseTable.uses_tally hlt, (nodup_refs_flatten ts).count, if_pos href]

/-- The instruction at a position is that of a node of one of the expressions, numbered. -/
theorem exists_node_flatten {pos : Nat} {i : Instr} (hi : (flatten ts).instrs[pos]? = some i) :
    ∃ s m, s ∈ ts.flatMap Tree.nodes ∧ (s.renumber m).pos = pos ∧
      s.renumber m ∈ (Tree.renumberAll 0 ts).flatMap Tree.nodes ∧
      i = ((s.renumber m).map Empty.elim).instr := by
  rw [instrs_flatten, List.getElem?_map, Option.map_eq_some_iff] at hi
  obtain ⟨u, hu, rfl⟩ := hi
  have hmem := List.mem_of_getElem? hu
  obtain ⟨s, hs, m, rfl⟩ := Tree.mem_nodes_renumberAll ts 0 u hmem
  refine ⟨s, m, hs, ?_, hmem, rfl⟩
  have hpos : (((Tree.renumberAll 0 ts).flatMap Tree.nodes).map Tree.pos)[pos]?
      = some (s.renumber m).pos := by simp [hu]
  rw [positions_flatten, List.getElem?_eq_some_iff] at hpos
  obtain ⟨hlt, heq⟩ := hpos
  rw [← heq, List.getElem_range]

/-- Expressions with the right numbers of operands and results are written as a block that
passes the check. -/
theorem wellFormed_flatten (h : ∀ t ∈ ts, t.Saturated) : (flatten ts).WellFormed := by
  have hsaturated : ∀ s ∈ ts.flatMap Tree.nodes, s.children.length = s.opcode.arity ∧
      ∀ w ∈ s.subtrees, w.opcode.hasResult = true := by
    intro s hs
    obtain ⟨t, ht, hst⟩ := List.mem_flatMap.mp hs
    exact h t ht s hst
  constructor
  · intro pos i hi
    obtain ⟨s, m, hs, -, -, rfl⟩ := exists_node_flatten hi
    simp [Tree.instr, Tree.children_map, Tree.children_renumber, Child.length_renumberAll,
      (hsaturated s hs).1]
  · intro pos i target hi htarget
    obtain ⟨s, m, hs, rfl, hmem, rfl⟩ := exists_node_flatten hi
    -- The reference is to a nested expression, which the node at its position is.
    obtain ⟨w, hw, rfl⟩ := Tree.exists_subtree_of_ref htarget
    refine ⟨Tree.pos_lt_of_subtree hw, (w.map Empty.elim).instr, ?_, ?_⟩
    · obtain ⟨t, ht, hst⟩ := List.mem_flatMap.mp hmem
      exact getElem?_flatten (List.mem_flatMap.mpr
        ⟨t, ht, Tree.mem_nodes_of_below (Tree.subtree_mem t _ hst w hw)⟩)
    · rw [Tree.subtrees, Tree.children_renumber] at hw
      obtain ⟨x, hx, k, rfl⟩ := Child.mem_trees_renumberAll _ _ w hw
      simpa [Tree.instr] using (hsaturated s hs).2 x hx

/-- The plan of expressions written as a block is the expressions themselves. -/
theorem plan_flatten (ts : List (Tree Empty)) :
    (flatten ts).plan (UseTable.tally (flatten ts))
      = (Tree.renumberAll 0 ts).map (Tree.map Empty.elim) := by
  apply plan_unique
  apply Tree.covers_renumberAll
  · rw [length_flatten, Nat.zero_add]
  · intro u hu
    obtain ⟨s, -, m, rfl⟩ := Tree.mem_nodes_renumberAll ts 0 u hu
    have hdec := Child.decided_renumberAll s.children m 0 fun w hw =>
      uses_flatten hu (by rwa [Tree.subtrees, Tree.children_renumber])
    refine ⟨((s.renumber m).map Empty.elim).instr, ?_, ?_, ?_⟩
    · rw [Tree.pos_map]
      exact getElem?_flatten hu
    · simp [Tree.instr]
    · cases s with
      | node p op cs => exact hdec

end Block

/-! ### Lowering -/

mutual

/-- A planned tree without references has nothing that could not be erased. -/
theorem Tree.erase_closed :
    (t : Tree Empty) → (t.map Empty.elim).erase = .ok (t.map Empty.elim)
  | .node pos op cs => by
      rw [Tree.map, Tree.erase, Child.eraseAll_closed pos cs]
      rfl

/-- Children without references pass the check on references as they are. -/
theorem Child.eraseAll_closed (pos : Nat) :
    (cs : List (Child Empty)) →
      Child.eraseAll pos (Child.mapAll Empty.elim cs) = .ok (Child.mapAll Empty.elim cs)
  | [] => rfl
  | .imm _ :: cs => by
      rw [Child.mapAll, Child.eraseAll, Child.eraseAll_closed pos cs]
      rfl
  | .nested t :: cs => by
      rw [Child.mapAll, Child.eraseAll, Child.eraseAll_closed pos cs]
      simp only [Child.map, Child.erase, Tree.erase_closed t]
      rfl

end

/-- Trees without references pass the check on references as they are. -/
theorem Tree.eraseAll_closed (ts : List (Tree Empty)) :
    Tree.eraseAll (ts.map (Tree.map Empty.elim)) = .ok (ts.map (Tree.map Empty.elim)) := by
  induction ts with
  | nil => rfl
  | cons t ts ih =>
      rw [Tree.eraseAll] at ih ⊢
      rw [List.map_cons, List.foldrM_cons, ih]
      exact bind_eq_ok.mpr ⟨_, rfl, bind_eq_ok.mpr ⟨_, Tree.erase_closed t, rfl⟩⟩

namespace EmitContext

mutual

/-- Emitting a tree without references cannot fail, since it assigns no slot. -/
theorem emitTree_closed (ctx : EmitContext) :
    (t : Tree Empty) → ∀ consumer e, ∃ e', ctx.emitTree consumer (t.map Empty.elim) e = .ok e'
  | .node pos _ cs, _, _ => emitChildren_closed ctx pos cs _

/-- Emission of children without references does not fail, since nothing in them asks for a slot. -/
theorem emitChildren_closed (ctx : EmitContext) (pos : Nat) :
    (cs : List (Child Empty)) →
      ∀ e, ∃ e', ctx.emitChildren pos (Child.mapAll Empty.elim cs) e = .ok e'
  | [], e => ⟨e, rfl⟩
  | .imm v :: cs, e => by
      obtain ⟨d, hd⟩ := emitChildren_closed ctx pos cs e
      refine ⟨d.prepend (.push v), ?_⟩
      rw [Child.mapAll, emitChildren, hd]
      rfl
  | .nested t :: cs, e => by
      obtain ⟨d, hd⟩ := emitChildren_closed ctx pos cs e
      obtain ⟨e', he'⟩ := emitTree_closed ctx t (some pos) d
      refine ⟨e', ?_⟩
      rw [Child.mapAll, emitChildren, hd]
      exact he'

end

/-- Emission of trees without references does not fail. -/
theorem emitAll_closed (ctx : EmitContext) (ts : List (Tree Empty)) (e : Emission) :
    ∃ e', ctx.emitAll (ts.map (Tree.map Empty.elim)) e = .ok e' := by
  induction ts with
  | nil => exact ⟨e, rfl⟩
  | cons t ts ih =>
      obtain ⟨d, hd⟩ := ih
      obtain ⟨e', he'⟩ := emitTree_closed ctx t none d
      refine ⟨e', ?_⟩
      rw [List.map_cons, emitAll, List.foldrM_cons]
      rw [emitAll] at hd
      rw [hd]
      exact he'

end EmitContext

/-- No node of a tree without references has a reference leaf. -/
theorem Tree.leaves_closed {t : Tree Empty} {u : Tree κ} (hu : u ∈ (t.map Empty.elim).nodes) :
    u.leaves = [] := by
  rw [Tree.nodes_map] at hu
  obtain ⟨w, -, rfl⟩ := List.mem_map.mp hu
  rw [Tree.leaves_map]
  cases w.leaves with
  | nil => rfl
  | cons r rs => exact r.elim

namespace Block

variable {ts : List (Tree Empty)}

/-- The forest of expressions written as a block is the expressions themselves. -/
theorem forest_flatten (ts : List (Tree Empty)) :
    Forest.ofBlock (flatten ts) (UseTable.tally (flatten ts))
      = .ok ⟨(Tree.numbered ts).toArray⟩ := by
  rw [Forest.ofBlock, UseTable.checkFits_tally, plan_flatten]
  exact bind_eq_ok.mpr ⟨(), rfl, bind_eq_ok.mpr ⟨_, Tree.eraseAll_closed _, rfl⟩⟩

/-- Expressions written as a block are lowered under any options. -/
theorem exists_lower_flatten (h : ∀ t ∈ ts, t.Saturated) (opts : Options) :
    ∃ l, (flatten ts).lower opts = .ok l := by
  obtain ⟨uses, huses⟩ := (flatten ts).exists_ofBlock_iff.mpr (wellFormed_flatten h)
  obtain ⟨-, rfl⟩ := UseTable.ofBlock_ok huses
  obtain ⟨e, he⟩ := EmitContext.emitAll_closed
    { uses := UseTable.tally (flatten ts), fuse := opts.fuse, traced := false }
    (Tree.renumberAll 0 ts) { next := (flatten ts).slotBase opts }
  rw [← plan_flatten] at he
  have hemit : (flatten ts).emit (UseTable.tally (flatten ts)) opts
      = .ok ((flatten ts).codeOf opts e) :=
    emit_eq_ok_iff.mpr ⟨UseTable.size_tally _, e, he, rfl⟩
  refine ⟨⟨UseTable.tally (flatten ts), ⟨(Tree.numbered ts).toArray⟩,
    (flatten ts).codeOf opts e⟩, ?_⟩
  rw [lower]
  exact bind_eq_ok.mpr ⟨_, huses, bind_eq_ok.mpr ⟨_, forest_flatten ts,
    bind_eq_ok.mpr ⟨_, hemit, rfl⟩⟩⟩

/-- The code of expressions written as a block assigns no slot. -/
theorem slot?_flatten {opts : Options} {l : Lowering} (hl : (flatten ts).lower opts = .ok l)
    (a : Nat) : l.code.slot? a = none := by
  refine Option.not_isSome_iff_eq_none.mp fun hsome => ?_
  obtain ⟨t, ht, ha⟩ := (lower_slots hl a).mp hsome
  rw [plan_flatten] at ht
  obtain ⟨p, -, rfl⟩ := List.mem_map.mp ht
  obtain ⟨u, hu, hleaf⟩ := (Tree.mem_kept a _).mp ha
  simp [Tree.leaves_closed hu] at hleaf

/-- Expressions are recovered completely. Take a list of expressions with the right number of
operands at every node and with results wherever an operand needs one, and write it as a block.
The nodes are numbered in running order. The block passes the check, its forest is the list of
expressions, no value is referred to across trees, and under any options it is lowered to code
that has no frame and names no slot. -/
theorem flatten_recovered (ts : List (Tree Empty)) (h : ∀ t ∈ ts, t.Saturated) :
    (Tree.numbered ts).flatMap Tree.postorder = List.range (flatten ts).length ∧
    ∃ uses, UseTable.ofBlock (flatten ts) = .ok uses ∧
      Forest.ofBlock (flatten ts) uses = .ok ⟨(Tree.numbered ts).toArray⟩ ∧
      (∀ t ∈ Tree.numbered ts, t.refs = []) ∧
      ∀ opts, ∃ l, (flatten ts).lower opts = .ok l ∧
        (∀ op ∈ l.code.ops, ∀ s, op ≠ .get s ∧ op ≠ .set s ∧ op ≠ .tee s) ∧
        l.code.frameSize = 0 := by
  obtain ⟨uses, huses⟩ := (flatten ts).exists_ofBlock_iff.mpr (wellFormed_flatten h)
  obtain ⟨-, rfl⟩ := UseTable.ofBlock_ok huses
  refine ⟨?_, _, huses, forest_flatten ts, ?_, ?_⟩
  · rw [length_flatten, ← positions_flatten, List.map_flatMap, Tree.numbered, List.flatMap_map]
    exact List.flatMap_congr fun t _ => Tree.postorder_map _ t
  · intro t ht
    obtain ⟨p, -, rfl⟩ := List.mem_map.mp ht
    refine List.eq_nil_iff_forall_not_mem.mpr fun a ha => ?_
    obtain ⟨u, hu, hleaf⟩ := (Tree.mem_refs _ a).mp ha
    simp [Tree.leaves_closed hu] at hleaf
  · intro opts
    obtain ⟨l, hl⟩ := exists_lower_flatten h opts
    refine ⟨l, hl, ?_, ?_⟩
    · intro op hop s
      -- An operation that names a slot would make it the slot of some value.
      have hno : op.slot? ≠ some s := by
        intro hs
        obtain ⟨saved, hrun, hsaved⟩ := lower_run hl
        obtain ⟨a, ha⟩ := hrun.saved_of_slot hop hs
        have hslot := (hsaved s a).mp ha
        rw [slot?_flatten hl] at hslot
        cases hslot
      refine ⟨?_, ?_, ?_⟩ <;> rintro rfl <;> exact hno rfl
    · by_contra hne
      obtain ⟨a, ha⟩ := (lower_frame hl).2.2 l.code.base ⟨Nat.le_refl _, by omega⟩
      rw [slot?_flatten hl] at ha
      cases ha

/-- Two expressions: a store of a difference, whose left side stands before a right side of two
nodes, and a product that nothing uses. The numbers in them are not looked at. -/
def differenceAndProduct : List (Tree Empty) :=
  [.node 0 .storeLocal [.imm 2, .nested (.node 0 .sub
    [.nested (.node 0 .neg [.nested (.node 0 .loadLocal [.imm 0])]),
      .nested (.node 0 .add [.imm 5, .nested (.node 0 .loadLocal [.imm 1])])])],
    .node 0 .mul [.imm 3, .imm 4]]

/-- The theorem at these expressions, with the numbers that their nodes get. -/
theorem flatten_recovered_difference :
    (∀ t ∈ differenceAndProduct, t.Saturated) ∧
    ∃ uses, UseTable.ofBlock (flatten differenceAndProduct) = .ok uses ∧
      Forest.ofBlock (flatten differenceAndProduct) uses = .ok ⟨#[
        .node 5 .storeLocal [.imm 2, .nested (.node 4 .sub
          [.nested (.node 1 .neg [.nested (.node 0 .loadLocal [.imm 0])]),
            .nested (.node 3 .add [.imm 5, .nested (.node 2 .loadLocal [.imm 1])])])],
        .node 6 .mul [.imm 3, .imm 4]]⟩ ∧
      ∀ opts, ∃ l, (flatten differenceAndProduct).lower opts = .ok l ∧ l.code.frameSize = 0 := by
  have h : ∀ t ∈ differenceAndProduct, t.Saturated := by
    unfold Tree.Saturated
    decide
  obtain ⟨-, uses, huses, hforest, -, hlower⟩ := flatten_recovered differenceAndProduct h
  refine ⟨h, uses, huses, hforest, fun opts => ?_⟩
  obtain ⟨l, hl, -, hframe⟩ := hlower opts
  exact ⟨l, hl, hframe⟩

end Block

end StackForm

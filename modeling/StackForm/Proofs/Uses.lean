import StackForm.Proofs.Emission
import StackForm.Proofs.Plan
import StackForm.Proofs.WellFormed

/-!
# `StackForm.Proofs.Uses`: who uses a value

A block that passes the check is `Block.WellFormed`, and its use table counts, for each
position, the operands that refer to it (`UseTable.uses_tally`). In the plan of such a
block every operand that refers to a value is either a kept leaf or a nested tree, so the
uses of a value split into those two kinds (`Block.count_refs`). Three facts follow, on
which the correctness of the code rests:

* `Block.nested_use`: a value computed in place has one use, the one it is computed for, so
  nothing in the plan keeps it.
* `Block.root_kept`: a root with a use is kept somewhere.
* `Block.kept_before`: what a tree keeps was computed before the tree begins.
-/

set_option autoImplicit false

namespace StackForm

/-! ### Counting -/

/-- Counting references one by one adds, at each position in the table, the number of
references to it. -/
theorem foldl_modify_getElem? (refs : List Nat) (counts : Array Nat) (a : Nat) :
    (refs.foldl (fun counts t => counts.modify t (· + 1)) counts)[a]?
      = counts[a]?.map (· + refs.count a) := by
  induction refs generalizing counts with
  | nil => simp
  | cons r refs ih =>
      rw [List.foldl_cons, ih, Array.getElem?_modify, List.count_cons]
      by_cases hr : r = a
      · subst hr
        rw [if_pos rfl, if_pos (beq_self_eq_true r), Option.map_map]
        congr 1
        funext n
        simp only [Function.comp]
        omega
      · rw [if_neg hr, if_neg (by simpa using hr), Nat.add_zero]

/-- A table counts the references to a position of its block. -/
theorem UseTable.uses_tally {b : Block} {a : Nat} (ha : a < b.length) :
    (UseTable.tally b).uses a = b.refs.count a := by
  rw [UseTable.uses, UseTable.tally, Array.getD_eq_getD_getElem?, foldl_modify_getElem?,
    Array.getElem?_replicate, if_pos ha]
  simp

/-- A table covers the positions of its block. -/
theorem UseTable.size_tally (b : Block) : (UseTable.tally b).size = b.length := by
  have hfold : ∀ (refs : List Nat) (counts : Array Nat),
      (refs.foldl (fun counts t => counts.modify t (· + 1)) counts).size = counts.size := by
    intro refs
    induction refs with
    | nil => exact fun counts => rfl
    | cons r refs ih => exact fun counts => by simp [ih]
  rw [UseTable.size, UseTable.tally, hfold, Array.size_replicate]

/-- The table of a block fits the block. -/
theorem UseTable.checkFits_tally (b : Block) : (UseTable.tally b).checkFits b = .ok () := by
  rw [UseTable.checkFits, if_pos (UseTable.size_tally b)]
  rfl

/-- The position that a child stands for: the one it refers to, or that of its tree. -/
def Child.target? : Child Verdict → Option Nat
  | .imm _ => none
  | .ref v => some v.target
  | .nested t => some t.pos

/-- The children of a planned node stand for the references of its instruction, in
order. -/
theorem Child.Decided.targets {uses : UseTable} {pos k : Nat} {os : List Operand}
    {cs : List (Child Verdict)} (h : Child.Decided uses pos k os cs) :
    cs.filterMap Child.target? = os.filterMap Operand.target? := by
  induction h with
  | nil k => rfl
  | imm v rest ih => exact ih
  | ref rest verdict ih =>
      have htarget := (Child.target_of_verdict? verdict).1
      simp only [List.filterMap_cons, Child.target?, Operand.target?, ih, htarget]
  | nested rest folds ih => simp only [List.filterMap_cons, Child.target?, Operand.target?, ih]

/-- The results that some children use are those that they refer to and those that are nested in
them. -/
theorem Child.count_targets (a : Nat) (cs : List (Child Verdict)) :
    (cs.filterMap Child.target?).count a
      = ((cs.filterMap Child.leaf?).map Verdict.target).count a
        + ((cs.filterMap Child.tree?).map Tree.pos).count a := by
  induction cs with
  | nil => rfl
  | cons c cs ih =>
      cases c with
      | imm v => exact ih
      | ref v =>
          simp only [List.filterMap_cons, Child.target?, Child.leaf?, Child.tree?, List.map_cons,
            List.count_cons, ih]
          omega
      | nested t =>
          simp only [List.filterMap_cons, Child.target?, Child.leaf?, Child.tree?, List.map_cons,
            List.count_cons, ih]
          omega

/-- The references that a plan keeps, one for each leaf. -/
def Block.keptRefs (b : Block) (uses : UseTable) : List Nat :=
  ((b.plan uses).flatMap Tree.nodes).flatMap fun u => u.leaves.map Verdict.target

/-- The references for which a plan has a nested tree. -/
def Block.nestedRefs (b : Block) (uses : UseTable) : List Nat :=
  ((b.plan uses).flatMap Tree.nodes).flatMap fun u => u.subtrees.map Tree.pos

/-- The references of a block to a position, split by what the plan makes of them. -/
theorem Block.count_refs (b : Block) (uses : UseTable) (a : Nat) :
    b.refs.count a = (b.keptRefs uses).count a + (b.nestedRefs uses).count a := by
  have hrefs : b.refs
      = ((b.plan uses).flatMap Tree.nodes).flatMap fun u => u.children.filterMap Child.target? := by
    rw [Block.refs, List.flatMap_def, List.flatMap_def,
      b.map_plan_nodes uses (fun u => u.children.filterMap Child.target?) Instr.refs
        fun u i _ hdec => hdec.targets]
  -- The rest is about any list of nodes: the uses split in each node alike.
  rw [hrefs, Block.keptRefs, Block.nestedRefs]
  generalize (b.plan uses).flatMap Tree.nodes = nodes
  induction nodes with
  | nil => rfl
  | cons u nodes ih =>
      rw [List.flatMap_cons, List.flatMap_cons, List.flatMap_cons, List.count_append,
        List.count_append, List.count_append, ih, Child.count_targets]
      simp only [Tree.leaves, Tree.subtrees]
      omega

/-- A value is kept if and only if some root of the plan keeps it. -/
theorem Block.mem_keptRefs {b : Block} {uses : UseTable} {a : Nat} :
    a ∈ b.keptRefs uses ↔ ∃ t ∈ b.plan uses, a ∈ t.kept := by
  rw [Block.keptRefs, List.mem_flatMap]
  constructor
  · rintro ⟨w, hw, hleaf⟩
    obtain ⟨t, ht, hwt⟩ := List.mem_flatMap.mp hw
    exact ⟨t, ht, (Tree.mem_kept a t).mpr ⟨w, hwt, hleaf⟩⟩
  · rintro ⟨t, ht, ha⟩
    obtain ⟨w, hw, hleaf⟩ := (Tree.mem_kept a t).mp ha
    exact ⟨w, List.mem_flatMap.mpr ⟨t, ht, hw⟩, hleaf⟩

/-- What has a nested tree for it is a position below the root of some tree. -/
theorem Block.mem_nestedRefs {b : Block} {uses : UseTable} {a : Nat} :
    a ∈ b.nestedRefs uses ↔
      ∃ t ∈ b.plan uses, a ∈ (Child.nodesOf t.children).map Tree.pos := by
  rw [Block.nestedRefs, List.mem_flatMap]
  constructor
  · rintro ⟨w, hw, hsub⟩
    obtain ⟨t, ht, hwt⟩ := List.mem_flatMap.mp hw
    obtain ⟨u, hu, rfl⟩ := List.mem_map.mp hsub
    exact ⟨t, ht, List.mem_map_of_mem (Tree.subtree_mem t w hwt u hu)⟩
  · rintro ⟨t, ht, ha⟩
    obtain ⟨u, hu, rfl⟩ := List.mem_map.mp ha
    obtain ⟨w, hw, hsub⟩ := Tree.exists_parent t u hu
    exact ⟨w, List.mem_flatMap.mpr ⟨t, ht, hw⟩, List.mem_map_of_mem hsub⟩

/-! ### The plan of a well-formed block -/

/-- A nested tree stands for a reference of its consumer to a value without other uses. -/
theorem Child.Decided.nested_rule {uses : UseTable} {pos k : Nat} {os : List Operand}
    {cs : List (Child Verdict)} (h : Child.Decided uses pos k os cs) {t : Tree Verdict}
    (ht : t ∈ cs.filterMap Child.tree?) : uses.uses t.pos = 1 ∧ .ref t.pos ∈ os := by
  induction h with
  | nil k => simp at ht
  | imm v rest ih => exact (ih ht).imp_right (List.mem_cons_of_mem _)
  | ref rest verdict ih => exact (ih ht).imp_right (List.mem_cons_of_mem _)
  | @nested k os cs u rest folds ih =>
      rcases List.mem_cons.mp ht with rfl | ht
      · have hrule := (Child.verdict?_eq_none_iff uses pos cs k t.pos).mp folds
        exact ⟨hrule.2.2.1, List.mem_cons_self ..⟩
      · exact (ih ht).imp_right (List.mem_cons_of_mem _)

/-- A kept leaf stands for a reference of its consumer. -/
theorem Child.Decided.leaf_rule {uses : UseTable} {pos k : Nat} {os : List Operand}
    {cs : List (Child Verdict)} (h : Child.Decided uses pos k os cs) {a : Nat}
    (ha : a ∈ (cs.filterMap Child.leaf?).map Verdict.target) : .ref a ∈ os := by
  induction h with
  | nil k => simp at ha
  | imm v rest ih => exact List.mem_cons_of_mem _ (ih ha)
  | ref rest verdict ih =>
      rcases List.mem_cons.mp ha with rfl | ha
      · rw [(Child.target_of_verdict? verdict).1]
        exact List.mem_cons_self ..
      · exact List.mem_cons_of_mem _ (ih ha)
  | nested rest folds ih => exact List.mem_cons_of_mem _ (ih ha)

namespace Block

variable {b : Block}

/-- Every node of a root of the plan is planned. -/
theorem planned_of_mem {uses : UseTable} {t u : Tree Verdict} (ht : t ∈ b.plan uses)
    (hu : u ∈ t.nodes) : u.Planned b uses :=
  (b.plan_covers uses).planned u (List.mem_flatMap.mpr ⟨t, ht, hu⟩)

/-- A value that is computed in place has a result and one use, the one it is computed for.
No tree of the plan keeps it. -/
theorem nested_use (hwf : b.WellFormed) {t u : Tree Verdict}
    (ht : t ∈ b.plan (UseTable.tally b)) (hu : u ∈ Child.nodesOf t.children) :
    u.opcode.hasResult = true ∧ (UseTable.tally b).uses u.pos = 1 ∧
      ∀ t' ∈ b.plan (UseTable.tally b), u.pos ∉ t'.kept := by
  obtain ⟨w, hw, hsub⟩ := Tree.exists_parent t u hu
  obtain ⟨i, hi, -, hdec⟩ := planned_of_mem ht hw
  obtain ⟨huses, href⟩ := hdec.nested_rule hsub
  obtain ⟨j, hj, hop, -⟩ := planned_of_mem ht (Tree.mem_nodes_of_below hu)
  obtain ⟨-, j', hj', hres⟩ := hwf.refs w.pos i u.pos hi href
  rw [hj] at hj'
  cases hj'
  refine ⟨by rw [hop]; exact hres, huses, ?_⟩
  -- Its one reference is the nested tree, so no kept leaf is left for it.
  have hcount := b.count_refs (UseTable.tally b) u.pos
  rw [← UseTable.uses_tally (List.getElem?_eq_some_iff.mp hj).1, huses] at hcount
  have hnested : 0 < (b.nestedRefs (UseTable.tally b)).count u.pos :=
    List.count_pos_iff.mpr (mem_nestedRefs.mpr ⟨t, ht, List.mem_map_of_mem hu⟩)
  intro t' ht' hkept
  have hkeep : 0 < (b.keptRefs (UseTable.tally b)).count u.pos :=
    List.count_pos_iff.mpr (mem_keptRefs.mpr ⟨t', ht', hkept⟩)
  omega

/-- A root with a use is kept by some tree: nothing is nested at its position, because the
trees of a plan do not overlap. -/
theorem root_kept {t : Tree Verdict} (ht : t ∈ b.plan (UseTable.tally b))
    (huses : (UseTable.tally b).uses t.pos ≠ 0) :
    ∃ t' ∈ b.plan (UseTable.tally b), t.pos ∈ t'.kept := by
  have hcovers := b.plan_covers (UseTable.tally b)
  obtain ⟨i, hi, -, -⟩ := planned_of_mem ht (Tree.self_mem_nodes t)
  have hcount := b.count_refs (UseTable.tally b) t.pos
  rw [← UseTable.uses_tally (List.getElem?_eq_some_iff.mp hi).1] at hcount
  -- A tree nested at this position would lie inside another tree of the plan.
  have hnested : (b.nestedRefs (UseTable.tally b)).count t.pos = 0 := by
    rw [List.count_eq_zero]
    intro hmem
    obtain ⟨t', ht', hpos⟩ := mem_nestedRefs.mp hmem
    rw [hcovers.below_root ht', List.mem_range'_1] at hpos
    have hlow := (hcovers.stretch t ht).1
    rcases hcovers.separate ht ht' with rfl | hsep | hsep <;> omega
  have hkept : 0 < (b.keptRefs (UseTable.tally b)).count t.pos := by omega
  exact mem_keptRefs.mp (List.count_pos_iff.mp hkept)

/-- What a tree keeps is the result of an instruction. -/
theorem kept_hasResult (hwf : b.WellFormed) {uses : UseTable} {t : Tree Verdict}
    (ht : t ∈ b.plan uses) {a : Nat} (ha : a ∈ t.kept) :
    ∃ j : Instr, b.instrs[a]? = some j ∧ j.opcode.hasResult = true := by
  obtain ⟨u, hu, hleaf⟩ := (Tree.mem_kept a t).mp ha
  obtain ⟨i, hi, -, hdec⟩ := planned_of_mem ht hu
  exact (hwf.refs u.pos i a hi (hdec.leaf_rule hleaf)).2

/-- What a tree keeps was computed before the tree begins. It is referred to, so it stands
before the root, and the positions from there down to the lowest one hold values computed
in place. -/
theorem kept_before (hwf : b.WellFormed) {t : Tree Verdict}
    (ht : t ∈ b.plan (UseTable.tally b)) {a : Nat} (ha : a ∈ t.kept) : a < t.low := by
  have hcovers := b.plan_covers (UseTable.tally b)
  obtain ⟨u, hu, hleaf⟩ := (Tree.mem_kept a t).mp ha
  obtain ⟨i, hi, -, hdec⟩ := planned_of_mem ht hu
  have hlt := (hwf.refs u.pos i a hi (hdec.leaf_rule hleaf)).1
  have hupos : u.pos ∈ t.postorder := List.mem_map_of_mem hu
  rw [(hcovers.stretch t ht).2, List.mem_range'_1] at hupos
  -- From the lowest position up to the root all values are computed in place.
  refine Nat.lt_of_not_le fun hle => ?_
  have hbelow : a ∈ (Child.nodesOf t.children).map Tree.pos := by
    rw [hcovers.below_root ht, List.mem_range'_1]
    omega
  obtain ⟨s, hs, rfl⟩ := List.mem_map.mp hbelow
  exact (nested_use hwf ht hs).2.2 t ht ha

end Block

end StackForm

import StackForm.Proofs.Plan

/-!
# `StackForm.Proofs.FoldingRule`: which operands a forest computes in place

The sweep of `StackForm.Folding` decides with one cursor for the whole block and a note in
each waiting consumer. Neither is left in the forest that comes out. `Tree.Folds` is the
rule without them: it looks at one node of a finished tree and at what stands to the right
of one operand there. `Forest.folding_rule` says that the forest of every block and use
table obeys it at every node, at any depth.

`Block.plan_covers` has done most of this already. It leaves each decision to
`Child.verdict?`, which takes the lowest position on the right to be that of the leftmost
tree there. What is added here is that this position is the smallest of all
(`Child.low_eq_min`), and that the rule can be read off the forest, where the reasons are
gone.
-/

set_option autoImplicit false

namespace StackForm

variable {κ μ : Type}

/-! ### The rule at a node -/

/-- The smallest position among a consumer and all instructions in the trees to the right
of its operand number `j`. -/
def Tree.lowRightOf (c : Tree κ) (j : Nat) : Nat :=
  ((Child.nodesOf (c.children.drop (j + 1))).map Tree.pos).foldr min c.pos

/-- Operand number `j` of a consumer, a reference to `target`, is computed in place: no
reference to its right is read from a slot, the value has no other use, and its position is
right below everything to its right. -/
def Tree.Folds (uses : UseTable) (c : Tree κ) (j target : Nat) : Prop :=
  (∀ child ∈ c.children.drop (j + 1), child.isRef = false) ∧
    uses.uses target = 1 ∧ target + 1 = c.lowRightOf j

/-- Changing references leaves references what they are. -/
theorem Child.isRef_map (f : κ → μ) (c : Child κ) : (c.map f).isRef = c.isRef := by
  cases c <;> rfl

/-- The smallest position to the right of an operand does not depend on the references. -/
theorem Tree.lowRightOf_map (f : κ → μ) (c : Tree κ) (j : Nat) :
    (c.map f).lowRightOf j = c.lowRightOf j := by
  rw [Tree.lowRightOf, Tree.children_map, ← List.map_drop, ← Child.mapAll_eq_map,
    Child.nodesOf_mapAll, List.map_map, Tree.pos_map, Tree.lowRightOf]
  congr 1
  exact List.map_congr_left fun u _ => Tree.pos_map f u

/-- The rule does not look at what reference leaves carry. -/
theorem Tree.folds_map (f : κ → μ) (uses : UseTable) (c : Tree κ) (j target : Nat) :
    (c.map f).Folds uses j target ↔ c.Folds uses j target := by
  simp only [Tree.Folds, Tree.lowRightOf_map, Tree.children_map, ← List.map_drop,
    List.forall_mem_map, Child.isRef_map]

/-! ### Decided operands -/

namespace Child.Decided

variable {uses : UseTable} {pos k : Nat} {os : List Operand} {cs : List (Child Verdict)}

/-- There is one child for every operand. -/
theorem length_eq (h : Child.Decided uses pos k os cs) : cs.length = os.length := by
  induction h with
  | nil k => rfl
  | imm v rest ih => simp [ih]
  | ref rest verdict ih => simp [ih]
  | nested rest folds ih => simp [ih]

/-- The decisions about the operands from number `j` on depend on those operands only. -/
theorem drop (h : Child.Decided uses pos k os cs) (j : Nat) :
    Child.Decided uses pos (k + j) (os.drop j) (cs.drop j) := by
  induction h generalizing j with
  | nil k =>
      rw [List.drop_nil, List.drop_nil]
      exact .nil _
  | @imm k os cs v rest ih =>
      cases j with
      | zero => exact .imm v rest
      | succ j =>
          have hrest := ih j
          rw [Nat.add_assoc, Nat.add_comm 1 j] at hrest
          exact hrest
  | @ref k os cs target v rest verdict ih =>
      cases j with
      | zero => exact .ref rest verdict
      | succ j =>
          have hrest := ih j
          rw [Nat.add_assoc, Nat.add_comm 1 j] at hrest
          exact hrest
  | @nested k os cs t rest folds ih =>
      cases j with
      | zero => exact .nested rest folds
      | succ j =>
          have hrest := ih j
          rw [Nat.add_assoc, Nat.add_comm 1 j] at hrest
          exact hrest

end Child.Decided

/-- The smallest element of consecutive numbers is the first. -/
theorem foldr_min_range' (a s n : Nat) : (List.range' s (n + 1)).foldr min a = min s a := by
  induction n generalizing s with
  | zero => rfl
  | succ n ih =>
      rw [List.range'_succ, List.foldr_cons, ih]
      omega

/-- The place where the leftmost tree among decided operands begins is the smallest position
among these operands and their consumer: in running order the positions are consecutive. -/
theorem Child.low_eq_min {b : Block} {uses : UseTable} {pos k : Nat} {os : List Operand}
    {cs : List (Child Verdict)} (hdec : Child.Decided uses pos k os cs)
    (hnodes : ∀ u ∈ Child.nodesOf cs, u.Planned b uses) :
    Child.low pos cs = ((Child.nodesOf cs).map Tree.pos).foldr min pos := by
  obtain ⟨hle, horder⟩ := Child.postorder_decided cs hdec hnodes
  -- Counting the consumer in once more changes nothing.
  have hself : ((Child.nodesOf cs).map Tree.pos).foldr min pos
      = ((Child.nodesOf cs).map Tree.pos ++ [pos]).foldr min pos := by
    rw [List.foldr_append]
    simp
  have hsucc : pos + 1 - Child.low pos cs = (pos - Child.low pos cs) + 1 := by omega
  rw [hself, horder, hsucc, foldr_min_range']
  omega

/-- A reference among the operands of a planned node is computed in place if the rule says so,
and is a leaf otherwise. -/
theorem Tree.Planned.child {b : Block} {uses : UseTable} {c : Tree Verdict}
    (hbelow : ∀ u ∈ Child.nodesOf c.children, u.Planned b uses) {os : List Operand}
    (hdec : Child.Decided uses c.pos 0 os c.children) {j target : Nat}
    (hj : os[j]? = some (.ref target)) :
    (c.Folds uses j target ∧ ∃ u, c.children[j]? = some (.nested u) ∧ u.pos = target) ∨
    (¬ c.Folds uses j target ∧ ∃ v, c.children[j]? = some (.ref v) ∧ v.target = target) := by
  obtain ⟨hlt, hget⟩ := List.getElem?_eq_some_iff.mp hj
  have hlen := hdec.length_eq
  have hhere := hdec.drop j
  have hright := hdec.drop (j + 1)
  rw [List.drop_eq_getElem_cons hlt, hget,
    List.drop_eq_getElem_cons (by omega : j < c.children.length)] at hhere
  -- The trees to the right are among those below the node.
  have hnodes : ∀ u ∈ Child.nodesOf (c.children.drop (j + 1)), u.Planned b uses := by
    intro u hu
    refine hbelow u ?_
    rw [Child.nodesOf_eq_flatMap, List.mem_flatMap] at hu ⊢
    obtain ⟨w, hw, hmem⟩ := hu
    exact ⟨w, (List.drop_sublist (j + 1) c.children).filterMap _ |>.subset hw, hmem⟩
  have hlow : c.lowRightOf j = Child.low c.pos (c.children.drop (j + 1)) :=
    (Child.low_eq_min hright hnodes).symm
  have hbound := (Child.postorder_decided _ hright hnodes).1
  -- The rule of the sweep has one more test, which the last one implies.
  have hrule : c.Folds uses j target ↔
      Child.verdict? uses c.pos (c.children.drop (j + 1)) (0 + j) target = none := by
    rw [Child.verdict?_eq_none_iff, Tree.Folds, hlow]
    constructor
    · rintro ⟨hstop, huses, hadj⟩
      refine ⟨by omega, ?_, huses, hadj⟩
      rw [List.any_eq_false]
      intro child hchild
      simp [hstop child hchild]
    · rintro ⟨-, hstop, huses, hadj⟩
      refine ⟨?_, huses, hadj⟩
      intro child hchild
      have hno := List.any_eq_false.mp hstop child hchild
      simpa using hno
  have hat : c.children[j]? = some c.children[j] := List.getElem?_eq_getElem (by omega)
  generalize c.children[j] = child at hhere hat
  cases hhere with
  | ref rest verdict =>
      refine Or.inr ⟨?_, _, hat, (Child.target_of_verdict? verdict).1⟩
      rw [hrule, verdict]
      simp
  | nested rest folds => exact Or.inl ⟨hrule.mpr folds, _, hat, rfl⟩

/-! ### Forests -/

/-- The folding rule. In the forest of any block under any use table, every node stands for
the instruction at its position, with a child for each operand. The child in the place of a
reference is the tree of the value referred to if the rule folds it, and only then. Otherwise
it is a reference to that value. -/
theorem Forest.folding_rule {b : Block} {uses : UseTable} {f : Forest}
    (h : Forest.ofBlock b uses = .ok f) :
    ∀ c ∈ f.roots.toList.flatMap Tree.nodes, ∃ i, b.instrs[c.pos]? = some i ∧
      c.children.length = i.operands.length ∧
      ∀ j target, i.operands[j]? = some (.ref target) →
        ((∃ u, c.children[j]? = some (.nested u) ∧ u.pos = target) ↔ c.Folds uses j target) ∧
        (¬ c.Folds uses j target → c.children[j]? = some (.ref target)) := by
  intro c hc
  obtain ⟨t, ht, hct⟩ := List.mem_flatMap.mp hc
  rw [(Forest.ofBlock_ok h).2] at ht
  obtain ⟨p, hp, rfl⟩ := List.mem_map.mp ht
  rw [Tree.nodes_map] at hct
  obtain ⟨q, hq, rfl⟩ := List.mem_map.mp hct
  have hplanned : ∀ u ∈ p.nodes, u.Planned b uses := fun u hu =>
    (b.plan_covers uses).planned u (List.mem_flatMap.mpr ⟨p, hp, hu⟩)
  obtain ⟨i, hi, -, hdec⟩ := hplanned q hq
  have hbelow : ∀ u ∈ Child.nodesOf q.children, u.Planned b uses := fun u hu =>
    hplanned u (Tree.nodes_trans p q hq u (Tree.mem_nodes_of_below hu))
  refine ⟨i, by rw [Tree.pos_map]; exact hi, ?_, ?_⟩
  · rw [Tree.children_map, List.length_map]
    exact hdec.length_eq
  · intro j target hj
    rw [Tree.folds_map, Tree.children_map, List.getElem?_map]
    rcases Tree.Planned.child hbelow hdec hj with ⟨hfolds, u, hu, rfl⟩ | ⟨hkept, v, hv, rfl⟩
    · refine ⟨⟨fun _ => hfolds, fun _ => ⟨u.map Verdict.target, ?_, Tree.pos_map _ u⟩⟩, ?_⟩
      · rw [hu]
        rfl
      · intro hno
        exact absurd hfolds hno
    · refine ⟨⟨?_, fun hfolds => absurd hfolds hkept⟩, ?_⟩
      · rintro ⟨u, hu, -⟩
        rw [hv] at hu
        cases hu
      · intro _
        rw [hv]
        rfl

/-- A block whose third instruction refers to a value used once, right below it, and then to
a value used twice. -/
def Block.stopping : Block :=
  ⟨[⟨.loadLocal, [.imm 0]⟩, ⟨.neg, [.imm 5]⟩, ⟨.sub, [.ref 1, .ref 0]⟩,
    ⟨.storeLocal, [.imm 2, .ref 2]⟩, ⟨.storeLocal, [.imm 3, .ref 0]⟩]⟩

/-- The theorem at that block. The difference is nested in the store after it. In it the left
operand is a reference: its value has one use and stands right below, but the operand to its
right is read from a slot. -/
theorem Forest.folding_rule_stopping :
    let uses : UseTable := ⟨#[2, 1, 1, 0, 0]⟩
    ∃ f, Forest.ofBlock .stopping uses = .ok f ∧
      ∃ c ∈ f.roots.toList.flatMap Tree.nodes, ∃ d ∈ f.roots.toList.flatMap Tree.nodes,
        (c.pos = 2 ∧ ¬ c.Folds uses 0 1 ∧ c.children[0]? = some (.ref 1)) ∧
        d.pos = 3 ∧ d.Folds uses 1 2 ∧ ∃ u, d.children[1]? = some (.nested u) ∧ u.pos = 2 := by
  intro uses
  let c : Tree Nat := .node 2 .sub [.ref 1, .ref 0]
  let d : Tree Nat := .node 3 .storeLocal [.imm 2, .nested c]
  obtain ⟨f, hf, hnodes⟩ : ∃ f, Forest.ofBlock .stopping uses = .ok f ∧
      f.roots.toList.flatMap Tree.nodes = [.node 0 .loadLocal [.imm 0], .node 1 .neg [.imm 5],
        c, d, .node 4 .storeLocal [.imm 3, .ref 0]] := ⟨_, rfl, rfl⟩
  have hc : c ∈ f.roots.toList.flatMap Tree.nodes := by simp [hnodes]
  have hd : d ∈ f.roots.toList.flatMap Tree.nodes := by simp [hnodes]
  obtain ⟨i, hi, -, hrule⟩ := Forest.folding_rule hf c hc
  obtain ⟨i', hi', -, hrule'⟩ := Forest.folding_rule hf d hd
  cases hi
  cases hi'
  have hstop : ¬ c.Folds uses 0 1 := by
    rintro ⟨hright, -⟩
    exact Bool.noConfusion (hright (.ref 0) (List.mem_cons_self ..))
  have hfolds : d.Folds uses 1 2 := ⟨by simp [d, Tree.children], rfl, rfl⟩
  exact ⟨f, hf, c, hc, d, hd, ⟨rfl, hstop, (hrule 0 1 rfl).2 hstop⟩, rfl, hfolds,
    (hrule' 1 2 rfl).1.mpr hfolds⟩

end StackForm

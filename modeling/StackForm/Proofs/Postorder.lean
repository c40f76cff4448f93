import StackForm.Forest

/-!
# `StackForm.Proofs.Postorder`: the instructions of a tree in running order

`Tree.nodes` lists a tree's nodes in the order in which their instructions run: the
operands left to right, each with everything below it, and then the node itself. The
traversals of `StackForm.Tree` serve a work list instead of following the tree, and
this module ties them to that list:

* `Tree.preorderOf_perm`: a visit in preorder meets the same positions, in another
  order.
* `Tree.mem_properSubtrees`: the proper subtrees are the nodes below the root.

The trees of a forest are the trees of a plan with the reasons left out.
`Tree.erase_eq` says this as an equation: a tree that can be erased at all is erased to
its image under `Tree.map`, which only touches the reference leaves. Positions, opcodes
and running order are therefore those of the plan.
-/

set_option autoImplicit false

namespace StackForm

variable {κ μ : Type}

/-! ### The nodes of a tree -/

mutual

/-- The nodes of a tree, operands left to right before their consumer. -/
def Tree.nodes : Tree κ → List (Tree κ)
  | .node pos op cs => Child.nodesOf cs ++ [.node pos op cs]

/-- The nodes in an operand's place. -/
def Child.nodes : Child κ → List (Tree κ)
  | .imm _ => []
  | .ref _ => []
  | .nested t => t.nodes

/-- The nodes in the places of a list of operands. -/
def Child.nodesOf : List (Child κ) → List (Tree κ)
  | [] => []
  | c :: cs => c.nodes ++ Child.nodesOf cs

end

/-- The positions of a tree's instructions in the order in which they run. -/
def Tree.postorder (t : Tree κ) : List Nat := t.nodes.map Tree.pos

/-- Only nested trees have nodes, so a list of operands has those of its trees. -/
theorem Child.nodesOf_eq_flatMap (cs : List (Child κ)) :
    Child.nodesOf cs = (cs.filterMap Child.tree?).flatMap Tree.nodes := by
  induction cs with
  | nil => rfl
  | cons c cs ih =>
      cases c with
      | imm v => simp [Child.nodesOf, Child.nodes, List.filterMap_cons, Child.tree?, ih]
      | ref r => simp [Child.nodesOf, Child.nodes, List.filterMap_cons, Child.tree?, ih]
      | nested t => simp [Child.nodesOf, Child.nodes, Child.tree?, ih]

/-- The nodes below the root, and then the root. -/
theorem Tree.nodes_eq (t : Tree κ) : t.nodes = t.subtrees.flatMap Tree.nodes ++ [t] := by
  cases t with
  | node pos op cs =>
      rw [Tree.nodes, Child.nodesOf_eq_flatMap]
      rfl

/-- A tree is among its own nodes. -/
theorem Tree.self_mem_nodes (t : Tree κ) : t ∈ t.nodes := by
  rw [Tree.nodes_eq]
  simp

/-- The nodes below a tree are among its nodes. -/
theorem Tree.mem_nodes_of_below {t u : Tree κ} (h : u ∈ Child.nodesOf t.children) :
    u ∈ t.nodes := by
  cases t with
  | node pos op cs => exact List.mem_append_left _ h

mutual

/-- A node below the root is nested directly in some node. -/
theorem Tree.exists_parent :
    (t : Tree κ) → ∀ u ∈ Child.nodesOf t.children, ∃ w ∈ t.nodes, u ∈ w.subtrees
  | .node pos op cs, u, hu => by
      rcases Child.exists_parent cs u hu with hsub | ⟨w, hw, hsub⟩
      · exact ⟨.node pos op cs, Tree.self_mem_nodes _, hsub⟩
      · exact ⟨w, Tree.mem_nodes_of_below hw, hsub⟩

/-- A node among some children is one of them, or is nested in a node among them. -/
theorem Child.exists_parent :
    (cs : List (Child κ)) → ∀ u ∈ Child.nodesOf cs,
      u ∈ cs.filterMap Child.tree? ∨ ∃ w ∈ Child.nodesOf cs, u ∈ w.subtrees
  | .imm _ :: cs, u, hu => Child.exists_parent cs u hu
  | .ref _ :: cs, u, hu => Child.exists_parent cs u hu
  | .nested t :: cs, u, hu => by
      rcases List.mem_append.mp hu with hut | hucs
      -- The root of `t` is nested here, and all else in `t` has its parent in `t`.
      · have hself : u ∈ Child.nodesOf t.children ∨ u = t := by
          cases t with
          | node pos op ds => simpa [Child.nodes, Tree.nodes, Tree.children] using hut
        rcases hself with hbelow | rfl
        · obtain ⟨w, hw, hsub⟩ := Tree.exists_parent t u hbelow
          exact Or.inr ⟨w, List.mem_append_left _ hw, hsub⟩
        · exact Or.inl (List.mem_cons_self ..)
      · rcases Child.exists_parent cs u hucs with hsub | ⟨w, hw, hsub⟩
        · exact Or.inl (List.mem_cons_of_mem _ hsub)
        · exact Or.inr ⟨w, List.mem_append_right _ hw, hsub⟩

end

mutual

/-- What is nested in a node of a tree stands below the tree's root. -/
theorem Tree.subtree_mem :
    (t : Tree κ) → ∀ w ∈ t.nodes, ∀ u ∈ w.subtrees, u ∈ Child.nodesOf t.children
  | .node pos op cs, w, hw, u, hu => by
      rw [Tree.nodes, List.mem_append, List.mem_singleton] at hw
      rcases hw with hw | rfl
      · exact Child.subtree_mem cs w hw u hu
      · rw [Tree.children, Child.nodesOf_eq_flatMap]
        exact List.mem_flatMap.mpr ⟨u, hu, Tree.self_mem_nodes u⟩

/-- What is nested in a node among some children is among them. -/
theorem Child.subtree_mem :
    (cs : List (Child κ)) → ∀ w ∈ Child.nodesOf cs, ∀ u ∈ w.subtrees, u ∈ Child.nodesOf cs
  | .imm _ :: cs, w, hw, u, hu => Child.subtree_mem cs w hw u hu
  | .ref _ :: cs, w, hw, u, hu => Child.subtree_mem cs w hw u hu
  | .nested t :: cs, w, hw, u, hu => by
      rcases List.mem_append.mp hw with hwt | hwcs
      · have hbelow := Tree.subtree_mem t w hwt u hu
        exact List.mem_append_left _ (Tree.mem_nodes_of_below hbelow)
      · exact List.mem_append_right _ (Child.subtree_mem cs w hwcs u hu)

end

mutual

/-- The nodes of a node of a tree are nodes of the tree. -/
theorem Tree.nodes_trans :
    (t : Tree κ) → ∀ w ∈ t.nodes, ∀ u ∈ w.nodes, u ∈ t.nodes
  | .node pos op cs, w, hw, u, hu => by
      rw [Tree.nodes, List.mem_append, List.mem_singleton] at hw
      rcases hw with hw | rfl
      · exact Tree.mem_nodes_of_below (Child.nodes_trans cs w hw u hu)
      · exact hu

/-- The nodes of a node among some children are among them. -/
theorem Child.nodes_trans :
    (cs : List (Child κ)) → ∀ w ∈ Child.nodesOf cs, ∀ u ∈ w.nodes, u ∈ Child.nodesOf cs
  | .imm _ :: cs, w, hw, u, hu => Child.nodes_trans cs w hw u hu
  | .ref _ :: cs, w, hw, u, hu => Child.nodes_trans cs w hw u hu
  | .nested t :: cs, w, hw, u, hu => by
      rcases List.mem_append.mp hw with hwt | hwcs
      · exact List.mem_append_left _ (Tree.nodes_trans t w hwt u hu)
      · exact List.mem_append_right _ (Child.nodes_trans cs w hwcs u hu)

end

/-! ### The work lists of the traversals -/

/-- A preorder visit of a work list meets the positions of all its trees, each as often
as it occurs there. Induction along the visit: taking a tree off the work list replaces
it by its subtrees, which are all its nodes but the root. -/
theorem Tree.preorderOf_perm (work : List (Tree κ)) :
    (Tree.preorderOf work).Perm ((work.flatMap Tree.nodes).map Tree.pos) := by
  induction work using Tree.preorderOf.induct with
  | case1 => simp [Tree.preorderOf]
  | case2 t work ih =>
      rw [Tree.preorderOf, List.flatMap_cons, Tree.nodes_eq t]
      simp only [List.flatMap_append, List.map_append, List.map_cons,
        List.append_assoc, List.cons_append, List.nil_append] at ih ⊢
      -- The visit has the root first and the nodes have it last.
      exact (ih.cons t.pos).trans List.perm_middle.symm

/-- What a work list served right to left visits: the nodes of its trees. -/
theorem Tree.mem_properSubtreesOf (work : List (Tree κ)) (u : Tree κ) :
    u ∈ Tree.properSubtreesOf work ↔ u ∈ work.flatMap Tree.nodes := by
  induction work using Tree.properSubtreesOf.induct with
  | case1 => simp [Tree.properSubtreesOf]
  | case2 t work ih =>
      rw [Tree.properSubtreesOf, List.flatMap_cons, Tree.nodes_eq t, List.mem_cons, ih]
      simp only [List.flatMap_append, List.mem_append, List.mem_flatMap, List.mem_reverse,
        List.mem_singleton]
      constructor
      · rintro (rfl | hsub | hwork)
        · exact Or.inl (Or.inr rfl)
        · exact Or.inl (Or.inl hsub)
        · exact Or.inr hwork
      · rintro ((hsub | rfl) | hwork)
        · exact Or.inr (Or.inl hsub)
        · exact Or.inl rfl
        · exact Or.inr (Or.inr hwork)

/-- The proper subtrees are the nodes below the root. -/
theorem Tree.mem_properSubtrees (t u : Tree κ) :
    u ∈ t.properSubtrees ↔ u ∈ Child.nodesOf t.children := by
  rw [Tree.properSubtrees, Tree.mem_properSubtreesOf, Child.nodesOf_eq_flatMap]
  simp [Tree.subtrees]

/-- A position referred to anywhere in a tree is a leaf of one of its nodes. -/
theorem Tree.mem_refs (t : Tree κ) (r : κ) : r ∈ t.refs ↔ ∃ u ∈ t.nodes, r ∈ u.leaves := by
  have hnodes : ∀ u, u ∈ t :: t.properSubtrees ↔ u ∈ t.nodes := by
    intro u
    cases t with
    | node pos op cs =>
        rw [List.mem_cons, Tree.mem_properSubtrees, Tree.nodes, List.mem_append,
          List.mem_singleton, or_comm]
        rfl
  simp only [Tree.refs, List.mem_flatMap, hnodes]

/-! ### Trees without their reasons -/

mutual

/-- The same tree with other things at its reference leaves. -/
def Tree.map (f : κ → μ) : Tree κ → Tree μ
  | .node pos op cs => .node pos op (Child.mapAll f cs)

/-- The same operand with other things at its reference leaves. -/
def Child.map (f : κ → μ) : Child κ → Child μ
  | .imm v => .imm v
  | .ref r => .ref (f r)
  | .nested t => .nested (t.map f)

/-- The same operands with other things at their reference leaves. -/
def Child.mapAll (f : κ → μ) : List (Child κ) → List (Child μ)
  | [] => []
  | c :: cs => c.map f :: Child.mapAll f cs

end

/-- Changing the references of a tree leaves its position as it is. -/
@[simp] theorem Tree.pos_map (f : κ → μ) (t : Tree κ) : (t.map f).pos = t.pos := by
  cases t
  rfl

/-- Changing the references of a tree leaves its opcode as it is. -/
@[simp] theorem Tree.opcode_map (f : κ → μ) (t : Tree κ) : (t.map f).opcode = t.opcode := by
  cases t
  rfl

/-- Children are changed one by one. The function that does it is written out only because it
recurses into the trees. -/
theorem Child.mapAll_eq_map (f : κ → μ) (cs : List (Child κ)) :
    Child.mapAll f cs = cs.map (Child.map f) := by
  induction cs with
  | nil => rfl
  | cons c cs ih => rw [Child.mapAll, List.map_cons, ih]

/-- The children of a changed tree are its children, changed. -/
theorem Tree.children_map (f : κ → μ) (t : Tree κ) :
    (t.map f).children = t.children.map (Child.map f) := by
  cases t with
  | node pos op cs => exact Child.mapAll_eq_map f cs

/-- The references of a changed tree are its references, changed. -/
theorem Tree.leaves_map (f : κ → μ) (t : Tree κ) : (t.map f).leaves = t.leaves.map f := by
  rw [Tree.leaves, Tree.leaves, Tree.children_map, List.filterMap_map, List.map_filterMap]
  congr 1
  funext c
  cases c <;> rfl

mutual

/-- Changing the leaves keeps the nodes and their order. -/
theorem Tree.nodes_map (f : κ → μ) : (t : Tree κ) → (t.map f).nodes = t.nodes.map (Tree.map f)
  | .node pos op cs => by
      simp only [Tree.map, Tree.nodes, Child.nodesOf_mapAll f cs, List.map_append, List.map_cons,
        List.map_nil]

/-- Companion: the nodes of a list of operands. -/
theorem Child.nodesOf_mapAll (f : κ → μ) :
    (cs : List (Child κ)) → Child.nodesOf (Child.mapAll f cs) = (Child.nodesOf cs).map (Tree.map f)
  | [] => rfl
  | .imm _ :: cs => by
      simpa only [Child.mapAll, Child.map, Child.nodesOf, Child.nodes, List.nil_append]
        using Child.nodesOf_mapAll f cs
  | .ref _ :: cs => by
      simpa only [Child.mapAll, Child.map, Child.nodesOf, Child.nodes, List.nil_append]
        using Child.nodesOf_mapAll f cs
  | .nested t :: cs => by
      simp only [Child.mapAll, Child.map, Child.nodesOf, Child.nodes, List.map_append,
        Tree.nodes_map f t, Child.nodesOf_mapAll f cs]

end

/-- Changing the references of a tree leaves the order of its nodes as it is. -/
@[simp] theorem Tree.postorder_map (f : κ → μ) (t : Tree κ) :
    (t.map f).postorder = t.postorder := by
  rw [Tree.postorder, Tree.nodes_map, List.map_map, Tree.postorder]
  exact List.map_congr_left fun u _ => Tree.pos_map f u

/-- The position that a decision is about. -/
def Verdict.target : Verdict → Nat
  | kept t _ => t
  | dangling _ t => t

/-- A computation that ends well went well in both its parts. -/
theorem bind_eq_ok {ε α β : Type} {first : Except ε α} {next : α → Except ε β} {result : β} :
    (first >>= next) = .ok result ↔ ∃ mid, first = .ok mid ∧ next mid = .ok result := by
  cases first <;> simp [bind, Except.bind]

/-- A table that passes the check has an entry for every instruction. -/
theorem UseTable.checkFits_ok {uses : UseTable} {b : Block} {u : Unit}
    (h : uses.checkFits b = .ok u) : uses.size = b.length := by
  by_cases hsize : uses.size = b.length
  · exact hsize
  · rw [UseTable.checkFits, if_neg hsize] at h
    cases h

mutual

/-- A tree that can be erased is erased to itself with the positions at its leaves. -/
theorem Tree.erase_eq :
    (t : Tree Verdict) → {t' : Tree Nat} → t.erase = .ok t' → t' = t.map Verdict.target
  | .node pos op cs, t', h => by
      rw [Tree.erase, bind_eq_ok] at h
      obtain ⟨cs', hcs, hret⟩ := h
      cases hret
      rw [Tree.map, Child.eraseAll_eq pos cs hcs]

/-- Companion: one operand. -/
theorem Child.erase_eq (pos : Nat) :
    (c : Child Verdict) → {c' : Child Nat} → c.erase pos = .ok c' → c' = c.map Verdict.target
  | .imm v, c', h => by cases h; rfl
  | .ref (.kept target reason), c', h => by cases h; rfl
  | .ref (.dangling operand target), c', h => by cases h
  | .nested t, c', h => by
      rw [Child.erase, bind_eq_ok] at h
      obtain ⟨t', ht, hret⟩ := h
      cases hret
      rw [Child.map, Tree.erase_eq t ht]

/-- Companion: a list of operands. -/
theorem Child.eraseAll_eq (pos : Nat) :
    (cs : List (Child Verdict)) → {cs' : List (Child Nat)} →
      Child.eraseAll pos cs = .ok cs' → cs' = Child.mapAll Verdict.target cs
  | [], cs', h => by cases h; rfl
  | c :: cs, cs', h => by
      -- The operands to the right are erased first, so that the rightmost fault is met.
      simp only [Child.eraseAll, bind_eq_ok] at h
      obtain ⟨ds, hds, d, hd, hret⟩ := h
      cases hret
      rw [Child.mapAll, Child.erase_eq pos c hd, Child.eraseAll_eq pos cs hds]

end

/-- Where no reference dangles, taking the verdicts away leaves the trees with their references. -/
theorem Tree.eraseAll_eq (ts : List (Tree Verdict)) {ts' : List (Tree Nat)}
    (h : Tree.eraseAll ts = .ok ts') : ts' = ts.map (Tree.map Verdict.target) := by
  induction ts generalizing ts' with
  | nil =>
      cases h
      rfl
  | cons t ts ih =>
      rw [Tree.eraseAll, List.foldrM_cons, bind_eq_ok] at h
      obtain ⟨others, hothers, hstep⟩ := h
      rw [bind_eq_ok] at hstep
      obtain ⟨t', ht, hret⟩ := hstep
      cases hret
      rw [List.map_cons, Tree.erase_eq t ht, ih hothers]

/-- The roots of a recovered forest are the trees of the plan without the reasons, and
the use table was one of the right size. -/
theorem Forest.ofBlock_ok {b : Block} {uses : UseTable} {f : Forest}
    (h : Forest.ofBlock b uses = .ok f) :
    uses.size = b.length ∧ f.roots.toList = (b.plan uses).map (Tree.map Verdict.target) := by
  simp only [Forest.ofBlock, bind_eq_ok] at h
  obtain ⟨_, hfits, roots, hroots, hret⟩ := h
  cases hret
  exact ⟨UseTable.checkFits_ok hfits, Tree.eraseAll_eq _ hroots⟩

/-- The nodes of a recovered forest are the nodes of the plan without the reasons. -/
theorem Forest.nodes_ofBlock {b : Block} {uses : UseTable} {f : Forest}
    (h : Forest.ofBlock b uses = .ok f) :
    f.roots.toList.flatMap Tree.nodes
      = ((b.plan uses).flatMap Tree.nodes).map (Tree.map Verdict.target) := by
  rw [(Forest.ofBlock_ok h).2, List.flatMap_map, List.map_flatMap]
  exact congrArg (List.flatMap · (b.plan uses)) (funext (Tree.nodes_map Verdict.target))

end StackForm

import Mathlib.Data.List.Induction
import StackForm.Proofs.Plan

/-!
# `StackForm.Proofs.Uniqueness`: the folding rule leaves one plan

`Block.plan_covers` says that the trees of a plan cover their block, with every node decided by
the folding rule. `Block.plan_unique` is the converse: there is only one such cover, so any list
of trees that is seen to be one is the plan, and the sweep need not be followed to find out what
it makes of a block.

A planned tree is determined by the position of its root (`Tree.planned_unique`), from the last
operand to the first, and trees are determined by their nodes in running order
(`Tree.flatMap_nodes_injective`).
-/

set_option autoImplicit false

namespace StackForm

variable {κ : Type}

/-! ### Planned trees -/

mutual

/-- A planned tree is determined by the position of its root. -/
theorem Tree.planned_unique {b : Block} {uses : UseTable} :
    (t : Tree Verdict) → (∀ w ∈ t.nodes, w.Planned b uses) →
      ∀ u : Tree Verdict, (∀ w ∈ u.nodes, w.Planned b uses) → u.pos = t.pos → u = t
  | .node pos op cs, ht, .node pos' op' cs', hu, hpos => by
      obtain rfl : pos' = pos := hpos
      obtain ⟨i, hi, hop, hdec⟩ := ht _ (Tree.self_mem_nodes _)
      obtain ⟨i', hi', hop', hdec'⟩ := hu _ (Tree.self_mem_nodes _)
      obtain rfl : i = i' := Option.some.inj (hi.symm.trans hi')
      have hcs := Child.decided_unique cs hdec (fun w hw => ht w (List.mem_append_left _ hw)) cs'
        hdec' (fun w hw => hu w (List.mem_append_left _ hw))
      rw [hcs, show op' = op from hop'.trans hop.symm]

/-- Companion: operands are decided in one way. What stands to the right of an operand is the
same on both sides, so the verdict is. -/
theorem Child.decided_unique {b : Block} {uses : UseTable} {pos : Nat} :
    (cs : List (Child Verdict)) → {k : Nat} → {os : List Operand} →
      Child.Decided uses pos k os cs → (∀ w ∈ Child.nodesOf cs, w.Planned b uses) →
      ∀ cs', Child.Decided uses pos k os cs' → (∀ w ∈ Child.nodesOf cs', w.Planned b uses) →
        cs' = cs
  | [], _, _, .nil _, _, _, .nil _, _ => rfl
  | .imm _ :: cs, _, _, .imm _ rest, h, _, .imm _ rest', h' => by
      rw [Child.decided_unique cs rest h _ rest' h']
  | .ref _ :: cs, _, _, .ref rest verdict, h, _, hdec', h' => by
      cases hdec' with
      | ref rest' verdict' =>
          obtain rfl := Child.decided_unique cs rest h _ rest' h'
          rw [verdict] at verdict'
          cases verdict'
          rfl
      | nested rest' folds =>
          -- The other side folds where this one has a verdict against it.
          obtain rfl := Child.decided_unique cs rest h _ rest' fun w hw =>
            h' w (List.mem_append_right _ hw)
          rw [verdict] at folds
          cases folds
  | .nested t :: cs, _, _ :: os, .nested rest folds, h, cs', hdec', h' => by
      have hrest : ∀ w ∈ Child.nodesOf cs, w.Planned b uses := fun w hw =>
        h w (List.mem_append_right _ hw)
      generalize hos : Operand.ref t.pos :: os = os' at hdec'
      cases hdec' with
      | nil => cases hos
      | imm => cases hos
      | ref rest' verdict =>
          cases hos
          obtain rfl := Child.decided_unique cs rest hrest _ rest' h'
          rw [folds] at verdict
          cases verdict
      | nested rest' folds' =>
          obtain ⟨hpos, rfl⟩ := List.cons.inj hos
          obtain rfl := Child.decided_unique cs rest hrest _ rest' fun w hw =>
            h' w (List.mem_append_right _ hw)
          rw [Tree.planned_unique t (fun w hw => h w (List.mem_append_left _ hw)) _
            (fun w hw => h' w (List.mem_append_left _ hw)) (Operand.ref.inj hpos).symm]

end

/-! ### Covers -/

/-- Trees are determined by their nodes in running order: the last node is the last tree, and
what is before its own nodes belongs to the other trees. -/
theorem Tree.flatMap_nodes_injective (ts us : List (Tree κ))
    (h : ts.flatMap Tree.nodes = us.flatMap Tree.nodes) : ts = us := by
  induction ts using List.reverseRecOn generalizing us with
  | nil =>
      cases us with
      | nil => rfl
      | cons u us => simp [Tree.nodes_eq u] at h
  | append_singleton ts t ih =>
      rcases List.eq_nil_or_concat us with rfl | ⟨us, u, rfl⟩
      · simp [Tree.nodes_eq t] at h
      · simp only [List.concat_eq_append, List.flatMap_append, List.flatMap_singleton] at h ⊢
        have hlast : t = u := by
          rw [Tree.nodes_eq t, Tree.nodes_eq u, ← List.append_assoc, ← List.append_assoc] at h
          simpa using List.append_inj_right' h rfl
        subst hlast
        rw [ih us (List.append_cancel_right h)]

/-- Below a node of a cover every node is planned. -/
theorem Tree.Covers.planned_below {b : Block} {uses : UseTable} {ts : List (Tree Verdict)}
    {lo : Nat} (h : Tree.Covers b uses lo ts) {t : Tree Verdict} (ht : t ∈ ts.flatMap Tree.nodes) :
    ∀ w ∈ t.nodes, w.Planned b uses := by
  intro w hw
  obtain ⟨v, hv, htv⟩ := List.mem_flatMap.mp ht
  exact h.planned w (List.mem_flatMap.mpr ⟨v, hv, Tree.nodes_trans v t htv w hw⟩)

/-- Nodes at the same positions are the same nodes, where a position determines its node. -/
theorem Tree.eq_of_positions {ns ms : List (Tree κ)} (hpos : ns.map Tree.pos = ms.map Tree.pos)
    (hsame : ∀ n ∈ ns, ∀ m ∈ ms, n.pos = m.pos → n = m) : ns = ms := by
  induction ns generalizing ms with
  | nil => simpa using hpos
  | cons n ns ih =>
      cases ms with
      | nil => simp at hpos
      | cons m ms =>
          obtain ⟨hhead, htail⟩ := List.cons.inj hpos
          rw [hsame n (by simp) m (by simp) hhead,
            ih htail fun t ht u hu => hsame t (by simp [ht]) u (by simp [hu])]

/-- A block is covered in one way only. -/
theorem Tree.Covers.unique {b : Block} {uses : UseTable} {ts us : List (Tree Verdict)} {lo : Nat}
    (ht : Tree.Covers b uses lo ts) (hu : Tree.Covers b uses lo us) : ts = us := by
  apply Tree.flatMap_nodes_injective
  -- Both covers run the positions from `lo` to the end of the block.
  have hpos : (ts.flatMap Tree.nodes).map Tree.pos = (us.flatMap Tree.nodes).map Tree.pos := by
    rw [List.map_flatMap, List.map_flatMap]
    exact ht.postorder.2.trans hu.postorder.2.symm
  refine Tree.eq_of_positions hpos fun t htn u hun heq => ?_
  exact Tree.planned_unique u (hu.planned_below hun) t (ht.planned_below htn) heq

/-- The plan is the one list of trees that covers the block. -/
theorem Block.plan_unique {b : Block} {uses : UseTable} {ts : List (Tree Verdict)}
    (h : Tree.Covers b uses 0 ts) : b.plan uses = ts :=
  (b.plan_covers uses).unique h

end StackForm

import Mathlib.Data.List.Perm.Basic
import StackForm.Proofs.Numbering
import StackForm.Proofs.Order
import StackForm.Proofs.Traversal

/-!
# `StackForm.Proofs.Lookup`: finding the root at a position

`Forest.root?` looks for a root by halving. What it finds is a root at the position that was
asked for, in any forest (`Forest.searchRoot_sound`). That it finds every root needs the roots to
be in order (`Forest.searchRoot_complete`), which they are, because the trees of a plan lie side
by side.

The positions of a block are shared out among roots and nested trees. A forest has each of them
once, and a node is a root or nested in one (`Forest.roots_nested_perm`), so a position at which
no root is found is that of one nested tree. Under the table of the block itself, a value that
some tree refers to is never one of the nested ones.

`Forest.root_lookup` collects this.
-/

set_option autoImplicit false

namespace StackForm

namespace Forest

variable {b : Block} {uses : UseTable} {f : Forest} {pos : Nat}

/-! ### Searching by halving -/

/-- The roots stand in the order of their positions. -/
def Increasing (f : Forest) : Prop := (f.roots.toList.map Tree.pos).Pairwise (· < ·)

/-- The roots of a forest that comes from a block are in the order of the block. -/
theorem increasing_ofBlock (h : Forest.ofBlock b uses = .ok f) : f.Increasing := by
  have hpos : Tree.pos ∘ Tree.map Verdict.target = Tree.pos :=
    funext fun t => Tree.pos_map Verdict.target t
  rw [Increasing, (Forest.ofBlock_ok h).2, List.map_map, hpos]
  exact (b.plan_covers uses).roots_increase

/-- A root that is listed earlier has the smaller position. -/
theorem Increasing.pos_lt (h : f.Increasing) {j k : Nat} {t u : Tree Nat}
    (ht : f.roots[j]? = some t) (hu : f.roots[k]? = some u) (hlt : j < k) : t.pos < u.pos := by
  obtain ⟨hj, rfl⟩ := Array.getElem?_eq_some_iff.mp ht
  obtain ⟨hk, rfl⟩ := Array.getElem?_eq_some_iff.mp hu
  exact List.pairwise_iff_getElem.mp (List.pairwise_map.mp h) j k hj hk hlt

/-- Of two roots the one at the lower position stands first. -/
theorem Increasing.lt_of_pos_lt (h : f.Increasing) {j k : Nat} {t u : Tree Nat}
    (ht : f.roots[j]? = some t) (hu : f.roots[k]? = some u) (hlt : t.pos < u.pos) : j < k := by
  rcases Nat.lt_trichotomy j k with hless | rfl | hgreater
  · exact hless
  · cases ht.symm.trans hu
    omega
  · have hlower := h.pos_lt hu ht hgreater
    omega

/-- What a search finds is a root at the position asked for. -/
theorem searchRoot_sound {lo hi : Nat} {t : Tree Nat} (h : f.searchRoot pos lo hi = some t) :
    t ∈ f.roots.toList ∧ t.pos = pos := by
  fun_induction f.searchRoot pos lo hi with
  | case1 lo hi hlt mid hmid => cases h
  | case2 lo hi hlt mid u hmid heq =>
      cases h
      exact ⟨Array.mem_toList_iff.mpr (Array.mem_of_getElem? hmid), heq⟩
  | case3 lo hi hlt mid u hmid hne hless ih => exact ih h
  | case4 lo hi hlt mid u hmid hne hless ih => exact ih h
  | case5 => cases h

/-- A root within the bounds of a search is found, if the roots are in order. -/
theorem searchRoot_complete (hf : f.Increasing) {lo hi k : Nat} {t : Tree Nat} (hlo : lo ≤ k)
    (hhi : k < hi) (hsize : hi ≤ f.roots.size) (ht : f.roots[k]? = some t) (hpos : t.pos = pos) :
    f.searchRoot pos lo hi = some t := by
  fun_induction f.searchRoot pos lo hi with
  | case1 lo hi hlt mid hmid =>
      -- The middle of the bounds is a root.
      have hle := Array.getElem?_eq_none_iff.mp hmid
      omega
  | case2 lo hi hlt mid u hmid heq =>
      -- Another root at the position would be on one side of this one.
      rcases Nat.lt_trichotomy mid k with hless | rfl | hless
      · have hhigher := hf.pos_lt hmid ht hless
        omega
      · rw [← hmid, ht]
      · have hlower := hf.pos_lt ht hmid hless
        omega
  | case3 lo hi hlt mid u hmid hne hless ih =>
      -- The middle is too low, and the root that is looked for stands after it.
      have hright : mid < k := hf.lt_of_pos_lt hmid ht (by omega)
      exact ih hright hhi hsize
  | case4 lo hi hlt mid u hmid hne hless ih =>
      have hleft : k < mid := hf.lt_of_pos_lt ht hmid (by omega)
      exact ih hlo hleft (by omega)
  | case5 => omega

/-- In a forest whose roots are in order, a lookup gives the root at a position. -/
theorem Increasing.root?_eq_some_iff (hf : f.Increasing) {t : Tree Nat} :
    f.root? pos = some t ↔ t ∈ f.roots.toList ∧ t.pos = pos := by
  constructor
  · exact searchRoot_sound
  · rintro ⟨ht, hpos⟩
    obtain ⟨k, hk, hget⟩ := Array.mem_iff_getElem.mp (Array.mem_toList_iff.mp ht)
    exact searchRoot_complete hf (Nat.zero_le k) hk (Nat.le_refl _)
      (Array.getElem?_eq_some_iff.mpr ⟨hk, hget⟩) hpos

/-- No root is found if and only if there is none at the position. -/
theorem Increasing.root?_eq_none_iff (hf : f.Increasing) :
    f.root? pos = none ↔ ∀ t ∈ f.roots.toList, t.pos ≠ pos := by
  rw [Option.eq_none_iff_forall_ne_some]
  simp only [ne_eq, hf.root?_eq_some_iff, not_and]

/-! ### Roots and nested trees -/

/-- The positions of the trees nested anywhere in a forest. -/
def nestedPositions (f : Forest) : List Nat :=
  f.roots.toList.flatMap fun t => t.properSubtrees.map Tree.pos

/-- Roots and nested trees have the positions of the block, each once. -/
theorem roots_nested_perm (h : Forest.ofBlock b uses = .ok f) :
    (f.roots.toList.map Tree.pos ++ f.nestedPositions).Perm (List.range b.length) := by
  have hvisit : ∀ t ∈ f.roots.toList,
      (t.pos :: t.properSubtrees.map Tree.pos).Perm t.postorder := by
    intro t _
    rw [← List.map_cons, Tree.cons_properSubtrees]
    exact (Tree.visit_perm .right t).map Tree.pos
  rw [← Forest.postorder_ofBlock h]
  exact (List.map_append_flatMap_perm _ _ _).trans (List.Perm.flatMap_left _ hvisit)

/-- A position of the block is that of a root or of a nested tree, and of one of them. -/
theorem count_roots_nested (h : Forest.ofBlock b uses = .ok f) (hpos : pos < b.length) :
    (f.roots.toList.map Tree.pos).count pos + f.nestedPositions.count pos = 1 := by
  rw [← List.count_append, (roots_nested_perm h).count_eq, List.nodup_range.count,
    if_pos (List.mem_range.mpr hpos)]

end Forest

/-- What occurs once in the parts of a list occurs once in one part, and in no other. -/
theorem exists_part_of_count {α β : Type} [BEq β] [LawfulBEq β] {parts : α → List β} {b : β}
    {as : List α} (h : (as.flatMap parts).count b = 1) :
    ∃ (k : Nat) (a : α), as[k]? = some a ∧ (parts a).count b = 1 ∧
      ∀ (j : Nat) a', as[j]? = some a' → j ≠ k → b ∉ parts a' := by
  induction as with
  | nil => cases h
  | cons a as ih =>
      rw [List.flatMap_cons, List.count_append] at h
      by_cases hhere : (parts a).count b = 0
      · -- The one occurrence is further on.
        obtain ⟨k, a', ha', hcount, hothers⟩ := ih (by omega)
        refine ⟨k + 1, a', ha', hcount, ?_⟩
        intro j a'' ha'' hne
        cases j with
        | zero =>
            cases ha''
            exact List.count_eq_zero.mp hhere
        | succ j => exact hothers j a'' ha'' fun heq => hne (congrArg Nat.succ heq)
      · have hlater : (as.flatMap parts).count b = 0 := by omega
        refine ⟨0, a, rfl, by omega, ?_⟩
        intro j a' ha' hne hmem
        cases j with
        | zero => exact hne rfl
        | succ j =>
            refine List.count_eq_zero.mp hlater ?_
            exact List.mem_flatMap.mpr ⟨a', List.mem_of_getElem? ha', hmem⟩

namespace Forest

variable {b : Block} {uses : UseTable} {f : Forest}

/-- Under the table of the block itself, what a tree refers to is a root. -/
theorem exists_root_of_ref (h : Forest.ofBlock b uses = .ok f) (hb : UseTable.ofBlock b = .ok uses)
    {t : Tree Nat} (ht : t ∈ f.roots.toList) {a : Nat} (ha : a ∈ t.refs) :
    ∃ r ∈ f.roots.toList, r.pos = a := by
  obtain ⟨hwf, rfl⟩ := UseTable.ofBlock_ok hb
  rw [(Forest.ofBlock_ok h).2] at ht ⊢
  obtain ⟨p, hp, rfl⟩ := List.mem_map.mp ht
  obtain ⟨⟨r, hr, hpos⟩, -⟩ := Block.kept_root hwf hp ((Tree.mem_refs_map p a).mp ha)
  exact ⟨r.map Verdict.target, List.mem_map_of_mem hr, (Tree.pos_map _ r).trans hpos⟩

/-- Looking a root up is exact, for every block and use table for which there is a forest and
for every position, of the block or beyond it.

* What is found is the root at that position, and nothing is found only if there is none.
* A position of the block is that of a root, and then no tree is nested there, or no root is
  found and one tree of one root is nested there.
* Under the table of the block itself, every position that a tree refers to is found. -/
theorem root_lookup (h : Forest.ofBlock b uses = .ok f) :
    (∀ pos t, f.root? pos = some t ↔ t ∈ f.roots.toList ∧ t.pos = pos) ∧
    (∀ pos, f.root? pos = none ↔ ∀ t ∈ f.roots.toList, t.pos ≠ pos) ∧
    (∀ pos < b.length,
      ((∃ t, f.root? pos = some t) ∧
        ∀ t ∈ f.roots.toList, pos ∉ t.properSubtrees.map Tree.pos) ∨
      (f.root? pos = none ∧
        ∃ (k : Nat) (t : Tree Nat), f.roots.toList[k]? = some t ∧
          (t.properSubtrees.map Tree.pos).count pos = 1 ∧
          ∀ (j : Nat) (u : Tree Nat), f.roots.toList[j]? = some u → j ≠ k →
            pos ∉ u.properSubtrees.map Tree.pos)) ∧
    (UseTable.ofBlock b = .ok uses → ∀ t ∈ f.roots.toList, ∀ a ∈ t.refs,
      ∃ r, f.root? a = some r ∧ r.pos = a) := by
  have hf := increasing_ofBlock h
  refine ⟨fun pos t => hf.root?_eq_some_iff, fun pos => hf.root?_eq_none_iff, ?_, ?_⟩
  · intro pos hpos
    have hcount := count_roots_nested h hpos
    cases hroot : f.root? pos with
    | some t =>
        obtain ⟨ht, htpos⟩ := hf.root?_eq_some_iff.mp hroot
        have hmem : pos ∈ f.roots.toList.map Tree.pos := List.mem_map.mpr ⟨t, ht, htpos⟩
        have hpositive := List.count_pos_iff.mpr hmem
        -- The root is the one occurrence of the position.
        have hnested : pos ∉ f.nestedPositions := List.count_eq_zero.mp (by omega)
        exact Or.inl ⟨⟨t, rfl⟩, fun u hu hin => hnested (List.mem_flatMap.mpr ⟨u, hu, hin⟩)⟩
    | none =>
        have hnone := hf.root?_eq_none_iff.mp hroot
        have hzero : (f.roots.toList.map Tree.pos).count pos = 0 := by
          refine List.count_eq_zero.mpr fun hmem => ?_
          obtain ⟨t, ht, htpos⟩ := List.mem_map.mp hmem
          exact hnone t ht htpos
        exact Or.inr ⟨rfl, exists_part_of_count (show f.nestedPositions.count pos = 1 by omega)⟩
  · intro hb t ht a ha
    obtain ⟨r, hr, hpos⟩ := exists_root_of_ref h hb ht ha
    exact ⟨r, hf.root?_eq_some_iff.mpr ⟨hr, hpos⟩, hpos⟩

end Forest

/-- A block with two sums that are roots, of which one is used twice, and a third sum that is
nested in a store. -/
def Block.threeSums : Block :=
  ⟨[⟨.loadLocal, [.imm 0]⟩, ⟨.add, [.ref 0, .imm 1]⟩, ⟨.add, [.imm 2, .imm 3]⟩,
    ⟨.add, [.ref 1, .ref 2]⟩, ⟨.storeLocal, [.imm 0, .ref 3]⟩, ⟨.storeLocal, [.imm 1, .ref 2]⟩]⟩

/-- The theorem at that block. The store is found, and what it refers to. The third sum is not
found, since it is nested once, and neither is a position beyond the block. -/
theorem Forest.root_lookup_threeSums :
    let store : Tree Nat := .node 4 .storeLocal [.imm 0, .nested (.node 3 .add [.ref 1, .ref 2])]
    ∃ uses f, UseTable.ofBlock .threeSums = .ok uses ∧ Forest.ofBlock .threeSums uses = .ok f ∧
      f.root? 4 = some store ∧ f.root? 3 = none ∧ f.root? 17 = none ∧
      (∃ (k : Nat) (t : Tree Nat), f.roots.toList[k]? = some t ∧
        (t.properSubtrees.map Tree.pos).count 3 = 1) ∧
      ∃ r, f.root? 2 = some r ∧ r.pos = 2 := by
  intro store
  obtain ⟨uses, huses⟩ : ∃ uses, UseTable.ofBlock .threeSums = .ok uses := ⟨_, rfl⟩
  obtain ⟨f, hf, hroots⟩ : ∃ f, Forest.ofBlock .threeSums uses = .ok f ∧
      f.roots.toList = [.node 1 .add [.nested (.node 0 .loadLocal [.imm 0]), .imm 1],
        .node 2 .add [.imm 2, .imm 3], store, .node 5 .storeLocal [.imm 1, .ref 2]] := by
    cases huses
    exact ⟨_, rfl, rfl⟩
  obtain ⟨hfound, hmissed, hshared, hrefs⟩ := Forest.root_lookup hf
  have hstore : store ∈ f.roots.toList := by
    rw [hroots]
    exact List.mem_of_getElem? (i := 2) rfl
  have hthird : f.root? 3 = none := by
    rw [hmissed, hroots]
    decide
  have hbeyond : f.root? 17 = none := by
    rw [hmissed, hroots]
    decide
  have href : 2 ∈ store.refs := by
    refine (Tree.mem_refs store 2).mpr ⟨.node 3 .add [.ref 1, .ref 2], ?_, ?_⟩
    · exact List.mem_of_getElem? (i := 0) rfl
    · decide
  refine ⟨uses, f, huses, hf, (hfound 4 store).mpr ⟨hstore, rfl⟩, hthird, hbeyond, ?_,
    hrefs huses store hstore 2 href⟩
  rcases hshared 3 (by decide) with ⟨⟨t, ht⟩, -⟩ | ⟨-, k, t, hk, hcount, -⟩
  · cases hthird.symm.trans ht
  · exact ⟨k, t, hk, hcount⟩

end StackForm

import StackForm.Proofs.Lossless
import StackForm.Proofs.Order
import StackForm.Proofs.Words

/-!
# `StackForm.Proofs.PrintedForest`: a printed forest can be read in one way

The text of a forest shows the positions of its roots and no others. It determines the forest all
the same, and with it the block (`Forest.text_determines`).

Two things come together. The text of a tree can be read in one way only, up to the numbers of
the nodes (`Tree.text_unique`): a word ends at the first blank or closing parenthesis, its first
character tells what it is, and parentheses tell where a nested tree ends, whatever follows it.
And the numbers are those of the running order (`Tree.renumberAll_self`), so trees that are the
same up to numbers are the same.
-/

set_option autoImplicit false

namespace StackForm

/-! ### Trees -/

/-- The characters of a printed tree, in the pieces in which they are told apart. -/
theorem Tree.toList_text (pos : Nat) (op : Opcode) (cs : List (Child Nat)) (rest : List Char) :
    (Tree.node pos op cs).text.toList ++ rest
      = '(' :: (op.name.toList ++ ((Child.texts cs).toList ++ ')' :: rest)) := by
  simp [Tree.text]

/-- The characters of printed children: the first one with its space, and then the others. -/
theorem Child.toList_texts (c : Child Nat) (cs : List (Child Nat)) (rest : List Char) :
    (Child.texts (c :: cs)).toList ++ rest
      = ' ' :: (c.text.toList ++ ((Child.texts cs).toList ++ rest)) := by
  simp [Child.texts]

/-- After an operand comes the blank before the next one or the closing parenthesis. -/
theorem Child.delimited_texts (cs : List (Child Nat)) (rest : List Char) :
    Delimited ((Child.texts cs).toList ++ ')' :: rest) := by
  cases cs with
  | nil => exact delimited_cons rfl rest
  | cons c cs =>
      rw [Child.toList_texts]
      exact delimited_cons rfl _

/-- What an operand is shows in its first character: a name starts with a letter of its own, a
nested tree with a parenthesis, and a number with neither. -/
theorem Child.exists_text (c : Child Nat) :
    ∃ d ds, c.text.toList = d :: ds ∧ (d == 'v') = c.isRef ∧ (d == '(') = c.tree?.isSome := by
  cases c with
  | imm v =>
      obtain ⟨d, ds, hv, hstart⟩ := Text.exists_decimal v
      have hne : d ≠ 'v' ∧ d ≠ '(' := by
        constructor <;> rintro rfl <;> exact absurd hstart (by decide)
      exact ⟨d, ds, hv, beq_false_of_ne hne.1, beq_false_of_ne hne.2⟩
  | ref target => exact ⟨'v', _, toList_valueName target, rfl, rfl⟩
  | nested t =>
      cases t with
      | node pos op cs =>
          have htext := Tree.toList_text pos op cs []
          rw [List.append_nil] at htext
          exact ⟨'(', _, htext, rfl, rfl⟩

/-- Operands that begin one text are of one kind. -/
theorem Child.kind_eq {c d : Child Nat} {rest rest' : List Char}
    (h : c.text.toList ++ rest = d.text.toList ++ rest') :
    c.isRef = d.isRef ∧ c.tree?.isSome = d.tree?.isSome := by
  obtain ⟨first, more, hc, href, htree⟩ := c.exists_text
  obtain ⟨first', more', hd, href', htree'⟩ := d.exists_text
  rw [hc, hd] at h
  obtain rfl : first = first' := (List.cons.inj h).1
  exact ⟨href.symm.trans href', htree.symm.trans htree'⟩

/-- Operands that are the same up to numbers have as many nodes. -/
theorem Child.sizes_eq_of_renumberAll {κ : Type} {cs ds : List (Child κ)} {n : Nat}
    (h : Child.renumberAll n cs = Child.renumberAll n ds) : Child.sizes cs = Child.sizes ds := by
  have hlength := congrArg (fun es => ((Child.nodesOf es).map Tree.pos).length) h
  simpa only [Child.postorder_renumberAll, List.length_range'] using hlength

mutual

/-- The text of a tree can be read in one way. If two trees begin one text, they are the same up
to numbers, and what follows them is the same. -/
theorem Tree.text_unique :
    (t u : Tree Nat) → {rest rest' : List Char} →
      t.text.toList ++ rest = u.text.toList ++ rest' →
      (∀ n, t.renumber n = u.renumber n) ∧ rest = rest'
  | .node pos op cs, .node pos' op' ds, rest, rest', h => by
      rw [Tree.toList_text, Tree.toList_text] at h
      -- The opcode's name ends where the operands begin, or at the parenthesis.
      obtain ⟨rfl, hoperands⟩ := name_unique (Child.delimited_texts cs rest)
        (Child.delimited_texts ds rest') (List.cons.inj h).2
      obtain ⟨hcs, hrest⟩ := Child.texts_unique cs ds hoperands
      refine ⟨fun n => ?_, hrest⟩
      rw [Tree.renumber, Tree.renumber, hcs n, Child.sizes_eq_of_renumberAll (hcs n)]

/-- Companion: one operand, before a character that ends a word. -/
theorem Child.text_unique :
    (c d : Child Nat) → {rest rest' : List Char} → Delimited rest → Delimited rest' →
      c.text.toList ++ rest = d.text.toList ++ rest' →
      (∀ n, c.renumber n = d.renumber n) ∧ rest = rest'
  | .imm v, d, rest, rest', hrest, hrest', h => by
      have hkind := Child.kind_eq h
      cases d with
      | imm w =>
          obtain ⟨rfl, hsame⟩ := decimal_unique hrest hrest' h
          exact ⟨fun n => rfl, hsame⟩
      | ref target => cases hkind.1
      | nested u => cases hkind.2
  | .ref target, d, rest, rest', hrest, hrest', h => by
      have hkind := Child.kind_eq h
      cases d with
      | imm w => cases hkind.1
      | ref target' =>
          obtain ⟨rfl, hsame⟩ := valueName_unique hrest hrest' h
          exact ⟨fun n => rfl, hsame⟩
      | nested u => cases hkind.1
  | .nested t, d, rest, rest', hrest, hrest', h => by
      have hkind := Child.kind_eq h
      cases d with
      | imm w => cases hkind.2
      | ref target => cases hkind.1
      | nested u =>
          obtain ⟨ht, hsame⟩ := Tree.text_unique t u h
          exact ⟨fun n => congrArg Child.nested (ht n), hsame⟩

/-- Companion: operands up to the closing parenthesis. -/
theorem Child.texts_unique :
    (cs ds : List (Child Nat)) → {rest rest' : List Char} →
      (Child.texts cs).toList ++ ')' :: rest = (Child.texts ds).toList ++ ')' :: rest' →
      (∀ n, Child.renumberAll n cs = Child.renumberAll n ds) ∧ rest = rest'
  | [], [], rest, rest', h => ⟨fun n => rfl, (List.cons.inj h).2⟩
  | [], d :: ds, rest, rest', h => by
      rw [Child.toList_texts] at h
      exact absurd (List.cons.inj h).1 (by decide)
  | c :: cs, [], rest, rest', h => by
      rw [Child.toList_texts] at h
      exact absurd (List.cons.inj h).1 (by decide)
  | c :: cs, d :: ds, rest, rest', h => by
      rw [Child.toList_texts, Child.toList_texts] at h
      obtain ⟨hc, hothers⟩ := Child.text_unique c d (Child.delimited_texts cs rest)
        (Child.delimited_texts ds rest') (List.cons.inj h).2
      obtain ⟨hcs, hrest⟩ := Child.texts_unique cs ds hothers
      refine ⟨fun n => ?_, hrest⟩
      have hsize : Child.sizes [c] = Child.sizes [d] :=
        Child.sizes_eq_of_renumberAll (congrArg (fun e => [e]) (hc n))
      rw [Child.renumberAll, Child.renumberAll, hc n, show c.size = d.size from hsize, hcs]

end

/-! ### Numbers -/

mutual

/-- The size of a tree is the number of its nodes. -/
theorem Tree.length_nodes {κ : Type} : (t : Tree κ) → t.nodes.length = t.size
  | .node pos op cs => by
      rw [Tree.nodes, List.length_append, Child.length_nodesOf cs]
      rfl

/-- The same for the children of a tree. -/
theorem Child.length_nodesOf {κ : Type} :
    (cs : List (Child κ)) → (Child.nodesOf cs).length = Child.sizes cs
  | [] => rfl
  | .imm _ :: cs => (Child.length_nodesOf cs).trans (Nat.zero_add _).symm
  | .ref _ :: cs => (Child.length_nodesOf cs).trans (Nat.zero_add _).symm
  | .nested t :: cs => by
      show (t.nodes ++ Child.nodesOf cs).length = t.size + Child.sizes cs
      rw [List.length_append, Tree.length_nodes t, Child.length_nodesOf cs]

end

mutual

/-- A tree that runs the positions from `n` on is numbered from `n` on. -/
theorem Tree.renumber_self {κ : Type} :
    (t : Tree κ) → ∀ n, t.postorder = List.range' n t.size → t.renumber n = t
  | .node pos op cs, n, h => by
      -- The last position is that of the root, and those before it are the operands'.
      rw [Tree.postorder, Tree.nodes, List.map_append, Tree.size, List.range'_concat,
        Nat.one_mul] at h
      obtain ⟨hcs, hroot⟩ := List.append_inj' h rfl
      have hpos : pos = n + Child.sizes cs := (List.cons.inj hroot).1
      rw [Tree.renumber, Child.renumberAll_self cs n hcs, ← hpos]

/-- Companion: the operands of a consumer. -/
theorem Child.renumberAll_self {κ : Type} :
    (cs : List (Child κ)) → ∀ n,
      (Child.nodesOf cs).map Tree.pos = List.range' n (Child.sizes cs) →
      Child.renumberAll n cs = cs
  | [], _, _ => rfl
  | .imm v :: cs, n, h => by
      have hsize : Child.sizes (.imm v :: cs) = Child.sizes cs := Nat.zero_add _
      rw [hsize] at h
      exact congrArg (Child.imm v :: ·) (Child.renumberAll_self cs n h)
  | .ref r :: cs, n, h => by
      have hsize : Child.sizes (.ref r :: cs) = Child.sizes cs := Nat.zero_add _
      rw [hsize] at h
      exact congrArg (Child.ref r :: ·) (Child.renumberAll_self cs n h)
  | .nested t :: cs, n, h => by
      have hsize : Child.sizes (.nested t :: cs) = t.size + Child.sizes cs := rfl
      rw [hsize, ← List.range'_append, Nat.one_mul, Child.nodesOf, List.map_append] at h
      obtain ⟨ht, hcs⟩ := List.append_inj h (by
        rw [List.length_map, List.length_range']
        exact Tree.length_nodes t)
      rw [Child.renumberAll, Child.renumber, Tree.renumber_self t n ht, Child.size,
        Child.renumberAll_self cs (n + t.size) hcs]

end

/-- The sizes of trees add up to the number of positions in them. -/
theorem Tree.length_flatMap_postorder {κ : Type} (ts : List (Tree κ)) :
    (ts.flatMap Tree.postorder).length = Tree.totalSize ts := by
  induction ts with
  | nil => rfl
  | cons t ts ih =>
      rw [List.flatMap_cons, List.length_append, ih, Tree.postorder, List.length_map,
        Tree.length_nodes, Tree.totalSize_cons]

/-- Trees that run the positions from `n` on are numbered from `n` on. -/
theorem Tree.renumberAll_self {κ : Type} (ts : List (Tree κ)) (n : Nat)
    (h : ts.flatMap Tree.postorder = List.range' n (Tree.totalSize ts)) :
    Tree.renumberAll n ts = ts := by
  induction ts generalizing n with
  | nil => rfl
  | cons t ts ih =>
      rw [List.flatMap_cons, Tree.totalSize_cons, ← List.range'_append, Nat.one_mul] at h
      obtain ⟨ht, hts⟩ := List.append_inj h (by
        rw [Tree.postorder, List.length_map, List.length_range', Tree.length_nodes])
      rw [Tree.renumberAll, Tree.renumber_self t n ht, ih _ hts]

/-! ### Forests -/

/-- The line of a root in a printed forest. -/
def Tree.line (t : Tree Nat) : List Char :=
  (valueName t.pos).toList ++ ':' :: ' ' :: (t.text.toList ++ ['\n'])

/-- A printed forest is made of the lines of its roots. -/
theorem Forest.toList_text (f : Forest) : f.text.toList = f.roots.toList.flatMap Tree.line := by
  rw [Forest.text, String.toList_join, List.flatMap_map]
  congr 1
  funext t
  simp [Tree.line]

/-- The line of a root is not empty, so an empty text has no roots. -/
theorem Tree.line_ne_nil (t : Tree Nat) : t.line ≠ [] := by
  rw [Tree.line, toList_valueName]
  exact List.cons_ne_nil _ _

/-- Lines of trees can be read in one way, one after the other. -/
theorem Tree.lines_unique (ts us : List (Tree Nat))
    (h : ts.flatMap Tree.line = us.flatMap Tree.line) (n : Nat) :
    Tree.renumberAll n ts = Tree.renumberAll n us := by
  induction ts generalizing us n with
  | nil =>
      cases us with
      | nil => rfl
      | cons u us => exact absurd (List.append_eq_nil_iff.mp h.symm).1 u.line_ne_nil
  | cons t ts ih =>
      cases us with
      | nil => exact absurd (List.append_eq_nil_iff.mp h).1 t.line_ne_nil
      | cons u us =>
          simp only [List.flatMap_cons, Tree.line, List.append_assoc, List.cons_append,
            List.nil_append] at h
          -- The name of the root ends at the colon, and the tree where it is closed.
          obtain ⟨-, htrees⟩ := valueName_unique (delimited_cons rfl _) (delimited_cons rfl _) h
          obtain ⟨htree, hothers⟩ := Tree.text_unique t u
            (List.cons.inj (List.cons.inj htrees).2).2
          have hsize : t.size = u.size := by
            have ht := Tree.pos_renumber n t
            have hu := Tree.pos_renumber n u
            rw [htree n] at ht
            omega
          rw [Tree.renumberAll, Tree.renumberAll, htree n, hsize, ih us (List.cons.inj hothers).2]

/-- The numbers in a recovered forest are those of the running order. -/
theorem Forest.renumberAll_ofBlock {b : Block} {uses : UseTable} {f : Forest}
    (h : Forest.ofBlock b uses = .ok f) :
    Tree.renumberAll 0 f.roots.toList = f.roots.toList := by
  have horder := Forest.postorder_ofBlock h
  have hlength : Tree.totalSize f.roots.toList = b.length := by
    rw [← Tree.length_flatMap_postorder, horder, List.length_range]
  refine Tree.renumberAll_self _ 0 ?_
  rw [horder, hlength, List.range_eq_range']

/-- A printed forest determines the forest and its block. Let two blocks have forests, each under
some use table, and let the texts of the forests be equal. Then the forests are equal, with the
positions of nested trees that the text does not show, and so are the blocks. -/
theorem Forest.text_determines {b b' : Block} {uses uses' : UseTable} {f f' : Forest}
    (h : Forest.ofBlock b uses = .ok f) (h' : Forest.ofBlock b' uses' = .ok f')
    (htext : f.text = f'.text) : f = f' ∧ b = b' := by
  have hlines : f.roots.toList.flatMap Tree.line = f'.roots.toList.flatMap Tree.line := by
    rw [← Forest.toList_text, htext, Forest.toList_text]
  have hroots : f.roots.toList = f'.roots.toList := by
    have hsame := Tree.lines_unique _ _ hlines 0
    rwa [Forest.renumberAll_ofBlock h, Forest.renumberAll_ofBlock h'] at hsame
  constructor
  · cases f
    cases f'
    exact congrArg Forest.mk (Array.toList_inj.mp hroots)
  · rw [← Block.ofTrees_roots h, hroots, Block.ofTrees_roots h']

/-- A block that reads its first value twice, once inside a nested difference. -/
def Block.readTwice : Block :=
  ⟨[⟨.loadLocal, [.imm 0]⟩, ⟨.neg, [.ref 0]⟩, ⟨.sub, [.imm (-5), .ref 1]⟩,
    ⟨.mul, [.ref 0, .ref 2]⟩]⟩

/-- The theorem at that block, under its own table and under one with other counts. -/
theorem Forest.text_determines_readTwice :
    ∃ f f', Forest.ofBlock .readTwice ⟨#[2, 1, 1, 0]⟩ = .ok f ∧
      Forest.ofBlock .readTwice ⟨#[7, 1, 1, 4]⟩ = .ok f' ∧
      f.text = "v0: (load_local 0)\nv3: (mul v0 (sub -5 (neg v0)))\n" ∧
      f'.text = "v0: (load_local 0)\nv3: (mul v0 (sub -5 (neg v0)))\n" ∧ f = f' := by
  obtain ⟨f, hf, htext⟩ : ∃ f, Forest.ofBlock .readTwice ⟨#[2, 1, 1, 0]⟩ = .ok f ∧
      f.text = "v0: (load_local 0)\nv3: (mul v0 (sub -5 (neg v0)))\n" :=
    ⟨_, rfl, by decide +kernel⟩
  obtain ⟨f', hf', htext'⟩ : ∃ f, Forest.ofBlock .readTwice ⟨#[7, 1, 1, 4]⟩ = .ok f ∧
      f.text = "v0: (load_local 0)\nv3: (mul v0 (sub -5 (neg v0)))\n" :=
    ⟨_, rfl, by decide +kernel⟩
  have hsame := Forest.text_determines hf hf' (htext.trans htext'.symm)
  exact ⟨f, f', hf, hf', htext, htext', hsame.1⟩

end StackForm

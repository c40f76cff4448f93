import StackForm.Proofs.Postorder

/-!
# `StackForm.Proofs.Traversal`: what the traversals of a tree visit

The traversals of `StackForm.Tree` serve a work list. `Tree.visit` follows the tree instead: a
node, and then what is below its operands, taken from the left or from the right. The two agree
(`Tree.preorderOf_eq`, `Tree.properSubtreesOf_eq`), because taking a tree off a work list and
putting its subtrees there leaves unchanged what is still to be visited.

That a visit misses nothing and repeats nothing is said by places. A node of a tree has an
address, the numbers of the operands on the way down to it (`Tree.at?`), and a list `Enumerates`
the tree if it holds what there is at each address, each address once and in order. The order is
lexicographic. It puts a node before all that is below it, and of two nodes that part at some
operand it puts first the one on the side that the visit starts from.

`Tree.traversals_exact` collects this for the preorder, the proper subtrees and the references.
-/

set_option autoImplicit false

namespace StackForm

variable {κ : Type}

/-! ### Visits -/

/-- The side from which the operands of a node are taken. -/
inductive Side where
  | left
  | right

namespace Side

/-- What comes of the first operand and what comes of those to its right, in the order of the
side. -/
def join {α : Type} : Side → List α → List α → List α
  | left, first, others => first ++ others
  | right, first, others => others ++ first

/-- Whether operand number `j` is taken before operand number `k`. -/
def Before : Side → Nat → Nat → Prop
  | left, j, k => j < k
  | right, j, k => j > k

/-- Whichever side comes first, the same elements are listed. -/
theorem join_perm {α : Type} (s : Side) (first others : List α) :
    (s.join first others).Perm (first ++ others) := by
  cases s with
  | left => exact List.Perm.refl _
  | right => exact List.perm_append_comm

end Side

mutual

/-- The nodes of a tree, a node before those below it and its operands from one side. -/
def Tree.visit (s : Side) : Tree κ → List (Tree κ)
  | .node pos op cs => .node pos op cs :: Child.visitOf s cs

/-- The nodes in an operand's place. -/
def Child.visit (s : Side) : Child κ → List (Tree κ)
  | .imm _ => []
  | .ref _ => []
  | .nested t => t.visit s

/-- The nodes in the places of a list of operands. -/
def Child.visitOf (s : Side) : List (Child κ) → List (Tree κ)
  | [] => []
  | c :: cs => s.join (c.visit s) (Child.visitOf s cs)

end

/-- A visit starts with the tree itself. -/
theorem Tree.visit_eq (s : Side) (t : Tree κ) : t.visit s = t :: Child.visitOf s t.children := by
  cases t
  rfl

mutual

/-- A visit meets the nodes of a tree, from either side. -/
theorem Tree.visit_perm (s : Side) : (t : Tree κ) → (t.visit s).Perm t.nodes
  | .node pos op cs => by
      -- The visit has the root first and the running order has it last.
      rw [Tree.visit, Tree.nodes]
      exact ((Child.visitOf_perm s cs).cons _).trans (List.perm_append_singleton _ _).symm

/-- Companion: the operands of a consumer. -/
theorem Child.visitOf_perm (s : Side) :
    (cs : List (Child κ)) → (Child.visitOf s cs).Perm (Child.nodesOf cs)
  | [] => .refl _
  | .imm _ :: cs => (s.join_perm [] _).trans (Child.visitOf_perm s cs)
  | .ref _ :: cs => (s.join_perm [] _).trans (Child.visitOf_perm s cs)
  | .nested t :: cs =>
      (s.join_perm _ _).trans ((Tree.visit_perm s t).append (Child.visitOf_perm s cs))

end

/-- From the left, operands are visited in the order of their trees. -/
theorem Child.visitOf_left (cs : List (Child κ)) :
    Child.visitOf .left cs = (cs.filterMap Child.tree?).flatMap (Tree.visit .left) := by
  induction cs with
  | nil => rfl
  | cons c cs ih =>
      cases c with
      | imm v => exact ih
      | ref r => exact ih
      | nested t =>
          show t.visit .left ++ Child.visitOf .left cs = _
          rw [ih]
          rfl

/-- From the right, the last tree comes first. -/
theorem Child.visitOf_right (cs : List (Child κ)) :
    Child.visitOf .right cs
      = (cs.filterMap Child.tree?).reverse.flatMap (Tree.visit .right) := by
  induction cs with
  | nil => rfl
  | cons c cs ih =>
      cases c with
      | imm v => exact (List.append_nil _).trans ih
      | ref r => exact (List.append_nil _).trans ih
      | nested t =>
          show Child.visitOf .right cs ++ t.visit .right
            = (t :: cs.filterMap Child.tree?).reverse.flatMap (Tree.visit .right)
          rw [ih, List.reverse_cons, List.flatMap_append, List.flatMap_singleton]

/-! ### Work lists -/

/-- A work list served left to right visits its trees one after the other. Induction along the
service: a tree is replaced by its subtrees, which are visited next anyway. -/
theorem Tree.preorderOf_eq (work : List (Tree κ)) :
    Tree.preorderOf work = (work.flatMap (Tree.visit .left)).map Tree.pos := by
  induction work using Tree.preorderOf.induct with
  | case1 => simp [Tree.preorderOf]
  | case2 t work ih =>
      rw [Tree.preorderOf, ih, List.flatMap_append, List.flatMap_cons, Tree.visit_eq,
        Child.visitOf_left]
      rfl

/-- A work list served right to left visits its trees one after the other. -/
theorem Tree.properSubtreesOf_eq (work : List (Tree κ)) :
    Tree.properSubtreesOf work = work.flatMap (Tree.visit .right) := by
  induction work using Tree.properSubtreesOf.induct with
  | case1 => simp [Tree.properSubtreesOf]
  | case2 t work ih =>
      rw [Tree.properSubtreesOf, ih, List.flatMap_append, List.flatMap_cons, Tree.visit_eq,
        Child.visitOf_right]
      rfl

/-- The proper subtrees are what a visit from the right meets below the root. -/
theorem Tree.properSubtrees_eq (t : Tree κ) :
    t.properSubtrees = Child.visitOf .right t.children := by
  rw [Tree.properSubtrees, Tree.properSubtreesOf_eq, Child.visitOf_right]
  rfl

/-- The tree and its proper subtrees are what is visited from the right. -/
theorem Tree.cons_properSubtrees (t : Tree κ) : t :: t.properSubtrees = t.visit .right := by
  rw [Tree.properSubtrees_eq, ← Tree.visit_eq]

/-! ### Places -/

/-- The node at an address: the operands to go down by, first the one of the root. -/
def Tree.at? (t : Tree κ) : List Nat → Option (Tree κ)
  | [] => some t
  | k :: place => (t.children[k]?.bind Child.tree?).bind (·.at? place)

/-- The node at an address that starts at one of the given operands. -/
def Child.below? (cs : List (Child κ)) : List Nat → Option (Tree κ)
  | [] => none
  | k :: place => (cs[k]?.bind Child.tree?).bind (·.at? place)

/-- What reference number `k` below the node at an address carries, if operand `k` is one. -/
def Tree.leafAt? (t : Tree κ) (place : List Nat × Nat) : Option κ :=
  (t.at? place.1).bind fun u => u.children[place.2]?.bind Child.leaf?

/-- A list holds what there is at each place, one entry for a place and in the order of the
places. -/
def Enumerates {ι α : Type} (R : ι → ι → Prop) (at? : ι → Option α) (xs : List α) : Prop :=
  ∃ entries : List (ι × α), entries.Pairwise (fun d e => R d.1 e.1) ∧
    (∀ p x, (p, x) ∈ entries ↔ at? p = some x) ∧ entries.map Prod.snd = xs

namespace Enumerates

variable {ι ι' α β : Type} {R : ι → ι → Prop} {R' : ι' → ι' → Prop} {at? : ι → Option α}
  {xs : List α}

/-- Where nothing is, nothing is listed. -/
theorem nil (h : ∀ p, at? p = none) : Enumerates R at? [] := by
  refine ⟨[], .nil, ?_, rfl⟩
  intro p x
  simp [h p]

/-- Where there is one thing, it is listed. -/
theorem singleton {p : ι} {x : α} (h : ∀ q y, at? q = some y ↔ q = p ∧ y = x) :
    Enumerates R at? [x] := by
  refine ⟨[(p, x)], List.pairwise_singleton _ _, ?_, rfl⟩
  intro q y
  rw [h, List.mem_singleton, Prod.mk.injEq]

/-- Two stretches of places, all of the one before all of the other. -/
theorem append {at₁ at₂ : ι → Option α} {ys : List α} (h₁ : Enumerates R at₁ xs)
    (h₂ : Enumerates R at₂ ys) (hat : ∀ p x, at? p = some x ↔ at₁ p = some x ∨ at₂ p = some x)
    (hbefore : ∀ p q x y, at₁ p = some x → at₂ q = some y → R p q) :
    Enumerates R at? (xs ++ ys) := by
  obtain ⟨es₁, hsorted₁, hmem₁, rfl⟩ := h₁
  obtain ⟨es₂, hsorted₂, hmem₂, rfl⟩ := h₂
  refine ⟨es₁ ++ es₂, List.pairwise_append.mpr ⟨hsorted₁, hsorted₂, ?_⟩, ?_, List.map_append⟩
  · intro d hd e he
    exact hbefore d.1 e.1 d.2 e.2 ((hmem₁ _ _).mp hd) ((hmem₂ _ _).mp he)
  · intro p x
    rw [List.mem_append, hmem₁, hmem₂, hat]

/-- The same list with its places moved in order. -/
theorem move {at' : ι' → Option α} (h : Enumerates R at? xs) (f : ι → ι')
    (hf : ∀ p q, R p q → R' (f p) (f q))
    (hat : ∀ q x, at' q = some x ↔ ∃ p, f p = q ∧ at? p = some x) : Enumerates R' at' xs := by
  obtain ⟨es, hsorted, hmem, rfl⟩ := h
  refine ⟨es.map fun e => (f e.1, e.2), ?_, ?_, ?_⟩
  · exact List.pairwise_map.mpr (hsorted.imp fun hde => hf _ _ hde)
  · intro q x
    rw [hat, List.mem_map]
    constructor
    · rintro ⟨⟨p, y⟩, he, heq⟩
      cases heq
      exact ⟨p, rfl, (hmem p y).mp he⟩
    · rintro ⟨p, rfl, hp⟩
      exact ⟨(p, x), (hmem p x).mpr hp, rfl⟩
  · rw [List.map_map]
    rfl

/-- What is read off each entry is enumerated with them. -/
theorem map (h : Enumerates R at? xs) (g : α → β) :
    Enumerates R (fun p => (at? p).map g) (xs.map g) := by
  obtain ⟨es, hsorted, hmem, rfl⟩ := h
  refine ⟨es.map fun e => (e.1, g e.2), List.pairwise_map.mpr hsorted, ?_, ?_⟩
  · intro p y
    rw [Option.map_eq_some_iff, List.mem_map]
    constructor
    · rintro ⟨⟨q, x⟩, he, heq⟩
      cases heq
      exact ⟨x, (hmem q x).mp he, rfl⟩
    · rintro ⟨x, hx, rfl⟩
      exact ⟨(p, x), (hmem p x).mpr hx, rfl⟩
  · rw [List.map_map, List.map_map]
    rfl

/-- Where each entry has places of its own, these are enumerated entry by entry. -/
theorem flatMap {own : α → ι' → Option β} {ys : α → List β} (h : Enumerates R at? xs)
    (hown : ∀ x, Enumerates R' (own x) (ys x)) :
    Enumerates (Prod.Lex R R') (fun p => (at? p.1).bind (own · p.2)) (xs.flatMap ys) := by
  obtain ⟨es, hsorted, hmem, rfl⟩ := h
  obtain ⟨inner, hinner⟩ := Classical.skolem.mp hown
  refine ⟨es.flatMap fun e => (inner e.2).map fun d => ((e.1, d.1), d.2), ?_, ?_, ?_⟩
  · refine List.pairwise_flatMap.mpr ⟨?_, ?_⟩
    · intro e _
      exact List.pairwise_map.mpr ((hinner e.2).1.imp fun hd => .right e.1 hd)
    · -- Entries apart are ordered by their own places, whatever the inner ones are.
      refine hsorted.imp ?_
      intro e e' hlt d hd d' hd'
      obtain ⟨c, -, rfl⟩ := List.mem_map.mp hd
      obtain ⟨c', -, rfl⟩ := List.mem_map.mp hd'
      exact .left _ _ hlt
  · rintro ⟨p, k⟩ y
    simp only [List.mem_flatMap, List.mem_map, Option.bind_eq_some_iff]
    constructor
    · rintro ⟨⟨q, x⟩, he, ⟨j, z⟩, hd, heq⟩
      cases heq
      exact ⟨x, (hmem q x).mp he, ((hinner x).2.1 j z).mp hd⟩
    · rintro ⟨x, hx, hy⟩
      exact ⟨(p, x), (hmem p x).mpr hx, (k, y), ((hinner x).2.1 k y).mpr hy, rfl⟩
  · have heach : ∀ e : ι × α,
        ((inner e.2).map fun d => ((e.1, d.1), d.2)).map Prod.snd = ys e.2 := by
      intro e
      rw [List.map_map, ← (hinner e.2).2.2]
      rfl
    rw [List.map_flatMap, List.flatMap_map]
    simp only [heach]

/-- A list filtered is enumerated by the numbers of the elements that pass. -/
theorem filterMap (f : α → Option β) (as : List α) :
    Enumerates (· < ·) (fun k : Nat => as[k]?.bind f) (as.filterMap f) := by
  refine ⟨as.zipIdx.filterMap fun e => (f e.1).map (e.2, ·), ?_, ?_, ?_⟩
  · have hnumbers : (as.zipIdx.map Prod.snd).Pairwise (· < ·) := by
      rw [List.zipIdx_map_snd]
      exact List.pairwise_lt_range'
    refine List.pairwise_filterMap.mpr ((List.pairwise_map.mp hnumbers).imp ?_)
    intro d e hlt x hx y hy
    obtain ⟨_, -, rfl⟩ := Option.map_eq_some_iff.mp hx
    obtain ⟨_, -, rfl⟩ := Option.map_eq_some_iff.mp hy
    exact hlt
  · intro k x
    simp only [List.mem_filterMap, Option.map_eq_some_iff, Option.bind_eq_some_iff]
    constructor
    · rintro ⟨⟨a, j⟩, he, y, hy, heq⟩
      cases heq
      exact ⟨a, List.mem_zipIdx_iff_getElem?.mp he, hy⟩
    · rintro ⟨a, ha, hx⟩
      exact ⟨(a, k), List.mem_zipIdx_iff_getElem?.mpr ha, x, hx, rfl⟩
  · have heach : ∀ e : α × Nat, ((f e.1).map (e.2, ·)).map Prod.snd = f e.1 := by
      intro e
      cases f e.1 <;> rfl
    rw [List.map_filterMap]
    simp only [heach]
    show as.zipIdx.filterMap (f ∘ Prod.fst) = as.filterMap f
    rw [← List.filterMap_map, List.zipIdx_map_fst]

end Enumerates

/-! ### Visits by places -/

/-- Going one operand further at the root keeps the order of addresses. -/
theorem Side.lex_modifyHead (s : Side) {p q : List Nat} (h : List.Lex s.Before p q) :
    List.Lex s.Before (p.modifyHead (· + 1)) (q.modifyHead (· + 1)) := by
  cases h with
  | nil => exact .nil
  | cons h => exact .cons h
  | rel h =>
      refine .rel ?_
      cases s with
      | left => exact Nat.succ_lt_succ h
      | right => exact Nat.succ_lt_succ h

/-- Operands are enumerated if the first one is and the others are. The addresses of the first
one begin with 0, and those of the others with a greater number. -/
theorem Child.enumerates_cons (s : Side) (c : Child κ) (cs : List (Child κ))
    (hc : Enumerates (List.Lex s.Before) (fun p => c.tree?.bind (·.at? p)) (c.visit s))
    (hcs : Enumerates (List.Lex s.Before) (Child.below? cs) (Child.visitOf s cs)) :
    Enumerates (List.Lex s.Before) (Child.below? (c :: cs)) (Child.visitOf s (c :: cs)) := by
  have hfirst : Enumerates (List.Lex s.Before)
      (fun q => if q.head? = some 0 then Child.below? (c :: cs) q else none) (c.visit s) := by
    refine hc.move (0 :: ·) (fun p q h => .cons h) ?_
    rintro (_ | ⟨_ | k, q⟩) x <;> simp [Child.below?]
  have hothers : Enumerates (List.Lex s.Before)
      (fun q => if q.head? = some 0 then none else Child.below? (c :: cs) q)
      (Child.visitOf s cs) := by
    refine hcs.move (List.modifyHead (· + 1)) (fun p q h => s.lex_modifyHead h) ?_
    intro q x
    constructor
    · intro hq
      rcases q with _ | ⟨_ | k, q⟩
      · cases hq
      · cases hq
      · exact ⟨k :: q, rfl, hq⟩
    · rintro ⟨_ | ⟨k, p⟩, rfl, hp⟩
      · cases hp
      · exact hp
  have hat : ∀ q x, Child.below? (c :: cs) q = some x ↔
      (if q.head? = some 0 then Child.below? (c :: cs) q else none) = some x ∨
      (if q.head? = some 0 then none else Child.below? (c :: cs) q) = some x := by
    intro q x
    split <;> simp
  -- An address of the first operand and one of another part at the root.
  have hapart : ∀ p q x y, (if p.head? = some 0 then Child.below? (c :: cs) p else none) = some x →
      (if q.head? = some 0 then none else Child.below? (c :: cs) q) = some y →
      ∃ p' k q', p = 0 :: p' ∧ q = (k + 1) :: q' := by
    intro p q x y hp hq
    rcases p with _ | ⟨_ | j, p⟩
    · cases hp
    · rcases q with _ | ⟨_ | k, q⟩
      · cases hq
      · cases hq
      · exact ⟨p, k, q, rfl, rfl⟩
    · cases hp
  cases s with
  | left =>
      refine hfirst.append hothers hat ?_
      intro p q x y hp hq
      obtain ⟨p, k, q, rfl, rfl⟩ := hapart p q x y hp hq
      exact .rel (Nat.succ_pos k)
  | right =>
      refine hothers.append hfirst (fun q x => (hat q x).trans or_comm) ?_
      intro q p y x hq hp
      obtain ⟨p, k, q, rfl, rfl⟩ := hapart p q x y hp hq
      exact .rel (Nat.succ_pos k)

mutual

/-- A visit of a tree enumerates its nodes by their addresses. -/
theorem Tree.enumerates_visit (s : Side) :
    (t : Tree κ) → Enumerates (List.Lex s.Before) t.at? (t.visit s)
  | .node pos op cs => by
      -- The root has the empty address, which comes before all others.
      have hroot : Enumerates (List.Lex s.Before)
          (fun p => if p = [] then some (Tree.node pos op cs) else none)
          [.node pos op cs] := by
        refine .singleton (p := []) ?_
        intro q y
        by_cases hq : q = [] <;> simp [hq, eq_comm]
      refine hroot.append (Child.enumerates_visitOf s cs) ?_ ?_
      · rintro (_ | ⟨k, p⟩) x
        · simp [Tree.at?, Child.below?]
        · simp [Tree.at?, Child.below?, Tree.children]
      · rintro (_ | ⟨j, p⟩) (_ | ⟨k, q⟩) x y hp hq
        · cases hq
        · exact .nil
        · cases hq
        · cases hp

/-- Companion: the operands of a consumer. -/
theorem Child.enumerates_visitOf (s : Side) :
    (cs : List (Child κ)) →
      Enumerates (List.Lex s.Before) (Child.below? cs) (Child.visitOf s cs)
  | [] => .nil fun p => by cases p <;> rfl
  | .imm v :: cs =>
      Child.enumerates_cons s (.imm v) cs (.nil fun _ => rfl) (Child.enumerates_visitOf s cs)
  | .ref r :: cs =>
      Child.enumerates_cons s (.ref r) cs (.nil fun _ => rfl) (Child.enumerates_visitOf s cs)
  | .nested t :: cs =>
      Child.enumerates_cons s (.nested t) cs (Tree.enumerates_visit s t)
        (Child.enumerates_visitOf s cs)

end

/-- The traversals are exact, for a tree of any shape.

* The preorder is the positions of the nodes as a recursive visit from the left meets them.
* The proper subtrees are what a recursive visit from the right meets below the root. Each
  address below the root has one of them, in the order in which a node comes before those below
  it and later operands come first.
* The preorder is a permutation of the root's position and those of the proper subtrees.
* The references are those of the root, then those of the proper subtrees, node by node. Each
  operand that is a reference gives one of them. -/
theorem Tree.traversals_exact (t : Tree κ) :
    t.preorder = (t.visit .left).map Tree.pos ∧
    Enumerates (List.Lex (· < ·)) (fun p => (t.at? p).map Tree.pos) t.preorder ∧
    t.properSubtrees = Child.visitOf .right t.children ∧
    Enumerates (List.Lex (· > ·)) (Child.below? t.children) t.properSubtrees ∧
    t.preorder.Perm (t.pos :: t.properSubtrees.map Tree.pos) ∧
    t.refs = (t :: t.properSubtrees).flatMap Tree.leaves ∧
    Enumerates (Prod.Lex (List.Lex (· > ·)) (· < ·)) t.leafAt? t.refs := by
  have hpreorder : t.preorder = (t.visit .left).map Tree.pos := by
    rw [Tree.preorder, Tree.preorderOf_eq, List.flatMap_singleton]
  refine ⟨hpreorder, ?_, t.properSubtrees_eq, ?_, ?_, rfl, ?_⟩
  · rw [hpreorder]
    exact (Tree.enumerates_visit .left t).map Tree.pos
  · rw [Tree.properSubtrees_eq]
    exact Child.enumerates_visitOf .right t.children
  · -- Both visits meet the nodes of the tree.
    rw [hpreorder, ← List.map_cons, Tree.cons_properSubtrees]
    exact ((Tree.visit_perm .left t).trans (Tree.visit_perm .right t).symm).map Tree.pos
  · rw [Tree.refs, Tree.cons_properSubtrees]
    exact (Tree.enumerates_visit .right t).flatMap fun u => .filterMap Child.leaf? u.children

end StackForm

import Mathlib.Data.Finset.Card
import Mathlib.Data.Finset.Dedup
import StackForm.Proofs.Uses

/-!
# `StackForm.Proofs.Refusal`: what the passes refuse, under any use table

Recovering trees and emitting code take the check of a block on trust. Given a table that counts
the uses of another block, or a block that was never checked, they still refuse what they cannot
work with: a table of the wrong size, and a reference that does not go backward.

The references of a plan that do not go backward are `Block.dangling`, in the order in which the
plan is read: the last tree first, and in a tree the operands right to left, each nested tree in
the place of its operand. That order depends on the table, and so does the reference that is
reported. Which references there are does not (`Block.mem_dangling`), since every plan holds every
operand of the block.

`Reports` is what both passes do with that list. A reader of a plan ends well only if the list is
empty, and otherwise fails with its first entry, unless it has failed before for a reason of its
own. Recovering trees has no such reason. Emission has one, that it runs out of slots
(`OutOfSlots`), which takes more values to keep than there are numbers for them.
-/

set_option autoImplicit false

namespace StackForm

/-! ### Dangling references -/

/-- Operand number `k` of the instruction at `pos` refers to a position that is not before it. -/
def Block.Dangles (b : Block) (pos k target : Nat) : Prop :=
  ∃ i : Instr, b.instrs[pos]? = some i ∧ i.operands[k]? = some (.ref target) ∧ pos ≤ target

mutual

/-- The complaints in a tree of a plan, in the order in which the tree is read. -/
def Tree.dangling : Tree Verdict → List LowerFault
  | .node pos _ cs => Child.danglingOf pos cs

/-- The complaints about an operand of the consumer at `pos`. -/
def Child.dangling (pos : Nat) : Child Verdict → List LowerFault
  | .imm _ => []
  | .ref (.kept _ _) => []
  | .ref (.dangling operand target) => [.invalidReference pos operand target]
  | .nested t => t.dangling

/-- The complaints about the operands of the consumer at `pos`, those about the last operand
first. -/
def Child.danglingOf (pos : Nat) : List (Child Verdict) → List LowerFault
  | [] => []
  | c :: cs => Child.danglingOf pos cs ++ c.dangling pos

end

/-- The complaints in the plan of a block, in the order in which the plan is read. -/
def Block.dangling (b : Block) (uses : UseTable) : List LowerFault :=
  (b.plan uses).reverse.flatMap Tree.dangling

/-- A consumer at `pos` with the given leaves complains about one of its operands. -/
def Verdict.Complaint (pos : Nat) (leaves : List Verdict) (f : LowerFault) : Prop :=
  ∃ operand target, f = .invalidReference pos operand target ∧ .dangling operand target ∈ leaves

mutual

/-- The complaints in a tree are those of its nodes. -/
theorem Tree.mem_dangling (f : LowerFault) :
    (t : Tree Verdict) → (f ∈ t.dangling ↔ ∃ u ∈ t.nodes, Verdict.Complaint u.pos u.leaves f)
  | .node pos op cs => by
      simp only [Tree.dangling, Child.mem_danglingOf f pos cs, Tree.nodes, List.mem_append,
        List.mem_singleton]
      constructor
      · rintro (hself | ⟨u, hu, hfault⟩)
        · exact ⟨.node pos op cs, Or.inr rfl, hself⟩
        · exact ⟨u, Or.inl hu, hfault⟩
      · rintro ⟨u, hu | rfl, hfault⟩
        · exact Or.inr ⟨u, hu, hfault⟩
        · exact Or.inl hfault

/-- Companion: the operands of the consumer at `pos`. -/
theorem Child.mem_danglingOf (f : LowerFault) (pos : Nat) :
    (cs : List (Child Verdict)) → (f ∈ Child.danglingOf pos cs ↔
      Verdict.Complaint pos (cs.filterMap Child.leaf?) f ∨
        ∃ u ∈ Child.nodesOf cs, Verdict.Complaint u.pos u.leaves f)
  | [] => by simp [Child.danglingOf, Child.nodesOf, Verdict.Complaint]
  | .imm v :: cs => by
      simp only [Child.danglingOf, Child.dangling, List.append_nil, Child.mem_danglingOf f pos cs,
        List.filterMap_cons, Child.leaf?, Child.nodesOf, Child.nodes, List.nil_append]
  | .ref (.kept target reason) :: cs => by
      simp only [Child.danglingOf, Child.dangling, List.append_nil, Child.mem_danglingOf f pos cs,
        List.filterMap_cons, Child.leaf?, Child.nodesOf, Child.nodes, List.nil_append,
        Verdict.Complaint, List.mem_cons, reduceCtorEq, false_or]
  | .ref (.dangling operand target) :: cs => by
      simp only [Child.danglingOf, Child.dangling, List.mem_append, Child.mem_danglingOf f pos cs,
        List.filterMap_cons, Child.leaf?, Child.nodesOf, Child.nodes, List.nil_append,
        Verdict.Complaint, List.mem_cons, Verdict.dangling.injEq, List.not_mem_nil, or_false]
      constructor
      · rintro ((⟨k, a, hf, hleaf⟩ | hbelow) | hf)
        · exact Or.inl ⟨k, a, hf, Or.inr hleaf⟩
        · exact Or.inr hbelow
        · exact Or.inl ⟨operand, target, hf, Or.inl ⟨rfl, rfl⟩⟩
      · rintro (⟨k, a, hf, ⟨rfl, rfl⟩ | hleaf⟩ | hbelow)
        · exact Or.inr hf
        · exact Or.inl (Or.inl ⟨k, a, hf, hleaf⟩)
        · exact Or.inl (Or.inr hbelow)
  | .nested t :: cs => by
      simp only [Child.danglingOf, Child.dangling, List.mem_append, Tree.mem_dangling f t,
        Child.mem_danglingOf f pos cs, List.filterMap_cons, Child.leaf?, Child.nodesOf, Child.nodes]
      constructor
      · rintro ((hself | ⟨u, hu, hfault⟩) | ⟨u, hu, hfault⟩)
        · exact Or.inl hself
        · exact Or.inr ⟨u, Or.inr hu, hfault⟩
        · exact Or.inr ⟨u, Or.inl hu, hfault⟩
      · rintro (hself | ⟨u, hu | hu, hfault⟩)
        · exact Or.inl (Or.inl hself)
        · exact Or.inr ⟨u, hu, hfault⟩
        · exact Or.inl (Or.inr ⟨u, hu, hfault⟩)

end

/-- The folding rule complains about a reference exactly when it does not go backward. -/
theorem Child.verdict?_eq_dangling_iff {uses : UseTable} {pos k target : Nat}
    {cs : List (Child Verdict)} {j a : Nat} :
    Child.verdict? uses pos cs k target = some (.dangling j a) ↔
      pos ≤ target ∧ k = j ∧ target = a := by
  rw [Child.verdict?, Consumer.verdict?]
  split
  · rename_i hle
    simp [hle]
  · rename_i hlt
    -- The other branches give a verdict of another kind, or none.
    split
    · simp [hlt]
    · split
      · simp [hlt]
      · split <;> simp [hlt]

/-- The complaints of a decided node are about its references that do not go backward. -/
theorem Child.Decided.mem_leaves_iff {uses : UseTable} {pos k : Nat} {os : List Operand}
    {cs : List (Child Verdict)} (h : Child.Decided uses pos k os cs) {j a : Nat} :
    .dangling j a ∈ cs.filterMap Child.leaf? ↔ (.ref a, j) ∈ os.zipIdx k ∧ pos ≤ a := by
  induction h with
  | nil k => simp
  | @imm k os cs v rest ih =>
      have hleaves : (Child.imm v :: cs).filterMap Child.leaf? = cs.filterMap Child.leaf? := rfl
      rw [hleaves, ih, List.zipIdx_cons, List.mem_cons]
      simp
  | @ref k os cs target v rest verdict ih =>
      have hleaves : (Child.ref v :: cs).filterMap Child.leaf? =
          v :: cs.filterMap Child.leaf? := rfl
      have hhere : .dangling j a = v ↔ pos ≤ target ∧ k = j ∧ target = a := by
        rw [← Child.verdict?_eq_dangling_iff, verdict, Option.some.injEq, eq_comm]
      rw [hleaves, List.mem_cons, ih, hhere, List.zipIdx_cons, List.mem_cons, Prod.mk.injEq,
        Operand.ref.injEq]
      constructor
      · rintro (⟨hle, rfl, rfl⟩ | ⟨hmem, hle⟩)
        · exact ⟨Or.inl ⟨rfl, rfl⟩, hle⟩
        · exact ⟨Or.inr hmem, hle⟩
      · rintro ⟨⟨rfl, rfl⟩ | hmem, hle⟩
        · exact Or.inl ⟨hle, rfl, rfl⟩
        · exact Or.inr ⟨hmem, hle⟩
  | @nested k os cs t rest folds ih =>
      have hleaves : (Child.nested t :: cs).filterMap Child.leaf? = cs.filterMap Child.leaf? := rfl
      -- What folds stands before its consumer.
      have hlt := ((Child.verdict?_eq_none_iff uses pos cs k t.pos).mp folds).1
      rw [hleaves, ih, List.zipIdx_cons, List.mem_cons, Prod.mk.injEq, Operand.ref.injEq]
      constructor
      · rintro ⟨hmem, hle⟩
        exact ⟨Or.inr hmem, hle⟩
      · rintro ⟨⟨rfl, rfl⟩ | hmem, hle⟩
        · omega
        · exact ⟨hmem, hle⟩

/-- Whatever the table, the complaints in a plan are about the references of the block that do not
go backward, and about all of them. -/
theorem Block.mem_dangling {b : Block} {uses : UseTable} {f : LowerFault} :
    f ∈ b.dangling uses ↔
      ∃ pos k target, f = .invalidReference pos k target ∧ b.Dangles pos k target := by
  simp only [Block.dangling, List.mem_flatMap, List.mem_reverse, Tree.mem_dangling]
  constructor
  · rintro ⟨t, ht, u, hu, k, target, rfl, hleaf⟩
    obtain ⟨i, hi, -, hdec⟩ := planned_of_mem ht hu
    obtain ⟨hmem, hle⟩ := hdec.mem_leaves_iff.mp hleaf
    exact ⟨u.pos, k, target, rfl, i, hi, List.mem_zipIdx_iff_getElem?.mp hmem, hle⟩
  · rintro ⟨pos, k, target, rfl, i, hi, hk, hle⟩
    -- Every position of the block has a node in the plan.
    have hpos : pos ∈ (b.plan uses).flatMap Tree.postorder := by
      rw [b.plan_postorder, List.mem_range]
      exact (List.getElem?_eq_some_iff.mp hi).1
    obtain ⟨t, ht, hpost⟩ := List.mem_flatMap.mp hpos
    obtain ⟨u, hu, rfl⟩ := List.mem_map.mp hpost
    obtain ⟨i', hi', -, hdec⟩ := planned_of_mem ht hu
    obtain rfl : i = i' := Option.some.inj (hi.symm.trans hi')
    refine ⟨t, ht, u, hu, k, target, rfl, ?_⟩
    exact hdec.mem_leaves_iff.mpr ⟨List.mem_zipIdx_iff_getElem?.mpr hk, hle⟩

/-! ### Reading a plan -/

/-- A computation that meets the given faults in this order. It ends well only if there are none,
and then with a result as in `post`. Otherwise it fails with the first of them, or before with a
fault of its own. -/
def Reports {α : Type} (own : LowerFault → Prop) (faults : List LowerFault) (post : α → Prop) :
    Except LowerFault α → Prop
  | .ok a => faults = [] ∧ post a
  | .error f => own f ∨ faults.head? = some f

namespace Reports

variable {α β : Type} {own : LowerFault → Prop} {faults faults' : List LowerFault}
  {post : α → Prop} {post' : β → Prop} {x : Except LowerFault α}

/-- Of two computations one after the other, the first one's faults come first. -/
theorem bind {next : α → Except LowerFault β} (hx : Reports own faults post x)
    (hnext : ∀ a, post a → Reports own faults' post' (next a)) :
    Reports own (faults ++ faults') post' (x >>= next) := by
  cases x with
  | error f =>
      rcases hx with hown | hhead
      · exact Or.inl hown
      · refine Or.inr ?_
        rw [List.head?_append, hhead]
        rfl
  | ok a =>
      obtain ⟨rfl, ha⟩ := hx
      exact hnext a ha

/-- A last computation without faults of its own or of the plan. -/
theorem bind_pure {finish : α → β} (hx : Reports own faults post x)
    (hpost : ∀ a, post a → post' (finish a)) :
    Reports own faults post' (x >>= fun a => pure (finish a)) := by
  rw [← List.append_nil faults]
  exact hx.bind fun a ha => ⟨rfl, hpost a ha⟩

/-- What is reported of a computation that ends well is that its result has the property. -/
theorem post_of_ok (hx : Reports own faults post x) {a : α} (h : x = .ok a) : post a := by
  rw [h] at hx
  exact hx.2

/-- Without faults of its own, a computation ends well exactly if there are no faults. -/
theorem exists_ok_iff (hx : Reports own faults post x) (hown : ∀ f, x = .error f → ¬ own f) :
    (∃ a, x = .ok a) ↔ faults = [] := by
  cases x with
  | error f =>
      have hhead := hx.resolve_left (hown f rfl)
      constructor
      · rintro ⟨a, ha⟩
        cases ha
      · rintro rfl
        cases hhead
  | ok a => exact ⟨fun _ => hx.1, fun _ => ⟨a, rfl⟩⟩

/-- Without faults of its own, a computation fails exactly with the first of the faults. -/
theorem error_iff (hx : Reports own faults post x) (hown : ∀ f, x = .error f → ¬ own f)
    (f : LowerFault) : x = .error f ↔ faults.head? = some f := by
  cases x with
  | error g =>
      rw [hx.resolve_left (hown g rfl), Except.error.injEq, Option.some.injEq]
  | ok a =>
      rw [hx.1]
      constructor <;> (intro h; cases h)

end Reports

/-! ### Recovering trees -/

/-- A pass without faults of its own. -/
def NoFault (_ : LowerFault) : Prop := False

mutual

/-- The check on the references of a tree fails at its last dangling one, if there is any. -/
theorem Tree.erase_reports :
    (t : Tree Verdict) → Reports NoFault t.dangling (fun _ => True) t.erase
  | .node pos _ cs => (Child.eraseAll_reports pos cs).bind_pure fun _ _ => trivial

/-- The check on a child fails if the child is a dangling reference or a tree with one. -/
theorem Child.erase_reports (pos : Nat) :
    (c : Child Verdict) → Reports NoFault (c.dangling pos) (fun _ => True) (c.erase pos)
  | .imm _ => ⟨rfl, trivial⟩
  | .ref (.kept _ _) => ⟨rfl, trivial⟩
  | .ref (.dangling _ _) => Or.inr rfl
  | .nested t => t.erase_reports.bind_pure fun _ _ => trivial

/-- Companion: the operands to the right are met first. -/
theorem Child.eraseAll_reports (pos : Nat) :
    (cs : List (Child Verdict)) →
      Reports NoFault (Child.danglingOf pos cs) (fun _ => True) (Child.eraseAll pos cs)
  | [] => ⟨rfl, trivial⟩
  | c :: cs => (Child.eraseAll_reports pos cs).bind fun _ _ =>
      (Child.erase_reports pos c).bind_pure fun _ _ => trivial

end

/-- The check on trees goes from the last to the first, and so do the faults. -/
theorem Tree.eraseAll_reports (ts : List (Tree Verdict)) :
    Reports NoFault (ts.reverse.flatMap Tree.dangling) (fun _ => True) (Tree.eraseAll ts) := by
  induction ts with
  | nil => exact ⟨rfl, trivial⟩
  | cons t ts ih =>
      rw [Tree.eraseAll, List.foldrM_cons, List.reverse_cons, List.flatMap_append,
        List.flatMap_singleton]
      exact ih.bind fun _ _ => t.erase_reports.bind_pure fun _ _ => trivial

/-- Folding a block fails at a dangling reference, if there is any, and at nothing else. -/
theorem Forest.ofBlock_reports {b : Block} {uses : UseTable} (h : uses.size = b.length) :
    Reports NoFault (b.dangling uses) (fun _ => True) (Forest.ofBlock b uses) := by
  have hfits : uses.checkFits b = .ok () := if_pos h
  rw [Forest.ofBlock, hfits]
  exact (Tree.eraseAll_reports (b.plan uses)).bind_pure fun _ _ => trivial

/-! ### Emitting code -/

/-- There are not enough numbers from `base` on for a slot for each of the values `among`. -/
def OutOfSlots (base : Nat) (among : Finset Nat) (f : LowerFault) : Prop :=
  f = .slotOverflow ∧ indexLimit ≤ base + among.card

/-- The slots of an emission are numbered from `base` on, one for each of some of the values
`among`. -/
def Emission.Numbered (base : Nat) (among : Finset Nat) (e : Emission) : Prop :=
  ∃ given ⊆ among, (∀ a : Nat, e.slots[a]?.isSome ↔ a ∈ given) ∧ e.next = base + given.card

/-- At its start an emission has given no slot. -/
theorem Emission.numbered_start (base : Nat) (among : Finset Nat) :
    ({ next := base } : Emission).Numbered base among :=
  ⟨∅, Finset.empty_subset among, by simp, rfl⟩

namespace EmitContext

variable {ctx : EmitContext} {base : Nat} {among : Finset Nat}

/-- Reading a value back fails only for the first reader, and if there is no number for the slot
after the new one. -/
theorem keep_eq_error {consumer target : Nat} {reason : KeepReason} {e : Emission} {f : LowerFault}
    (h : ctx.keep consumer target reason e = .error f) :
    f = .slotOverflow ∧ e.slots[target]? = none ∧ indexLimit ≤ e.next + 1 := by
  rw [keep, slotFor] at h
  cases hslot : e.slots[target]? with
  | some s =>
      rw [hslot] at h
      cases h
  | none =>
      rw [hslot] at h
      by_cases hroom : e.next + 1 < indexLimit
      · simp only [hroom, if_true] at h
        cases h
      · simp only [hroom, if_false] at h
        cases h
        exact ⟨rfl, rfl, Nat.le_of_not_lt hroom⟩

/-- Reading one of the values back runs out of slots only if there are not enough for all. -/
theorem keep_reports {consumer target : Nat} {reason : KeepReason} {e : Emission}
    (he : e.Numbered base among) (htarget : target ∈ among) :
    Reports (OutOfSlots base among) [] (Emission.Numbered base among)
      (ctx.keep consumer target reason e) := by
  obtain ⟨given, hsub, hgiven, hnext⟩ := he
  have hinsert : insert target given ⊆ among := Finset.insert_subset htarget hsub
  -- A value without a slot is not among those that were given one.
  have hfresh : e.slots[target]? = none → (insert target given).card = given.card + 1 := by
    intro hnone
    refine Finset.card_insert_of_notMem fun hmem => ?_
    have hsome := (hgiven target).mpr hmem
    rw [hnone] at hsome
    cases hsome
  cases hk : ctx.keep consumer target reason e with
  | error f =>
      obtain ⟨hf, hnone, hlimit⟩ := keep_eq_error hk
      refine Or.inl ⟨hf, ?_⟩
      have hcard := Finset.card_le_card hinsert
      rw [hfresh hnone] at hcard
      omega
  | ok e' =>
      refine ⟨rfl, ?_⟩
      have hslots := keep_slots hk
      rcases keep_cases hk with ⟨slot, hold, -, -, hnext'⟩ | ⟨hnone, -, -, -, hnext'⟩
      · refine ⟨given, hsub, fun a => ?_, by rw [hnext', hnext]⟩
        rw [hslots, hgiven]
        refine or_iff_left_of_imp ?_
        rintro rfl
        exact (hgiven a).mp (by rw [hold]; rfl)
      · refine ⟨insert target given, hinsert, fun a => ?_, ?_⟩
        · rw [hslots, hgiven, Finset.mem_insert, or_comm]
        · rw [hfresh hnone, hnext', hnext, Nat.add_assoc]

mutual

/-- Emitting a tree whose kept values are among the given ones. -/
theorem emitTree_reports :
    (t : Tree Verdict) → (∀ a ∈ t.kept, a ∈ among) → {consumer : Option Nat} → {e : Emission} →
      e.Numbered base among →
      Reports (OutOfSlots base among) t.dangling (Emission.Numbered base among)
        (ctx.emitTree consumer t e)
  | .node pos op cs, hkept, consumer, e, ⟨given, hsub, hgiven, hnext⟩ => by
      -- Taking up the instruction changes neither the slots nor the next number.
      refine emitChildren_reports cs hkept ⟨given, hsub, ?_, ?_⟩
      · rw [enter_slots]
        exact hgiven
      · rw [enter_next]
        exact hnext

/-- Emission of a child fails where the child dangles, or where slots run out. -/
theorem emitChild_reports {pos : Nat} :
    (c : Child Verdict) → (∀ a ∈ c.kept, a ∈ among) → {e : Emission} → e.Numbered base among →
      Reports (OutOfSlots base among) (c.dangling pos) (Emission.Numbered base among)
        (ctx.emitChild pos c e)
  | .imm _, _, _, he => ⟨rfl, he⟩
  | .ref (.kept target _), hkept, _, he =>
      keep_reports he (hkept target (List.mem_singleton.mpr rfl))
  | .ref (.dangling _ _), _, _, _ => Or.inr rfl
  | .nested t, hkept, _, he => emitTree_reports t hkept he

/-- Emission of children goes from the last to the first, and so do the faults. -/
theorem emitChildren_reports {pos : Nat} :
    (cs : List (Child Verdict)) → (∀ a ∈ Child.keptOf cs, a ∈ among) → {e : Emission} →
      e.Numbered base among →
      Reports (OutOfSlots base among) (Child.danglingOf pos cs) (Emission.Numbered base among)
        (ctx.emitChildren pos cs e)
  | [], _, _, he => ⟨rfl, he⟩
  | c :: cs, hkept, _, he =>
      (emitChildren_reports cs (fun a ha => hkept a (List.mem_append_right _ ha)) he).bind
        fun _ he' => emitChild_reports c (fun a ha => hkept a (List.mem_append_left _ ha)) he'

end

/-- Emission of trees fails at a dangling reference or where slots run out, whichever comes
first. -/
theorem emitAll_reports (ts : List (Tree Verdict)) (hkept : ∀ t ∈ ts, ∀ a ∈ t.kept, a ∈ among)
    {e : Emission} (he : e.Numbered base among) :
    Reports (OutOfSlots base among) (ts.reverse.flatMap Tree.dangling)
      (Emission.Numbered base among) (ctx.emitAll ts e) := by
  induction ts with
  | nil => exact ⟨rfl, he⟩
  | cons t ts ih =>
      rw [emitAll, List.foldrM_cons, List.reverse_cons, List.flatMap_append,
        List.flatMap_singleton]
      have hts := ih fun u hu => hkept u (List.mem_cons_of_mem _ hu)
      exact hts.bind fun _ he' => emitTree_reports t (hkept t (List.mem_cons_self ..)) he'

end EmitContext

/-- Emission of a block fails at a dangling reference or where slots run out, and at nothing
else. -/
theorem Block.emit_reports {b : Block} {uses : UseTable} {among : Finset Nat} (opts : Options)
    (hsize : uses.size = b.length) (hkept : ∀ t ∈ b.plan uses, ∀ a ∈ t.kept, a ∈ among) :
    Reports (OutOfSlots (b.slotBase opts) among) (b.dangling uses) (fun _ => True)
      (b.emit uses opts) := by
  have hfits : uses.checkFits b = .ok () := if_pos hsize
  rw [Block.emit, Block.emission, hfits]
  exact (EmitContext.emitAll_reports (b.plan uses) hkept
    (Emission.numbered_start _ among)).bind_pure fun _ _ => trivial

/-! ### Both passes -/

/-- What a plan keeps is referred to in the block. -/
theorem Block.kept_among_refs (b : Block) (uses : UseTable) :
    ∀ t ∈ b.plan uses, ∀ a ∈ t.kept, a ∈ b.refs.toFinset := by
  intro t ht a ha
  have hcount := b.count_refs uses a
  have hkept : 0 < (b.keptRefs uses).count a :=
    List.count_pos_iff.mpr (mem_keptRefs.mpr ⟨t, ht, ha⟩)
  exact List.mem_toFinset.mpr (List.count_pos_iff.mp (by omega))

/-- Nothing dangles in a well-formed block. -/
theorem Block.WellFormed.not_dangles {b : Block} (h : b.WellFormed) (pos k target : Nat) :
    ¬ b.Dangles pos k target := by
  rintro ⟨i, hi, hk, hle⟩
  have hlt := (h.refs pos i target hi (List.mem_of_getElem? hk)).1
  omega

namespace Block

variable {b : Block} {uses : UseTable} {opts : Options}

/-- The list of dangling references is empty if and only if there is none. -/
theorem dangling_eq_nil_iff : b.dangling uses = [] ↔ ¬ ∃ pos k target, b.Dangles pos k target := by
  rw [List.eq_nil_iff_forall_not_mem]
  constructor
  · rintro h ⟨pos, k, target, hdangles⟩
    exact h _ (mem_dangling.mpr ⟨pos, k, target, rfl, hdangles⟩)
  · intro h f hf
    obtain ⟨pos, k, target, -, hdangles⟩ := mem_dangling.mp hf
    exact h ⟨pos, k, target, hdangles⟩

/-- A table of another size is refused by both passes. -/
theorem passes_of_size_ne (opts : Options) (h : uses.size ≠ b.length) :
    Forest.ofBlock b uses = .error (.tableMismatch b.length uses.size) ∧
      b.emit uses opts = .error (.tableMismatch b.length uses.size) := by
  have hfits : uses.checkFits b = .error (.tableMismatch b.length uses.size) := if_neg h
  rw [Forest.ofBlock, emit, emission, hfits]
  exact ⟨rfl, rfl⟩

/-- Under a table of the right size, recovering trees ends well exactly if nothing dangles, and
otherwise fails with the first complaint. -/
theorem ofBlock_of_size_eq (h : uses.size = b.length) :
    ((∃ f, Forest.ofBlock b uses = .ok f) ↔ b.dangling uses = []) ∧
      ∀ fault, Forest.ofBlock b uses = .error fault ↔ (b.dangling uses).head? = some fault :=
  have hreports := Forest.ofBlock_reports h
  ⟨hreports.exists_ok_iff fun _ _ hown => hown, hreports.error_iff fun _ _ hown => hown⟩

/-- What recovering trees reports under a table of the right size is an operand that dangles. -/
theorem dangles_of_ofBlock (h : uses.size = b.length) {fault : LowerFault}
    (hfault : Forest.ofBlock b uses = .error fault) :
    ∃ pos k target, fault = .invalidReference pos k target ∧ b.Dangles pos k target :=
  mem_dangling.mp (List.mem_of_head? (((ofBlock_of_size_eq h).2 fault).mp hfault))

/-- Folding reports a table of the wrong size if and only if it has one, with the two sizes. -/
theorem ofBlock_mismatch_iff {expected actual : Nat} :
    Forest.ofBlock b uses = .error (.tableMismatch expected actual) ↔
      uses.size ≠ b.length ∧ expected = b.length ∧ actual = uses.size := by
  constructor
  · intro h
    have hsize : uses.size ≠ b.length := by
      intro hsize
      obtain ⟨_, _, _, hfault, -⟩ := dangles_of_ofBlock hsize h
      cases hfault
    rw [(passes_of_size_ne {} hsize).1] at h
    cases h
    exact ⟨hsize, rfl, rfl⟩
  · rintro ⟨hsize, rfl, rfl⟩
    exact (passes_of_size_ne {} hsize).1

/-- Folding with a table of the right size reports a bad reference if and only if there is one. -/
theorem ofBlock_invalid_iff (h : uses.size = b.length) :
    (∃ pos k target, Forest.ofBlock b uses = .error (.invalidReference pos k target)) ↔
      ∃ pos k target, b.Dangles pos k target := by
  constructor
  · rintro ⟨pos, k, target, hfault⟩
    obtain ⟨pos', k', target', -, hdangles⟩ := dangles_of_ofBlock h hfault
    exact ⟨pos', k', target', hdangles⟩
  · intro hdangles
    -- There is a complaint, and the first one is reported.
    cases hlist : b.dangling uses with
    | nil => exact absurd hdangles (dangling_eq_nil_iff.mp hlist)
    | cons fault rest =>
        have hfault := ((ofBlock_of_size_eq h).2 fault).mpr (by rw [hlist]; rfl)
        obtain ⟨pos, k, target, rfl, -⟩ := dangles_of_ofBlock h hfault
        exact ⟨pos, k, target, hfault⟩

/-- Emission does what recovering trees does, unless it runs out of slots. -/
theorem emit_alike (hroom : b.emit uses opts ≠ .error .slotOverflow) :
    ((∃ c, b.emit uses opts = .ok c) ↔ ∃ f, Forest.ofBlock b uses = .ok f) ∧
      ∀ fault, b.emit uses opts = .error fault ↔ Forest.ofBlock b uses = .error fault := by
  by_cases hsize : uses.size = b.length
  · obtain ⟨hok, herror⟩ := ofBlock_of_size_eq hsize
    have hreports := emit_reports opts hsize (kept_among_refs b uses)
    have hown : ∀ f, b.emit uses opts = .error f →
        ¬ OutOfSlots (b.slotBase opts) b.refs.toFinset f := by
      rintro f hf ⟨rfl, -⟩
      exact hroom hf
    exact ⟨(hreports.exists_ok_iff hown).trans hok.symm,
      fun fault => (hreports.error_iff hown fault).trans (herror fault).symm⟩
  · obtain ⟨hforest, hcode⟩ := passes_of_size_ne opts hsize
    rw [hforest, hcode]
    simp

/-- Emission runs out of slots only if there are more values to keep than numbers for them. -/
theorem limit_of_slotOverflow {among : Finset Nat}
    (hkept : ∀ t ∈ b.plan uses, ∀ a ∈ t.kept, a ∈ among)
    (h : b.emit uses opts = .error .slotOverflow) :
    indexLimit ≤ b.slotBase opts + among.card := by
  have hsize : uses.size = b.length := by
    by_contra hsize
    rw [(passes_of_size_ne opts hsize).2] at h
    cases h
  have hreports := emit_reports opts hsize hkept
  rw [h] at hreports
  rcases hreports with ⟨-, hlimit⟩ | hhead
  · exact hlimit
  -- Running out of slots is no complaint about the block.
  · obtain ⟨_, _, _, hfault, -⟩ := mem_dangling.mp (List.mem_of_head? hhead)
    cases hfault

/-- The table of a checked block leads to a forest. -/
theorem exists_forest_of_checked (h : UseTable.ofBlock b = .ok uses) :
    ∃ f, Forest.ofBlock b uses = .ok f := by
  obtain ⟨hwf, rfl⟩ := UseTable.ofBlock_ok h
  refine (ofBlock_of_size_eq (UseTable.size_tally b)).1.mpr (dangling_eq_nil_iff.mpr ?_)
  rintro ⟨pos, k, target, hdangles⟩
  exact hwf.not_dangles pos k target hdangles

/-- Both passes refuse the same, under any use table and for any block.

* Recovering trees reports a mismatch, with the two sizes, exactly if the table does not have the
  size of the block.
* Under a table of that size it reports an invalid reference exactly if some operand refers to a
  position that is not before its instruction, and the report names such an operand. If there is
  none, there is a forest.
* Emission ends well or fails with the very fault of recovering trees, unless it runs out of
  slots. For that, the base of the slots and the number of values that the block refers to must
  together reach the limit.
* So under the table of a checked block neither pass fails, slots permitting. -/
theorem passes_refuse_alike (b : Block) (uses : UseTable) :
    (∀ expected actual, Forest.ofBlock b uses = .error (.tableMismatch expected actual) ↔
      uses.size ≠ b.length ∧ expected = b.length ∧ actual = uses.size) ∧
    (uses.size = b.length →
      ((∃ pos k target, Forest.ofBlock b uses = .error (.invalidReference pos k target)) ↔
        ∃ pos k target, b.Dangles pos k target) ∧
      (∀ pos k target, Forest.ofBlock b uses = .error (.invalidReference pos k target) →
        b.Dangles pos k target) ∧
      ((∃ f, Forest.ofBlock b uses = .ok f) ↔ ¬ ∃ pos k target, b.Dangles pos k target)) ∧
    (∀ opts, b.emit uses opts ≠ .error .slotOverflow →
      ((∃ c, b.emit uses opts = .ok c) ↔ ∃ f, Forest.ofBlock b uses = .ok f) ∧
      ∀ fault, b.emit uses opts = .error fault ↔ Forest.ofBlock b uses = .error fault) ∧
    (∀ opts, b.emit uses opts = .error .slotOverflow →
      indexLimit ≤ b.slotBase opts + b.refs.toFinset.card) ∧
    (UseTable.ofBlock b = .ok uses → (∃ f, Forest.ofBlock b uses = .ok f) ∧
      ∀ opts, b.emit uses opts ≠ .error .slotOverflow → ∃ c, b.emit uses opts = .ok c) := by
  refine ⟨fun _ _ => ofBlock_mismatch_iff, fun hsize => ⟨ofBlock_invalid_iff hsize, ?_, ?_⟩,
    fun _ => emit_alike, fun _ => limit_of_slotOverflow (kept_among_refs b uses),
    fun hchecked => ?_⟩
  · intro pos k target h
    obtain ⟨_, _, _, hfault, hdangles⟩ := dangles_of_ofBlock hsize h
    cases hfault
    exact hdangles
  · exact (ofBlock_of_size_eq hsize).1.trans dangling_eq_nil_iff
  · have hforest := exists_forest_of_checked hchecked
    exact ⟨hforest, fun opts hroom => (emit_alike hroom).1.mpr hforest⟩

/-- A block with two operands that dangle, one of them in a value that the other instruction may
compute in place. -/
def crossed : Block := ⟨[⟨.neg, [.ref 5]⟩, ⟨.add, [.ref 7, .ref 0]⟩]⟩

/-- A block that passes the check. -/
def difference : Block := ⟨[⟨.loadLocal, [.imm 0]⟩, ⟨.sub, [.imm 1, .ref 0]⟩]⟩

/-- The theorem at these blocks. Which operand is reported depends on the table: if it counts one
use of the first value, that value is computed in place before the left operand is looked at. -/
theorem passes_refuse_alike_crossed :
    crossed.Dangles 0 0 5 ∧ crossed.Dangles 1 0 7 ∧
    Forest.ofBlock crossed ⟨#[1, 0]⟩ = .error (.invalidReference 0 0 5) ∧
    crossed.emit ⟨#[1, 0]⟩ {} = .error (.invalidReference 0 0 5) ∧
    Forest.ofBlock crossed ⟨#[2, 0]⟩ = .error (.invalidReference 1 0 7) ∧
    crossed.emit ⟨#[2, 0]⟩ {} = .error (.invalidReference 1 0 7) ∧
    Forest.ofBlock crossed ⟨#[1]⟩ = .error (.tableMismatch 2 1) ∧
    ∃ uses f c, UseTable.ofBlock difference = .ok uses ∧ Forest.ofBlock difference uses = .ok f ∧
      difference.emit uses {} = .ok c := by
  -- Three values to keep at most, and numbers from zero on.
  have hroom : ∀ uses, crossed.emit uses {} ≠ .error .slotOverflow := by
    intro uses h
    have hlimit := (passes_refuse_alike crossed uses).2.2.2.1 {} h
    revert hlimit
    decide
  obtain ⟨-, hone, hemitOne, -⟩ := passes_refuse_alike crossed ⟨#[1, 0]⟩
  obtain ⟨-, htwo, hemitTwo, -⟩ := passes_refuse_alike crossed ⟨#[2, 0]⟩
  have hfirst : Forest.ofBlock crossed ⟨#[1, 0]⟩ = .error (.invalidReference 0 0 5) := rfl
  have hsecond : Forest.ofBlock crossed ⟨#[2, 0]⟩ = .error (.invalidReference 1 0 7) := rfl
  obtain ⟨uses, hchecked⟩ : ∃ uses, UseTable.ofBlock difference = .ok uses := ⟨_, rfl⟩
  obtain ⟨-, -, -, hlimit, hpasses⟩ := passes_refuse_alike difference uses
  obtain ⟨⟨f, hf⟩, hcode⟩ := hpasses hchecked
  obtain ⟨c, hc⟩ := hcode {} fun h => by
    have hfull := hlimit {} h
    revert hfull
    decide
  exact ⟨(hone rfl).2.1 _ _ _ hfirst, (htwo rfl).2.1 _ _ _ hsecond, hfirst,
    ((hemitOne {} (hroom _)).2 _).mpr hfirst, hsecond, ((hemitTwo {} (hroom _)).2 _).mpr hsecond,
    ((passes_refuse_alike crossed ⟨#[1]⟩).1 2 1).mpr ⟨by decide, rfl, rfl⟩,
    uses, f, c, hchecked, hf, hc⟩

end Block

end StackForm

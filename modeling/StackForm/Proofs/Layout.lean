import StackForm.Proofs.Fusion

/-!
# `StackForm.Proofs.Layout`: what the values on the stack stand for

A `Layout` describes a point in the code of a block without any values: how many
instructions have been performed, which operand each entry of the stack stands for, and
which slots are written with the value of which position. `Layout.Step` says how an
operation leads from one layout to the next, and when it may stand at a point at all. An
opcode needs to be that of the next instruction, with exactly that instruction's operands
on top of the stack. A slot is read after it was written, and written once.

`Block.lower_run` says that lowered code takes the empty layout to one where all
instructions are performed, the stack is empty, and every slot holds the value it was
assigned to. All that is shown of running the code rests on this and on what a single
operation does.
-/

set_option autoImplicit false

namespace StackForm

/-- A point in the code of a block. -/
structure Layout where
  /-- The number of instructions performed. -/
  done : Nat
  /-- The operands that the values on the stack stand for, topmost first. -/
  stack : List Operand
  /-- The written slots, with the positions whose values they hold. -/
  saved : List (Nat × Nat)

/-- What an opcode performed at `pos` leaves on the stack. -/
def Opcode.resultRefs (op : Opcode) (pos : Nat) : List Operand :=
  if op.hasResult then [.ref pos] else []

/-- An instruction with a result leaves a reference to itself. -/
theorem Opcode.resultRefs_of_result {op : Opcode} (h : op.hasResult = true) (pos : Nat) :
    op.resultRefs pos = [.ref pos] := if_pos h

/-- An instruction without a result leaves nothing. -/
theorem Opcode.resultRefs_of_no_result {op : Opcode} (h : op.hasResult = false) (pos : Nat) :
    op.resultRefs pos = [] := by
  rw [Opcode.resultRefs, h]
  rfl

namespace Layout

/-- An operation of the code of `b` leads from one point to the next. -/
inductive Step (b : Block) : Layout → Op → Layout → Prop where
  | push {done : Nat} {stack : List Operand} {saved : List (Nat × Nat)} (v : Word) :
      Step b ⟨done, stack, saved⟩ (.push v) ⟨done, .imm v :: stack, saved⟩
  /-- The next instruction finds its operands, the last one on top. -/
  | perform {done : Nat} {stack : List Operand} {saved : List (Nat × Nat)} {i : Instr}
      (instr : b.instrs[done]? = some i) :
      Step b ⟨done, i.operands.reverse ++ stack, saved⟩ (.perform i.opcode)
        ⟨done + 1, i.opcode.resultRefs done ++ stack, saved⟩
  | get {done : Nat} {stack : List Operand} {saved : List (Nat × Nat)} {s a : Nat}
      (written : (s, a) ∈ saved) :
      Step b ⟨done, stack, saved⟩ (.get s) ⟨done, .ref a :: stack, saved⟩
  | set {done : Nat} {stack : List Operand} {saved : List (Nat × Nat)} {s a : Nat}
      (fresh : ∀ a', (s, a') ∉ saved) :
      Step b ⟨done, .ref a :: stack, saved⟩ (.set s) ⟨done, stack, (s, a) :: saved⟩
  | tee {done : Nat} {stack : List Operand} {saved : List (Nat × Nat)} {s a : Nat}
      (fresh : ∀ a', (s, a') ∉ saved) :
      Step b ⟨done, .ref a :: stack, saved⟩ (.tee s) ⟨done, .ref a :: stack, (s, a) :: saved⟩
  | drop {done : Nat} {stack : List Operand} {saved : List (Nat × Nat)} {o : Operand} :
      Step b ⟨done, o :: stack, saved⟩ .drop ⟨done, stack, saved⟩

/-- Operations lead from one point to another, one after the other. -/
inductive Run (b : Block) : Layout → List Op → Layout → Prop where
  | nil (L : Layout) : Run b L [] L
  | cons {L M N : Layout} {op : Op} {ops : List Op} (first : Step b L op M)
      (rest : Run b M ops N) : Run b L (op :: ops) N

namespace Run

variable {b : Block} {L M N : Layout}

/-- Two runs one after the other are one run. -/
theorem append {ops ops' : List Op} (h : Run b L ops M) (h' : Run b M ops' N) :
    Run b L (ops ++ ops') N := by
  induction h with
  | nil L => exact h'
  | cons first rest ih => exact .cons first (ih h')

/-- A step is a run with one operation. -/
theorem single {op : Op} (h : Step b L op M) : Run b L [op] M := .cons h (.nil M)

/-- A point on the way: code in two parts passes one between them. -/
theorem split {ops ops' : List Op} (h : Run b L (ops ++ ops') N) :
    ∃ M, Run b L ops M ∧ Run b M ops' N := by
  induction ops generalizing L with
  | nil => exact ⟨L, .nil L, h⟩
  | cons op ops ih =>
      cases h with
      | cons first rest =>
          obtain ⟨M, hops, hops'⟩ := ih rest
          exact ⟨M, .cons first hops, hops'⟩

/-- Fusing leads from the same point to the same point. The slot that a store writes was
not written before, so the read after it gets back the value just stored, and that is what
a tee leaves on the stack. -/
theorem fuse {ops : List Op} (h : Run b L ops N) : Run b L (Op.fuse ops) N := by
  induction h with
  | nil L => exact .nil L
  | @cons L M N op ops first rest ih =>
      cases op with
      | set s =>
          rw [Op.fuse, Op.fuseCons_set]
          split
          -- The store is read back at once: both steps together are those of the tee.
          · rename_i hhead
            obtain ⟨ops', hops'⟩ := List.head?_eq_some_iff.mp hhead
            rw [hops', List.tail_cons]
            rw [hops'] at ih
            cases ih with
            | cons hget hrest =>
                cases first with
                | @set _ _ saved _ a fresh =>
                    cases hget with
                    | @get _ _ _ _ a' written =>
                        have ha : a' = a := by
                          rcases List.mem_cons.mp written with heq | hold
                          · exact (Prod.mk.inj heq).2
                          · exact absurd hold (fresh a')
                        subst ha
                        exact .cons (.tee fresh) hrest
          · exact .cons first ih
      | push _ => exact .cons first ih
      | perform _ => exact .cons first ih
      | get _ => exact .cons first ih
      | tee _ => exact .cons first ih
      | drop => exact .cons first ih

end Run

end Layout

/-! ### Trees -/

mutual

/-- The code of a planned tree starts where nothing of the tree is performed and ends after
its root, with the root's result on the stack. It needs the slots of what the tree keeps to
be written, and nested values to be results. -/
theorem Tree.linear_run {b : Block} {uses : UseTable} {slot? : Nat → Option Nat}
    {saved : List (Nat × Nat)} :
    (t : Tree Verdict) → (∀ u ∈ t.nodes, u.Planned b uses) →
      (∀ u ∈ Child.nodesOf t.children, u.opcode.hasResult = true) →
      (∀ a ∈ t.kept, ∃ s, slot? a = some s ∧ (s, a) ∈ saved) → (stack : List Operand) →
      Layout.Run b ⟨t.low, stack, saved⟩ ((t.map Verdict.target).linear slot?)
        ⟨t.pos + 1, t.opcode.resultRefs t.pos ++ stack, saved⟩
  | .node pos op cs, hplanned, hresult, hkept, stack => by
      obtain ⟨i, hi, hop, hdec⟩ := hplanned (.node pos op cs) (Tree.self_mem_nodes _)
      have hnodes : ∀ u ∈ Child.nodesOf cs, u.Planned b uses := fun u hu =>
        hplanned u (List.mem_append_left _ hu)
      have hcs := Child.linearOf_run cs hdec hnodes hresult hkept stack
      rw [Tree.map, Tree.linear]
      have hperform := @Layout.Step.perform b pos stack saved i hi
      rw [← hop] at hperform
      exact hcs.append (.single hperform)

/-- Companion: the operands of a consumer, which end up on the stack. A nested tree ends
right below what stands to its right, so that the code there starts where the tree's code
ends. -/
theorem Child.linearOf_run {b : Block} {uses : UseTable} {slot? : Nat → Option Nat}
    {saved : List (Nat × Nat)} {pos : Nat} :
    (cs : List (Child Verdict)) → {k : Nat} → {os : List Operand} →
      Child.Decided uses pos k os cs → (∀ u ∈ Child.nodesOf cs, u.Planned b uses) →
      (∀ u ∈ Child.nodesOf cs, u.opcode.hasResult = true) →
      (∀ a ∈ Child.keptOf cs, ∃ s, slot? a = some s ∧ (s, a) ∈ saved) → (stack : List Operand) →
      Layout.Run b ⟨Child.low pos cs, stack, saved⟩
        (Child.linearOf slot? (Child.mapAll Verdict.target cs))
        ⟨pos, os.reverse ++ stack, saved⟩
  | [], _, _, .nil _, _, _, _, stack => .nil _
  | .imm v :: cs, _, _, .imm _ rest, hplanned, hresult, hkept, stack => by
      have hcs := Child.linearOf_run cs rest hplanned hresult hkept (.imm v :: stack)
      rw [List.reverse_cons, List.append_assoc]
      exact .cons (.push v) hcs
  | .ref v :: cs, _, _, @Child.Decided.ref _ _ _ _ _ target _ rest verdict, hplanned, hresult,
      hkept, stack => by
      have hcs := Child.linearOf_run cs rest hplanned hresult
        (fun a ha => hkept a (List.mem_cons_of_mem _ ha)) (.ref target :: stack)
      obtain ⟨s, hs, hmem⟩ := hkept v.target (List.mem_cons_self ..)
      have htarget := (Child.target_of_verdict? verdict).1
      rw [List.reverse_cons, List.append_assoc, Child.mapAll, Child.map, Child.linearOf,
        Child.linear, hs]
      rw [htarget] at hmem
      exact .cons (.get hmem) hcs
  | .nested t :: cs, k, _, .nested rest folds, hplanned, hresult, hkept, stack => by
      have hcs := Child.linearOf_run cs rest
        (fun u hu => hplanned u (List.mem_append_right _ hu))
        (fun u hu => hresult u (List.mem_append_right _ hu))
        (fun a ha => hkept a (List.mem_append_right _ ha)) (.ref t.pos :: stack)
      have hbelow : ∀ u ∈ Child.nodesOf t.children, u.opcode.hasResult = true := by
        intro u hu
        exact hresult u (List.mem_append_left _ (Tree.mem_nodes_of_below hu))
      have ht := Tree.linear_run t (fun u hu => hplanned u (List.mem_append_left _ hu)) hbelow
        (fun a ha => hkept a (List.mem_append_left _ ha)) stack
      have hres := hresult t (List.mem_append_left _ (Tree.self_mem_nodes t))
      have hadj := ((Child.verdict?_eq_none_iff uses pos cs k t.pos).mp folds).2.2.2
      rw [Opcode.resultRefs_of_result hres, hadj] at ht
      rw [List.reverse_cons, List.append_assoc]
      exact ht.append hcs

end

/-! ### Plans -/

namespace Block

variable {b : Block}

/-- What becomes of the value of a root: if it has a slot, the slot is fresh and is written
now, and otherwise nothing is left of the value. -/
theorem ending_run (hwf : b.WellFormed) {slot? : Nat → Option Nat}
    (hplanned : b.SlotsOfPlan slot?)
    (hinj : ∀ a a' s, slot? a = some s → slot? a' = some s → a = a')
    {t : Tree Verdict} (ht : t ∈ b.plan (UseTable.tally b)) {saved : List (Nat × Nat)}
    (hsaved : ∀ s a, (s, a) ∈ saved ↔ slot? a = some s ∧ a < t.low) :
    ∃ saved', Layout.Run b ⟨t.pos + 1, t.opcode.resultRefs t.pos, saved⟩
        ((t.map Verdict.target).ending slot?) ⟨t.pos + 1, [], saved'⟩ ∧
      ∀ s a, (s, a) ∈ saved' ↔ slot? a = some s ∧ a < t.pos + 1 := by
  have hcovers := b.plan_covers (UseTable.tally b)
  have hlow := (hcovers.stretch t ht).1
  -- Between the lowest position and the root stand values computed in place.
  have hinner : ∀ s a, slot? a = some s → a < t.pos → a < t.low := by
    intro s a hs ha
    refine Nat.lt_of_not_le fun hle => ?_
    have hbelow : a ∈ (Child.nodesOf t.children).map Tree.pos := by
      rw [hcovers.below_root ht, List.mem_range'_1]
      omega
    obtain ⟨u, hu, rfl⟩ := List.mem_map.mp hbelow
    rw [hplanned.nested hwf ht hu] at hs
    cases hs
  rw [Tree.ending, Tree.pos_map, Tree.opcode_map]
  cases hslot : slot? t.pos with
  | none =>
      refine ⟨saved, ?_, ?_⟩
      · dsimp only
        rw [Opcode.resultRefs]
        split
        · exact .single .drop
        · exact .nil _
      -- The root has no slot either, so nothing was to be written since `t.low`.
      · intro s a
        rw [hsaved]
        constructor
        · rintro ⟨hs, ha⟩
          exact ⟨hs, by omega⟩
        · rintro ⟨hs, ha⟩
          refine ⟨hs, hinner s a hs ?_⟩
          have hne : a ≠ t.pos := by
            rintro rfl
            rw [hslot] at hs
            cases hs
          omega
  | some s =>
      have hres : t.opcode.hasResult = true := by
        obtain ⟨j, hj, hjres⟩ := hplanned.hasResult hwf hslot
        obtain ⟨i, hi, hop, -⟩ := planned_of_mem ht (Tree.self_mem_nodes t)
        rw [hi] at hj
        cases hj
        rw [hop]
        exact hjres
      -- No two values share a slot, and the root's own is not written yet.
      have hfresh : ∀ a', (s, a') ∉ saved := by
        intro a' hmem
        obtain ⟨hs, ha⟩ := (hsaved s a').mp hmem
        have heq := hinj a' t.pos s hs hslot
        omega
      refine ⟨(s, t.pos) :: saved, ?_, ?_⟩
      · dsimp only
        rw [Opcode.resultRefs_of_result hres]
        exact .single (.set hfresh)
      · intro s' a
        rw [List.mem_cons, hsaved]
        constructor
        · rintro (heq | ⟨hs, ha⟩)
          · cases heq
            exact ⟨hslot, by omega⟩
          · exact ⟨hs, by omega⟩
        · rintro ⟨hs, ha⟩
          by_cases heq : a = t.pos
          · subst heq
            rw [hslot] at hs
            cases hs
            exact Or.inl rfl
          · exact Or.inr ⟨hs, hinner s' a hs (by omega)⟩

/-- The code of the trees of a plan from position `lo` on performs the rest of the block.
The invariant is that, at the start of a tree, exactly the slots of earlier positions are
written. -/
theorem plan_run (hwf : b.WellFormed) {slot? : Nat → Option Nat}
    (hplanned : b.SlotsOfPlan slot?)
    (hinj : ∀ a a' s, slot? a = some s → slot? a' = some s → a = a')
    (ts : List (Tree Verdict)) (hts : ∀ t ∈ ts, t ∈ b.plan (UseTable.tally b)) {lo : Nat}
    (hcovers : Tree.Covers b (UseTable.tally b) lo ts) {saved : List (Nat × Nat)}
    (hsaved : ∀ s a, (s, a) ∈ saved ↔ slot? a = some s ∧ a < lo) :
    ∃ saved', Layout.Run b ⟨lo, [], saved⟩
        ((ts.map (Tree.map Verdict.target)).flatMap fun t => t.linear slot? ++ t.ending slot?)
        ⟨b.length, [], saved'⟩ ∧
      ∀ s a, (s, a) ∈ saved' ↔ slot? a = some s ∧ a < b.length := by
  induction ts generalizing lo saved with
  | nil =>
      obtain rfl : lo = b.length := hcovers
      exact ⟨saved, .nil _, hsaved⟩
  | cons t ts ih =>
      obtain ⟨rfl, hnodes, hrest⟩ := hcovers
      have ht := hts t (List.mem_cons_self ..)
      -- What the tree keeps was computed before it, and so its slot is written.
      have hwritten : ∀ a ∈ t.kept, ∃ s, slot? a = some s ∧ (s, a) ∈ saved := by
        intro a ha
        obtain ⟨s, hs⟩ := Option.isSome_iff_exists.mp ((hplanned a).mpr ⟨t, ht, ha⟩)
        exact ⟨s, hs, (hsaved s a).mpr ⟨hs, kept_before hwf ht ha⟩⟩
      have htree := Tree.linear_run t hnodes (fun u hu => (nested_use hwf ht hu).1) hwritten []
      rw [List.append_nil] at htree
      obtain ⟨saved', hending, hsaved'⟩ := ending_run hwf hplanned hinj ht hsaved
      obtain ⟨saved'', hrun, hsaved''⟩ :=
        ih (fun u hu => hts u (List.mem_cons_of_mem _ hu)) hrest hsaved'
      refine ⟨saved'', ?_, hsaved''⟩
      rw [List.map_cons, List.flatMap_cons]
      exact (htree.append hending).append hrun

/-- Lowered code performs all instructions, leaves nothing on the stack, and has each slot
hold the value it was assigned to. -/
theorem lower_run {opts : Options} {l : Lowering} (h : b.lower opts = .ok l) :
    ∃ saved, Layout.Run b ⟨0, [], []⟩ l.code.ops ⟨b.length, [], saved⟩ ∧
      ∀ s a, (s, a) ∈ saved ↔ l.code.slot? a = some s := by
  obtain ⟨hwf, -, hroots, -⟩ := lower_ok h
  have hslots := lower_slots h
  -- Before the first tree no slot is written.
  have hempty : ∀ s a, (s, a) ∈ ([] : List (Nat × Nat)) ↔ l.code.slot? a = some s ∧ a < 0 := by
    simp
  obtain ⟨saved, hrun, hsaved⟩ := plan_run hwf hslots (lower_frame h).2.1
    (b.plan (UseTable.tally b)) (fun t ht => ht) (b.plan_covers (UseTable.tally b)) hempty
  refine ⟨saved, ?_, ?_⟩
  · have hlinear : Layout.Run b ⟨0, [], []⟩ (l.forest.linear l.code.slot?)
        ⟨b.length, [], saved⟩ := by
      rw [Forest.linear, hroots]
      exact hrun
    rw [lower_ops h]
    split
    · exact hlinear.fuse
    · exact hlinear
  · intro s a
    rw [hsaved]
    constructor
    · exact fun hboth => hboth.1
    · intro hs
      obtain ⟨j, hj, -⟩ := hslots.hasResult hwf hs
      exact ⟨hs, (List.getElem?_eq_some_iff.mp hj).1⟩

end Block

end StackForm

import Mathlib.Data.List.Perm.Basic
import StackForm.Proofs.Report
import StackForm.Proofs.Tracing

/-!
# `StackForm.Proofs.TracedLowering`: a traced lowering tells the truth

`Lowering.ToldBy` states what the events of a lowering say, kind by kind, in terms of what the
lowering returns: the forest with its trees and references, the slots, and the code. It also says
that the report has these events and no others, line by line and to the letter, in the sense of
`Trace.Written`. `Block.lowerTraced_truthful` says that this holds of every traced lowering, and
that tracing does not change the outcome.

`StackForm.Proofs.Tracing` has what holds of every emission. What is added here comes from the
block being well formed. Its plan has no dangling reference, so every reference leaf has its
event and the reason can be read off the forest (`Child.Decided.kept_eq`). A value that is not
used is never kept, so it is dropped. And the code writes every slot that it has, so every slot
has its store (`Block.exists_write`).
-/

set_option autoImplicit false

namespace StackForm

/-! ### Why a value is kept -/

/-- Why a consumer keeps the value of `target`, by whether a reference to the right is kept. -/
def KeepReason.ofRule (uses : UseTable) (target : Nat) (refRight : Bool) : KeepReason :=
  if refRight then .stopped
  else if uses.uses target ≠ 1 then .uses (uses.uses target)
  else .notAdjacent

/-- The events of the references among the operands of the consumer at `pos`. -/
def Child.keeps (uses : UseTable) (pos : Nat) : List (Child Nat) → List Event
  | [] => []
  | .ref target :: cs =>
      .keep target pos (.ofRule uses target (cs.any Child.isRef)) :: Child.keeps uses pos cs
  | .imm _ :: cs => Child.keeps uses pos cs
  | .nested _ :: cs => Child.keeps uses pos cs

/-- The events of the references directly below a node. -/
def Tree.keeps (uses : UseTable) (t : Tree Nat) : List Event :=
  Child.keeps uses t.pos t.children

/-- All nodes of a forest. -/
def Forest.nodes (f : Forest) : List (Tree Nat) := f.roots.toList.flatMap Tree.nodes

/-- A backward reference that does not fold is kept, for the reason that the rule gives. -/
theorem Child.verdict?_eq_kept {uses : UseTable} {pos k target : Nat} {cs : List (Child Verdict)}
    {v : Verdict} (h : Child.verdict? uses pos cs k target = some v) (hlt : target < pos) :
    v = .kept target (.ofRule uses target (cs.any Child.isRef)) := by
  simp only [Child.verdict?, Consumer.verdict?, if_neg (Nat.not_le.mpr hlt)] at h
  rw [KeepReason.ofRule]
  split at h
  · rename_i hstop
    have hany : cs.any Child.isRef = true := hstop
    rw [if_pos hany]
    exact (Option.some.inj h).symm
  · rename_i hstop
    have hnone : ¬ cs.any Child.isRef = true := hstop
    rw [if_neg hnone]
    split at h
    · rename_i huses
      rw [if_pos huses]
      exact (Option.some.inj h).symm
    · rename_i huses
      rw [if_neg huses]
      split at h
      · exact (Option.some.inj h).symm
      · cases h

/-- Changing references does not make one of what was none. -/
theorem Child.any_isRef_map {κ μ : Type} (f : κ → μ) (cs : List (Child κ)) :
    (cs.map (Child.map f)).any Child.isRef = cs.any Child.isRef := by
  rw [List.any_map]
  exact congrArg (cs.any ·) (funext (Child.isRef_map f))

/-- The operands of a planned node whose references go backward are kept as the rule says. -/
theorem Child.Decided.kept_eq {uses : UseTable} {pos k : Nat} {os : List Operand}
    {cs : List (Child Verdict)} (h : Child.Decided uses pos k os cs)
    (hback : ∀ a, .ref a ∈ os → a < pos) :
    (cs.map (Child.firstStep pos)).filterMap EmitStep.kept?
      = Child.keeps uses pos (cs.map (Child.map Verdict.target)) := by
  induction h with
  | nil k => rfl
  | imm v rest ih => exact ih fun a ha => hback a (List.mem_cons_of_mem _ ha)
  | @ref k os cs target v rest verdict ih =>
      have hrest := ih fun a ha => hback a (List.mem_cons_of_mem _ ha)
      cases Child.verdict?_eq_kept verdict (hback target (List.mem_cons_self ..))
      rw [List.map_cons, List.map_cons, Child.map, Child.keeps, Child.any_isRef_map, ← hrest]
      rfl
  | nested rest folds ih => exact ih fun a ha => hback a (List.mem_cons_of_mem _ ha)

/-- The subtrees of a changed tree are its subtrees, changed. -/
theorem Tree.subtrees_map {κ μ : Type} (f : κ → μ) (t : Tree κ) :
    (t.map f).subtrees = t.subtrees.map (Tree.map f) := by
  rw [Tree.subtrees, Tree.subtrees, Tree.children_map, List.filterMap_map, List.map_filterMap]
  congr 1
  funext c
  cases c <;> rfl

/-- A node takes up the roots of the trees nested in it. -/
theorem Tree.enter_mem_operandSteps (w : Tree Verdict) (pos consumer : Nat) :
    (∃ op, .enter (some consumer) pos op ∈ w.operandSteps) ↔
      w.pos = consumer ∧ ∃ t ∈ w.subtrees, t.pos = pos := by
  simp only [Tree.operandSteps, Tree.subtrees, List.mem_map, List.mem_filterMap]
  constructor
  · rintro ⟨op, c, hc, hstep⟩
    cases c with
    | imm v => cases hstep
    | ref v => cases hstep
    | nested t =>
        cases hstep
        exact ⟨rfl, t, ⟨_, hc, rfl⟩, rfl⟩
  · rintro ⟨rfl, t, ⟨c, hc, hct⟩, rfl⟩
    cases c with
    | imm v => cases hct
    | ref v => cases hct
    | nested u =>
        cases hct
        exact ⟨t.opcode, _, hc, rfl⟩

/-- A node reads what its reference leaves are about. -/
theorem Tree.leaf_of_read {w : Tree Verdict} {pos : Nat} {v : Verdict}
    (h : .read pos v ∈ w.operandSteps) : v ∈ w.leaves := by
  obtain ⟨c, hc, hstep⟩ := List.mem_map.mp h
  cases c with
  | imm _ => cases hstep
  | ref _ =>
      cases hstep
      exact List.mem_filterMap.mpr ⟨_, hc, rfl⟩
  | nested _ => cases hstep

/-- Part of a list without repetitions is what a test leaves of it, if the test says of each
member whether it is in the part. -/
theorem eq_filter_of_sublist {α : Type} {p : α → Bool} {part all : List α}
    (h : part.Sublist all) (hnodup : all.Nodup) (hmem : ∀ a ∈ all, a ∈ part ↔ p a = true) :
    part = all.filter p := by
  induction h with
  | slnil => rfl
  | @cons part all a hsub ih =>
      obtain ⟨ha, hrest⟩ := List.nodup_cons.mp hnodup
      have hout : ¬ p a = true := fun hp =>
        ha (hsub.subset ((hmem a (List.mem_cons_self ..)).mpr hp))
      rw [List.filter_cons_of_neg hout]
      exact ih hrest fun x hx => hmem x (List.mem_cons_of_mem _ hx)
  | @cons_cons part all a hsub ih =>
      obtain ⟨ha, hrest⟩ := List.nodup_cons.mp hnodup
      rw [List.filter_cons_of_pos ((hmem a (List.mem_cons_self ..)).mp (List.mem_cons_self ..))]
      refine congrArg (a :: ·) (ih hrest fun x hx => ?_)
      rw [← hmem x (List.mem_cons_of_mem _ hx), List.mem_cons]
      constructor
      · exact Or.inr
      · rintro (rfl | hx')
        · exact absurd hx ha
        · exact hx'

namespace Block

variable {b : Block}

/-! ### The steps of a plan -/

/-- The steps by which a block is emitted, the last one first. -/
def steps (b : Block) (uses : UseTable) : List EmitStep :=
  (b.plan uses).flatMap (Tree.steps none)

/-- A step either takes up a root or belongs to an operand of a node. -/
theorem mem_steps {uses : UseTable} {s : EmitStep} :
    s ∈ b.steps uses ↔ (∃ t ∈ b.plan uses, s = .enter none t.pos t.opcode) ∨
      ∃ w ∈ (b.plan uses).flatMap Tree.nodes, s ∈ w.operandSteps := by
  simp only [steps, List.mem_flatMap]
  constructor
  · rintro ⟨t, ht, hs⟩
    rcases List.mem_cons.mp ((t.steps_perm none).mem_iff.mp hs) with rfl | hs
    · exact Or.inl ⟨t, ht, rfl⟩
    · obtain ⟨w, hw, hsw⟩ := List.mem_flatMap.mp hs
      exact Or.inr ⟨w, ⟨t, ht, hw⟩, hsw⟩
  · rintro (⟨t, ht, rfl⟩ | ⟨w, ⟨t, ht, hw⟩, hsw⟩)
    · exact ⟨t, ht, (t.steps_perm none).mem_iff.mpr (List.mem_cons_self ..)⟩
    · exact ⟨t, ht, (t.steps_perm none).mem_iff.mpr
        (List.mem_cons_of_mem _ (List.mem_flatMap.mpr ⟨w, hw, hsw⟩))⟩

/-- The values that a plan keeps are those that the operands of its nodes keep. -/
theorem kept_steps (b : Block) (uses : UseTable) :
    ((b.steps uses).filterMap EmitStep.kept?).Perm
      (((b.plan uses).flatMap Tree.nodes).flatMap
        fun w => w.operandSteps.filterMap EmitStep.kept?) := by
  rw [steps, List.filterMap_flatMap, List.flatMap_assoc]
  refine List.Perm.flatMap_left _ fun t _ => ?_
  have hperm := (t.steps_perm none).filterMap EmitStep.kept?
  rw [List.filterMap_cons_none rfl, List.filterMap_flatMap] at hperm
  exact hperm

/-- The plan of a well-formed block reads values that are used. -/
theorem uses_of_read (hwf : b.WellFormed) {pos : Nat} {v : Verdict}
    (h : .read pos v ∈ b.steps (UseTable.tally b)) : (UseTable.tally b).uses v.target ≠ 0 := by
  rcases mem_steps.mp h with ⟨_, _, heq⟩ | ⟨w, hw, hread⟩
  · cases heq
  · obtain ⟨t, ht, hwt⟩ := List.mem_flatMap.mp hw
    have hkept : v.target ∈ t.kept :=
      (Tree.mem_kept v.target t).mpr ⟨w, hwt, List.mem_map_of_mem (Tree.leaf_of_read hread)⟩
    have hused := (kept_root hwf ht hkept).2
    omega

/-- Whether the instruction at a position has a result that is not used. -/
def discards (b : Block) (uses : UseTable) (pos : Nat) : Bool :=
  (b.instrs[pos]?.any fun i => i.opcode.hasResult) && uses.uses pos == 0

/-- The instructions whose results are discarded, listed by position, as emission sees them and as
the block does. -/
theorem filter_discards (b : Block) (ctx : EmitContext) :
    (b.numbered.filter ctx.discards).map Prod.fst
      = (List.range b.length).filter (b.discards ctx.uses) := by
  have hcongr : ∀ i ∈ b.numbered, ctx.discards i = (b.discards ctx.uses ∘ Prod.fst) i := by
    intro i hi
    obtain ⟨k, hk, rfl⟩ := List.mem_iff_getElem.mp hi
    rw [numbered, List.length_zip, List.length_range, List.length_map] at hk
    have hlt : k < b.instrs.length := by omega
    simp [numbered, EmitContext.discards, discards, hlt]
  rw [List.filter_congr hcongr, ← List.filter_map, numbered, List.map_fst_zip]
  rw [List.length_range, List.length_map]
  exact Nat.le_refl _

/-! ### Writes -/

/-- The code of a block writes every slot that it has. -/
theorem exists_write {opts : Options} {l : Lowering} (h : b.lower opts = .ok l) {pos s : Nat}
    (hs : l.code.slot? pos = some s) : ∃ op ∈ l.code.ops, op = .set s ∨ op = .tee s := by
  obtain ⟨saved, hrun, hsaved⟩ := lower_run h
  have hmem : s ∈ saved.map Prod.fst := List.mem_map_of_mem ((hsaved s pos).mpr hs)
  have hcount := hrun.count_saved s
  have hpos := List.count_pos_iff.mpr hmem
  rw [hcount] at hpos
  obtain ⟨op, hop, hwrites⟩ := List.countP_pos_iff.mp (by simpa using hpos)
  refine ⟨op, hop, ?_⟩
  cases op with
  | set s' => exact Or.inl (congrArg Op.set (beq_iff_eq.mp hwrites))
  | tee s' => exact Or.inr (congrArg Op.tee (beq_iff_eq.mp hwrites))
  | _ => cases hwrites

end Block

/-! ### What the events say -/

/-- What the events of a lowering of `b` say about it. -/
structure Lowering.ToldBy (l : Lowering) (b : Block) (events : List Event) : Prop where
  /-- Every instruction is taken up once, the last one first. -/
  entered : events.filterMap Event.entered? = (List.range b.length).reverse
  /-- An instruction is taken up for a consumer where its tree is nested in the consumer. -/
  folded : ∀ i c, .fold i c ∈ events ↔
    ∃ w ∈ l.forest.nodes, w.pos = c ∧ ∃ t ∈ w.subtrees, t.pos = i
  /-- Every reference of the forest is told once, with the reason for it. -/
  kept : (events.filter Event.isKeep).Perm (l.forest.nodes.flatMap (Tree.keeps l.uses))
  /-- Every slot of the frame is told once, by increasing slot. -/
  numbered : (events.filterMap Event.assigned?).map Prod.fst
    = List.range' l.code.base l.code.frameSize
  assigned : ∀ s i, .slot s i ∈ events ↔ l.code.slot? i = some s
  /-- Every value with a slot is stored once, by the operation that is in the code. -/
  stored : events.filterMap Event.stored?
    = (List.range b.length).reverse.filter fun i => (l.code.slot? i).isSome
  storedBy : ∀ i op, .store i op ∈ events ↔
    ∃ s, l.code.slot? i = some s ∧ (op = .set s ∨ op = .tee s) ∧ op ∈ l.code.ops
  /-- Every result that is not used is dropped, by a drop of its own in the code. -/
  dropped : events.filterMap Event.dropped?
    = (List.range b.length).reverse.filter (b.discards l.uses)
  drops : (events.filterMap Event.dropped?).length = l.code.ops.count .drop
  /-- Stores and drops are told in the order in which the code has them, read backward. -/
  settled : (events.filterMap Event.settled?).reverse = l.code.ops.filter Op.settles
  /-- The report is that of an empty block for an empty block only. -/
  empty : l.report events = "<empty block>\n" ↔ b.instrs = []
  /-- The report of any other block is the text of its slots, events and operations, to the
  letter. It is the text of no other slots, events and operations, so they can be read off it. -/
  report : b.instrs ≠ [] → ∀ slots told ops, Trace.Written slots told ops (l.report events) ↔
    slots = events.filterMap Event.assigned? ∧ told = events ∧ ops = l.code.ops

namespace Block

variable {b : Block} {opts : Options} {l : Lowering} {events : List Event}

/-- What a traced lowering does to a block that it accepts: the same as a lowering, with the
events of a traced emission of the plan. -/
theorem lowerTraced_ok (h : b.lowerTraced opts = .ok (l, events)) :
    b.lower opts = .ok l ∧ ∃ ctx : EmitContext, ctx.uses = UseTable.tally b ∧ ctx.traced = true ∧
      ∃ e, ctx.emitAll (b.plan (UseTable.tally b)) { next := b.slotBase opts } = .ok e ∧
        l.code = b.codeOf opts e ∧ events = e.events.reverse := by
  refine ⟨by rw [← lowerTraced_map, h]; rfl, ?_⟩
  rw [lowerTraced, bind_eq_ok] at h
  obtain ⟨uses, huses, h⟩ := h
  obtain ⟨-, rfl⟩ := UseTable.ofBlock_ok huses
  rw [bind_eq_ok] at h
  obtain ⟨f, -, h⟩ := h
  rw [bind_eq_ok] at h
  obtain ⟨⟨c, es⟩, hc, h⟩ := h
  cases h
  rw [emitTraced, bind_eq_ok] at hc
  obtain ⟨e, he, hret⟩ := hc
  cases hret
  exact ⟨_, rfl, rfl, e, (emission_eq_ok_iff.mp he).2, rfl, rfl⟩

/-- The nodes of the forest are those of the plan without the reasons. -/
theorem lower_nodes (h : b.lower opts = .ok l) :
    l.forest.nodes
      = ((b.plan (UseTable.tally b)).flatMap Tree.nodes).map (Tree.map Verdict.target) := by
  rw [Forest.nodes, (lower_ok h).2.2.1, List.flatMap_map, List.map_flatMap]
  exact congrArg (List.flatMap · _) (funext (Tree.nodes_map Verdict.target))

/-! ### Trees -/

section Told

variable {ctx : EmitContext} {e : Emission} {base : Nat}

/-- Every instruction is noted once when it is taken up, in the order of the block. -/
theorem told_entered (htraced : ctx.traced = true)
    (he : ctx.emitAll (b.plan (UseTable.tally b)) { next := base } = .ok e) :
    e.events.filterMap Event.entered? = List.range b.length := by
  rw [EmitContext.emitAll_steps] at he
  rw [EmitContext.steps_entered htraced _ he, entered_plan, numbered, List.map_fst_zip]
  rw [List.length_range, List.length_map]
  exact Nat.le_refl _

/-- An instruction is noted as an operand of another if and only if it is nested in the tree of that
one. -/
theorem told_folded (htraced : ctx.traced = true) (h : b.lower opts = .ok l)
    (he : ctx.emitAll (b.plan (UseTable.tally b)) { next := base } = .ok e) (i c : Nat) :
    .fold i c ∈ e.events ↔ ∃ w ∈ l.forest.nodes, w.pos = c ∧ ∃ t ∈ w.subtrees, t.pos = i := by
  rw [EmitContext.emitAll_steps] at he
  rw [EmitContext.steps_fold htraced _ he, lower_nodes h]
  simp only [List.mem_map, exists_exists_and_eq_and, Tree.pos_map, Tree.subtrees_map,
    ← Tree.enter_mem_operandSteps]
  constructor
  · rintro ⟨op, hs⟩
    rcases mem_steps.mp hs with ⟨_, _, heq⟩ | ⟨w, hw, hsw⟩
    · cases heq
    · exact ⟨w, hw, op, hsw⟩
  · rintro ⟨w, hw, op, hsw⟩
    exact ⟨op, mem_steps.mpr (Or.inr ⟨w, hw, hsw⟩)⟩

/-- The values that are noted as kept are those that the forest refers to, with the instructions
that use them and the reasons. -/
theorem told_kept (htraced : ctx.traced = true) (h : b.lower opts = .ok l)
    (he : ctx.emitAll (b.plan (UseTable.tally b)) { next := base } = .ok e) :
    (e.events.filter Event.isKeep).Perm (l.forest.nodes.flatMap (Tree.keeps l.uses)) := by
  obtain ⟨hwf, huses, -⟩ := lower_ok h
  rw [EmitContext.emitAll_steps] at he
  rw [EmitContext.steps_kept htraced _ he, lower_nodes h, List.flatMap_map, huses]
  refine (kept_steps b _).trans (.of_eq ?_)
  -- Node by node, the plan and the rule give the same reasons.
  refine List.flatMap_congr fun w hw => ?_
  obtain ⟨i, hi, -, hdec⟩ := (b.plan_covers (UseTable.tally b)).planned w hw
  rw [Tree.operandSteps, Tree.keeps, Tree.pos_map, Tree.children_map]
  exact hdec.kept_eq fun a ha => (hwf.refs w.pos i a hi ha).1

/-! ### Stores and drops -/

/-- A store is noted if and only if the code has it, and it goes to the slot of its value. Slots are
not shared, so the operation tells which value it stores. -/
theorem told_storedBy (h : b.lower opts = .ok l) (hcode : l.code = b.codeOf opts e)
    (hsettled : e.Settled) (i : Nat) (op : Op) :
    .store i op ∈ e.events ↔
      ∃ s, l.code.slot? i = some s ∧ (op = .set s ∨ op = .tee s) ∧ op ∈ l.code.ops := by
  have hops : e.events.filterMap Event.settled? = l.code.ops.filter Op.settles := by
    rw [hcode]
    exact hsettled.ops
  have hslot : ∀ p o, .store p o ∈ e.events →
      ∃ s, l.code.slot? p = some s ∧ (o = .set s ∨ o = .tee s) := by
    rw [hcode]
    exact hsettled.slot
  constructor
  · intro hstore
    obtain ⟨s, hs, hop⟩ := hslot i op hstore
    have hmem : op ∈ l.code.ops.filter Op.settles := by
      rw [← hops]
      exact List.mem_filterMap.mpr ⟨_, hstore, rfl⟩
    exact ⟨s, hs, hop, (List.mem_filter.mp hmem).1⟩
  · rintro ⟨s, hs, hop, hmem⟩
    have hsettles : op.settles = true := by rcases hop with rfl | rfl <;> rfl
    have hevent : op ∈ e.events.filterMap Event.settled? := by
      rw [hops]
      exact List.mem_filter.mpr ⟨hmem, hsettles⟩
    obtain ⟨event, hin, heq⟩ := List.mem_filterMap.mp hevent
    cases event with
    | store p o =>
        -- The operation names the slot, and the slot has one value.
        cases heq
        obtain ⟨s', hs', hop'⟩ := hslot p op hin
        have hsame : s' = s := by
          rcases hop with rfl | rfl <;> rcases hop' with heq | heq <;> cases heq <;> rfl
        subst hsame
        rw [(lower_frame h).2.1 i p s' hs hs']
        exact hin
    | drop p =>
        cases heq
        rcases hop with hop | hop <;> cases hop
    | _ => cases heq

/-- The values that are noted as stored are those with a slot, each once, in the order of the
block. -/
theorem told_stored (h : b.lower opts = .ok l) (hcode : l.code = b.codeOf opts e)
    (hsettled : e.Settled)
    (hentered : e.events.filterMap Event.entered? = List.range b.length) :
    e.events.filterMap Event.stored?
      = (List.range b.length).filter fun i => (l.code.slot? i).isSome := by
  have hsub := hsettled.entered
  rw [hentered] at hsub
  refine eq_filter_of_sublist hsub List.nodup_range fun i _ => ?_
  have hby := told_storedBy h hcode hsettled i
  constructor
  · intro hmem
    obtain ⟨event, hin, heq⟩ := List.mem_filterMap.mp hmem
    cases event with
    | store p op =>
        cases heq
        obtain ⟨s, hs, -⟩ := (hby op).mp hin
        rw [hs]
        rfl
    | _ => cases heq
  · intro hsome
    obtain ⟨s, hs⟩ := Option.isSome_iff_exists.mp hsome
    obtain ⟨op, hop, hwrites⟩ := exists_write h hs
    exact List.mem_filterMap.mpr ⟨_, (hby op).mpr ⟨s, hs, hwrites, hop⟩, rfl⟩

/-- The values that are noted as dropped are those whose results nothing uses. -/
theorem told_dropped (hwf : b.WellFormed) (huses : ctx.uses = UseTable.tally b)
    (htraced : ctx.traced = true)
    (he : ctx.emitAll (b.plan (UseTable.tally b)) { next := base } = .ok e) :
    e.events.filterMap Event.dropped?
      = (List.range b.length).filter (b.discards (UseTable.tally b)) := by
  rw [EmitContext.emitAll_steps] at he
  have hdropped := (EmitContext.steps_dropped htraced _ ?_ ?_ he).2
  · rw [hdropped, entered_plan, filter_discards, huses]
    exact List.append_nil _
  · intro pos v hread
    rw [huses]
    exact uses_of_read hwf hread
  · intro a s hs
    simp at hs

/-- As many values are dropped as the code has drops. A store is no drop, so only the events of
drops count. -/
theorem told_drops (hsettled : e.Settled) :
    (e.events.filterMap Event.dropped?).length = e.ops.count .drop := by
  have hcode : e.ops.count .drop = (e.ops.filter Op.settles).count .drop :=
    (List.count_filter rfl).symm
  rw [hcode, ← hsettled.ops, List.count, List.countP_filterMap, List.length_filterMap_eq_countP]
  refine List.countP_congr fun event hevent => ?_
  cases event with
  | store p op =>
      -- What a store names is no drop.
      obtain ⟨s, -, rfl | rfl⟩ := hsettled.slot p op hevent <;>
        simp [Event.dropped?, Event.settled?]
  | _ => simp [Event.dropped?, Event.settled?]

end Told

/-! ### Reports -/

/-- The slots of a report are those of the events. Code has its slots by position and sorts them
for the report, and the events tell them in that order. -/
theorem slotList_eq {c : Code} {told : List (Nat × Nat)}
    (hsorted : (told.map Prod.fst).Pairwise (· < ·))
    (hmem : ∀ s i, (s, i) ∈ told ↔ c.slot? i = some s) : c.slotList = told := by
  have hlt : told.Pairwise (fun x y => x.1 < y.1) := List.pairwise_map.mp hsorted
  have hperm : c.slotList.Perm (c.slots.toList.map fun x => (x.2, x.1)) := List.mergeSort_perm _ _
  have hin : ∀ s i, (s, i) ∈ c.slotList ↔ c.slot? i = some s := by
    intro s i
    rw [hperm.mem_iff, List.mem_map, Code.slot?,
      ← Std.ExtTreeMap.mem_toList_iff_getElem?_eq_some]
    constructor
    · rintro ⟨x, hx, heq⟩
      cases heq
      exact hx
    · exact fun hx => ⟨_, hx, rfl⟩
  -- A position has one slot, so no pair is there twice.
  have hnodup : c.slotList.Nodup := by
    rw [hperm.nodup_iff, List.nodup_iff_pairwise_ne, List.pairwise_map]
    refine Std.ExtTreeMap.distinct_keys_toList.imp ?_
    intro x y hne heq
    exact hne (Std.compare_eq_iff_eq.mpr (congrArg Prod.snd heq))
  have hsame : c.slotList.Perm told := by
    refine (List.perm_ext_iff_of_nodup hnodup ?_).mpr ?_
    · exact List.nodup_iff_pairwise_ne.mpr (hlt.imp fun hxy heq => by rw [heq] at hxy; omega)
    · intro x
      rw [hin x.1 x.2, hmem x.1 x.2]
  have hle : c.slotList.Pairwise (fun x y => x.1 ≤ y.1) := by
    refine (List.pairwise_mergeSort ?_ ?_ _).imp of_decide_eq_true
    · intro x y z hxy hyz
      exact decide_eq_true (Nat.le_trans (of_decide_eq_true hxy) (of_decide_eq_true hyz))
    · intro x y
      simpa using Nat.le_total x.1 y.1
  refine hsame.eq_of_pairwise ?_ hle (hlt.imp Nat.le_of_lt)
  -- Pairs of one slot are the same pair, since no slot is told twice.
  intro x y hx hy hxy hyx
  exact List.inj_on_of_nodup_map (hsorted.imp Nat.ne_of_lt) (hsame.mem_iff.mp hx) hy
    (Nat.le_antisymm hxy hyx)

/-- The report of a lowering with events is their text, and can be read in no other way. The slots
in its second line are those that the events tell, since these are in the order of the slots. -/
theorem written_report_iff {base size : Nat} (hne : events ≠ [])
    (hnumbered : (events.filterMap Event.assigned?).map Prod.fst = List.range' base size)
    (hassigned : ∀ s i, .slot s i ∈ events ↔ l.code.slot? i = some s)
    (hstored : ∀ i op, .store i op ∈ events → ∃ s, op = .set s ∨ op = .tee s)
    (slots : List (Nat × Nat)) (told : List Event) (ops : List Op) :
    Trace.Written slots told ops (l.report events) ↔
      slots = events.filterMap Event.assigned? ∧ told = events ∧ ops = l.code.ops := by
  have hslots : l.code.slotList = events.filterMap Event.assigned? := by
    refine slotList_eq ?_ fun s i => ?_
    · rw [hnumbered]
      exact List.pairwise_lt_range'
    · rw [← hassigned, List.mem_filterMap]
      constructor
      · rintro ⟨event, hevent, heq⟩
        cases event with
        | slot s' i' =>
            cases heq
            exact hevent
        | _ => cases heq
      · exact fun hevent => ⟨_, hevent, rfl⟩
  have hwritten : Trace.Written l.code.slotList events l.code.ops (l.report events) :=
    Trace.written_report hne hstored
  constructor
  · intro h
    obtain ⟨rfl, rfl, rfl⟩ := h.unique hwritten
    exact ⟨hslots, rfl, rfl⟩
  · rintro ⟨rfl, rfl, rfl⟩
    rwa [hslots] at hwritten

/-- The report says that the block is empty if and only if there is nothing to tell. -/
theorem report_eq_empty_iff (l : Lowering) :
    l.report events = "<empty block>\n" ↔ events = [] := by
  constructor
  · intro hreport
    refine Decidable.byContradiction fun hne => ?_
    rw [Lowering.report, Trace.report, if_neg (by simpa using hne)] at hreport
    -- The two texts differ in their first character.
    have hfirst := congrArg (fun s : String => s.toList.head?) hreport
    simp at hfirst
  · rintro rfl
    rfl

/-- An emission without events is that of an empty block, because every instruction is noted when it
is taken up. -/
theorem told_nothing {ctx : EmitContext} {e : Emission} {base : Nat} (htraced : ctx.traced = true)
    (he : ctx.emitAll (b.plan (UseTable.tally b)) { next := base } = .ok e) :
    e.events = [] ↔ b.instrs = [] := by
  constructor
  · intro hnil
    have hentered := told_entered htraced he
    rw [hnil] at hentered
    exact List.length_eq_zero_iff.mp (List.range_eq_nil.mp hentered.symm)
  · intro hnil
    have hplan : b.plan (UseTable.tally b) = [] := by
      rw [Block.plan, hnil]
      rfl
    rw [hplan] at he
    cases he
    rfl

/-- Tracing does not change what a lowering returns, and what it tells is true: every kind of event
agrees with the forest, the slots and the code that are returned. The report has these events line
by line, and from its lines they can be read back. -/
theorem lowerTraced_truthful (b : Block) (opts : Options) :
    (b.lowerTraced opts).map Prod.fst = b.lower opts ∧
    ∀ l events, b.lowerTraced opts = .ok (l, events) → l.ToldBy b events := by
  refine ⟨lowerTraced_map b opts, ?_⟩
  intro l events htrace
  obtain ⟨h, ctx, hctx, htraced, e, he, hcode, rfl⟩ := lowerTraced_ok htrace
  obtain ⟨hwf, huses, -⟩ := lower_ok h
  have hentered := told_entered htraced he
  have hassigned : e.Assigned (b.slotBase opts) := by
    refine EmitContext.emitAll_keeps (EmitContext.keeps_assigned htraced _) ?_ he
    exact ⟨Nat.le_refl _, by simp, by simp⟩
  have hsettled : e.Settled := by
    refine EmitContext.emitAll_keeps (EmitContext.keeps_settled htraced) ?_ he
    exact ⟨rfl, by simp, .slnil⟩
  have hnumbered : (e.events.reverse.filterMap Event.assigned?).map Prod.fst
      = List.range' l.code.base l.code.frameSize := by
    rw [List.filterMap_reverse, List.map_reverse, hassigned.numbers, List.reverse_reverse, hcode]
    rfl
  have hslots : ∀ s i, .slot s i ∈ e.events.reverse ↔ l.code.slot? i = some s := by
    intro s i
    rw [List.mem_reverse, hassigned.mem_iff, hcode]
    rfl
  have hstoredBy : ∀ i op, .store i op ∈ e.events.reverse ↔
      ∃ s, l.code.slot? i = some s ∧ (op = .set s ∨ op = .tee s) ∧ op ∈ l.code.ops := by
    intro i op
    rw [List.mem_reverse]
    exact told_storedBy h hcode hsettled i op
  constructor
  · rw [List.filterMap_reverse, hentered]
  · intro i c
    rw [List.mem_reverse]
    exact told_folded htraced h he i c
  · rw [List.filter_reverse]
    exact (List.reverse_perm _).trans (told_kept htraced h he)
  · exact hnumbered
  · exact hslots
  · rw [List.filterMap_reverse, told_stored h hcode hsettled hentered, List.filter_reverse]
  · exact hstoredBy
  · rw [List.filterMap_reverse, told_dropped hwf hctx htraced he, huses, List.filter_reverse]
  · rw [List.filterMap_reverse, List.length_reverse, told_drops hsettled, hcode]
    rfl
  · rw [List.filterMap_reverse, List.reverse_reverse, hsettled.ops, hcode]
    rfl
  · rw [report_eq_empty_iff, List.reverse_eq_nil_iff]
    exact told_nothing htraced he
  · intro hne
    refine written_report_iff ?_ hnumbered hslots ?_
    · exact fun hnil => hne ((told_nothing htraced he).mp (List.reverse_eq_nil_iff.mp hnil))
    · intro i op hstore
      obtain ⟨s, -, hop, -⟩ := (hstoredBy i op).mp hstore
      exact ⟨s, hop⟩

/-- A block that gives every kind of event, and every reason to keep a value. -/
def mixed : Block :=
  ⟨[⟨.loadLocal, [.imm 0]⟩, ⟨.mul, [.ref 0, .ref 0]⟩, ⟨.loadLocal, [.imm 1]⟩, ⟨.neg, [.ref 1]⟩,
    ⟨.add, [.ref 2, .ref 3]⟩]⟩

/-- The theorem at that block. The sum is not used, and what it adds is computed in place. The
product is stored by a set, the local that is squared by a tee. The report says so line by line,
and its second line has the two slots. -/
theorem lowerTraced_truthful_mixed :
    ∃ l events, mixed.lowerTraced {} = .ok (l, events) ∧ l.ToldBy mixed events ∧
      events = [.root 4, .drop 4, .fold 3 4, .slot 2 1, .keep 1 3 .notAdjacent, .fold 2 4,
        .root 1, .store 1 (.set 2), .slot 3 0, .keep 0 1 (.uses 2), .keep 0 1 .stopped,
        .root 0, .store 0 (.tee 3)] ∧
      l.report events = "STACKIFY\nslots: 2=v1, 3=v0\ntrace:\nroot v4\n  drop v4\n" ++
        "  fold v3 into v4\n  slot 2 for v1\n  keep v1 in v3: not adjacent\n" ++
        "  fold v2 into v4\nroot v1\n  store v1 with local.set 2\n  slot 3 for v0\n" ++
        "  keep v0 in v1: 2 uses\n  keep v0 in v1: stopped\nroot v0\n" ++
        "  store v0 with local.tee 3\ncode:\npush 0\nload_local\nlocal.tee 3\nlocal.get 3\n" ++
        "mul\nlocal.set 2\npush 1\nload_local\nlocal.get 2\nneg\nadd\ndrop\n" := by
  refine ⟨_, _, rfl, ?_, rfl, ?_⟩
  · exact (lowerTraced_truthful mixed {}).2 _ _ rfl
  · have htold := (lowerTraced_truthful mixed {}).2 _ _ rfl
    have hwritten := (htold.report (List.cons_ne_nil _ _) _ _ _).mpr ⟨rfl, rfl, rfl⟩
    rw [hwritten.eq_text]
    decide +kernel

end Block

end StackForm

import StackForm.Proofs.EmissionSteps
import StackForm.Proofs.FoldingRule
import StackForm.Proofs.Numbering
import StackForm.Proofs.Safety

/-!
# `StackForm.Proofs.Tracing`: the events of an emission tell what it did

A lowering can note what it does. `Block.lowerTraced_map` says that noting changes nothing: the
traced lowering without its events is the lowering, faults included.

The rest is about what the events say. Each comes about in one step of the emission, so there
is one lemma for each kind of step that notes something, `EmitContext.enter_settles` for taking
up an instruction and `EmitContext.keep_traced` for reading a value back. Two kinds of facts
follow, for every plan.

* What the plan alone decides: which instruction is taken up when and for which consumer, and
  which values are kept and why. These events are those of the steps of the plan, in order
  (`EmitContext.steps_decisions`).
* What depends on the emission so far: slots, stores and drops. Here invariants tie the events
  to the slots and the code, from step to step (`EmitContext.keeps_assigned`,
  `EmitContext.keeps_settled`).
-/

set_option autoImplicit false

namespace StackForm

/-! ### Kinds of events -/

namespace Event

/-- The instruction that is taken up. -/
def entered? : Event → Option Nat
  | root pos => some pos
  | fold pos _ => some pos
  | _ => none

/-- Whether an event says that a value is kept. -/
def isKeep : Event → Bool
  | keep .. => true
  | _ => false

/-- Whether the event follows from the plan alone. -/
def isDecision : Event → Bool
  | root _ | fold .. | keep .. => true
  | _ => false

/-- A slot that is assigned, with the position whose value it holds. -/
def assigned? : Event → Option (Nat × Nat)
  | slot s pos => some (s, pos)
  | _ => none

/-- The instruction whose value goes to its slot. -/
def stored? : Event → Option Nat
  | store pos _ => some pos
  | _ => none

/-- The instruction whose value is dropped. -/
def dropped? : Event → Option Nat
  | drop pos => some pos
  | _ => none

/-- The operation that stores or drops a value. -/
def settled? : Event → Option Op
  | store _ op => some op
  | drop _ => some .drop
  | _ => none

end Event

/-- Whether an operation stores or drops a value. -/
def Op.settles : Op → Bool
  | set _ | tee _ | drop => true
  | _ => false

/-! ### Noting changes nothing -/

/-- Two emissions have come to the same code. -/
structure Emission.SameCode (e e' : Emission) : Prop where
  next : e.next = e'.next
  slots : e.slots = e'.slots
  ops : e.ops = e'.ops

/-- Computations that end alike give the same, once what their results may differ in is left
out. -/
theorem EndsAlike.map_eq {α : Type} {R : Emission → Emission → Prop}
    {x y : Except LowerFault Emission} {f : Emission → α} (h : EndsAlike R x y)
    (hf : ∀ e e', R e e' → f e = f e') : x.map f = y.map f := by
  cases x with
  | error a =>
      cases y with
      | error b => exact congrArg Except.error h
      | ok e' => exact h.elim
  | ok e =>
      cases y with
      | error b => exact h.elim
      | ok e' => exact congrArg Except.ok (hf e e' h)

namespace EmitContext

variable {ctx ctx' : EmitContext}

/-- Storing a value puts the same operations in front, whether it is noted or not. -/
theorem save_ops (hfuse : ctx.fuse = ctx'.fuse) {e e' : Emission} (h : e.ops = e'.ops)
    (pos slot : Nat) : (ctx.save pos slot e).ops = (ctx'.save pos slot e').ops := by
  simp only [save, hfuse, h]
  split
  · rw [note_ops, note_ops]
  · rw [note_ops, note_ops, Emission.prepend, Emission.prepend, h]

/-- Settling a result puts the same operations in front, whether it is noted or not. -/
theorem finish_ops (huses : ctx.uses = ctx'.uses) (hfuse : ctx.fuse = ctx'.fuse) {e e' : Emission}
    (h : e.SameCode e') (pos : Nat) (op : Opcode) :
    (ctx.finish pos op e).ops = (ctx'.finish pos op e').ops := by
  simp only [finish, h.slots, huses]
  split
  · exact save_ops hfuse h.ops pos _
  · split
    · rw [note_ops, note_ops, Emission.prepend, Emission.prepend, h.ops]
    · exact h.ops

/-- Keeping a value does the same to the code, whether it is noted or not. It may run out of slots,
and then does so either way. -/
theorem keep_sameCode {e e' : Emission} (h : e.SameCode e') (consumer target : Nat)
    (reason : KeepReason) :
    EndsAlike Emission.SameCode (ctx.keep consumer target reason e)
      (ctx'.keep consumer target reason e') := by
  simp only [keep, slotFor, h.slots, h.next]
  cases e'.slots[target]? with
  | some slot =>
      constructor
      · simpa [Emission.prepend] using h.next
      · simpa [Emission.prepend] using h.slots
      · simpa [Emission.prepend] using h.ops
  | none =>
      by_cases hnext : e'.next + 1 < indexLimit
      · simp only [if_pos hnext]
        constructor
        · simp [Emission.prepend]
        · simp [Emission.prepend]
        · simpa [Emission.prepend] using h.ops
      · simp only [if_neg hnext]
        rfl

/-- Emissions that differ in whether events are noted do the same. -/
theorem inStep_sameCode (huses : ctx.uses = ctx'.uses) (hfuse : ctx.fuse = ctx'.fuse) :
    InStep Emission.SameCode ctx ctx' where
  enter consumer pos op e e' h := by
    have hnote : (ctx.note (entry pos consumer) e).SameCode (ctx'.note (entry pos consumer) e') :=
      ⟨by simpa using h.next, by simpa using h.slots, by simpa using h.ops⟩
    refine ⟨by simpa using h.next, by simpa using h.slots, ?_⟩
    -- Both put the opcode before what became of the value.
    exact congrArg (Op.perform op :: ·) (finish_ops huses hfuse hnote pos op)
  push v e e' h := ⟨h.next, h.slots, congrArg (Op.push v :: ·) h.ops⟩
  keep consumer target reason e e' h := keep_sameCode h consumer target reason

end EmitContext

namespace Block

/-- Emission with a trace and without one ends alike, with the same code or the same fault. -/
theorem emission_alike (b : Block) (uses : UseTable) (opts : Options) :
    EndsAlike Emission.SameCode (b.emission uses opts true) (b.emission uses opts false) := by
  rw [emission, emission]
  cases uses.checkFits b with
  | error f => rfl
  | ok _ =>
      refine EmitContext.emitAll_inStep (EmitContext.inStep_sameCode ?_ ?_) _ _ _ ⟨rfl, rfl, rfl⟩
      · rfl
      · rfl

/-- The code of a traced lowering is that of a lowering without a trace. -/
theorem emitTraced_map (b : Block) (uses : UseTable) (opts : Options) :
    (b.emitTraced uses opts).map Prod.fst = b.emit uses opts := by
  have hcode : (b.emission uses opts true).map (b.codeOf opts)
      = (b.emission uses opts false).map (b.codeOf opts) := by
    refine (b.emission_alike uses opts).map_eq fun e e' h => ?_
    rw [codeOf, codeOf, h.next, h.slots, h.ops]
  have htraced : (b.emitTraced uses opts).map Prod.fst
      = (b.emission uses opts true).map (b.codeOf opts) := by
    rw [emitTraced]
    cases b.emission uses opts true <;> rfl
  rw [htraced, hcode, emit]
  cases b.emission uses opts false <;> rfl

/-- The traced lowering without its events is the lowering. -/
theorem lowerTraced_map (b : Block) (opts : Options) :
    (b.lowerTraced opts).map Prod.fst = b.lower opts := by
  rw [lowerTraced, lower]
  cases UseTable.ofBlock b with
  | error f => rfl
  | ok uses =>
      show (Except.map Prod.fst (Forest.ofBlock b uses >>= _)) = Forest.ofBlock b uses >>= _
      cases Forest.ofBlock b uses with
      | error f => rfl
      | ok forest =>
          show (Except.map Prod.fst (b.emitTraced uses opts >>= _)) = b.emit uses opts >>= _
          rw [← emitTraced_map]
          cases b.emitTraced uses opts with
          | error f => rfl
          | ok result => rfl

end Block

/-! ### What a step notes -/

namespace EmitContext

variable {ctx : EmitContext}

/-- What becomes of the value of an instruction that is taken up, with the event that is noted
and the operation that is emitted for it. -/
inductive Settlement (ctx : EmitContext) (pos : Nat) (opcode : Opcode) (e : Emission) :
    List Event → List Op → Prop where
  | stored {slot : Nat} {op : Op} (assigned : e.slots[pos]? = some slot)
      (writes : op = .set slot ∨ op = .tee slot) :
      Settlement ctx pos opcode e [.store pos op] [op]
  | dropped (free : e.slots[pos]? = none)
      (unused : opcode.hasResult = true ∧ ctx.uses.uses pos = 0) :
      Settlement ctx pos opcode e [.drop pos] [.drop]
  | left (free : e.slots[pos]? = none)
      (used : ¬ (opcode.hasResult = true ∧ ctx.uses.uses pos = 0)) :
      Settlement ctx pos opcode e [] []

/-- Where a trace is kept, an event is put in front of it. Code is emitted from its end to its
start, and the trace with it. -/
theorem note_events (h : ctx.traced = true) (event : Event) (e : Emission) :
    (ctx.note event e).events = event :: e.events := by
  rw [note, if_pos h]

/-- Storing a value emits one operation beside those that store or drop. -/
theorem save_settles (htraced : ctx.traced = true) (pos slot : Nat) (e : Emission) :
    ∃ op, (op = .set slot ∨ op = .tee slot) ∧
      (ctx.save pos slot e).events = .store pos op :: e.events ∧
      (ctx.save pos slot e).ops.filter Op.settles = op :: e.ops.filter Op.settles := by
  rw [save]
  split
  -- The tee takes the place of a read, which is none of them.
  · rename_i hfuse
    refine ⟨.tee slot, Or.inr rfl, note_events htraced _ _, ?_⟩
    rw [note_ops]
    obtain ⟨rest, hrest⟩ := List.head?_eq_some_iff.mp hfuse.2
    rw [hrest]
    rfl
  · refine ⟨.set slot, Or.inl rfl, note_events htraced _ _, ?_⟩
    rw [note_ops]
    rfl

/-- Taking up an instruction notes that it does, and then what becomes of the value. -/
theorem enter_settles (htraced : ctx.traced = true) (consumer : Option Nat) (pos : Nat)
    (opcode : Opcode) (e : Emission) :
    ∃ events ops, ctx.Settlement pos opcode e events ops ∧
      (ctx.enter consumer pos opcode e).events = events ++ entry pos consumer :: e.events ∧
      (ctx.enter consumer pos opcode e).ops.filter Op.settles = ops ++ e.ops.filter Op.settles := by
  have hperform : ∀ d : Emission,
      (d.prepend (.perform opcode)).ops.filter Op.settles = d.ops.filter Op.settles := fun _ => rfl
  have hnoted := note_events htraced (entry pos consumer) e
  rw [enter, hperform]
  simp only [finish, note_slots]
  cases hslot : e.slots[pos]? with
  | some slot =>
      obtain ⟨op, hwrites, hevents, hops⟩ :=
        save_settles htraced pos slot (ctx.note (entry pos consumer) e)
      rw [hnoted] at hevents
      rw [note_ops] at hops
      exact ⟨[.store pos op], [op], .stored hslot hwrites, hevents, hops⟩
  | none =>
      by_cases hunused : opcode.hasResult = true ∧ ctx.uses.uses pos = 0
      · simp only [if_pos hunused]
        refine ⟨[.drop pos], [.drop], .dropped hslot hunused, ?_, ?_⟩
        · show (ctx.note (.drop pos) _).events = _
          rw [note_events htraced]
          exact congrArg (Event.drop pos :: ·) hnoted
        · rw [note_ops]
          show Op.drop :: (ctx.note (entry pos consumer) e).ops.filter Op.settles = _
          rw [note_ops]
          rfl
      · simp only [if_neg hunused]
        refine ⟨[], [], .left hslot hunused, hnoted, ?_⟩
        rw [note_ops]
        rfl

/-- Reading a value back notes the slot, if it is a new one, and then that it is read. -/
theorem keep_traced (htraced : ctx.traced = true) {consumer target : Nat} {reason : KeepReason}
    {e e' : Emission} (h : ctx.keep consumer target reason e = .ok e') :
    (∃ slot, e.slots[target]? = some slot ∧ e'.slots = e.slots ∧ e'.next = e.next ∧
      e'.events = .keep target consumer reason :: e.events) ∨
    (e.slots[target]? = none ∧ e'.slots = e.slots.insert target e.next ∧ e'.next = e.next + 1 ∧
      e'.events = .keep target consumer reason :: .slot e.next target :: e.events) := by
  have hevents : ∀ slot d, ctx.slotFor target e = .ok (slot, d) →
      e'.events = .keep target consumer reason :: d.events := by
    intro slot d hslot
    rw [keep, hslot] at h
    cases h
    exact note_events htraced _ _
  rcases keep_cases h with ⟨slot, hold, -, hslots, hnext⟩ | ⟨hnone, hlt, -, hslots, hnext⟩
  · refine Or.inl ⟨slot, hold, hslots, hnext, hevents slot e ?_⟩
    simp only [slotFor, hold]
    rfl
  · refine Or.inr ⟨hnone, hslots, hnext, ?_⟩
    have hslot : ctx.slotFor target e = .ok (e.next, ctx.note (.slot e.next target)
        { e with slots := e.slots.insert target e.next, next := e.next + 1 }) := by
      simp only [slotFor, hnone, if_pos hlt]
      rfl
    rw [hevents _ _ hslot, note_events htraced]

/-- Reading a value back neither stores nor drops. -/
theorem keep_settles {consumer target : Nat} {reason : KeepReason} {e e' : Emission}
    (h : ctx.keep consumer target reason e = .ok e') :
    e'.ops.filter Op.settles = e.ops.filter Op.settles := by
  rcases keep_cases h with ⟨slot, -, hops, -, -⟩ | ⟨-, -, hops, -, -⟩ <;>
    (rw [hops]; rfl)

end EmitContext

/-! ### Decisions -/

/-- The event by which a step shows what the plan decided. -/
def EmitStep.decision? : EmitStep → Option Event
  | enter consumer pos _ => some (EmitContext.entry pos consumer)
  | read pos (.kept target reason) => some (.keep target pos reason)
  | _ => none

/-- The event of a value that is kept. -/
def EmitStep.kept? : EmitStep → Option Event
  | read pos (.kept target reason) => some (.keep target pos reason)
  | _ => none

namespace EmitContext

variable {ctx : EmitContext}

/-- What becomes of a value is not decided by the plan. -/
theorem Settlement.decisions {pos : Nat} {opcode : Opcode} {e : Emission} {events : List Event}
    {ops : List Op} (h : ctx.Settlement pos opcode e events ops) :
    events.filter Event.isDecision = [] := by
  cases h <;> rfl

/-- That an instruction is taken up, as a root or as an operand, is a decision. -/
theorem isDecision_entry (pos : Nat) (consumer : Option Nat) :
    (entry pos consumer).isDecision = true := by
  cases consumer <;> rfl

/-- Every step notes the decision that it carries out, and no other. -/
theorem step_decisions (htraced : ctx.traced = true) {s : EmitStep} {e e' : Emission}
    (h : ctx.step s e = .ok e') :
    e'.events.filter Event.isDecision
      = s.decision?.toList ++ e.events.filter Event.isDecision := by
  cases s with
  | enter consumer pos op =>
      cases h
      obtain ⟨events, ops, hsettled, hevents, -⟩ := enter_settles htraced consumer pos op e
      rw [hevents, List.filter_append, hsettled.decisions,
        List.filter_cons_of_pos (isDecision_entry pos consumer)]
      rfl
  | push v =>
      cases h
      rfl
  | read pos v =>
      cases v with
      | kept target reason =>
          rcases keep_traced htraced h with ⟨_, -, -, -, hevents⟩ | ⟨-, -, -, hevents⟩ <;>
            (rw [hevents]; rfl)
      | dangling operand target => cases h

/-- The decisions that an emission notes are those of its steps, in order. -/
theorem steps_decisions (htraced : ctx.traced = true) (ss : List EmitStep) {e e' : Emission}
    (h : ctx.steps ss e = .ok e') :
    e'.events.filter Event.isDecision
      = ss.filterMap EmitStep.decision? ++ e.events.filter Event.isDecision := by
  induction ss generalizing e' with
  | nil =>
      cases h
      rfl
  | cons s ss ih =>
      rw [steps_cons, bind_eq_ok] at h
      obtain ⟨d, hss, hs⟩ := h
      rw [step_decisions htraced hs, ih hss, ← List.append_assoc]
      cases hs : s.decision? with
      | none => rw [List.filterMap_cons_none hs]; rfl
      | some event => rw [List.filterMap_cons_some hs]; rfl

/-- The instructions are taken up in the order of the steps. -/
theorem steps_entered (htraced : ctx.traced = true) (ss : List EmitStep) {base : Nat}
    {e : Emission} (h : ctx.steps ss { next := base } = .ok e) :
    e.events.filterMap Event.entered? = (ss.filterMap EmitStep.entered?).map Prod.fst := by
  have hdecided : e.events.filterMap Event.entered?
      = (e.events.filter Event.isDecision).filterMap Event.entered? := by
    rw [List.filterMap_filter]
    congr 1
    funext event
    cases event <;> rfl
  rw [hdecided, steps_decisions htraced ss h, List.filter_nil, List.append_nil,
    List.filterMap_filterMap, List.map_filterMap]
  congr 1
  funext s
  rcases s with ⟨_ | consumer, pos, op⟩ | v | ⟨pos, v⟩
  · rfl
  · rfl
  · rfl
  · cases v <;> rfl

/-- An instruction is noted as computed in place where a step takes it up for a consumer. -/
theorem steps_fold (htraced : ctx.traced = true) (ss : List EmitStep) {base : Nat}
    {e : Emission} (h : ctx.steps ss { next := base } = .ok e) (pos consumer : Nat) :
    .fold pos consumer ∈ e.events ↔ ∃ op, .enter (some consumer) pos op ∈ ss := by
  have hmem : .fold pos consumer ∈ e.events
      ↔ .fold pos consumer ∈ e.events.filter Event.isDecision := by
    simp [List.mem_filter, Event.isDecision]
  rw [hmem, steps_decisions htraced ss h, List.filter_nil, List.append_nil, List.mem_filterMap]
  constructor
  · rintro ⟨s, hs, hdecision⟩
    rcases s with ⟨_ | c, p, op⟩ | v | ⟨p, _ | _⟩ <;> cases hdecision
    exact ⟨op, hs⟩
  · rintro ⟨op, hs⟩
    exact ⟨_, hs, rfl⟩

/-- The values noted as kept are those of the steps that read a value back. -/
theorem steps_kept (htraced : ctx.traced = true) (ss : List EmitStep) {base : Nat}
    {e : Emission} (h : ctx.steps ss { next := base } = .ok e) :
    e.events.filter Event.isKeep = ss.filterMap EmitStep.kept? := by
  have hdecided : e.events.filter Event.isKeep
      = (e.events.filter Event.isDecision).filter Event.isKeep := by
    rw [List.filter_filter]
    congr 1
    funext event
    cases event <;> rfl
  rw [hdecided, steps_decisions htraced ss h, List.filter_nil, List.append_nil,
    List.filter_filterMap]
  congr 1
  funext s
  rcases s with ⟨_ | consumer, pos, op⟩ | v | ⟨pos, v⟩
  · rfl
  · rfl
  · rfl
  · cases v <;> rfl

end EmitContext

/-! ### Slots -/

/-- The slots that are noted are those that are assigned, from `base` on. -/
structure Emission.Assigned (base : Nat) (e : Emission) : Prop where
  base_le : base ≤ e.next
  numbers : (e.events.filterMap Event.assigned?).map Prod.fst
    = (List.range' base (e.next - base)).reverse
  mem_iff : ∀ s a, .slot s a ∈ e.events ↔ e.slots[a]? = some s

namespace EmitContext

variable {ctx : EmitContext}

/-- No slot is assigned while an instruction is taken up. -/
theorem Settlement.assigned {pos : Nat} {opcode : Opcode} {e : Emission} {events : List Event}
    {ops : List Op} (h : ctx.Settlement pos opcode e events ops) :
    events.filterMap Event.assigned? = [] ∧ ∀ s a, .slot s a ∉ events := by
  cases h <;> simp [Event.assigned?]

/-- That an instruction is taken up says nothing of slots. -/
theorem assigned_entry (pos : Nat) (consumer : Option Nat) :
    (entry pos consumer).assigned? = none ∧ ∀ s a, .slot s a ≠ entry pos consumer := by
  cases consumer <;> simp [entry, Event.assigned?]

/-- Every step keeps the slots in agreement with the trace. -/
theorem keeps_assigned (htraced : ctx.traced = true) (base : Nat) :
    Keeps (Emission.Assigned base) ctx where
  enter consumer pos op e h := by
    obtain ⟨events, ops, hsettled, hevents, -⟩ := enter_settles htraced consumer pos op e
    obtain ⟨hnone, hnot⟩ := hsettled.assigned
    obtain ⟨hentry, hne⟩ := assigned_entry pos consumer
    refine ⟨by simpa using h.base_le, ?_, ?_⟩
    · rw [hevents, List.filterMap_append, hnone, List.filterMap_cons_none hentry, enter_next]
      exact h.numbers
    · intro s a
      rw [hevents, enter_slots, ← h.mem_iff, List.mem_append, List.mem_cons]
      simp [hnot, hne]
  push v e h := ⟨h.base_le, h.numbers, h.mem_iff⟩
  keep consumer target reason e e' h hk := by
    have hbase := h.base_le
    rcases keep_traced htraced hk with ⟨slot, -, hslots, hnext, hevents⟩ |
      ⟨hnone, hslots, hnext, hevents⟩
    · refine ⟨by omega, ?_, ?_⟩
      · rw [hevents, hnext]
        exact h.numbers
      · intro s a
        rw [hevents, hslots, ← h.mem_iff]
        simp
    -- The new slot comes after all others, for a value that had none.
    · have hcount : e'.next - base = (e.next - base) + 1 := by omega
      have hlast : base + 1 * (e.next - base) = e.next := by omega
      refine ⟨by omega, ?_, ?_⟩
      · rw [hevents, hcount, List.range'_concat, hlast, List.reverse_append, ← h.numbers]
        rfl
      · intro s a
        rw [hevents, hslots, Std.ExtTreeMap.getElem?_insert, List.mem_cons, List.mem_cons,
          h.mem_iff]
        by_cases ha : target = a
        · subst ha
          simp [hnone, eq_comm]
        · rw [if_neg fun heq => ha (Nat.compare_eq_eq.mp heq)]
          simp [Ne.symm ha]

end EmitContext

/-! ### Stores and drops -/

/-- What is noted of stores and drops agrees with the code: the events name the operations of
the code, a store is to the slot of its value, and only what was taken up is stored. -/
structure Emission.Settled (e : Emission) : Prop where
  ops : e.events.filterMap Event.settled? = e.ops.filter Op.settles
  slot : ∀ pos op, .store pos op ∈ e.events →
    ∃ s, e.slots[pos]? = some s ∧ (op = .set s ∨ op = .tee s)
  entered : (e.events.filterMap Event.stored?).Sublist (e.events.filterMap Event.entered?)

namespace EmitContext

variable {ctx : EmitContext}

/-- What is noted when a result is settled: the operations that are emitted for it, at most one
store, and the slot that it has. -/
theorem Settlement.settled {pos : Nat} {opcode : Opcode} {e : Emission} {events : List Event}
    {ops : List Op} (h : ctx.Settlement pos opcode e events ops) :
    events.filterMap Event.settled? = ops ∧
      (events.filterMap Event.stored?).Sublist [pos] ∧ events.filterMap Event.entered? = [] ∧
      ∀ p op, .store p op ∈ events → ∃ s, e.slots[p]? = some s ∧ (op = .set s ∨ op = .tee s) := by
  cases h with
  | stored assigned writes =>
      refine ⟨rfl, List.Sublist.refl _, rfl, ?_⟩
      intro p op hmem
      cases List.mem_singleton.mp hmem
      exact ⟨_, assigned, writes⟩
  | dropped free unused => exact ⟨rfl, List.nil_sublist _, rfl, by simp⟩
  | left free used => exact ⟨rfl, List.nil_sublist _, rfl, by simp⟩

/-- That an instruction is taken up says nothing of stores and drops. -/
theorem settled_entry (pos : Nat) (consumer : Option Nat) :
    (entry pos consumer).settled? = none ∧ (entry pos consumer).stored? = none ∧
      (entry pos consumer).entered? = some pos ∧ ∀ p op, .store p op ≠ entry pos consumer := by
  cases consumer <;> simp [entry, Event.settled?, Event.stored?, Event.entered?]

/-- Reading a value back takes nothing up, and notes no store and no drop. -/
theorem keep_quiet (htraced : ctx.traced = true) {consumer target : Nat} {reason : KeepReason}
    {e e' : Emission} (h : ctx.keep consumer target reason e = .ok e') :
    e'.events.filterMap Event.settled? = e.events.filterMap Event.settled? ∧
      e'.events.filterMap Event.stored? = e.events.filterMap Event.stored? ∧
      e'.events.filterMap Event.entered? = e.events.filterMap Event.entered? ∧
      ∀ p op, .store p op ∈ e'.events → .store p op ∈ e.events := by
  rcases keep_traced htraced h with ⟨_, -, -, -, hevents⟩ | ⟨-, -, -, hevents⟩ <;>
    (rw [hevents]; exact ⟨rfl, rfl, rfl, by simp⟩)

/-- Every step keeps the stores and drops of the trace in agreement with the code. -/
theorem keeps_settled (htraced : ctx.traced = true) : Keeps Emission.Settled ctx where
  enter consumer pos op e h := by
    obtain ⟨events, ops, hsettled, hevents, hops⟩ := enter_settles htraced consumer pos op e
    obtain ⟨hown, hstored, hentered, hslot⟩ := hsettled.settled
    obtain ⟨hnone, hnone', hentry, hne⟩ := settled_entry pos consumer
    refine ⟨?_, ?_, ?_⟩
    · rw [hevents, hops, List.filterMap_append, hown, List.filterMap_cons_none hnone, h.ops]
    · intro p op' hmem
      rw [enter_slots]
      rw [hevents, List.mem_append, List.mem_cons] at hmem
      rcases hmem with hmem | hmem | hmem
      · exact hslot p op' hmem
      · exact absurd hmem (hne p op')
      · exact h.slot p op' hmem
    · rw [hevents, List.filterMap_append, List.filterMap_append, hentered,
        List.filterMap_cons_none hnone', List.filterMap_cons_some hentry]
      exact hstored.append h.entered
  push v e h := ⟨h.ops, h.slot, h.entered⟩
  keep consumer target reason e e' h hk := by
    have hgrow : ∀ a s : Nat, e.slots[a]? = some s → e'.slots[a]? = some s :=
      fun a s hs => (keeps_slot ctx a s).keep consumer target reason e e' hs hk
    obtain ⟨hsettled, hstored, hentered, hmem⟩ := keep_quiet htraced hk
    refine ⟨?_, ?_, ?_⟩
    · rw [hsettled, keep_settles hk, h.ops]
    · intro p op hp
      obtain ⟨s, hs, hop⟩ := h.slot p op (hmem p op hp)
      exact ⟨s, hgrow p s hs, hop⟩
    · rw [hstored, hentered]
      exact h.entered

/-- An instruction whose result is not used. -/
def discards (ctx : EmitContext) (i : Nat × Opcode) : Bool :=
  i.2.hasResult && ctx.uses.uses i.1 == 0

/-- A result is noted as dropped if and only if it is one that is discarded. A result with a slot is
used, so it is not among them. -/
theorem Settlement.dropped_eq {pos : Nat} {opcode : Opcode} {e : Emission} {events : List Event}
    {ops : List Op} (h : ctx.Settlement pos opcode e events ops)
    (hused : ∀ a s : Nat, e.slots[a]? = some s → ctx.uses.uses a ≠ 0) :
    events.filterMap Event.dropped? = if ctx.discards (pos, opcode) then [pos] else [] := by
  cases h with
  | stored assigned writes =>
      have hne := hused _ _ assigned
      rw [if_neg (by simp [discards, hne])]
      rfl
  | dropped free unused =>
      rw [if_pos (by simp [discards, unused])]
      rfl
  | left free used =>
      rw [if_neg (by simpa [discards] using used)]
      rfl

/-- If no step reads a value without uses, the instructions noted as dropped are those whose
result is not used. None of them gets a slot. -/
theorem steps_dropped (htraced : ctx.traced = true) (ss : List EmitStep) {e e' : Emission}
    (hreads : ∀ pos v, .read pos v ∈ ss → ctx.uses.uses v.target ≠ 0)
    (he : ∀ a s : Nat, e.slots[a]? = some s → ctx.uses.uses a ≠ 0)
    (h : ctx.steps ss e = .ok e') :
    (∀ a s : Nat, e'.slots[a]? = some s → ctx.uses.uses a ≠ 0) ∧
      e'.events.filterMap Event.dropped? = ((ss.filterMap EmitStep.entered?).filter
        ctx.discards).map Prod.fst ++ e.events.filterMap Event.dropped? := by
  induction ss generalizing e' with
  | nil =>
      cases h
      exact ⟨he, rfl⟩
  | cons s ss ih =>
      rw [steps_cons, bind_eq_ok] at h
      obtain ⟨d, hss, hs⟩ := h
      obtain ⟨hused, hrest⟩ := ih (fun pos v hv => hreads pos v (List.mem_cons_of_mem _ hv)) hss
      cases s with
      | enter consumer pos op =>
          cases hs
          obtain ⟨events, ops, hsettled, hevents, -⟩ := enter_settles htraced consumer pos op d
          have hentry : (entry pos consumer).dropped? = none := by cases consumer <;> rfl
          have hhead : (EmitStep.enter consumer pos op).entered? = some (pos, op) := rfl
          refine ⟨by simpa using hused, ?_⟩
          rw [hevents, List.filterMap_append, hsettled.dropped_eq hused,
            List.filterMap_cons_none hentry, hrest, List.filterMap_cons_some hhead,
            List.filter_cons]
          split <;> rfl
      | push v =>
          cases hs
          exact ⟨hused, hrest⟩
      | read pos v =>
          cases v with
          | dangling operand target => cases hs
          | kept target reason =>
              have htarget := hreads pos _ (List.mem_cons_self ..)
              rcases keep_traced htraced hs with ⟨_, -, hslots, -, hevents⟩ |
                ⟨-, hslots, -, hevents⟩
              · rw [hslots, hevents]
                exact ⟨hused, hrest⟩
              · rw [hslots, hevents]
                refine ⟨?_, hrest⟩
                intro a s ha
                rw [Std.ExtTreeMap.getElem?_insert] at ha
                split at ha
                · rename_i heq
                  rw [← Nat.compare_eq_eq.mp heq]
                  exact htarget
                · exact hused a s ha

end EmitContext

end StackForm

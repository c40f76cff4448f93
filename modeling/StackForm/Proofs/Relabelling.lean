import StackForm.Proofs.EmissionSteps
import StackForm.Proofs.Sequence

/-!
# `StackForm.Proofs.Relabelling`: the base only shifts the slots

Emission hands out slots upward from a base. `Block.emit_relabelled` says that nothing else
depends on the base. With another one the same operations come out in the same order, and each
slot is as far from its base as before. This holds for every table of uses, also for one that is
not the block's own.

The argument compares an emission with the one from base zero. Shifting all slots by the base
takes the latter to the former at every step (`EmitContext.step_shifted`): which value has a slot
is the same on both sides, and so is whether the next operation reads that slot, since slots stay
different when they are shifted. What can differ is whether a number is left for another slot.
But if one is left further up, then one is left from zero on, so the emission from zero goes
wherever the other does (`EmitContext.emitAll_shifted`), and two emissions from different bases
are shifts of the same one.
-/

set_option autoImplicit false

namespace StackForm

/-! ### Shifted code -/

namespace Op

/-- An operation with another number for its slot. -/
def relabel (f : Nat → Nat) : Op → Op
  | get s => get (f s)
  | set s => set (f s)
  | tee s => tee (f s)
  | push v => push v
  | perform op => perform op
  | drop => drop

/-- Relabelling twice is relabelling once. -/
theorem relabel_relabel (f g : Nat → Nat) (op : Op) :
    (op.relabel f).relabel g = op.relabel (g ∘ f) := by
  cases op <;> rfl

/-- The slot of a relabelled operation is its slot, relabelled. -/
theorem slot?_relabel (f : Nat → Nat) (op : Op) : (op.relabel f).slot? = op.slot?.map f := by
  cases op <;> rfl

/-- Shifted operations have no slots below the base. -/
theorem le_slot_of_mem {base s : Nat} {ops : List Op} {op : Op}
    (hop : op ∈ ops.map (relabel (base + ·))) (hs : op.slot? = some s) : base ≤ s := by
  obtain ⟨op, -, rfl⟩ := List.mem_map.mp hop
  rw [slot?_relabel, Option.map_eq_some_iff] at hs
  obtain ⟨k, -, rfl⟩ := hs
  exact Nat.le_add_right ..

/-- A shifted operation reads a shifted slot exactly if the operation reads the slot. -/
theorem relabel_eq_get_iff {base slot : Nat} {op : Op} :
    op.relabel (base + ·) = .get (base + slot) ↔ op = .get slot := by
  cases op <;> simp [relabel]

end Op

/-- The emission `e` is `d` with all slots shifted by `base`. Events are left out of account. -/
structure Emission.ShiftOf (base : Nat) (d e : Emission) : Prop where
  next : e.next = base + d.next
  slots : ∀ a : Nat, e.slots[a]? = d.slots[a]?.map (base + ·)
  ops : e.ops = d.ops.map (Op.relabel (base + ·))

namespace Emission.ShiftOf

variable {base : Nat} {d e : Emission}

/-- An operation is put in front on both sides, with its slot shifted on the one. -/
theorem prepend (h : ShiftOf base d e) (op : Op) :
    ShiftOf base (d.prepend op) (e.prepend (op.relabel (base + ·))) where
  next := h.next
  slots := h.slots
  ops := by simp [Emission.prepend, h.ops]

/-- Events may differ, since slots are named in them. -/
theorem note (h : ShiftOf base d e) (ctx : EmitContext) (event event' : Event) :
    ShiftOf base (ctx.note event d) (ctx.note event' e) where
  next := by simpa using h.next
  slots := by simpa using h.slots
  ops := by simpa using h.ops

/-- Both emissions are about to read the slot, or neither is. -/
theorem head?_eq_get_iff (h : ShiftOf base d e) (slot : Nat) :
    e.ops.head? = some (.get (base + slot)) ↔ d.ops.head? = some (.get slot) := by
  rw [h.ops, List.head?_map]
  cases d.ops.head? with
  | none => simp
  | some op => simp [Op.relabel_eq_get_iff]

/-- Both emissions give a value their next slot. -/
theorem assign (h : ShiftOf base d e) (target : Nat) :
    ShiftOf base { d with slots := d.slots.insert target d.next, next := d.next + 1 }
      { e with slots := e.slots.insert target (base + d.next), next := base + d.next + 1 } where
  next := rfl
  slots := by
    intro a
    simp only [Std.ExtTreeMap.getElem?_insert]
    split
    · rfl
    · exact h.slots a
  ops := h.ops

end Emission.ShiftOf

namespace EmitContext

open Emission (ShiftOf)

variable {ctx : EmitContext} {base : Nat} {d e : Emission}

/-- Both emissions store a value in the same way. -/
theorem save_shifted (h : ShiftOf base d e) (pos slot : Nat) :
    ShiftOf base (ctx.save pos slot d) (ctx.save pos (base + slot) e) := by
  simp only [save, h.head?_eq_get_iff slot]
  split
  · refine ShiftOf.note ?_ ..
    constructor
    · exact h.next
    · exact h.slots
    · simp [h.ops, Op.relabel]
  · exact (h.prepend (.set slot)).note ..

/-- Taking up an instruction is the same on both sides. -/
theorem enter_shifted (h : ShiftOf base d e) (consumer : Option Nat) (pos : Nat) (op : Opcode) :
    ShiftOf base (ctx.enter consumer pos op d) (ctx.enter consumer pos op e) := by
  have hnoted := h.note ctx (entry pos consumer) (entry pos consumer)
  refine ShiftOf.prepend ?_ (.perform op)
  rw [finish, finish, hnoted.slots]
  cases (ctx.note (entry pos consumer) d).slots[pos]? with
  | some slot => exact save_shifted hnoted pos slot
  | none =>
      show ShiftOf base (if _ then _ else _) (if _ then _ else _)
      split
      · exact (hnoted.prepend .drop).note ..
      · exact hnoted

/-- A value that can be read back further up can be read back from zero on. -/
theorem keep_shifted (h : ShiftOf base d e) {consumer target : Nat} {reason : KeepReason}
    {e' : Emission} (hkeep : ctx.keep consumer target reason e = .ok e') :
    ∃ d', ctx.keep consumer target reason d = .ok d' ∧ ShiftOf base d' e' := by
  simp only [keep, slotFor, h.slots] at hkeep ⊢
  cases hslot : d.slots[target]? with
  | some slot =>
      simp only [hslot] at hkeep
      cases hkeep
      exact ⟨_, rfl, (h.note ctx _ _).prepend (.get slot)⟩
  | none =>
      simp only [hslot] at hkeep
      -- The next slot is lower from zero on, so there is room for it.
      have hlow : e.next + 1 < indexLimit := by
        by_contra hfull
        simp only [Option.map_none, if_neg hfull] at hkeep
        cases hkeep
      have hroom : d.next + 1 < indexLimit := by
        have hnext := h.next
        omega
      simp only [Option.map_none, if_pos hlow] at hkeep
      cases hkeep
      refine ⟨_, by simp only [if_pos hroom]; rfl, ?_⟩
      rw [h.next]
      exact (((h.assign target).note ctx _ _).note ctx _ _).prepend (.get d.next)

/-- A step that can be taken further up can be taken from zero on. -/
theorem step_shifted (h : ShiftOf base d e) {s : EmitStep} {e' : Emission}
    (hstep : ctx.step s e = .ok e') : ∃ d', ctx.step s d = .ok d' ∧ ShiftOf base d' e' := by
  cases s with
  | enter consumer pos op =>
      cases hstep
      exact ⟨_, rfl, enter_shifted h consumer pos op⟩
  | push v =>
      cases hstep
      exact ⟨_, rfl, h.prepend (.push v)⟩
  | read pos v =>
      cases v with
      | kept target reason => exact keep_shifted h hstep
      | dangling operand target => cases hstep

/-- Steps that can be taken further up can be taken from zero on. -/
theorem steps_shifted (h : ShiftOf base d e) (ss : List EmitStep) {e' : Emission}
    (hsteps : ctx.steps ss e = .ok e') : ∃ d', ctx.steps ss d = .ok d' ∧ ShiftOf base d' e' := by
  induction ss generalizing e' with
  | nil =>
      cases hsteps
      exact ⟨d, rfl, h⟩
  | cons s ss ih =>
      rw [steps_cons, bind_eq_ok] at hsteps
      obtain ⟨mid, hss, hs⟩ := hsteps
      obtain ⟨mid', hss', hmid⟩ := ih hss
      obtain ⟨d', hs', hd'⟩ := step_shifted hmid hs
      exact ⟨d', by rw [steps_cons, bind_eq_ok]; exact ⟨mid', hss', hs'⟩, hd'⟩

/-- An emission from any base is a shift of the one from zero. -/
theorem emitAll_shifted {ts : List (Tree Verdict)} (h : ctx.emitAll ts { next := base } = .ok e) :
    ∃ d, ctx.emitAll ts { next := 0 } = .ok d ∧ ShiftOf base d e := by
  rw [emitAll_steps] at h ⊢
  refine steps_shifted ?_ _ h
  constructor
  · rfl
  · intro a
    simp
  · rfl

end EmitContext

/-! ### Code for different bases -/

namespace Block

/-- The base is that of the options, unless the locals of the block go beyond it. -/
theorem slotBase_eq (b : Block) (opts : Options) :
    b.slotBase opts = max opts.base.toNat (Options.forBlock b).base.toNat := by
  rw [slotBase, Options.base_forBlock]

/-- Down to zero and up to another base. -/
theorem move_comp_shift (base base' : Nat) :
    (fun s => s - base + base') ∘ (base + ·) = (base' + ·) := by
  funext s
  show base + s - base + base' = base' + s
  omega

/-- Emission depends on the options through the base of the slots and fusing only. -/
theorem emit_congr {b : Block} {opts opts' : Options} (hfuse : opts.fuse = opts'.fuse)
    (hbase : b.slotBase opts = b.slotBase opts') (uses : UseTable) :
    b.emit uses opts = b.emit uses opts' := by
  simp only [emit, emission, codeOf, hfuse, hbase]

/-- Code is that of the emission from zero, shifted by its base. -/
theorem emit_shifted {b : Block} {uses : UseTable} {opts : Options} {c : Code}
    (h : b.emit uses opts = .ok c) :
    c.base = b.slotBase opts ∧
    ∃ d, ({ uses, fuse := opts.fuse, traced := false } : EmitContext).emitAll (b.plan uses)
        { next := 0 } = .ok d ∧
      c.ops = d.ops.map (Op.relabel (c.base + ·)) ∧
      (∀ pos, c.slot? pos = d.slots[pos]?.map (c.base + ·)) ∧ c.frameSize = d.next := by
  obtain ⟨-, e, he, rfl⟩ := emit_eq_ok_iff.mp h
  obtain ⟨d, hd, hshift⟩ := EmitContext.emitAll_shifted he
  refine ⟨rfl, d, hd, hshift.ops, hshift.slots, ?_⟩
  show e.next - b.slotBase opts = d.next
  rw [hshift.next]
  exact Nat.add_sub_cancel_left ..

/-- The base only relabels slots. Take two options with the same fusing. Where both give code,
the base of the slots is the greater one of what the options ask for and what the block needs.
The operations of the second code are those of the first, with each slot moved by the difference
of the bases, the slots of values are moved in the same way, and the frames have the same size.
If the bases are the same, so is the outcome. In particular this is so for all options that ask
for no more than the block needs. -/
theorem emit_relabelled (b : Block) (uses : UseTable) (opts opts' : Options)
    (hfuse : opts.fuse = opts'.fuse) :
    (∀ c c', b.emit uses opts = .ok c → b.emit uses opts' = .ok c' →
      c.base = max opts.base.toNat (Options.forBlock b).base.toNat ∧
      c'.base = max opts'.base.toNat (Options.forBlock b).base.toNat ∧
      c'.ops = c.ops.map (Op.relabel fun s => s - c.base + c'.base) ∧
      (∀ op ∈ c.ops, ∀ s, op.slot? = some s → c.base ≤ s) ∧
      (∀ pos, c'.slot? pos = (c.slot? pos).map fun s => s - c.base + c'.base) ∧
      (∀ pos s, c.slot? pos = some s → c.base ≤ s) ∧
      c'.frameSize = c.frameSize) ∧
    (max opts.base.toNat (Options.forBlock b).base.toNat
        = max opts'.base.toNat (Options.forBlock b).base.toNat →
      b.emit uses opts = b.emit uses opts') ∧
    (opts.base ≤ (Options.forBlock b).base →
      b.emit uses opts = b.emit uses ⟨(Options.forBlock b).base, opts.fuse⟩) ∧
    b.emit uses {} = b.emit uses (Options.forBlock b) := by
  refine ⟨?_, ?_, ?_, ?_⟩
  · intro c c' hc hc'
    obtain ⟨hbase, d, hd, hops, hslots, hframe⟩ := emit_shifted hc
    obtain ⟨hbase', d', hd', hops', hslots', hframe'⟩ := emit_shifted hc'
    -- Both are shifts of one emission.
    rw [← hfuse, hd] at hd'
    cases hd'
    refine ⟨hbase.trans (b.slotBase_eq opts), hbase'.trans (b.slotBase_eq opts'), ?_, ?_, ?_, ?_,
      ?_⟩
    · rw [hops, hops', List.map_map]
      refine List.map_congr_left fun op _ => ?_
      rw [Function.comp_apply, Op.relabel_relabel, move_comp_shift]
    · intro op hop s hs
      rw [hops] at hop
      exact Op.le_slot_of_mem hop hs
    · intro pos
      rw [hslots, hslots', Option.map_map, move_comp_shift]
    · intro pos s hs
      rw [hslots, Option.map_eq_some_iff] at hs
      obtain ⟨k, -, rfl⟩ := hs
      exact Nat.le_add_right ..
    · rw [hframe, hframe']
  · intro hmax
    rw [← slotBase_eq, ← slotBase_eq] at hmax
    exact emit_congr hfuse hmax uses
  · intro hle
    have hle := UInt32.le_iff_toNat_le.mp hle
    apply emit_congr
    · rfl
    · rw [slotBase_eq, slotBase_eq]
      show max opts.base.toNat _ = max (Options.forBlock b).base.toNat _
      omega
  · apply emit_congr
    · rfl
    · rw [slotBase_eq, slotBase_eq]
      exact (Nat.max_eq_right (Nat.zero_le _)).trans (Nat.max_self _).symm

/-- The square of the second local. -/
def squared : Block := ⟨[⟨.loadLocal, [.imm 1]⟩, ⟨.mul, [.ref 0, .ref 0]⟩]⟩

/-- The theorem at that block, with slots from `2` on and with slots from `9` on. -/
theorem emit_relabelled_squared :
    ∃ c c', squared.emit ⟨#[2, 0]⟩ {} = .ok c ∧ squared.emit ⟨#[2, 0]⟩ { base := 9 } = .ok c' ∧
      c.base = 2 ∧ c'.base = 9 ∧ c'.frameSize = c.frameSize ∧
      c.ops = [.push 1, .perform .loadLocal, .tee 2, .get 2, .perform .mul, .drop] ∧
      c'.ops = [.push 1, .perform .loadLocal, .tee 9, .get 9, .perform .mul, .drop] := by
  obtain ⟨c, hc, hcode⟩ : ∃ c, squared.emit ⟨#[2, 0]⟩ {} = .ok c ∧
      c.ops = [.push 1, .perform .loadLocal, .tee 2, .get 2, .perform .mul, .drop] := ⟨_, rfl, rfl⟩
  obtain ⟨c', hc'⟩ : ∃ c, squared.emit ⟨#[2, 0]⟩ { base := 9 } = .ok c := ⟨_, rfl⟩
  obtain ⟨hcodes, -⟩ := squared.emit_relabelled ⟨#[2, 0]⟩ {} { base := 9 } rfl
  obtain ⟨hbase, hbase', hops, -, -, -, hframe⟩ := hcodes c c' hc hc'
  refine ⟨c, c', hc, hc', hbase, hbase', hframe, hcode, ?_⟩
  rw [hops, hcode, hbase, hbase']
  rfl

end Block

end StackForm

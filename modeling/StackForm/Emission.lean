import StackForm.Code
import StackForm.Folding
import StackForm.Trace

/-!
# `StackForm.Emission`: emitting code from a folding plan

The code of a block computes each tree of its folding plan bottom up, so that every
operand is on the stack when its consumer runs. Values that are kept go to frame
slots, numbered upward from a base beyond all locals that the block names.

Emission walks the plan back to front, roots last to first and operands right to
left. It meets the readers of a value before the instruction that computes it, so
when it comes to that instruction it knows whether the value has a slot, and which
operation runs right after it. If that operation reads the slot back, a single tee
serves for both.
-/

set_option autoImplicit false

namespace StackForm

/-- What stays the same throughout an emission. -/
structure EmitContext where
  uses : UseTable
  /-- Whether a value that is stored and at once read back is stored by a tee. -/
  fuse : Bool
  /-- Whether events are noted. -/
  traced : Bool

/-- What has been emitted so far, the end of the code. -/
structure Emission where
  /-- The first slot that is not assigned. -/
  next : Nat
  slots : Std.ExtTreeMap Nat Nat := ∅
  /-- The code from here on, in the order in which it runs. -/
  ops : List Op := []
  /-- What happened so far, last event first. -/
  events : List Event := []

/-- Puts an operation before the code so far. -/
def Emission.prepend (e : Emission) (op : Op) : Emission := { e with ops := op :: e.ops }

namespace EmitContext

/-- Notes an event, if events are wanted. -/
def note (ctx : EmitContext) (event : Event) (e : Emission) : Emission :=
  if ctx.traced then { e with events := event :: e.events } else e

/-- The value of `pos`, just computed, goes to its slot. If the next operation reads
the slot back and fusing is on, a tee takes the place of both. -/
def save (ctx : EmitContext) (pos slot : Nat) (e : Emission) : Emission :=
  if ctx.fuse ∧ e.ops.head? = some (.get slot) then
    ctx.note (.store pos (.tee slot)) { e with ops := .tee slot :: e.ops.tail }
  else ctx.note (.store pos (.set slot)) (e.prepend (.set slot))

/-- What becomes of the value of `pos`, just computed: it goes to its slot if it has
one, is dropped if nothing uses it, and otherwise stays on the stack. -/
def finish (ctx : EmitContext) (pos : Nat) (opcode : Opcode) (e : Emission) : Emission :=
  match e.slots[pos]? with
  | some slot => ctx.save pos slot e
  | none =>
    if opcode.hasResult ∧ ctx.uses.uses pos = 0 then ctx.note (.drop pos) (e.prepend .drop) else e

/-- The event of taking up an instruction, for a consumer or as a root. -/
def entry (pos : Nat) : Option Nat → Event
  | none => .root pos
  | some consumer => .fold pos consumer

/-- Emits the instruction at `pos` itself, for a consumer or as a root. -/
def enter (ctx : EmitContext) (consumer : Option Nat) (pos : Nat) (opcode : Opcode) (e : Emission) :
    Emission :=
  (ctx.finish pos opcode (ctx.note (entry pos consumer) e)).prepend (.perform opcode)

/-- The slot of a kept value. The first reader that is met assigns it, as long as
there is a number left for the slot after it. -/
def slotFor (ctx : EmitContext) (target : Nat) (e : Emission) :
    Except LowerFault (Nat × Emission) :=
  match e.slots[target]? with
  | some slot => return (slot, e)
  | none =>
    if e.next + 1 < indexLimit then
      return (e.next, ctx.note (.slot e.next target)
        { e with slots := e.slots.insert target e.next, next := e.next + 1 })
    else throw .slotOverflow

/-- Emits the reading back of a kept value. -/
def keep (ctx : EmitContext) (consumer target : Nat) (reason : KeepReason) (e : Emission) :
    Except LowerFault Emission := do
  let (slot, e) ← ctx.slotFor target e
  return (ctx.note (.keep target consumer reason) e).prepend (.get slot)

mutual

/-- Emits a planned tree before the code so far. -/
def emitTree (ctx : EmitContext) (consumer : Option Nat) :
    Tree Verdict → Emission → Except LowerFault Emission
  | .node pos opcode cs, e => ctx.emitChildren pos cs (ctx.enter consumer pos opcode e)

/-- Emits one operand of the consumer at `pos`. -/
def emitChild (ctx : EmitContext) (pos : Nat) :
    Child Verdict → Emission → Except LowerFault Emission
  | .imm v, e => return e.prepend (.push v)
  | .ref (.kept target reason), e => ctx.keep pos target reason e
  | .ref (.dangling operand target), _ => throw (.invalidReference pos operand target)
  | .nested t, e => ctx.emitTree (some pos) t e

/-- Emits the operands of the consumer at `pos`, the last one first. -/
def emitChildren (ctx : EmitContext) (pos : Nat) :
    List (Child Verdict) → Emission → Except LowerFault Emission
  | [], e => return e
  | c :: cs, e => do
    let e ← ctx.emitChildren pos cs e
    ctx.emitChild pos c e

end

/-- Emits planned trees, the last one first. -/
def emitAll (ctx : EmitContext) (ts : List (Tree Verdict)) (e : Emission) :
    Except LowerFault Emission :=
  ts.foldrM (ctx.emitTree none) e

end EmitContext

namespace Block

/-- The base of a block's slots: beyond the locals that the block names, and not
below what the options ask for. -/
def slotBase (b : Block) (opts : Options) : Nat := max opts.base.toNat b.frameBase

/-- Emits a block, guided by a use table. -/
def emission (b : Block) (uses : UseTable) (opts : Options) (traced : Bool) :
    Except LowerFault Emission := do
  uses.checkFits b
  ({ uses, fuse := opts.fuse, traced } : EmitContext).emitAll (b.plan uses)
    { next := b.slotBase opts }

/-- The finished code of an emission. -/
def codeOf (b : Block) (opts : Options) (e : Emission) : Code :=
  { ops := e.ops, slots := e.slots, base := b.slotBase opts,
    frameSize := e.next - b.slotBase opts }

/-- The code of a block, guided by a use table. -/
def emit (b : Block) (uses : UseTable) (opts : Options) : Except LowerFault Code := do
  let e ← b.emission uses opts false
  return b.codeOf opts e

/-- The code of a block, with the events of its emission in order. -/
def emitTraced (b : Block) (uses : UseTable) (opts : Options) :
    Except LowerFault (Code × List Event) := do
  let e ← b.emission uses opts true
  return (b.codeOf opts e, e.events.reverse)

end Block

end StackForm

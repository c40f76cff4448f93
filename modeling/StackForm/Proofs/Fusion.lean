import StackForm.Proofs.Linear

/-!
# `StackForm.Proofs.Fusion`: fusing stores with reads

With fusing on, emission writes a tee where a store would stand right before the read of
its slot. `Op.fuse` does the same to finished code. The two agree:
`EmitContext.emitAll_fuse` relates an emission that fuses to the emission of the same plan
that does not. They fail alike, or assign the same slots and differ only by `Op.fuse`.

It follows that all code is the forest written out, fused or as it is
(`Block.lower_ops`), and what is shown of the one form of code has to be carried over
`Op.fuse` only.
-/

set_option autoImplicit false

namespace StackForm

namespace Op

/-- Puts an operation before fused code. A store before the read of its slot becomes a
tee. -/
def fuseCons : Op → List Op → List Op
  | .set s, .get s' :: ops => if s = s' then .tee s :: ops else .set s :: .get s' :: ops
  | op, ops => op :: ops

/-- Code with every store that stands right before the read of its slot made a tee, and
the read taken out. -/
def fuse : List Op → List Op
  | [] => []
  | op :: ops => fuseCons op (fuse ops)

/-- A store is fused with the next operation if and only if that one loads from the same slot. -/
theorem fuseCons_set (s : Nat) (ops : List Op) :
    fuseCons (.set s) ops
      = if ops.head? = some (.get s) then .tee s :: ops.tail else .set s :: ops := by
  cases ops with
  | nil => rfl
  | cons op ops =>
      cases op with
      | get s' =>
          rw [fuseCons, List.head?_cons, List.tail_cons]
          by_cases hs : s = s'
          · subst hs
            rw [if_pos rfl, if_pos rfl]
          · rw [if_neg hs, if_neg]
            intro heq
            cases heq
            exact hs rfl
      | push _ => rfl
      | perform _ => rfl
      | set _ => rfl
      | tee _ => rfl
      | drop => rfl

end Op

/-- One emission is the other with fused code. Events are left out of account. -/
structure Emission.FusedFrom (e plain : Emission) : Prop where
  ops : e.ops = Op.fuse plain.ops
  slots : e.slots = plain.slots
  next : e.next = plain.next

namespace EmitContext

variable {ctx plain : EmitContext}

/-- What becomes of a value is decided alike in both emissions, since it depends on the
slots and the use table. The one that fuses looks at the front of its own code, which is a
read of the slot when that of the other is. -/
theorem finish_fusedFrom (huses : ctx.uses = plain.uses) (hfuse : ctx.fuse = true)
    (hplain : plain.fuse = false) (pos : Nat) (op : Opcode) {e e' : Emission}
    (h : e.FusedFrom e') : (ctx.finish pos op e).ops = Op.fuse (plain.finish pos op e').ops := by
  rw [finish, finish, h.slots, huses]
  cases e'.slots[pos]? with
  | some s =>
      dsimp only
      -- Without fusing the store is written as it is, whatever follows it.
      have hunfused : (plain.save pos s e').ops = .set s :: e'.ops := by
        rw [save, if_neg (by simp [hplain]), note_ops]
        rfl
      rw [hunfused, Op.fuse, Op.fuseCons_set, save, h.ops]
      by_cases hget : (Op.fuse e'.ops).head? = some (.get s)
      · rw [if_pos hget, if_pos ⟨hfuse, hget⟩, note_ops]
      · rw [if_neg hget, if_neg fun hboth => hget hboth.2, note_ops, Emission.prepend, h.ops]
  | none =>
      dsimp only
      split
      · rw [note_ops, note_ops, Emission.prepend, Emission.prepend, h.ops]
        rfl
      · exact h.ops

/-- The steps of the two emissions keep them alike. -/
theorem inStep_fusedFrom (huses : ctx.uses = plain.uses) (hfuse : ctx.fuse = true)
    (hplain : plain.fuse = false) : InStep Emission.FusedFrom ctx plain where
  enter consumer pos op e e' h := by
    have hnoted : (ctx.note (entry pos consumer) e).FusedFrom
        (plain.note (entry pos consumer) e') := by
      constructor
      · simpa using h.ops
      · simpa using h.slots
      · simpa using h.next
    constructor
    · show Op.perform op :: (ctx.finish pos op _).ops
        = Op.fuse (.perform op :: (plain.finish pos op _).ops)
      rw [finish_fusedFrom huses hfuse hplain pos op hnoted]
      rfl
    · simpa using h.slots
    · simpa using h.next
  push v e e' h := by
    constructor
    · show Op.push v :: e.ops = Op.fuse (.push v :: e'.ops)
      rw [h.ops]
      rfl
    · exact h.slots
    · exact h.next
  keep consumer target reason e e' h := by
    simp only [keep, slotFor, h.slots]
    cases e'.slots[target]? with
    | some s =>
        constructor
        · show Op.get s :: (ctx.note _ e).ops = Op.fuse (.get s :: (plain.note _ e').ops)
          rw [note_ops, note_ops, h.ops]
          rfl
        · show (ctx.note _ e).slots = (plain.note _ e').slots
          rw [note_slots, note_slots, h.slots]
        · show (ctx.note _ e).next = (plain.note _ e').next
          rw [note_next, note_next, h.next]
    | none =>
        dsimp only
        rw [h.next]
        split
        · constructor
          · simp [Emission.prepend, h.ops]
            rfl
          · simp [Emission.prepend]
          · simp [Emission.prepend]
        · rfl

/-- Emitting a plan with fusing or without fails alike, or gives the same slots and code
that differs by `Op.fuse`. -/
theorem emitAll_fuse (huses : ctx.uses = plain.uses) (hfuse : ctx.fuse = true)
    (hplain : plain.fuse = false) (ts : List (Tree Verdict)) (base : Nat) :
    EndsAlike Emission.FusedFrom (ctx.emitAll ts { next := base })
      (plain.emitAll ts { next := base }) :=
  emitAll_inStep (inStep_fusedFrom huses hfuse hplain) ts _ _ ⟨rfl, rfl, rfl⟩

end EmitContext

/-- The code of a block is its forest written out, and then fused if that is asked for. -/
theorem Block.lower_ops {b : Block} {opts : Options} {l : Lowering} (h : b.lower opts = .ok l) :
    l.code.ops = if opts.fuse then Op.fuse (l.forest.linear l.code.slot?)
      else l.forest.linear l.code.slot? := by
  obtain ⟨hwf, -, hroots, e, he, hcode⟩ := lower_ok h
  rw [Forest.linear, hroots, hcode]
  cases hfuse : opts.fuse with
  | false =>
      rw [hfuse] at he
      exact emitAll_linear hwf rfl rfl he
  | true =>
      rw [hfuse] at he
      -- The emission that does not fuse ends well too, with the same slots.
      let plain : EmitContext := { uses := UseTable.tally b, fuse := false, traced := false }
      have halike := @EmitContext.emitAll_fuse
        { uses := UseTable.tally b, fuse := true, traced := false } plain rfl rfl rfl
        (b.plan (UseTable.tally b)) (b.slotBase opts)
      obtain ⟨e', hplain, hfused⟩ := halike.ok_left he
      have hlinear := emitAll_linear hwf rfl rfl hplain
      rw [← hfused.slots] at hlinear
      show e.ops = Op.fuse _
      rw [hfused.ops, hlinear]
      rfl

end StackForm

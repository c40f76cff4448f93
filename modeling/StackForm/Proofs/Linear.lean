import StackForm.Lowering
import StackForm.Proofs.Uses

/-!
# `StackForm.Proofs.Linear`: the code of a block is its forest written out

`Forest.linear` writes a forest out as code, given the slots of the kept values: each
tree operands first, and after each root what becomes of its value. It looks at the
forest and at the final slots only. Emission works the other way round, from the end of
the code to its start, and decides what becomes of a value before the slots of earlier
values are assigned.

`Block.lower_linear` says that the two agree as long as stores are not fused with reads.
The argument has two halves. Inside a tree, `EmitContext.emitTree_linear`: a value computed
in place has no slot at any time, so nothing comes between it and its consumer. Between
trees, `Block.slot_settled`: all readers of a root's value stand in later trees, so its
slot is final when emission comes to the root.
-/

set_option autoImplicit false

namespace StackForm

/-- The locals that the slots of code take up. -/
def Code.InFrame (c : Code) (n : Nat) : Prop := c.base ≤ n ∧ n < c.base + c.frameSize

instance (c : Code) (n : Nat) : Decidable (c.InFrame n) :=
  inferInstanceAs (Decidable (_ ∧ _))

/-! ### Trees as code -/

mutual

/-- A tree written out as code: its operands left to right, and then its opcode. A kept
value is read from its slot. -/
def Tree.linear (slot? : Nat → Option Nat) : Tree Nat → List Op
  | .node _ op cs => Child.linearOf slot? cs ++ [.perform op]

/-- The code that puts an operand on the stack. -/
def Child.linear (slot? : Nat → Option Nat) : Child Nat → List Op
  | .imm v => [.push v]
  | .ref target => (slot? target).toList.map Op.get
  | .nested t => t.linear slot?

/-- The code that puts a list of operands on the stack. -/
def Child.linearOf (slot? : Nat → Option Nat) : List (Child Nat) → List Op
  | [] => []
  | c :: cs => c.linear slot? ++ Child.linearOf slot? cs

end

/-- What becomes of the value of a root: it goes to its slot, or is dropped if it has
none. A root without a result leaves nothing behind. -/
def Tree.ending (slot? : Nat → Option Nat) (t : Tree Nat) : List Op :=
  match slot? t.pos with
  | some s => [.set s]
  | none => if t.opcode.hasResult then [.drop] else []

/-- A forest written out as code. -/
def Forest.linear (slot? : Nat → Option Nat) (f : Forest) : List Op :=
  f.roots.toList.flatMap fun t => t.linear slot? ++ t.ending slot?

/-! ### Emission inside a tree -/

namespace EmitContext

/-- What emission puts after the instruction at `pos`, going by the slots assigned so
far. -/
def ending (ctx : EmitContext) (slots : Std.ExtTreeMap Nat Nat) (pos : Nat) (op : Opcode) :
    List Op :=
  match slots[pos]? with
  | some s => [.set s]
  | none => if op.hasResult ∧ ctx.uses.uses pos = 0 then [.drop] else []

variable {ctx : EmitContext}

/-- Taking an instruction up puts its operation in front, with what becomes of its result behind
it. -/
theorem enter_ops (hfuse : ctx.fuse = false) (consumer : Option Nat) (pos : Nat) (op : Opcode)
    (e : Emission) :
    (ctx.enter consumer pos op e).ops = .perform op :: (ctx.ending e.slots pos op ++ e.ops) := by
  simp only [enter, Emission.prepend, finish, note_slots, ending]
  cases e.slots[pos]? with
  | some s => simp [save, hfuse, Emission.prepend]
  | none =>
      dsimp only
      split
      · simp
      · simp

end EmitContext

/-- The slots of an emission are among those of `slot?`. This holds of an emission on its
way when `slot?` are the slots in the end. -/
def Emission.Within (e : Emission) (slot? : Nat → Option Nat) : Prop :=
  ∀ a s : Nat, e.slots[a]? = some s → slot? a = some s

namespace Emission.Within

variable {ctx : EmitContext} {slot? : Nat → Option Nat} {e e' : Emission}

/-- A value without a slot in the end has none on the way. -/
theorem slot_eq_none (h : e.Within slot?) {a : Nat} (ha : slot? a = none) :
    e.slots[a]? = none := by
  cases hs : e.slots[a]? with
  | none => rfl
  | some s =>
      rw [h a s hs] at ha
      cases ha

/-- Slots are not taken back, so those before a tree are among those after it. -/
theorem of_emitTree {t : Tree Verdict} {consumer : Option Nat} (h : e'.Within slot?)
    (hrun : ctx.emitTree consumer t e = .ok e') : e.Within slot? := by
  intro a s hs
  exact h a s (EmitContext.emitTree_keeps (EmitContext.keeps_slot ctx a s) hs hrun)

/-- Slots that agree in the end agreed before a child was emitted, since slots are only added. -/
theorem of_emitChild {c : Child Verdict} {pos : Nat} (h : e'.Within slot?)
    (hrun : ctx.emitChild pos c e = .ok e') : e.Within slot? := by
  intro a s hs
  exact h a s (EmitContext.emitChild_keeps (EmitContext.keeps_slot ctx a s) hs hrun)

end Emission.Within

namespace EmitContext

variable {ctx : EmitContext}

mutual

/-- Without fusing, a tree is emitted as it is written out, followed by what becomes of its
value. No value computed in place has a slot, and each of them has a use, so none is stored
or dropped on the way to its consumer. -/
theorem emitTree_linear (hfuse : ctx.fuse = false) {slot? : Nat → Option Nat} :
    (t : Tree Verdict) → {consumer : Option Nat} → {e e' : Emission} →
      ctx.emitTree consumer t e = .ok e' → e'.Within slot? →
      (∀ u ∈ Child.nodesOf t.children, slot? u.pos = none ∧ ctx.uses.uses u.pos ≠ 0) →
      e'.ops = (t.map Verdict.target).linear slot?
        ++ (ctx.ending e.slots t.pos t.opcode ++ e.ops)
  | .node pos op cs, consumer, e, e', h, hslots, hnested => by
      rw [emitChildren_linear hfuse cs h hslots hnested, enter_ops hfuse, Tree.map, Tree.linear,
        List.append_assoc]
      rfl

/-- A child is emitted as its linear code, in front of what was there. -/
theorem emitChild_linear (hfuse : ctx.fuse = false) {slot? : Nat → Option Nat} :
    (c : Child Verdict) → {pos : Nat} → {e e' : Emission} → ctx.emitChild pos c e = .ok e' →
      e'.Within slot? →
      (∀ u ∈ c.nodes, slot? u.pos = none ∧ ctx.uses.uses u.pos ≠ 0) →
      e'.ops = (c.map Verdict.target).linear slot? ++ e.ops
  | .imm v, _, e, e', h, _, _ => by
      cases h
      rfl
  | .ref (.kept target reason), _, e, e', h, hslots, _ => by
      -- The value has its slot once the read is emitted, whoever assigned it.
      obtain ⟨s, hops, hs⟩ : ∃ s, e'.ops = .get s :: e.ops ∧ slot? target = some s := by
        rcases keep_cases h with ⟨s, hold, hops, heq, -⟩ | ⟨-, -, hops, heq, -⟩
        · exact ⟨s, hops, hslots target s (by rw [heq]; exact hold)⟩
        · exact ⟨e.next, hops, hslots target e.next (by rw [heq]; simp)⟩
      rw [hops, Child.map, Child.linear, Verdict.target, hs]
      rfl
  | .ref (.dangling _ _), _, _, _, h, _, _ => by cases h
  | .nested t, pos, e, e', h, hslots, hnested => by
      obtain ⟨hnone, huses⟩ := hnested t (Tree.self_mem_nodes t)
      have hops := emitTree_linear hfuse t h hslots fun u hu =>
        hnested u (Tree.mem_nodes_of_below hu)
      -- Nothing comes between the tree and its consumer.
      have hend : ctx.ending e.slots t.pos t.opcode = [] := by
        rw [ending, (hslots.of_emitTree h).slot_eq_none hnone]
        exact if_neg fun hdrop => huses hdrop.2
      rw [hend] at hops
      exact hops

/-- Children are emitted as their linear code, in front of what was there. The induction is on the
children, and emission goes from the last of them to the first. -/
theorem emitChildren_linear (hfuse : ctx.fuse = false) {slot? : Nat → Option Nat} :
    (cs : List (Child Verdict)) → {pos : Nat} → {e e' : Emission} →
      ctx.emitChildren pos cs e = .ok e' → e'.Within slot? →
      (∀ u ∈ Child.nodesOf cs, slot? u.pos = none ∧ ctx.uses.uses u.pos ≠ 0) →
      e'.ops = Child.linearOf slot? (Child.mapAll Verdict.target cs) ++ e.ops
  | [], _, e, e', h, _, _ => by
      cases h
      rfl
  | c :: cs, pos, e, e', h, hslots, hnested => by
      -- The operands to the right were emitted first, up to `d`.
      rw [emitChildren, bind_eq_ok] at h
      obtain ⟨d, hcs, hc⟩ := h
      have hops := emitChild_linear hfuse c hc hslots fun u hu =>
        hnested u (List.mem_append_left _ hu)
      have hrest := emitChildren_linear hfuse cs hcs (hslots.of_emitChild hc) fun u hu =>
        hnested u (List.mem_append_right _ hu)
      rw [hops, hrest, Child.mapAll, Child.linearOf, List.append_assoc]

end

end EmitContext

/-! ### Emission between trees -/

namespace Block

/-- The values with a slot are those that the plan of the block keeps. -/
def SlotsOfPlan (b : Block) (slot? : Nat → Option Nat) : Prop :=
  ∀ a, (slot? a).isSome ↔ ∃ t ∈ b.plan (UseTable.tally b), a ∈ t.kept

variable {b : Block} {slot? : Nat → Option Nat}

/-- A value computed in place has no slot. -/
theorem SlotsOfPlan.nested (h : b.SlotsOfPlan slot?) (hwf : b.WellFormed) {t u : Tree Verdict}
    (ht : t ∈ b.plan (UseTable.tally b)) (hu : u ∈ Child.nodesOf t.children) :
    slot? u.pos = none := by
  refine Option.not_isSome_iff_eq_none.mp fun hsome => ?_
  obtain ⟨t', ht', ha⟩ := (h u.pos).mp hsome
  exact (nested_use hwf ht hu).2.2 t' ht' ha

/-- A root without a slot has no use. -/
theorem SlotsOfPlan.unused (h : b.SlotsOfPlan slot?) {t : Tree Verdict}
    (ht : t ∈ b.plan (UseTable.tally b)) (hnone : slot? t.pos = none) :
    (UseTable.tally b).uses t.pos = 0 := by
  refine Decidable.byContradiction fun hne => ?_
  have hsome := (h t.pos).mpr (root_kept ht hne)
  rw [hnone] at hsome
  cases hsome

/-- A value with a slot is the result of an instruction. -/
theorem SlotsOfPlan.hasResult (h : b.SlotsOfPlan slot?) (hwf : b.WellFormed) {a s : Nat}
    (ha : slot? a = some s) : ∃ j : Instr, b.instrs[a]? = some j ∧ j.opcode.hasResult = true := by
  obtain ⟨t, ht, hmem⟩ := (h a).mp (by rw [ha]; rfl)
  exact kept_hasResult hwf ht hmem

/-- When the trees from `t` on are emitted except for `t` itself, the slot of `t` is what
it will be in the end. Whatever keeps the value of `t` begins after `t`, so no tree that is
still to be emitted does. -/
theorem slot_settled (hwf : b.WellFormed) {ctx : EmitContext} (hplanned : b.SlotsOfPlan slot?)
    {before after : List (Tree Verdict)} {t : Tree Verdict}
    (hplan : b.plan (UseTable.tally b) = before ++ t :: after) {base : Nat} {e : Emission}
    (h : ctx.emitAll after { next := base } = .ok e) (hslots : e.Within slot?) :
    e.slots[t.pos]? = slot? t.pos := by
  have hcovers := b.plan_covers (UseTable.tally b)
  cases hfinal : slot? t.pos with
  | none => exact hslots.slot_eq_none hfinal
  | some s =>
      obtain ⟨u, hu, ha⟩ := (hplanned t.pos).mp (by rw [hfinal]; rfl)
      have hbefore := kept_before hwf hu ha
      have hulow := (hcovers.stretch u hu).1
      -- A tree at or before `t` has its lowest position at or before that of `t`.
      have hafter : u ∈ after := by
        have hapart := hcovers.apart
        rw [hplan, List.pairwise_append] at hapart
        rw [hplan, List.mem_append, List.mem_cons] at hu
        rcases hu with hu | rfl | hu
        · have hlow := hapart.2.2 u hu t (List.mem_cons_self ..)
          have htlow := (hcovers.stretch t (by rw [hplan]; simp)).1
          omega
        · omega
        · exact hu
      -- So the slot is assigned already, and assigned slots stay.
      have hsome := (EmitContext.emitAll_slots t.pos after h).mpr (Or.inr ⟨u, hafter, ha⟩)
      obtain ⟨s', hs'⟩ := Option.isSome_iff_exists.mp hsome
      rw [hs', ← hfinal, hslots t.pos s' hs']

/-- Without fusing, the end of a plan is emitted as it is written out. The slots `slot?`
are those of the finished emission. -/
theorem emitAll_suffix (hwf : b.WellFormed) {ctx : EmitContext} (hfuse : ctx.fuse = false)
    (huses : ctx.uses = UseTable.tally b) (hplanned : b.SlotsOfPlan slot?) {base : Nat}
    (after before : List (Tree Verdict)) {e : Emission}
    (hplan : b.plan (UseTable.tally b) = before ++ after)
    (h : ctx.emitAll after { next := base } = .ok e) (hslots : e.Within slot?) :
    e.ops = (after.map (Tree.map Verdict.target)).flatMap
      fun t => t.linear slot? ++ t.ending slot? := by
  induction after generalizing before e with
  | nil =>
      cases h
      rfl
  | cons t after ih =>
      rw [EmitContext.emitAll, List.foldrM_cons, bind_eq_ok] at h
      obtain ⟨d, hafter, ht⟩ := h
      have hmem : t ∈ b.plan (UseTable.tally b) := by
        rw [hplan]
        simp
      have hslots' := hslots.of_emitTree ht
      have hrest := ih (before ++ [t]) (by rw [hplan]; simp) hafter hslots'
      have hnested : ∀ u ∈ Child.nodesOf t.children,
          slot? u.pos = none ∧ ctx.uses.uses u.pos ≠ 0 := by
        intro u hu
        refine ⟨hplanned.nested hwf hmem hu, ?_⟩
        rw [huses, (nested_use hwf hmem hu).2.1]
        decide
      -- Emission looks at the slots so far and at the use count, `Tree.ending` at the final
      -- slots only.
      have hending : ctx.ending d.slots t.pos t.opcode
          = (t.map Verdict.target).ending slot? := by
        rw [EmitContext.ending, slot_settled hwf hplanned hplan hafter hslots', Tree.ending,
          Tree.pos_map, Tree.opcode_map]
        cases hfinal : slot? t.pos with
        | some s => rfl
        | none => simp only [huses, hplanned.unused hmem hfinal, and_true]
      rw [EmitContext.emitTree_linear hfuse t ht hslots hnested, hending, hrest, List.map_cons,
        List.flatMap_cons, List.append_assoc]

/-- A finished emission has the slots of its plan. -/
theorem slotsOfPlan_emitAll {ctx : EmitContext} {base : Nat} {e : Emission}
    (h : ctx.emitAll (b.plan (UseTable.tally b)) { next := base } = .ok e) :
    b.SlotsOfPlan fun a => e.slots[a]? := by
  intro a
  have hslots := EmitContext.emitAll_slots a (b.plan (UseTable.tally b)) h
  show e.slots[a]?.isSome ↔ _
  rw [hslots]
  simp

/-- Without fusing, the plan of a well-formed block is emitted as it is written out. -/
theorem emitAll_linear (hwf : b.WellFormed) {ctx : EmitContext} (hfuse : ctx.fuse = false)
    (huses : ctx.uses = UseTable.tally b) {base : Nat} {e : Emission}
    (h : ctx.emitAll (b.plan (UseTable.tally b)) { next := base } = .ok e) :
    e.ops = ((b.plan (UseTable.tally b)).map (Tree.map Verdict.target)).flatMap
      fun t => t.linear (fun a => e.slots[a]?) ++ t.ending (fun a => e.slots[a]?) :=
  emitAll_suffix hwf hfuse huses (slotsOfPlan_emitAll h) (b.plan (UseTable.tally b)) [] rfl h
    fun _ _ hs => hs

/-! ### Lowered blocks -/

/-- What lowering does to a block that it accepts: the block is well formed and its table is
its tally, the forest is the plan without reasons, and the code is that of an emission of
the plan. -/
theorem lower_ok {opts : Options} {l : Lowering} (h : b.lower opts = .ok l) :
    b.WellFormed ∧ l.uses = UseTable.tally b ∧
      l.forest.roots.toList = (b.plan (UseTable.tally b)).map (Tree.map Verdict.target) ∧
      ∃ e, ({ uses := UseTable.tally b, fuse := opts.fuse, traced := false } :
          EmitContext).emitAll (b.plan (UseTable.tally b)) { next := b.slotBase opts } = .ok e ∧
        l.code = b.codeOf opts e := by
  rw [lower, bind_eq_ok] at h
  obtain ⟨uses, huses, h⟩ := h
  obtain ⟨hwf, rfl⟩ := UseTable.ofBlock_ok huses
  rw [bind_eq_ok] at h
  obtain ⟨f, hf, h⟩ := h
  rw [bind_eq_ok] at h
  obtain ⟨c, hc, h⟩ := h
  cases h
  obtain ⟨-, e, he, rfl⟩ := emit_eq_ok_iff.mp hc
  exact ⟨hwf, rfl, (Forest.ofBlock_ok hf).2, e, he, rfl⟩

/-- The slots of a lowered block are those that its plan asks for. -/
theorem lower_slots {opts : Options} {l : Lowering} (h : b.lower opts = .ok l) :
    b.SlotsOfPlan l.code.slot? := by
  obtain ⟨-, -, -, e, he, hcode⟩ := lower_ok h
  rw [hcode]
  exact slotsOfPlan_emitAll he

/-- The slots of lowered code are those of its frame, each with one value. -/
theorem lower_frame {opts : Options} {l : Lowering} (h : b.lower opts = .ok l) :
    (∀ a s, l.code.slot? a = some s → l.code.InFrame s) ∧
    (∀ a a' s, l.code.slot? a = some s → l.code.slot? a' = some s → a = a') ∧
    ∀ s, l.code.InFrame s → ∃ a, l.code.slot? a = some s := by
  obtain ⟨-, -, -, e, he, hcode⟩ := lower_ok h
  have hframed := EmitContext.emitAll_framed he
  have hbase := hframed.base_le
  have hend : b.slotBase opts + (e.next - b.slotBase opts) = e.next := by omega
  rw [hcode]
  refine ⟨?_, hframed.injective, ?_⟩
  · intro a s hs
    show b.slotBase opts ≤ s ∧ s < b.slotBase opts + (e.next - b.slotBase opts)
    rw [hend]
    exact hframed.bounds a s hs
  · rintro s ⟨hle, hlt⟩
    refine hframed.dense s hle ?_
    rw [← hend]
    exact hlt

/-- The code of a block agrees with its forest. Without fusing, the code is the forest
written out. A kept value has a slot, so that the forest can be written out at all; a value
that is computed in place has none; and a root whose value is dropped has no use. -/
theorem lower_linear {opts : Options} {l : Lowering} (h : b.lower opts = .ok l)
    (hfuse : opts.fuse = false) :
    l.code.ops = l.forest.linear l.code.slot? ∧
    (∀ t ∈ l.forest.roots.toList, ∀ a ∈ t.refs, (l.code.slot? a).isSome) ∧
    (∀ t ∈ l.forest.roots.toList, t.opcode.hasResult = true → l.code.slot? t.pos = none →
      l.uses.uses t.pos = 0) ∧
    ∀ t ∈ l.forest.roots.toList, ∀ u ∈ t.properSubtrees, l.code.slot? u.pos = none := by
  obtain ⟨hwf, huses, hroots, e, he, hcode⟩ := lower_ok h
  have hslots := lower_slots h
  refine ⟨?_, ?_, ?_, ?_⟩
  · rw [Forest.linear, hroots, hcode]
    exact emitAll_linear hwf hfuse rfl he
  · intro t ht a ha
    rw [hroots] at ht
    obtain ⟨p, hp, rfl⟩ := List.mem_map.mp ht
    -- What the tree refers to is what some node of the plan keeps.
    obtain ⟨u, hu, hleaf⟩ := (Tree.mem_refs (p.map Verdict.target) a).mp ha
    rw [Tree.nodes_map] at hu
    obtain ⟨q, hq, rfl⟩ := List.mem_map.mp hu
    rw [Tree.leaves_map] at hleaf
    exact (hslots a).mpr ⟨p, hp, (Tree.mem_kept a p).mpr ⟨q, hq, hleaf⟩⟩
  · intro t ht _ hnone
    rw [hroots] at ht
    obtain ⟨p, hp, rfl⟩ := List.mem_map.mp ht
    rw [Tree.pos_map] at hnone ⊢
    rw [huses]
    exact hslots.unused hp hnone
  · intro t ht u hu
    rw [hroots] at ht
    obtain ⟨p, hp, rfl⟩ := List.mem_map.mp ht
    rw [Tree.mem_properSubtrees, Tree.children_map, ← Child.mapAll_eq_map,
      Child.nodesOf_mapAll] at hu
    obtain ⟨q, hq, rfl⟩ := List.mem_map.mp hu
    rw [Tree.pos_map]
    exact hslots.nested hwf hp hq

/-- A block that keeps a value, computes values in place, and has a root with no result and
one whose result nothing uses. -/
def square : Block :=
  ⟨[⟨.loadLocal, [.imm 3]⟩, ⟨.neg, [.ref 0]⟩, ⟨.mul, [.ref 1, .ref 1]⟩,
    ⟨.storeLocal, [.imm 0, .ref 2]⟩, ⟨.sub, [.imm 5, .ref 1]⟩]⟩

/-- The theorem at that block: three roots, of which the first goes to slot 4 and the last
is dropped. -/
theorem lower_linear_square :
    ∃ l, square.lower { fuse := false } = .ok l ∧ l.code.slot? 1 = some 4 ∧
      l.forest.linear l.code.slot?
        = [.push 3, .perform .loadLocal, .perform .neg, .set 4,
           .push 0, .get 4, .get 4, .perform .mul, .perform .storeLocal,
           .push 5, .get 4, .perform .sub, .drop] := by
  obtain ⟨l, hl, hslot, hops⟩ : ∃ l, square.lower { fuse := false } = .ok l ∧
      l.code.slot? 1 = some 4 ∧ l.code.ops
        = [.push 3, .perform .loadLocal, .perform .neg, .set 4,
           .push 0, .get 4, .get 4, .perform .mul, .perform .storeLocal,
           .push 5, .get 4, .perform .sub, .drop] := ⟨_, rfl, rfl, rfl⟩
  exact ⟨l, hl, hslot, (lower_linear hl rfl).1 ▸ hops⟩

end Block

end StackForm

import StackForm.Emission
import StackForm.Proofs.Postorder

/-!
# `StackForm.Proofs.Emission`: what holds of every emission

An emission takes up the instructions of a plan, pushes constants and reads kept values
back, and nothing else. `EmitContext.InStep` names those three steps for two emissions
of one plan that run side by side, and `EmitContext.emitAll_inStep` lifts a relation
that the steps keep to whole emissions. `EmitContext.emitAll_keeps` is the same for one
emission and a property.

The results hold for every plan, of a well-formed block or not:

* `EmitContext.emitAll_framed`: slots are numbered without gaps from the base, and no two
  values share one.
* `EmitContext.emitAll_slots`: the values with a slot are those that the plan keeps.
* `EmitContext.emitAll_performed`: the opcodes in the code are those of the plan's
  nodes, in running order.
-/

set_option autoImplicit false

namespace StackForm

/-! ### Emissions side by side -/

/-- Both computations fail with the same fault, or both end well with related results. -/
def EndsAlike (R : Emission → Emission → Prop) :
    Except LowerFault Emission → Except LowerFault Emission → Prop
  | .ok e, .ok e' => R e e'
  | .error f, .error f' => f = f'
  | _, _ => False

/-- Two computations that end alike go on alike. -/
theorem EndsAlike.bind {R S : Emission → Emission → Prop}
    {x y : Except LowerFault Emission} {f g : Emission → Except LowerFault Emission}
    (hxy : EndsAlike R x y) (hfg : ∀ e e', R e e' → EndsAlike S (f e) (g e')) :
    EndsAlike S (x >>= f) (y >>= g) := by
  cases x with
  | error a =>
      cases y with
      | error b => exact hxy
      | ok e' => exact hxy.elim
  | ok e =>
      cases y with
      | error b => exact hxy.elim
      | ok e' => exact hfg e e' hxy

/-- If one of two computations that end alike ends well, so does the other. -/
theorem EndsAlike.ok_left {R : Emission → Emission → Prop} {x y : Except LowerFault Emission}
    {e : Emission} (h : EndsAlike R x y) (hx : x = .ok e) : ∃ e', y = .ok e' ∧ R e e' := by
  subst hx
  cases y with
  | error f => exact h.elim
  | ok e' => exact ⟨e', rfl, h⟩

/-- If the second of two computations that end alike ends well, so does the first. -/
theorem EndsAlike.ok_right {R : Emission → Emission → Prop} {x y : Except LowerFault Emission}
    {e' : Emission} (h : EndsAlike R x y) (hy : y = .ok e') : ∃ e, x = .ok e ∧ R e e' := by
  subst hy
  cases x with
  | error f => exact h.elim
  | ok e => exact ⟨e, rfl, h⟩

namespace EmitContext

/-- The three steps of an emission keep a relation between two emissions. -/
structure InStep (R : Emission → Emission → Prop) (ctx ctx' : EmitContext) : Prop where
  enter : ∀ consumer pos op e e', R e e' →
    R (ctx.enter consumer pos op e) (ctx'.enter consumer pos op e')
  push : ∀ v e e', R e e' → R (e.prepend (.push v)) (e'.prepend (.push v))
  keep : ∀ consumer target reason e e', R e e' →
    EndsAlike R (ctx.keep consumer target reason e) (ctx'.keep consumer target reason e')

variable {R : Emission → Emission → Prop} {ctx ctx' : EmitContext}

mutual

/-- A relation that the steps keep is kept by emitting a tree. -/
theorem emitTree_inStep (h : InStep R ctx ctx') :
    (t : Tree Verdict) → (consumer : Option Nat) → (e e' : Emission) → R e e' →
      EndsAlike R (ctx.emitTree consumer t e) (ctx'.emitTree consumer t e')
  | .node pos op cs, consumer, e, e', hR =>
      emitChildren_inStep h cs pos _ _ (h.enter consumer pos op e e' hR)

/-- Companion: one operand. -/
theorem emitChild_inStep (h : InStep R ctx ctx') :
    (c : Child Verdict) → (pos : Nat) → (e e' : Emission) → R e e' →
      EndsAlike R (ctx.emitChild pos c e) (ctx'.emitChild pos c e')
  | .imm v, _, e, e', hR => h.push v e e' hR
  | .ref (.kept target reason), pos, e, e', hR => h.keep pos target reason e e' hR
  | .ref (.dangling _ _), _, _, _, _ => rfl
  | .nested t, pos, e, e', hR => emitTree_inStep h t (some pos) e e' hR

/-- Companion: the operands of a consumer. -/
theorem emitChildren_inStep (h : InStep R ctx ctx') :
    (cs : List (Child Verdict)) → (pos : Nat) → (e e' : Emission) → R e e' →
      EndsAlike R (ctx.emitChildren pos cs e) (ctx'.emitChildren pos cs e')
  | [], _, _, _, hR => hR
  | c :: cs, pos, e, e', hR =>
      (emitChildren_inStep h cs pos e e' hR).bind fun d d' hd => emitChild_inStep h c pos d d' hd

end

/-- A relation that the steps keep is kept by a whole emission. -/
theorem emitAll_inStep (h : InStep R ctx ctx') (ts : List (Tree Verdict)) (e e' : Emission)
    (hR : R e e') : EndsAlike R (ctx.emitAll ts e) (ctx'.emitAll ts e') := by
  induction ts with
  | nil => exact hR
  | cons t ts ih =>
      rw [emitAll, emitAll, List.foldrM_cons, List.foldrM_cons]
      exact ih.bind fun d d' hd => emitTree_inStep h t none d d' hd

/-- The three steps of an emission keep a property. -/
structure Keeps (P : Emission → Prop) (ctx : EmitContext) : Prop where
  enter : ∀ consumer pos op e, P e → P (ctx.enter consumer pos op e)
  push : ∀ v e, P e → P (e.prepend (.push v))
  keep : ∀ consumer target reason e e', P e →
    ctx.keep consumer target reason e = .ok e' → P e'

/-- A property is a relation of an emission to itself. -/
theorem Keeps.inStep {P : Emission → Prop} (h : Keeps P ctx) :
    InStep (fun e e' => e = e' ∧ P e) ctx ctx where
  enter := by
    rintro consumer pos op e _ ⟨rfl, he⟩
    exact ⟨rfl, h.enter consumer pos op e he⟩
  push := by
    rintro v e _ ⟨rfl, he⟩
    exact ⟨rfl, h.push v e he⟩
  keep := by
    rintro consumer target reason e _ ⟨rfl, he⟩
    cases hk : ctx.keep consumer target reason e with
    | error f => rfl
    | ok e' => exact ⟨rfl, h.keep consumer target reason e e' he hk⟩

/-- What every step keeps is kept by the emission of a tree. -/
theorem emitTree_keeps {P : Emission → Prop} (h : Keeps P ctx) {t : Tree Verdict}
    {consumer : Option Nat} {e e' : Emission} (he : P e)
    (hrun : ctx.emitTree consumer t e = .ok e') : P e' := by
  have hstep := emitTree_inStep h.inStep t consumer e e ⟨rfl, he⟩
  rw [hrun] at hstep
  exact hstep.2

/-- What every step keeps is kept by the emission of a child. -/
theorem emitChild_keeps {P : Emission → Prop} (h : Keeps P ctx) {c : Child Verdict} {pos : Nat}
    {e e' : Emission} (he : P e) (hrun : ctx.emitChild pos c e = .ok e') : P e' := by
  have hstep := emitChild_inStep h.inStep c pos e e ⟨rfl, he⟩
  rw [hrun] at hstep
  exact hstep.2

/-- A property that the steps keep is kept by a whole emission. -/
theorem emitAll_keeps {P : Emission → Prop} (h : Keeps P ctx) {ts : List (Tree Verdict)}
    {e e' : Emission} (he : P e) (hrun : ctx.emitAll ts e = .ok e') : P e' := by
  have hstep := emitAll_inStep h.inStep ts e e ⟨rfl, he⟩
  rw [hrun] at hstep
  exact hstep.2

/-! ### The steps -/

/-- Noting an event leaves the code as it is. -/
@[simp] theorem note_ops (ctx : EmitContext) (event : Event) (e : Emission) :
    (ctx.note event e).ops = e.ops := by
  rw [note]
  split <;> rfl

/-- Noting an event leaves the slots as they are. -/
@[simp] theorem note_slots (ctx : EmitContext) (event : Event) (e : Emission) :
    (ctx.note event e).slots = e.slots := by
  rw [note]
  split <;> rfl

/-- Noting an event takes no slot. -/
@[simp] theorem note_next (ctx : EmitContext) (event : Event) (e : Emission) :
    (ctx.note event e).next = e.next := by
  rw [note]
  split <;> rfl

/-- Storing a value leaves the slots as they are. The slot was assigned when the value was first
read. -/
@[simp] theorem save_slots (ctx : EmitContext) (pos slot : Nat) (e : Emission) :
    (ctx.save pos slot e).slots = e.slots := by
  rw [save]
  split <;> rw [note_slots]
  rfl

/-- Storing a value takes no slot. -/
@[simp] theorem save_next (ctx : EmitContext) (pos slot : Nat) (e : Emission) :
    (ctx.save pos slot e).next = e.next := by
  rw [save]
  split <;> rw [note_next]
  rfl

/-- Taking up an instruction assigns no slot. -/
@[simp] theorem enter_slots (ctx : EmitContext) (consumer : Option Nat) (pos : Nat)
    (op : Opcode) (e : Emission) : (ctx.enter consumer pos op e).slots = e.slots := by
  simp only [enter, Emission.prepend, finish]
  split
  · simp
  · split <;> simp

/-- Taking an instruction up takes no slot. -/
@[simp] theorem enter_next (ctx : EmitContext) (consumer : Option Nat) (pos : Nat)
    (op : Opcode) (e : Emission) : (ctx.enter consumer pos op e).next = e.next := by
  simp only [enter, Emission.prepend, finish]
  split
  · simp
  · split <;> simp

/-- Reading a kept value back puts a read of its slot in front. The value had that slot
already, or it is given the next one. -/
theorem keep_cases {ctx : EmitContext} {consumer target : Nat} {reason : KeepReason}
    {e e' : Emission} (h : ctx.keep consumer target reason e = .ok e') :
    (∃ slot, e.slots[target]? = some slot ∧ e'.ops = .get slot :: e.ops ∧
      e'.slots = e.slots ∧ e'.next = e.next) ∨
    (e.slots[target]? = none ∧ e.next + 1 < indexLimit ∧ e'.ops = .get e.next :: e.ops ∧
      e'.slots = e.slots.insert target e.next ∧ e'.next = e.next + 1) := by
  rw [keep, bind_eq_ok] at h
  obtain ⟨⟨slot, d⟩, hslot, hret⟩ := h
  cases hret
  rw [slotFor] at hslot
  cases hold : e.slots[target]? with
  | some s =>
      simp only [hold] at hslot
      obtain ⟨rfl, rfl⟩ : s = slot ∧ e = d := by cases hslot; exact ⟨rfl, rfl⟩
      exact Or.inl ⟨s, rfl, by simp [Emission.prepend], by simp [Emission.prepend],
        by simp [Emission.prepend]⟩
  | none =>
      simp only [hold] at hslot
      split at hslot
      · rename_i hnext
        cases hslot
        exact Or.inr ⟨rfl, hnext, by simp [Emission.prepend], by simp [Emission.prepend],
          by simp [Emission.prepend]⟩
      · cases hslot

end EmitContext

/-! ### Slots -/

/-- The slots of an emission number the values that have one, upward from `base` and
without gaps. -/
structure Emission.Framed (base : Nat) (e : Emission) : Prop where
  base_le : base ≤ e.next
  bounds : ∀ a s : Nat, e.slots[a]? = some s → base ≤ s ∧ s < e.next
  injective : ∀ a a' s : Nat, e.slots[a]? = some s → e.slots[a']? = some s → a = a'
  dense : ∀ s : Nat, base ≤ s → s < e.next → ∃ a : Nat, e.slots[a]? = some s

namespace EmitContext

variable {ctx : EmitContext}

/-- Every step keeps the slots numbered upward from the base and without gaps. -/
theorem keeps_framed (ctx : EmitContext) (base : Nat) : Keeps (Emission.Framed base) ctx where
  enter consumer pos op e h := by
    constructor
    · simpa using h.base_le
    · simpa using h.bounds
    · simpa using h.injective
    · simpa using h.dense
  push v e h := ⟨h.base_le, h.bounds, h.injective, h.dense⟩
  keep consumer target reason e e' h hk := by
    rcases keep_cases hk with ⟨slot, -, -, hslots, hnext⟩ | ⟨hnone, -, -, hslots, hnext⟩
    · constructor
      · rw [hnext]; exact h.base_le
      · rw [hslots, hnext]; exact h.bounds
      · rw [hslots]; exact h.injective
      · rw [hslots, hnext]; exact h.dense
    -- The new slot is the first one not assigned, so it is above all others.
    · have hbase := h.base_le
      constructor
      · omega
      · intro a s ha
        rw [hslots, Std.ExtTreeMap.getElem?_insert] at ha
        split at ha
        · cases ha
          omega
        · have := h.bounds a s ha
          omega
      -- Of two values with one slot, both are the new one or neither is.
      · intro a a' s ha ha'
        rw [hslots, Std.ExtTreeMap.getElem?_insert] at ha ha'
        split at ha <;> split at ha'
        · rename_i ht ht'
          rw [← Nat.compare_eq_eq.mp ht, ← Nat.compare_eq_eq.mp ht']
        · cases ha
          have := h.bounds a' _ ha'
          omega
        · cases ha'
          have := h.bounds a _ ha
          omega
        · exact h.injective a a' s ha ha'
      · intro s hs hlt
        by_cases hnew : s = e.next
        · exact ⟨target, by rw [hslots, hnew, Std.ExtTreeMap.getElem?_insert_self]⟩
        · obtain ⟨a, ha⟩ := h.dense s hs (by omega)
          refine ⟨a, ?_⟩
          rw [hslots, Std.ExtTreeMap.getElem?_insert, if_neg, ha]
          intro heq
          rw [Nat.compare_eq_eq.mp heq, ha] at hnone
          cases hnone

/-- The slots of a finished emission are numbered from its base without gaps. -/
theorem emitAll_framed {ts : List (Tree Verdict)} {base : Nat} {e : Emission}
    (h : ctx.emitAll ts { next := base } = .ok e) : e.Framed base := by
  refine emitAll_keeps (keeps_framed ctx base) ?_ h
  constructor
  · exact Nat.le_refl base
  · intro a s ha
    simp at ha
  · intro a a' s ha
    simp at ha
  · intro s hs hlt
    exact absurd hlt (Nat.not_lt.mpr hs)

/-- A slot once assigned is not taken back. -/
theorem keeps_slot (ctx : EmitContext) (a s : Nat) : Keeps (fun e => e.slots[a]? = some s) ctx where
  enter consumer pos op e h := by simpa using h
  push v e h := h
  keep consumer target reason e e' h hk := by
    rcases keep_cases hk with ⟨slot, -, -, hslots, -⟩ | ⟨hnone, -, -, hslots, -⟩
    · rw [hslots]
      exact h
    · rw [hslots, Std.ExtTreeMap.getElem?_insert, if_neg, h]
      intro heq
      rw [Nat.compare_eq_eq.mp heq, h] at hnone
      cases hnone

end EmitContext

mutual

/-- The positions that a plan keeps anywhere in a tree. -/
def Tree.kept : Tree Verdict → List Nat
  | .node _ _ cs => Child.keptOf cs

/-- The positions kept in an operand's place. -/
def Child.kept : Child Verdict → List Nat
  | .imm _ => []
  | .ref v => [v.target]
  | .nested t => t.kept

/-- The positions kept in the places of a list of operands. -/
def Child.keptOf : List (Child Verdict) → List Nat
  | [] => []
  | c :: cs => c.kept ++ Child.keptOf cs

end

mutual

/-- What is kept in a tree is kept by one of its nodes. -/
theorem Tree.mem_kept (a : Nat) :
    (t : Tree Verdict) → (a ∈ t.kept ↔ ∃ u ∈ t.nodes, a ∈ u.leaves.map Verdict.target)
  | .node pos op cs => by
      have hcs := Child.mem_keptOf a cs
      simp only [Tree.kept, hcs, Tree.nodes, List.mem_append, List.mem_singleton]
      constructor
      · rintro (hleaf | ⟨u, hu, ha⟩)
        · exact ⟨.node pos op cs, Or.inr rfl, hleaf⟩
        · exact ⟨u, Or.inl hu, ha⟩
      · rintro ⟨u, hu | rfl, ha⟩
        · exact Or.inr ⟨u, hu, ha⟩
        · exact Or.inl ha

/-- Companion: the operands of a consumer, which keep what the consumer itself keeps and
what the trees in their places do. -/
theorem Child.mem_keptOf (a : Nat) :
    (cs : List (Child Verdict)) → (a ∈ Child.keptOf cs ↔
      a ∈ (cs.filterMap Child.leaf?).map Verdict.target ∨
        ∃ u ∈ Child.nodesOf cs, a ∈ u.leaves.map Verdict.target)
  | [] => by simp [Child.keptOf, Child.nodesOf]
  | .imm v :: cs => by
      simp only [Child.keptOf, Child.kept, Child.nodesOf, Child.nodes, List.nil_append,
        Child.mem_keptOf a cs, List.filterMap_cons, Child.leaf?]
  | .ref v :: cs => by
      simp only [Child.keptOf, Child.kept, Child.nodesOf, Child.nodes, List.nil_append,
        List.mem_append, Child.mem_keptOf a cs, List.filterMap_cons, Child.leaf?, List.map_cons,
        List.mem_cons, List.not_mem_nil, or_false, or_assoc]
  | .nested t :: cs => by
      simp only [Child.keptOf, Child.kept, Child.nodesOf, Child.nodes, List.mem_append,
        Tree.mem_kept a t, Child.mem_keptOf a cs, List.filterMap_cons, Child.leaf?]
      constructor
      · rintro (⟨u, hu, ha⟩ | hleaf | ⟨u, hu, ha⟩)
        · exact Or.inr ⟨u, Or.inl hu, ha⟩
        · exact Or.inl hleaf
        · exact Or.inr ⟨u, Or.inr hu, ha⟩
      · rintro (hleaf | ⟨u, hu | hu, ha⟩)
        · exact Or.inr (Or.inl hleaf)
        · exact Or.inl ⟨u, hu, ha⟩
        · exact Or.inr (Or.inr ⟨u, hu, ha⟩)

end

namespace EmitContext

variable {ctx : EmitContext}

/-- Reading a value back gives it a slot and changes no other value's slot. -/
theorem keep_slots {consumer target : Nat} {reason : KeepReason} {e e' : Emission}
    (h : ctx.keep consumer target reason e = .ok e') (a : Nat) :
    e'.slots[a]?.isSome ↔ e.slots[a]?.isSome ∨ a = target := by
  rcases keep_cases h with ⟨slot, hold, -, hslots, -⟩ | ⟨-, -, -, hslots, -⟩
  · rw [hslots]
    constructor
    · exact Or.inl
    · rintro (ha | rfl)
      · exact ha
      · rw [hold]
        rfl
  · rw [hslots, Std.ExtTreeMap.getElem?_insert]
    by_cases ha : a = target
    · subst ha
      simp
    · rw [if_neg (fun heq => ha (Nat.compare_eq_eq.mp heq).symm)]
      simp [ha]

mutual

/-- Emitting a tree gives slots to the values that the tree keeps, and to no others. -/
theorem emitTree_slots (a : Nat) :
    (t : Tree Verdict) → {consumer : Option Nat} → {e e' : Emission} →
      ctx.emitTree consumer t e = .ok e' →
      (e'.slots[a]?.isSome ↔ e.slots[a]?.isSome ∨ a ∈ t.kept)
  | .node pos op cs, consumer, e, e', h => by
      have hcs := emitChildren_slots a cs h
      rw [enter_slots] at hcs
      exact hcs

/-- Companion: one operand. -/
theorem emitChild_slots (a : Nat) :
    (c : Child Verdict) → {pos : Nat} → {e e' : Emission} → ctx.emitChild pos c e = .ok e' →
      (e'.slots[a]?.isSome ↔ e.slots[a]?.isSome ∨ a ∈ c.kept)
  | .imm v, _, e, e', h => by
      cases h
      simp [Emission.prepend, Child.kept]
  | .ref (.kept target reason), _, e, e', h => by
      rw [keep_slots h, Child.kept, List.mem_singleton]
      rfl
  | .ref (.dangling _ _), _, _, _, h => by cases h
  | .nested t, _, e, e', h => emitTree_slots a t h

/-- Companion: the operands of a consumer. -/
theorem emitChildren_slots (a : Nat) :
    (cs : List (Child Verdict)) → {pos : Nat} → {e e' : Emission} →
      ctx.emitChildren pos cs e = .ok e' →
      (e'.slots[a]?.isSome ↔ e.slots[a]?.isSome ∨ a ∈ Child.keptOf cs)
  | [], _, e, e', h => by
      cases h
      simp [Child.keptOf]
  | c :: cs, pos, e, e', h => by
      rw [emitChildren, bind_eq_ok] at h
      obtain ⟨d, hcs, hc⟩ := h
      rw [emitChild_slots a c hc, emitChildren_slots a cs hcs, Child.keptOf, List.mem_append,
        or_assoc, or_comm (a := a ∈ c.kept)]

end

/-- After a whole emission the values with a slot are those that the plan keeps. -/
theorem emitAll_slots (a : Nat) (ts : List (Tree Verdict)) {e e' : Emission}
    (h : ctx.emitAll ts e = .ok e') :
    e'.slots[a]?.isSome ↔ e.slots[a]?.isSome ∨ ∃ t ∈ ts, a ∈ t.kept := by
  induction ts generalizing e' with
  | nil =>
      cases h
      simp
  | cons t ts ih =>
      rw [emitAll, List.foldrM_cons, bind_eq_ok] at h
      obtain ⟨d, hts, ht⟩ := h
      rw [emitTree_slots a t ht, ih hts, or_assoc]
      simp only [List.mem_cons, exists_eq_or_imp]
      rw [or_comm (a := a ∈ t.kept)]

end EmitContext

/-! ### Opcodes -/

/-- The opcode that an operation performs. -/
def Op.performed? : Op → Option Opcode
  | perform op => some op
  | _ => none

namespace EmitContext

variable {ctx : EmitContext}

/-- Saving or dropping a value performs nothing. -/
theorem finish_performed (ctx : EmitContext) (pos : Nat) (op : Opcode) (e : Emission) :
    (ctx.finish pos op e).ops.filterMap Op.performed? = e.ops.filterMap Op.performed? := by
  rw [finish]
  split
  · rw [save]
    split
    -- A tee takes the place of a read, which performs nothing either.
    · rename_i hfuse
      rw [note_ops]
      cases hops : e.ops with
      | nil => simp [hops] at hfuse
      | cons o ops =>
          rw [hops, List.head?_cons, Option.some.injEq] at hfuse
          rw [hfuse.2]
          rfl
    · rw [note_ops]
      rfl
  · split
    · rw [note_ops]
      rfl
    · rfl

/-- Taking up an instruction puts its opcode before all others. -/
theorem enter_performed (ctx : EmitContext) (consumer : Option Nat) (pos : Nat) (op : Opcode)
    (e : Emission) :
    (ctx.enter consumer pos op e).ops.filterMap Op.performed?
      = op :: e.ops.filterMap Op.performed? := by
  have hfinish := finish_performed ctx pos op (ctx.note (entry pos consumer) e)
  rw [note_ops] at hfinish
  rw [← hfinish]
  rfl

mutual

/-- The code emitted for a tree performs the opcodes of its nodes in running order. -/
theorem emitTree_performed :
    (t : Tree Verdict) → {consumer : Option Nat} → {e e' : Emission} →
      ctx.emitTree consumer t e = .ok e' →
      e'.ops.filterMap Op.performed? = t.nodes.map Tree.opcode ++ e.ops.filterMap Op.performed?
  | .node pos op cs, consumer, e, e', h => by
      rw [emitChildren_performed cs h, enter_performed, Tree.nodes, List.map_append,
        List.append_assoc]
      rfl

/-- Companion: one operand. -/
theorem emitChild_performed :
    (c : Child Verdict) → {pos : Nat} → {e e' : Emission} → ctx.emitChild pos c e = .ok e' →
      e'.ops.filterMap Op.performed? = c.nodes.map Tree.opcode ++ e.ops.filterMap Op.performed?
  | .imm v, _, e, e', h => by
      cases h
      rfl
  | .ref (.kept target reason), _, e, e', h => by
      rcases keep_cases h with ⟨slot, -, hops, -, -⟩ | ⟨-, -, hops, -, -⟩ <;>
        (rw [hops]; rfl)
  | .ref (.dangling _ _), _, _, _, h => by cases h
  | .nested t, _, e, e', h => emitTree_performed t h

/-- Companion: the operands of a consumer. -/
theorem emitChildren_performed :
    (cs : List (Child Verdict)) → {pos : Nat} → {e e' : Emission} →
      ctx.emitChildren pos cs e = .ok e' →
      e'.ops.filterMap Op.performed?
        = (Child.nodesOf cs).map Tree.opcode ++ e.ops.filterMap Op.performed?
  | [], _, e, e', h => by
      cases h
      rfl
  | c :: cs, pos, e, e', h => by
      rw [emitChildren, bind_eq_ok] at h
      obtain ⟨d, hcs, hc⟩ := h
      rw [emitChild_performed c hc, emitChildren_performed cs hcs, Child.nodesOf,
        List.map_append, List.append_assoc]

end

/-- The code of a plan performs the opcodes of its nodes in running order. -/
theorem emitAll_performed (ts : List (Tree Verdict)) {e e' : Emission}
    (h : ctx.emitAll ts e = .ok e') :
    e'.ops.filterMap Op.performed?
      = (ts.flatMap Tree.nodes).map Tree.opcode ++ e.ops.filterMap Op.performed? := by
  induction ts generalizing e' with
  | nil =>
      cases h
      rfl
  | cons t ts ih =>
      rw [emitAll, List.foldrM_cons, bind_eq_ok] at h
      obtain ⟨d, hts, ht⟩ := h
      rw [emitTree_performed t ht, ih hts, List.flatMap_cons, List.map_append,
        List.append_assoc]

end EmitContext

namespace Block

variable {b : Block} {uses : UseTable} {opts : Options}

/-- A block is emitted when the use table is one of the right size and its plan can be emitted. -/
theorem emission_eq_ok_iff {traced : Bool} {e : Emission} :
    b.emission uses opts traced = .ok e ↔ uses.size = b.length ∧
      ({ uses, fuse := opts.fuse, traced } : EmitContext).emitAll (b.plan uses)
        { next := b.slotBase opts } = .ok e := by
  rw [emission, bind_eq_ok]
  constructor
  · rintro ⟨_, hfits, hall⟩
    exact ⟨UseTable.checkFits_ok hfits, hall⟩
  · rintro ⟨hsize, hall⟩
    exact ⟨(), if_pos hsize, hall⟩

/-- The code of a block is that of a whole emission of its plan. -/
theorem emit_eq_ok_iff {c : Code} : b.emit uses opts = .ok c ↔ uses.size = b.length ∧
    ∃ e, ({ uses, fuse := opts.fuse, traced := false } : EmitContext).emitAll (b.plan uses)
      { next := b.slotBase opts } = .ok e ∧ c = b.codeOf opts e := by
  rw [emit, bind_eq_ok]
  constructor
  · rintro ⟨e, he, hret⟩
    cases hret
    obtain ⟨hsize, hall⟩ := emission_eq_ok_iff.mp he
    exact ⟨hsize, e, hall, rfl⟩
  · rintro ⟨hsize, e, hall, rfl⟩
    exact ⟨e, emission_eq_ok_iff.mpr ⟨hsize, hall⟩, rfl⟩

end Block

end StackForm

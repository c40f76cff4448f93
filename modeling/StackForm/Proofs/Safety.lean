import StackForm.Proofs.Effect
import StackForm.Proofs.Layout

/-!
# `StackForm.Proofs.Safety`: lowered code runs without stack or slot faults

Lowered code never finds the stack too shallow, never reads a slot before it is written and
ends with an empty stack, whatever the store it starts from. This holds also when the
program computes the number of a local and hits a slot with it: then a slot may hold a wrong
value, but it does hold one. What is left are the faults of the instructions themselves, a
division by zero and a word that numbers no local.

Both halves of `Block.lower_safe` come from `Block.lower_run`: `Layout.Run.ready` for the
machine, and `Layout.Run.count_saved` for the order of writes and reads in the code.
-/

set_option autoImplicit false

namespace StackForm

/-- Whether an operation writes the slot `s`. -/
def Op.writes (s : Nat) : Op → Bool
  | set s' => s' == s
  | tee s' => s' == s
  | _ => false

namespace Layout

variable {b : Block} {L M N : Layout} {op : Op} {ops : List Op} {m : Machine}

/-! ### Writes -/

/-- A step saves a value in a slot if and only if its operation writes to that slot. -/
theorem Step.count_saved (h : Step b L op M) (s : Nat) :
    (M.saved.map Prod.fst).count s
      = (L.saved.map Prod.fst).count s + if op.writes s then 1 else 0 := by
  cases h with
  | push v => rfl
  | perform instr => rfl
  | get written => rfl
  | set fresh => exact List.count_cons
  | tee fresh => exact List.count_cons
  | drop => rfl

/-- The slots written at a point are those of the operations before it, as often as they
write them. -/
theorem Run.count_saved (h : Run b L ops M) (s : Nat) :
    (M.saved.map Prod.fst).count s
      = (L.saved.map Prod.fst).count s + ops.countP (Op.writes s) := by
  induction h with
  | nil L => rfl
  | cons first rest ih =>
      rw [ih, first.count_saved, List.countP_cons]
      omega

/-- A step does not save in a slot that is in use. -/
theorem Step.saved_nodup (h : Step b L op M) (hL : (L.saved.map Prod.fst).Nodup) :
    (M.saved.map Prod.fst).Nodup := by
  have hcons : ∀ {s a : Nat} {saved : List (Nat × Nat)}, (∀ a', (s, a') ∉ saved) →
      (saved.map Prod.fst).Nodup → (((s, a) :: saved).map Prod.fst).Nodup := by
    intro s a saved fresh hsaved
    rw [List.map_cons, List.nodup_cons]
    refine ⟨?_, hsaved⟩
    intro hmem
    obtain ⟨⟨s', a'⟩, hpair, rfl⟩ := List.mem_map.mp hmem
    exact fresh a' hpair
  cases h with
  | push v => exact hL
  | perform instr => exact hL
  | get written => exact hL
  | set fresh => exact hcons fresh hL
  | tee fresh => exact hcons fresh hL
  | drop => exact hL

/-- No slot is written twice. -/
theorem Run.saved_nodup (h : Run b L ops M) (hL : (L.saved.map Prod.fst).Nodup) :
    (M.saved.map Prod.fst).Nodup := by
  induction h with
  | nil L => exact hL
  | cons first rest ih => exact ih (first.saved_nodup hL)

/-! ### The machine -/

/-- The machine is ready to go on from a point: its stack is as deep as the point says, and
the slots written so far hold something. -/
structure Ready (L : Layout) (m : Machine) : Prop where
  depth : m.stack.length = L.stack.length
  slots : ∀ s a, (s, a) ∈ L.saved → (m.store.get? s).isSome

/-- Writing a local takes no value away from a slot. -/
theorem isSome_get?_of_write {old new : Store} {n : Nat} {v : Word}
    (hnew : ∀ k, new.get? k = if n = k then some v else old.get? k) {k : Nat}
    (hk : (old.get? k).isSome) : (new.get? k).isSome := by
  rw [hnew]
  split
  · rfl
  · exact hk

/-- An instruction whose operands are on the stack has its effect, or fails by one of the
two faults that depend on values. -/
theorem Ready.perform (hwf : b.WellFormed) {done : Nat} {stack : List Operand}
    {saved : List (Nat × Nat)} {i : Instr} (hi : b.instrs[done]? = some i)
    (hm : Ready ⟨done, i.operands.reverse ++ stack, saved⟩ m) (pc : Nat) :
    (∃ m', m.perform pc i.opcode = (m', none) ∧
      Ready ⟨done + 1, i.opcode.resultRefs done ++ stack, saved⟩ m') ∨
    ∃ m' f, m.perform pc i.opcode = (m', some (.eval pc f)) ∧
      (f = .divisionByZero ∨ ∃ w, f = .invalidLocal w) := by
  have harity := hwf.arity done i hi
  have hdepth := hm.depth
  simp only [List.length_append, List.length_reverse] at hdepth
  -- The topmost words are the arguments, the last one first.
  let args := (m.stack.take i.opcode.arity).reverse
  let rest := m.stack.drop i.opcode.arity
  have hstack : m.stack = args.reverse ++ rest := by
    show m.stack = (m.stack.take _).reverse.reverse ++ m.stack.drop _
    rw [List.reverse_reverse, List.take_append_drop]
  have hargs : args.length = i.opcode.arity := by
    show (m.stack.take _).reverse.length = _
    rw [List.length_reverse, List.length_take]
    omega
  have hrest : rest.length = stack.length := by
    show (m.stack.drop _).length = _
    rw [List.length_drop]
    omega
  obtain ⟨eff, heff, -, hpossible⟩ := i.opcode.effect_cases args hargs
  rw [m.perform_eq pc i.opcode args rest eff hstack hargs (heff m.store)]
  cases eff with
  | value _ | load _ =>
      refine Or.inl ⟨_, rfl, ?_, hm.slots⟩
      rw [Opcode.resultRefs_of_result hpossible]
      show rest.length + 1 = stack.length + 1
      rw [hrest]
  | store n v =>
      refine Or.inl ⟨_, rfl, ?_, ?_⟩
      · rw [Opcode.resultRefs_of_no_result hpossible]
        exact hrest
      · intro s a hmem
        exact isSome_get?_of_write (fun k => m.store.get?_put n k v) (hm.slots s a hmem)
  | fault f => exact Or.inr ⟨_, f, rfl, hpossible⟩

/-- A slot that is written now holds something, and so do those written before. -/
theorem Ready.slots_set (hm : L.Ready m) (s a : Nat) (v : Word) :
    ∀ s' a', (s', a') ∈ (s, a) :: L.saved → ((m.store.set s v).get? s').isSome := by
  intro s' a' hmem
  rcases List.mem_cons.mp hmem with heq | hold
  · cases heq
    simp
  · exact isSome_get?_of_write (fun k => m.store.get?_set s k v) (hm.slots s' a' hold)

/-- One operation of lowered code goes well, or performs an instruction that fails. -/
theorem Step.ready (hwf : b.WellFormed) (h : Step b L op M) (hm : L.Ready m) (pc : Nat) :
    (∃ m', m.step pc op = (m', none) ∧ M.Ready m') ∨
    ∃ m' f, m.step pc op = (m', some (.eval pc f)) ∧
      (f = .divisionByZero ∨ ∃ w, f = .invalidLocal w) := by
  cases h with
  | push v =>
      refine Or.inl ⟨_, rfl, ?_, hm.slots⟩
      show m.stack.length + 1 = _
      rw [hm.depth]
      rfl
  | perform instr => exact hm.perform hwf instr pc
  | @get done stack saved s a written =>
      obtain ⟨v, hv⟩ := Option.isSome_iff_exists.mp (hm.slots s a written)
      refine Or.inl ⟨{ m with stack := v :: m.stack }, ?_, ?_, hm.slots⟩
      · simp only [Machine.step, hv]
      · show m.stack.length + 1 = _
        rw [hm.depth]
        rfl
  | @set done stack saved s a fresh =>
      obtain ⟨v, rest, hstack⟩ := List.exists_cons_of_length_eq_add_one hm.depth
      refine Or.inl ⟨⟨rest, m.store.set s v⟩, ?_, ?_, hm.slots_set s a v⟩
      · simp only [Machine.step, hstack]
      · have hdepth := hm.depth
        rw [hstack] at hdepth
        exact Nat.succ.inj hdepth
  | @tee done stack saved s a fresh =>
      obtain ⟨v, rest, hstack⟩ := List.exists_cons_of_length_eq_add_one hm.depth
      refine Or.inl ⟨{ m with store := m.store.set s v }, ?_, hm.depth, hm.slots_set s a v⟩
      simp only [Machine.step, hstack]
  | drop =>
      obtain ⟨v, rest, hstack⟩ := List.exists_cons_of_length_eq_add_one hm.depth
      refine Or.inl ⟨{ m with stack := rest }, ?_, ?_, hm.slots⟩
      · simp only [Machine.step, hstack]
      · have hdepth := hm.depth
        rw [hstack] at hdepth
        exact Nat.succ.inj hdepth

/-- Lowered code runs to its end and leaves an empty stack, or stops at an instruction that
fails. Induction over the code, with `Step.ready` for each operation. -/
theorem Run.ready (hwf : b.WellFormed) (h : Run b L ops N) (hend : N.stack = [])
    (hm : L.Ready m) (pc : Nat) :
    ((m.runFrom pc ops).2 = none ∧ (m.runFrom pc ops).1.stack = []) ∨
    ∃ pc' f, (m.runFrom pc ops).2 = some (.eval pc' f) ∧
      (f = .divisionByZero ∨ ∃ w, f = .invalidLocal w) := by
  induction h generalizing m pc with
  | nil L =>
      -- The layout ends with an empty stack, and the machine's is as deep.
      have hempty : m.stack = [] := by
        rw [← List.length_eq_zero_iff, hm.depth, hend]
        rfl
      refine Or.inl ⟨?_, hempty⟩
      simp only [Machine.runFrom, hempty]
      rfl
  | cons first rest ih =>
      rcases first.ready hwf hm pc with ⟨m', hstep, hm'⟩ | ⟨m', f, hstep, hf⟩
      · simp only [Machine.runFrom, hstep]
        exact ih hend hm' (pc + 1)
      · refine Or.inr ⟨pc, f, ?_, hf⟩
        simp only [Machine.runFrom, hstep]

end Layout

/-! ### Lowered blocks -/

namespace Block

/-- Lowered code is safe. From every machine, its run ends well and with an empty stack, or
stops at an instruction that divides by zero or numbers no local. In the code, every read of
a slot stands after the one write of it, and each slot of a value is written once. -/
theorem lower_safe {b : Block} {opts : Options} {l : Lowering} (h : b.lower opts = .ok l) :
    (∀ m : Machine,
      ((m.run l.code.ops).2 = none ∧ (m.run l.code.ops).1.stack = []) ∨
      ∃ pc f, (m.run l.code.ops).2 = some (.eval pc f) ∧
        (f = .divisionByZero ∨ ∃ w, f = .invalidLocal w)) ∧
    (∀ before s after, l.code.ops = before ++ .get s :: after →
      before.countP (Op.writes s) = 1 ∧ after.countP (Op.writes s) = 0) ∧
    ∀ pos s, l.code.slot? pos = some s → l.code.ops.countP (Op.writes s) = 1 := by
  obtain ⟨hwf, -⟩ := lower_ok h
  obtain ⟨saved, hrun, hsaved⟩ := lower_run h
  have hnodup : (saved.map Prod.fst).Nodup := hrun.saved_nodup List.nodup_nil
  refine ⟨?_, ?_, ?_⟩
  · intro m
    refine hrun.ready hwf rfl ⟨rfl, ?_⟩ 0
    intro s a hmem
    cases hmem
  · intro before s after hops
    rw [hops] at hrun
    obtain ⟨M, hbefore, hrest⟩ := hrun.split
    cases hrest with
    | cons first hafter =>
        cases first with
        | @get done stack saved' _ a written =>
            have hmem : s ∈ saved'.map Prod.fst := List.mem_map_of_mem written
            have hpos := List.count_pos_iff.mpr hmem
            -- At the read the slot has been written, and in the end it was written once.
            have hfirst : (saved'.map Prod.fst).count s = 0 + before.countP (Op.writes s) :=
              hbefore.count_saved s
            have hlast : (saved.map Prod.fst).count s
                = (saved'.map Prod.fst).count s + after.countP (Op.writes s) :=
              hafter.count_saved s
            have hle := List.nodup_iff_count.mp hnodup s
            omega
  · intro pos s hs
    -- In the end every slot of a value is written, and none twice.
    have hmem : s ∈ saved.map Prod.fst := List.mem_map_of_mem ((hsaved s pos).mpr hs)
    have hcount : (saved.map Prod.fst).count s = 0 + l.code.ops.countP (Op.writes s) :=
      hrun.count_saved s
    rw [hnodup.count, if_pos hmem] at hcount
    omega

/-- A block that stores to a computed local and then uses a kept value. -/
def aliasing : Block :=
  ⟨[⟨.loadLocal, [.imm 0]⟩, ⟨.storeLocal, [.ref 0, .imm 7]⟩, ⟨.add, [.ref 0, .ref 0]⟩]⟩

/-- The theorem at that block, from a store in which the computed local is the slot of the
kept value. The run overwrites the slot and still ends well. -/
theorem lower_safe_aliasing :
    ∃ l, aliasing.lower {} = .ok l ∧ l.code.slot? 0 = some 1 ∧
      (let m : Machine := { store := .ofList [(0, 1)] }
       (m.run l.code.ops).2 = none ∧ (m.run l.code.ops).1.store.get? 1 = some 7 ∧
       (m.run l.code.ops).1.stack = []) ∧
      l.code.ops.countP (Op.writes 1) = 1 := by
  obtain ⟨l, hl, hslot, hend, hvalue⟩ : ∃ l, aliasing.lower {} = .ok l ∧
      l.code.slot? 0 = some 1 ∧
      (({ store := .ofList [(0, 1)] } : Machine).run l.code.ops).2 = none ∧
      (({ store := .ofList [(0, 1)] } : Machine).run l.code.ops).1.store.get? 1 = some 7 :=
    ⟨_, rfl, rfl, rfl, rfl⟩
  obtain ⟨hsafe, -, hwrites⟩ := lower_safe hl
  refine ⟨l, hl, hslot, ⟨hend, hvalue, ?_⟩, hwrites 0 1 hslot⟩
  rcases hsafe { store := .ofList [(0, 1)] } with ⟨-, hstack⟩ | ⟨pc, f, hfault, -⟩
  · exact hstack
  · rw [hend] at hfault
    cases hfault

end Block

end StackForm

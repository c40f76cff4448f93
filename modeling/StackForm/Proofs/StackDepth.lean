import StackForm.Proofs.Effect
import StackForm.Proofs.Layout

/-!
# `StackForm.Proofs.StackDepth`: the depth of the stack, counted and run

`Op.pops` and `Op.pushes` say what an operation does to the depth of the stack, and
`Op.peakDepth` follows a program by these numbers alone. The machine has no such numbers. It
matches on its stack, and takes and puts as many values as an opcode has arguments and results.

`Machine.step_cases` ties the two together for one operation: a stack that is too shallow
underflows, and an operation that does not fail leaves the depth that was counted. What holds of
whole runs follows by induction over the operations that the machine gets through
(`Machine.Reaches`), for programs at large.

The count truncates at an empty stack. For lowered code this never shows: at every operation there
are at least as many values as the operation takes, and there are none in the end
(`Layout.Run.depth`).
-/

set_option autoImplicit false

namespace StackForm

/-! ### Counting -/

namespace Op

/-- The depth of a stack after operations, counted without running them. -/
def depthFrom (depth : Nat) : List Op → Nat
  | [] => depth
  | op :: ops => depthFrom (op.depthAfter depth) ops

/-- A start plus all that operations put on the stack, less all that they take. It may go below
zero. -/
def balanceFrom (start : Int) : List Op → Int
  | [] => start
  | op :: ops => balanceFrom (start - op.pops + op.pushes) ops

/-- The peak is the greatest of the depths at which the operations leave the stack one after the
other, the start among them, unless it was higher before. -/
theorem peakFrom_spec (ops : List Op) (depth highest : Nat) (h : depth ≤ highest) :
    highest ≤ peakFrom depth highest ops ∧
      (∀ before, before <+: ops → depthFrom depth before ≤ peakFrom depth highest ops) ∧
      (peakFrom depth highest ops = highest ∨
        ∃ before, before <+: ops ∧ depthFrom depth before = peakFrom depth highest ops) := by
  induction ops generalizing depth highest with
  | nil =>
      refine ⟨Nat.le_refl highest, fun before hbefore => ?_, Or.inl rfl⟩
      rw [List.prefix_nil.mp hbefore]
      exact h
  | cons op ops ih =>
      obtain ⟨hle, hbound, hpeak⟩ :=
        ih (op.depthAfter depth) (max highest (op.depthAfter depth)) (Nat.le_max_right ..)
      rw [peakFrom]
      refine ⟨by omega, fun before hbefore => ?_, ?_⟩
      · rcases List.prefix_cons_iff.mp hbefore with rfl | ⟨rest, rfl, hrest⟩
        · show depth ≤ _
          omega
        · exact hbound rest hrest
      · have hhere : [op] <+: op :: ops := ⟨ops, rfl⟩
        rcases hpeak with hmax | ⟨rest, hrest, hdepth⟩
        -- If the peak is not the start's, it is at once after the first operation.
        · by_cases hlt : highest < op.depthAfter depth
          · refine Or.inr ⟨[op], hhere, ?_⟩
            show op.depthAfter depth = _
            omega
          · exact Or.inl (by omega)
        · exact Or.inr ⟨op :: rest, List.prefix_cons_iff.mpr (Or.inr ⟨rest, rfl, hrest⟩), hdepth⟩

/-- From an empty stack the peak is the greatest depth after a part of the program. -/
theorem peakDepth_spec (ops : List Op) :
    (∀ before, before <+: ops → depthFrom 0 before ≤ peakDepth ops) ∧
      ∃ before, before <+: ops ∧ depthFrom 0 before = peakDepth ops := by
  obtain ⟨-, hbound, hpeak⟩ := peakFrom_spec ops 0 0 (Nat.le_refl 0)
  refine ⟨hbound, ?_⟩
  rcases hpeak with hzero | hreached
  · exact ⟨[], List.nil_prefix, hzero.symm⟩
  · exact hreached

end Op

/-! ### One operation -/

/-- An instruction with a result leaves one value. -/
theorem Opcode.resultCount_of_result {op : Opcode} (h : op.hasResult = true) :
    op.resultCount = 1 := if_pos h

/-- An instruction without a result leaves none. -/
theorem Opcode.resultCount_of_no_result {op : Opcode} (h : op.hasResult = false) :
    op.resultCount = 0 := by
  rw [Opcode.resultCount, h]
  rfl

namespace Machine

/-- An opcode that finds its arguments takes them, and puts its result if it has one, or it
fails. -/
theorem perform_cases (m : Machine) (pc : Nat) (op : Opcode) (h : op.arity ≤ m.stack.length) :
    (∃ m', m.perform pc op = (m', none) ∧
      m'.stack.length = (Op.perform op).depthAfter m.stack.length) ∨
    ∃ m' e, m.perform pc op = (m', some (.eval pc e)) := by
  have hlen : (m.stack.take op.arity).reverse.length = op.arity := by
    rw [List.length_reverse, List.length_take]
    omega
  have hstack : m.stack = (m.stack.take op.arity).reverse.reverse ++ m.stack.drop op.arity := by
    rw [List.reverse_reverse, List.take_append_drop]
  have hrest : (m.stack.drop op.arity).length = m.stack.length - op.arity := List.length_drop
  obtain ⟨eff, happly, -, hpossible⟩ := op.effect_cases _ hlen
  rw [m.perform_eq pc op _ _ eff hstack hlen (happly m.store)]
  cases eff with
  | value v | load n =>
      refine Or.inl ⟨_, rfl, ?_⟩
      show (m.stack.drop op.arity).length + 1 = m.stack.length - op.arity + op.resultCount
      rw [hrest, Opcode.resultCount_of_result hpossible]
  | store n v =>
      refine Or.inl ⟨_, rfl, ?_⟩
      show (m.stack.drop op.arity).length = m.stack.length - op.arity + op.resultCount
      rw [hrest, Opcode.resultCount_of_no_result hpossible, Nat.add_zero]
  | fault f => exact Or.inr ⟨_, f, rfl⟩

/-- What an operation does to the depth of the stack. If there are fewer values than it takes, it
underflows and changes nothing. Otherwise it goes well and leaves the depth that was counted, or
it fails for another reason: an opcode on its arguments, or a read on a slot never written. -/
theorem step_cases (m : Machine) (pc : Nat) (op : Op) :
    (m.stack.length < op.pops ∧ m.step pc op = (m, some (.stackUnderflow pc))) ∨
    op.pops ≤ m.stack.length ∧
      ((∃ m', m.step pc op = (m', none) ∧ m'.stack.length = op.depthAfter m.stack.length) ∨
        ∃ m' f, m.step pc op = (m', some f) ∧
          ((∃ e, f = .eval pc e) ∨ ∃ s, f = .unsetSlot pc s)) := by
  obtain ⟨stack, store⟩ := m
  cases op with
  | push v => exact Or.inr ⟨Nat.zero_le _, Or.inl ⟨_, rfl, rfl⟩⟩
  | perform op =>
      by_cases hdepth : stack.length < op.arity
      · exact Or.inl ⟨hdepth, if_pos hdepth⟩
      · have henough : op.arity ≤ stack.length := Nat.le_of_not_lt hdepth
        refine Or.inr ⟨henough, ?_⟩
        rcases perform_cases ⟨stack, store⟩ pc op henough with hok | hfails
        · exact Or.inl hok
        · obtain ⟨m', e, he⟩ := hfails
          exact Or.inr ⟨m', _, he, Or.inl ⟨e, rfl⟩⟩
  | get s =>
      refine Or.inr ⟨Nat.zero_le _, ?_⟩
      cases hslot : store.get? s with
      | some v => exact Or.inl ⟨_, by simp only [step, hslot]; rfl, rfl⟩
      | none => exact Or.inr ⟨_, _, by simp only [step, hslot]; rfl, Or.inr ⟨s, rfl⟩⟩
  | set s =>
      cases stack with
      | nil => exact Or.inl ⟨Nat.zero_lt_one, rfl⟩
      | cons v rest => exact Or.inr ⟨Nat.le_add_left .., Or.inl ⟨_, rfl, rfl⟩⟩
  | tee s =>
      cases stack with
      | nil => exact Or.inl ⟨Nat.zero_lt_one, rfl⟩
      | cons v rest => exact Or.inr ⟨Nat.le_add_left .., Or.inl ⟨_, rfl, rfl⟩⟩
  | drop =>
      cases stack with
      | nil => exact Or.inl ⟨Nat.zero_lt_one, rfl⟩
      | cons v rest => exact Or.inr ⟨Nat.le_add_left .., Or.inl ⟨_, rfl, rfl⟩⟩

/-- An operation underflows exactly when there are fewer values than it takes. -/
theorem step_underflow_iff (m : Machine) (pc : Nat) (op : Op) (n : Nat) :
    (m.step pc op).2 = some (.stackUnderflow n) ↔ n = pc ∧ m.stack.length < op.pops := by
  rcases m.step_cases pc op with
    ⟨hlt, hstep⟩ | ⟨hle, ⟨m', hstep, -⟩ | ⟨m', f, hstep, ⟨e, rfl⟩ | ⟨s, rfl⟩⟩⟩
  · simp [hstep, hlt, eq_comm]
  · simp [hstep, hle]
  · simp [hstep, hle]
  · simp [hstep, hle]

/-- An operation that goes well leaves the depth that was counted. -/
theorem step_depth {m m' : Machine} {pc : Nat} {op : Op} (h : m.step pc op = (m', none)) :
    m'.stack.length = op.depthAfter m.stack.length := by
  rcases m.step_cases pc op with ⟨-, hstep⟩ | ⟨-, ⟨m₁, hstep, hdepth⟩ | ⟨m₁, f, hstep, -⟩⟩
  · cases hstep.symm.trans h
  · cases hstep.symm.trans h
    exact hdepth
  · cases hstep.symm.trans h

/-- That values are left in the end is no operation's fault. -/
theorem step_ne_unbalanced (m : Machine) (pc : Nat) (op : Op) (depth : Nat) :
    (m.step pc op).2 ≠ some (.unbalancedStack depth) := by
  rcases m.step_cases pc op with
    ⟨-, hstep⟩ | ⟨-, ⟨m', hstep, -⟩ | ⟨m', f, hstep, ⟨e, rfl⟩ | ⟨s, rfl⟩⟩⟩
  · simp [hstep]
  · simp [hstep]
  · simp [hstep]
  · simp [hstep]

/-! ### Runs -/

variable {m m₁ m' : Machine} {pc : Nat} {op : Op} {ops : List Op}

/-- Behind an operation that goes well, the run goes on from the machine that it leaves. -/
theorem runFrom_cons_of_ok (h : m.step pc op = (m₁, none)) :
    m.runFrom pc (op :: ops) = m₁.runFrom (pc + 1) ops := by
  rw [runFrom, h]

/-- An operation that fails ends the run with its fault. -/
theorem runFrom_cons_of_fault {f : MachineFault} (h : (m.step pc op).2 = some f) :
    (m.runFrom pc (op :: ops)).2 = some f := by
  rw [runFrom, show m.step pc op = ((m.step pc op).1, some f) from Prod.ext rfl h]

/-- Operations, the first of them number `pc`, go well one after the other and lead from one
machine to another. -/
inductive Reaches : Machine → Nat → List Op → Machine → Prop where
  | nil (m : Machine) (pc : Nat) : Reaches m pc [] m
  | cons {m m₁ m' : Machine} {pc : Nat} {op : Op} {ops : List Op}
      (first : m.step pc op = (m₁, none)) (rest : Reaches m₁ (pc + 1) ops m') :
      Reaches m pc (op :: ops) m'

namespace Reaches

/-- The depth after operations that go well is the depth that was counted. -/
theorem depth (h : m.Reaches pc ops m') :
    m'.stack.length = Op.depthFrom m.stack.length ops := by
  induction h with
  | nil m pc => rfl
  | cons first rest ih => rw [ih, step_depth first, Op.depthFrom]

/-- A run goes on from where its first operations lead. -/
theorem runFrom_append (h : m.Reaches pc ops m') (after : List Op) :
    m.runFrom pc (ops ++ after) = m'.runFrom (pc + ops.length) after := by
  induction h with
  | nil m pc => rfl
  | @cons m m₁ m' pc op ops first rest ih =>
      rw [List.cons_append, runFrom_cons_of_ok first, ih, List.length_cons, Nat.add_right_comm,
        Nat.add_assoc]

/-- Operations that go well do so up to every point among them. -/
theorem of_prefix (h : m.Reaches pc ops m') {before : List Op} (hbefore : before <+: ops) :
    ∃ m₁, m.Reaches pc before m₁ := by
  induction h generalizing before with
  | nil m pc =>
      rw [List.prefix_nil.mp hbefore]
      exact ⟨m, .nil m pc⟩
  | @cons m m₁ m' pc op ops first rest ih =>
      rcases List.prefix_cons_iff.mp hbefore with rfl | ⟨before', rfl, hbefore'⟩
      · exact ⟨m, .nil m pc⟩
      · obtain ⟨m₂, hm₂⟩ := ih hbefore'
        exact ⟨m₂, .cons first hm₂⟩

end Reaches

/-- A run goes well to its end, where values may be left, or there is a first operation that
fails. -/
theorem runFrom_cases (m : Machine) (pc : Nat) (ops : List Op) :
    (∃ m', m.Reaches pc ops m' ∧ m.runFrom pc ops = m'.runFrom (pc + ops.length) []) ∨
    ∃ before op after m' f, ops = before ++ op :: after ∧ m.Reaches pc before m' ∧
      (m'.step (pc + before.length) op).2 = some f ∧ (m.runFrom pc ops).2 = some f := by
  induction ops generalizing m pc with
  | nil => exact Or.inl ⟨m, .nil m pc, rfl⟩
  | cons op ops ih =>
      cases hfault : (m.step pc op).2 with
      | some f =>
          exact Or.inr ⟨[], op, ops, m, f, rfl, .nil m pc, hfault, runFrom_cons_of_fault hfault⟩
      | none =>
          have hstep : m.step pc op = ((m.step pc op).1, none) := Prod.ext rfl hfault
          have hpc : ∀ n, pc + 1 + n = pc + (n + 1) := by omega
          rw [runFrom_cons_of_ok hstep]
          rcases ih (m.step pc op).1 (pc + 1) with
            ⟨m', hreach, hend⟩ | ⟨before, op', after, m', f, rfl, hreach, hfails, hend⟩
          · refine Or.inl ⟨m', .cons hstep hreach, ?_⟩
            rw [hend, List.length_cons, hpc]
          · rw [hpc before.length] at hfails
            exact Or.inr ⟨op :: before, op', after, m', f, rfl, .cons hstep hreach, hfails, hend⟩

/-- At the end of the operations no operation is left to fail. -/
theorem runFrom_nil_ne_underflow (m : Machine) (pc n : Nat) :
    (m.runFrom pc []).2 ≠ some (.stackUnderflow n) := by
  rw [runFrom]
  split
  · simp
  · simp

/-- A run underflows at an operation exactly when it gets there and finds fewer values than the
operation takes. -/
theorem run_underflow_iff (m : Machine) (ops : List Op) (pc : Nat) :
    (m.run ops).2 = some (.stackUnderflow pc) ↔
      ∃ before op after m', ops = before ++ op :: after ∧ before.length = pc ∧
        { m with stack := [] }.Reaches 0 before m' ∧ m'.stack.length < op.pops := by
  constructor
  · intro h
    rcases runFrom_cases { m with stack := [] } 0 ops with
      ⟨m', -, hend⟩ | ⟨before, op, after, m', f, hops, hreach, hfails, hend⟩
    · rw [run, hend] at h
      exact absurd h (m'.runFrom_nil_ne_underflow _ pc)
    · rw [hend.symm.trans h, step_underflow_iff] at hfails
      exact ⟨before, op, after, m', hops, by omega, hreach, hfails.2⟩
  · intro h
    obtain ⟨before, op, after, m', rfl, rfl, hreach, hlt⟩ := h
    rw [run, hreach.runFrom_append, Nat.zero_add]
    exact runFrom_cons_of_fault ((m'.step_underflow_iff _ op _).mpr ⟨rfl, hlt⟩)

/-- A run that ends well, or with values left, has got through all of its operations. -/
theorem reaches_of_run
    (h : (m.run ops).2 = none ∨ ∃ depth, (m.run ops).2 = some (.unbalancedStack depth)) :
    ∃ m', { m with stack := [] }.Reaches 0 ops m' := by
  rcases runFrom_cases { m with stack := [] } 0 ops with
    ⟨m', hreach, -⟩ | ⟨before, op, after, m', f, -, -, hfails, hend⟩
  · exact ⟨m', hreach⟩
  · rcases h with hnone | ⟨depth, hleft⟩
    · cases hend.symm.trans hnone
    · rw [hend.symm.trans hleft] at hfails
      exact absurd hfails (m'.step_ne_unbalanced _ op depth)

end Machine

/-! ### Lowered code -/

/-- There are as many references as results. -/
theorem Opcode.length_resultRefs (op : Opcode) (pos : Nat) :
    (op.resultRefs pos).length = op.resultCount := by
  cases hres : op.hasResult with
  | true =>
      rw [resultRefs_of_result hres, resultCount_of_result hres]
      rfl
  | false =>
      rw [resultRefs_of_no_result hres, resultCount_of_no_result hres]
      rfl

namespace Layout

variable {b : Block} {L M : Layout}

/-- From one point of the code to the next there are as many values on the stack as the operation
takes, and the depth changes by as much as it takes and puts. -/
theorem Step.depth (hwf : b.WellFormed) {op : Op} (h : Step b L op M) :
    op.pops ≤ L.stack.length ∧ M.stack.length = op.depthAfter L.stack.length := by
  cases h with
  | push v => exact ⟨Nat.zero_le _, rfl⟩
  | @perform done stack saved i instr =>
      have harity := hwf.arity done i instr
      simp only [Op.pops, Op.pushes, Op.depthAfter, List.length_append, List.length_reverse,
        harity, Opcode.length_resultRefs]
      omega
  | get written => exact ⟨Nat.zero_le _, rfl⟩
  | set fresh => exact ⟨Nat.le_add_left .., rfl⟩
  | tee fresh => exact ⟨Nat.le_add_left .., rfl⟩
  | drop => exact ⟨Nat.le_add_left .., rfl⟩

/-- Along the code the depth is both counts, the truncated one and the exact one. -/
theorem Run.depth (hwf : b.WellFormed) {ops : List Op} (h : Run b L ops M) :
    Op.depthFrom L.stack.length ops = M.stack.length ∧
      Op.balanceFrom L.stack.length ops = M.stack.length := by
  induction h with
  | nil L => exact ⟨rfl, rfl⟩
  | @cons L M N op ops first rest ih =>
      obtain ⟨hpops, hdepth⟩ := first.depth hwf
      have hexact : (L.stack.length : Int) - op.pops + op.pushes = M.stack.length := by
        rw [hdepth, Op.depthAfter]
        omega
      rw [Op.depthFrom, Op.balanceFrom, ← hdepth, hexact]
      exact ih

end Layout

/-- At every operation of lowered code the count so far is exact, and covers what the operation
takes. In the end nothing is left. -/
theorem Block.lower_balance {b : Block} {opts : Options} {l : Lowering}
    (h : b.lower opts = .ok l) :
    (∀ before op after, l.code.ops = before ++ op :: after →
      (op.pops : Int) ≤ Op.balanceFrom 0 before ∧
        Op.balanceFrom 0 before = Op.depthFrom 0 before) ∧
      Op.balanceFrom 0 l.code.ops = 0 := by
  have hwf : b.WellFormed := (lower_ok h).1
  obtain ⟨saved, hrun, -⟩ := lower_run h
  refine ⟨fun before op after hops => ?_, (hrun.depth hwf).2⟩
  rw [hops] at hrun
  obtain ⟨M, hbefore, hafter⟩ := hrun.split
  have hdepth : Op.depthFrom 0 before = M.stack.length := (hbefore.depth hwf).1
  have hbalance : Op.balanceFrom 0 before = M.stack.length := (hbefore.depth hwf).2
  cases hafter with
  | cons first rest =>
      have hpops := (first.depth hwf).1
      rw [hbalance, hdepth]
      exact ⟨Int.ofNat_le.mpr hpops, rfl⟩

/-- The numbers that operations take and put are what the machine does with its stack.

* At an operation that a run gets to, the machine underflows exactly when there are fewer values
  than the operation takes, and if it goes well, the depth changes by what it takes and puts. A
  run as a whole underflows at an operation exactly when it gets to it with too few values.
* If no operation fails, whether or not values are left in the end, the counted peak is the
  greatest depth at which a part of the program leaves the stack.
* In lowered code the running sum of what is put less what is taken covers what the next operation
  takes, so that truncating it makes no difference, and it is zero in the end. -/
theorem Machine.depth_counted (m : Machine) (ops : List Op) :
    (∀ before op after m', ops = before ++ op :: after →
      { m with stack := [] }.Reaches 0 before m' →
        m.run ops = m'.runFrom before.length (op :: after) ∧
        ((m'.step before.length op).2 = some (.stackUnderflow before.length) ↔
          m'.stack.length < op.pops) ∧
        ∀ m₁, m'.step before.length op = (m₁, none) →
          op.pops ≤ m'.stack.length ∧
            m₁.stack.length = m'.stack.length - op.pops + op.pushes) ∧
    (∀ pc, (m.run ops).2 = some (.stackUnderflow pc) ↔
      ∃ before op after m', ops = before ++ op :: after ∧ before.length = pc ∧
        { m with stack := [] }.Reaches 0 before m' ∧ m'.stack.length < op.pops) ∧
    (((m.run ops).2 = none ∨ ∃ depth, (m.run ops).2 = some (.unbalancedStack depth)) →
      (∀ before, before <+: ops → ∃ m', { m with stack := [] }.Reaches 0 before m' ∧
        m'.stack.length ≤ Op.peakDepth ops) ∧
      ∃ before m', before <+: ops ∧ { m with stack := [] }.Reaches 0 before m' ∧
        m'.stack.length = Op.peakDepth ops) ∧
    ∀ (b : Block) (opts : Options) (l : Lowering), b.lower opts = .ok l →
      (∀ before op after, l.code.ops = before ++ op :: after →
        (op.pops : Int) ≤ Op.balanceFrom 0 before ∧
          Op.balanceFrom 0 before = Op.depthFrom 0 before) ∧
      Op.balanceFrom 0 l.code.ops = 0 := by
  refine ⟨fun before op after m' hops hreach => ⟨?_, ?_, fun m₁ hstep => ⟨?_, step_depth hstep⟩⟩,
    m.run_underflow_iff ops, fun hrun => ?_, fun b opts l h => b.lower_balance h⟩
  · rw [run, hops, hreach.runFrom_append, Nat.zero_add]
  · rw [step_underflow_iff]
    exact and_iff_right rfl
  · have hno := (m'.step_underflow_iff before.length op before.length).not
    rw [hstep] at hno
    simpa using hno
  · obtain ⟨m', hreach⟩ := reaches_of_run hrun
    obtain ⟨hbound, peak, hpeak, hdepth⟩ := Op.peakDepth_spec ops
    constructor
    · intro before hbefore
      obtain ⟨m₁, hm₁⟩ := hreach.of_prefix hbefore
      exact ⟨m₁, hm₁, Nat.le_trans (Nat.le_of_eq hm₁.depth) (hbound before hbefore)⟩
    · obtain ⟨m₁, hm₁⟩ := hreach.of_prefix hpeak
      exact ⟨peak, m₁, hpeak, hm₁, hm₁.depth.trans hdepth⟩

/-- A block that keeps the result of a comparison. -/
def Block.compared : Block :=
  ⟨[⟨.loadLocal, [.imm 3]⟩, ⟨.lt, [.ref 0, .imm 9]⟩, ⟨.storeLocal, [.imm 3, .ref 1]⟩,
    ⟨.select, [.ref 1, .imm 5, .imm 6]⟩]⟩

/-- The theorem at a program that underflows at its last operation, at one that leaves a value,
and at the code of a block. -/
theorem Machine.depth_counted_compared :
    ((⟨[4], Store.set {} 0 4⟩ : Machine).step 2 (.perform .add)).2 = some (.stackUnderflow 2) ∧
    (({} : Machine).run [.push 4, .tee 0, .perform .add]).2 = some (.stackUnderflow 2) ∧
    (∃ before m', before <+: [.push 4, .tee 0, .get 0, .perform .add] ∧
      ({} : Machine).Reaches 0 before m' ∧ m'.stack.length = 2) ∧
    ∃ l, Block.compared.lower {} = .ok l ∧ Op.balanceFrom 0 l.code.ops = 0 := by
  have hreach : ({} : Machine).Reaches 0 [.push 4, .tee 0] ⟨[4], Store.set {} 0 4⟩ :=
    .cons rfl (.cons rfl (.nil _ _))
  have hshallow : [(4 : Word)].length < (Op.perform .add).pops := by decide
  have hleft : (({} : Machine).run [.push 4, .tee 0, .get 0, .perform .add]).2 =
      some (.unbalancedStack 1) := rfl
  obtain ⟨l, hl⟩ : ∃ l, Block.compared.lower {} = .ok l := ⟨_, rfl⟩
  obtain ⟨hstep, hunderflow, -, hlower⟩ := depth_counted {} [.push 4, .tee 0, .perform .add]
  obtain ⟨-, -, hpeak, -⟩ := depth_counted {} [.push 4, .tee 0, .get 0, .perform .add]
  refine ⟨?_, ?_, (hpeak (Or.inr ⟨1, hleft⟩)).2, l, hl, (hlower _ _ l hl).2⟩
  · exact (hstep [.push 4, .tee 0] (.perform .add) [] _ rfl hreach).2.1.mpr hshallow
  · exact (hunderflow 2).mpr ⟨[.push 4, .tee 0], .perform .add, [], _, rfl, rfl, hreach, hshallow⟩

end StackForm

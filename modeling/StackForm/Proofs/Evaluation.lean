import Mathlib.Data.List.Forall2
import StackForm.Proofs.Effect

/-!
# `StackForm.Proofs.Evaluation`: evaluation, instruction by instruction

Two things about an evaluation are not in its outcome: which locals the instructions load
and store on the way (`Block.accesses`), and at which instruction it stops
(`Block.FailsAt`). Both are said here for instructions that follow earlier results, so that
they can be followed one instruction at a time.

* `failsFrom_iff`: an evaluation ends with a fault exactly when it fails at some
  instruction with that fault.
* `FailsFrom.unique`: there is only one such instruction.
-/

set_option autoImplicit false

namespace StackForm

/-! ### Operands -/

/-- What is resolved from some results stays so when there are more. -/
theorem Operand.resolve_push {o : Operand} {results : Array (Option Word)} {v : Word}
    (h : o.resolve results = .ok v) (result : Option Word) :
    o.resolve (results.push result) = .ok v := by
  cases o with
  | imm w => exact h
  | ref target =>
      rw [Operand.resolve] at h ⊢
      cases hresult : results[target]? with
      | none => simp [hresult] at h
      | some r =>
          have hlt := (Array.getElem?_eq_some_iff.mp hresult).1
          rw [Array.getElem?_push_lt hlt, ← Array.getElem?_eq_getElem hlt, hresult]
          rw [hresult] at h
          exact h

/-- A word is what an operand stands for. -/
def Operand.Denotes (results : Array (Option Word)) (v : Word) (o : Operand) : Prop :=
  o.resolve results = .ok v

/-- Operands that denote words are resolved to these words. -/
theorem Operand.mapM_resolve {results : Array (Option Word)} {args : List Word}
    {os : List Operand} (h : List.Forall₂ (Operand.Denotes results) args os) :
    os.mapM (·.resolve results) = .ok args := by
  induction h with
  | nil => rfl
  | cons hv _ ih =>
      rw [List.mapM_cons, hv, ih]
      rfl

/-- Words that operands were resolved to are what the operands stand for, one by one. -/
theorem Operand.denotes_of_mapM_resolve {results : Array (Option Word)} {args : List Word}
    {os : List Operand} (h : os.mapM (·.resolve results) = .ok args) :
    List.Forall₂ (Operand.Denotes results) args os := by
  induction os generalizing args with
  | nil =>
      cases h
      exact .nil
  | cons o os ih =>
      rw [List.mapM_cons] at h
      cases hv : o.resolve results with
      | error f =>
          rw [hv] at h
          cases h
      | ok v =>
          rw [hv] at h
          cases hvs : os.mapM (·.resolve results) with
          | error f =>
              rw [hvs] at h
              cases h
          | ok vs =>
              rw [hvs] at h
              cases h
              exact .cons hv (ih hvs)

/-! ### Accesses -/

/-- The local that an instruction loads or stores after those that gave `results`. -/
def Instr.accessed? (i : Instr) (results : Array (Option Word)) : Option Nat :=
  match i.operands.mapM (·.resolve results) with
  | .ok args => i.opcode.accessed? args
  | .error _ => none

/-- The locals that instructions load and store, one after the other, until one fails. -/
def accessesFrom (results : Array (Option Word)) (store : Store) : List Instr → List Nat
  | [] => []
  | i :: is =>
    (i.accessed? results).toList ++
      match i.evaluate results store with
      | .error _ => []
      | .ok (result, store) => accessesFrom (results.push result) store is

/-- The locals that a block loads and stores when it is evaluated. -/
def Block.accesses (b : Block) (store : Store) : List Nat := accessesFrom #[] store b.instrs

/-! ### Failures -/

/-- Instructions fail at number `n`: those before it have results, and with these it has the
fault `f`. -/
def FailsFrom (results : Array (Option Word)) (store : Store) (is : List Instr) (n : Nat)
    (f : EvalFault) : Prop :=
  ∃ before i after results' store', is = before ++ i :: after ∧ before.length = n ∧
    evaluateFrom results store before = ⟨store', .ok results'⟩ ∧
    Instr.evaluate i results' store' = .error f

/-- The evaluation of a block fails at position `pos`. -/
def Block.FailsAt (b : Block) (store : Store) (pos : Nat) (f : EvalFault) : Prop :=
  FailsFrom #[] store b.instrs pos f

section Failures

variable {results : Array (Option Word)} {store : Store} {i : Instr} {is : List Instr}
  {n : Nat} {f : EvalFault}

/-- If the first instruction fails, evaluation fails there. -/
theorem FailsFrom.here (h : i.evaluate results store = .error f) :
    FailsFrom results store (i :: is) 0 f :=
  ⟨[], i, is, results, store, rfl, rfl, rfl, h⟩

/-- If the first instruction goes well, evaluation fails where it fails from the next one on. -/
theorem FailsFrom.later {result : Option Word} {store' : Store}
    (hi : i.evaluate results store = .ok (result, store'))
    (h : FailsFrom (results.push result) store' is n f) :
    FailsFrom results store (i :: is) (n + 1) f := by
  obtain ⟨before, j, after, rs, st, rfl, rfl, heval, hj⟩ := h
  refine ⟨i :: before, j, after, rs, st, rfl, rfl, ?_, hj⟩
  rw [evaluateFrom, hi]
  exact heval

/-- A failure is that of the first instruction, or it comes after a result of the first
instruction. -/
theorem FailsFrom.cons_cases (h : FailsFrom results store (i :: is) n f) :
    (n = 0 ∧ i.evaluate results store = .error f) ∨
    ∃ k result store', n = k + 1 ∧ i.evaluate results store = .ok (result, store') ∧
      FailsFrom (results.push result) store' is k f := by
  obtain ⟨before, j, after, rs, st, hsplit, rfl, heval, hj⟩ := h
  cases before with
  | nil =>
      cases hsplit
      cases heval
      exact Or.inl ⟨rfl, hj⟩
  | cons i' before =>
      -- The first instruction is among those with results.
      cases hsplit
      rw [evaluateFrom] at heval
      cases hi : i.evaluate results store with
      | error g =>
          rw [hi] at heval
          cases heval
      | ok outcome =>
          obtain ⟨result, store'⟩ := outcome
          rw [hi] at heval
          exact Or.inr ⟨before.length, result, store', rfl, rfl,
            before, j, after, rs, st, rfl, rfl, heval, hj⟩

/-- Evaluation ends with a fault exactly when some instruction fails with it. -/
theorem failsFrom_iff :
    (evaluateFrom results store is).outcome = .error f ↔ ∃ n, FailsFrom results store is n f := by
  induction is generalizing results store with
  | nil =>
      constructor
      · intro h
        cases h
      · rintro ⟨n, before, j, after, rs, st, hsplit, -⟩
        cases before <;> cases hsplit
  | cons i is ih =>
      rw [evaluateFrom]
      cases hi : i.evaluate results store with
      | error g =>
          constructor
          · intro h
            cases h
            exact ⟨0, .here hi⟩
          · rintro ⟨n, hn⟩
            rcases hn.cons_cases with ⟨-, hg⟩ | ⟨k, result, store', -, hok, -⟩
            · rw [hi] at hg
              cases hg
              rfl
            · rw [hi] at hok
              cases hok
      | ok outcome =>
          -- Both sides go on with the rest, one instruction further.
          obtain ⟨result, store'⟩ := outcome
          show (evaluateFrom (results.push result) store' is).outcome = .error f ↔ _
          rw [ih]
          constructor
          · rintro ⟨k, hk⟩
            exact ⟨k + 1, .later hi hk⟩
          · rintro ⟨n, hn⟩
            rcases hn.cons_cases with ⟨-, hg⟩ | ⟨k, result', store'', -, hok, hk⟩
            · rw [hi] at hg
              cases hg
            · rw [hi] at hok
              cases hok
              exact ⟨k, hk⟩

/-- Evaluation fails at one instruction only, and with one fault. -/
theorem FailsFrom.unique {n' : Nat} {f' : EvalFault} (h : FailsFrom results store is n f)
    (h' : FailsFrom results store is n' f') : n = n' ∧ f = f' := by
  induction is generalizing results store n n' with
  | nil =>
      obtain ⟨before, j, after, rs, st, hsplit, -⟩ := h
      cases before <;> cases hsplit
  | cons i is ih =>
      -- Two failures that differ on the first instruction contradict each other.
      rcases h.cons_cases with ⟨rfl, hg⟩ | ⟨k, result, store', rfl, hok, hk⟩
      · rcases h'.cons_cases with ⟨rfl, hg'⟩ | ⟨k', result', store'', -, hok', -⟩
        · rw [hg] at hg'
          cases hg'
          exact ⟨rfl, rfl⟩
        · rw [hg] at hok'
          cases hok'
      · rcases h'.cons_cases with ⟨rfl, hg'⟩ | ⟨k', result', store'', rfl, hok', hk'⟩
        · rw [hok] at hg'
          cases hg'
        · rw [hok] at hok'
          cases hok'
          obtain ⟨rfl, rfl⟩ := ih hk hk'
          exact ⟨rfl, rfl⟩

end Failures

end StackForm

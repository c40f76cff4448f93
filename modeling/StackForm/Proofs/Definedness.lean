import StackForm.Proofs.Evaluation
import StackForm.Proofs.WellFormed

/-!
# `StackForm.Proofs.Definedness`: the check and the evaluator agree

The check looks at a block alone: numbers of operands, and the positions that operands name.
The evaluator looks at neither. It finds no value where an operand names one, or it finds that
an opcode was given the wrong number of words, and it finds this only if it gets so far.
`Block.evaluate_checked` says that the two judge every block alike. A block that is accepted is
evaluated to values for its results, unless one of the two faults occurs that depend on the
words computed. A block that is refused has no evaluation from any store.

The link is `Valued`: after some instructions there is a value exactly for those of them that
have a result. Then an operand has a value exactly if it names a position that is defined
(`Valued.resolve_iff`), and an instruction fails for lack of words exactly if the block does not
admit it (`Valued.evaluate`).
-/

set_option autoImplicit false

namespace StackForm

/-! ### Numbers of words -/

/-- On the wrong number of words every opcode fails, and says how many it wants. -/
theorem Opcode.apply_of_length_ne (op : Opcode) (args : List Word) (store : Store)
    (h : args.length ≠ op.arity) :
    op.apply args store = .error (.argCount op op.arity args.length) := by
  unfold Opcode.apply
  split
  -- Every branch but the last has the right number of words.
  any_goals exact absurd rfl h
  rfl

/-- An effect that an opcode can have ends with a result as the opcode has one, or with one of
the two faults that depend on the words. -/
theorem Effect.Possible.outcome {op : Opcode} {eff : Effect} (h : eff.Possible op) (s : Store) :
    (∃ result s', eff.run s = .ok (result, s') ∧ result.isSome = op.hasResult) ∨
      ∃ f, eff.run s = .error f ∧ (f = .divisionByZero ∨ ∃ w, f = .invalidLocal w) := by
  cases eff with
  | value v => exact Or.inl ⟨_, _, rfl, h.symm⟩
  | load n => exact Or.inl ⟨_, _, rfl, h.symm⟩
  | store n v => exact Or.inl ⟨_, _, rfl, h.symm⟩
  | fault f => exact Or.inr ⟨f, rfl, h⟩

/-! ### Values and results -/

/-- After the given instructions there is a value for those that have a result, and for no
others. -/
def Valued (results : Array (Option Word)) (is : List Instr) : Prop :=
  List.Forall₂ (fun result i => result.isSome = i.opcode.hasResult) results.toList is

namespace Valued

variable {b : Block} {results : Array (Option Word)} {store : Store} {before after : List Instr}
  {i : Instr}

/-- One more result, which is there if the instruction has one. -/
theorem push (h : Valued results before) {result : Option Word}
    (hresult : result.isSome = i.opcode.hasResult) :
    Valued (results.push result) (before ++ [i]) := by
  unfold Valued
  rw [Array.toList_push]
  exact List.rel_append h (.cons hresult .nil)

/-- A position holds a value exactly if an instruction with a result stands there. -/
theorem getElem?_iff (h : Valued results before) (target : Nat) :
    (∃ v, results[target]? = some (some v)) ↔
      ∃ j, before[target]? = some j ∧ j.opcode.hasResult = true := by
  have hlen : results.size = before.length := h.length_eq
  by_cases hlt : target < before.length
  · have hrel := h.get (by simpa [hlen] using hlt) hlt
    have hresult : results[target]? = some results[target] := by simp
    have hinstr : before[target]? = some before[target] := by simp
    simp only [hresult, hinstr, Option.some.injEq, exists_eq_left']
    rw [← Option.isSome_iff_exists]
    simpa using congrArg (· = true) hrel
  · have hresult : results[target]? = none := by simp; omega
    have hinstr : before[target]? = none := by simp; omega
    simp [hresult, hinstr]

section

variable (h : Valued results before) (hb : b.instrs = before ++ i :: after)

include h hb

/-- An operand of the next instruction has a value exactly if it is a constant or names a value
that is defined there. -/
theorem resolve_iff (o : Operand) :
    (∃ v, o.resolve results = .ok v) ↔
      ∀ target, o = .ref target → b.DefinedBefore before.length target := by
  cases o with
  | imm v => exact iff_of_true ⟨v, rfl⟩ (by simp)
  | ref target =>
    have hdefined : b.DefinedBefore before.length target ↔
        ∃ v, results[target]? = some (some v) := by
      rw [h.getElem?_iff, Block.DefinedBefore, hb]
      constructor
      · rintro ⟨hlt, j, hj, hres⟩
        exact ⟨j, by rwa [List.getElem?_append_left hlt] at hj, hres⟩
      · rintro ⟨j, hj, hres⟩
        have hlt := (List.getElem?_eq_some_iff.mp hj).1
        exact ⟨hlt, j, by rwa [List.getElem?_append_left hlt], hres⟩
    simp only [Operand.ref.injEq, forall_eq', hdefined, Operand.resolve]
    split
    · next v hv => simp [hv, pure, Except.pure]
    · next hnone => simpa [throw, throwThe, MonadExceptOf.throw] using hnone

/-- The operands of the next instruction stand for words exactly if all values that they name
are defined there. -/
theorem exists_args_iff (os : List Operand) :
    (∃ args, List.Forall₂ (Operand.Denotes results) args os) ↔
      ∀ target, .ref target ∈ os → b.DefinedBefore before.length target := by
  induction os with
  | nil => simp
  | cons o os ih =>
    have hsplit : (∃ args, List.Forall₂ (Operand.Denotes results) args (o :: os)) ↔
        (∃ v, o.resolve results = .ok v) ∧
          ∃ args, List.Forall₂ (Operand.Denotes results) args os := by
      constructor
      · rintro ⟨_, _ | ⟨hv, hargs⟩⟩
        exact ⟨⟨_, hv⟩, _, hargs⟩
      · rintro ⟨⟨v, hv⟩, args, hargs⟩
        exact ⟨v :: args, .cons hv hargs⟩
    rw [hsplit, ih, h.resolve_iff hb, ← forall_and]
    simp only [List.mem_cons, or_imp, eq_comm]

/-- The next instruction, if the block admits it, has an outcome of its opcode's kind or one of
the two faults that depend on the words. -/
theorem evaluate_of_admits (hi : b.Admits before.length i) (store : Store) :
    (∃ result store', i.evaluate results store = .ok (result, store') ∧
        result.isSome = i.opcode.hasResult) ∨
      ∃ f, i.evaluate results store = .error f ∧
        (f = .divisionByZero ∨ ∃ w, f = .invalidLocal w) := by
  obtain ⟨args, hargs⟩ := (h.exists_args_iff hb i.operands).mpr hi.2
  have hlen : args.length = i.opcode.arity := by rw [hargs.length_eq, hi.1]
  obtain ⟨eff, happly, -, hpossible⟩ := Opcode.effect_cases i.opcode args hlen
  have heval : i.evaluate results store = eff.run store := by
    rw [Instr.evaluate, Operand.mapM_resolve hargs, ← happly]
    rfl
  rw [heval]
  exact hpossible.outcome store

/-- An instruction that has an outcome is one that the block admits. -/
theorem admits_of_evaluate {outcome : Option Word × Store}
    (heval : i.evaluate results store = .ok outcome) : b.Admits before.length i := by
  rw [Instr.evaluate] at heval
  cases hmap : i.operands.mapM (·.resolve results) with
  | error f =>
    rw [hmap] at heval
    cases heval
  | ok args =>
    have hargs := Operand.denotes_of_mapM_resolve hmap
    refine ⟨?_, (h.exists_args_iff hb i.operands).mp ⟨args, hargs⟩⟩
    rw [← hargs.length_eq]
    by_contra hne
    rw [hmap] at heval
    have hwrong := Opcode.apply_of_length_ne i.opcode args store hne
    cases hwrong.symm.trans heval

end

/-! ### Whole blocks -/

/-- Evaluation from the middle of a block: if the instructions still to come are admitted, all
results come to hold what they should or one of the two faults occurs. -/
theorem evaluateFrom_of_admits (h : Valued results before) (hb : b.instrs = before ++ after)
    (hwf : b.WellFormed) (store : Store) :
    (∃ results', (evaluateFrom results store after).outcome = .ok results' ∧
        Valued results' b.instrs) ∨
      ∃ f, (evaluateFrom results store after).outcome = .error f ∧
        (f = .divisionByZero ∨ ∃ w, f = .invalidLocal w) := by
  induction after generalizing results before store with
  | nil => exact Or.inl ⟨results, rfl, by simpa [hb] using h⟩
  | cons i after ih =>
    have hi : b.Admits before.length i :=
      b.wellFormed_iff_admits.mp hwf before.length i (by simp [hb])
    rw [evaluateFrom]
    rcases h.evaluate_of_admits hb hi store with ⟨result, store', heval, hresult⟩ | ⟨f, heval, hf⟩
    · rw [heval]
      exact ih (h.push hresult) (by simp [hb]) store'
    · rw [heval]
      exact Or.inr ⟨f, rfl, hf⟩

/-- If evaluation from the middle of a block comes to its end, the instructions on the way are
admitted. -/
theorem admits_of_evaluateFrom (h : Valued results before) (hb : b.instrs = before ++ after)
    {results' : Array (Option Word)}
    (heval : (evaluateFrom results store after).outcome = .ok results') :
    ∀ k i, after[k]? = some i → b.Admits (before.length + k) i := by
  induction after generalizing results before store with
  | nil => simp
  | cons i after ih =>
    rw [evaluateFrom] at heval
    cases hi : i.evaluate results store with
    | error f =>
      rw [hi] at heval
      cases heval
    | ok outcome =>
      obtain ⟨result, store'⟩ := outcome
      rw [hi] at heval
      have hadmits := h.admits_of_evaluate hb hi
      -- An admitted instruction leaves a value exactly if it has a result, so the rest goes on.
      have hresult : result.isSome = i.opcode.hasResult := by
        rcases h.evaluate_of_admits hb hadmits store with ⟨r, s, hok, hr⟩ | ⟨f, hfail, -⟩
        · rw [hi] at hok
          cases hok
          exact hr
        · rw [hi] at hfail
          cases hfail
      have hrest := ih (h.push hresult) (by simp [hb]) heval
      intro k j hk
      cases k with
      | zero =>
        cases hk
        exact hadmits
      | succ k =>
        have hj := hrest k j hk
        rwa [List.length_append, List.length_singleton, Nat.add_assoc, Nat.add_comm 1 k] at hj

end Valued

/-- The check and the evaluator agree on which blocks are well formed, whatever the store. A
block that passes the check is evaluated to a value for each instruction with a result and to
none for the others, or it fails with a division by zero or an invalid local: no operand is
ever found without a value, and no opcode without its words. A block that does not pass the
check fails, at what is wrong with it or at something before. -/
theorem Block.evaluate_checked (b : Block) (store : Store) :
    ((∃ uses, UseTable.ofBlock b = .ok uses) →
      (∃ results, (b.evaluate store).outcome = .ok results ∧ results.size = b.length ∧
        ∀ (pos : Nat) (i : Instr), b.instrs[pos]? = some i →
          ((∃ v, results[pos]? = some (some v)) ↔ i.opcode.hasResult = true)) ∨
      ∃ f, (b.evaluate store).outcome = .error f ∧
        (f = .divisionByZero ∨ ∃ w, f = .invalidLocal w)) ∧
    ((∃ fault, UseTable.ofBlock b = .error fault) →
      ∃ f, (b.evaluate store).outcome = .error f) := by
  have hstart : Valued #[] [] := .nil
  constructor
  · intro hchecked
    have hwf := b.exists_ofBlock_iff.mp hchecked
    rcases hstart.evaluateFrom_of_admits (b := b) rfl hwf store with
      ⟨results, hok, hvalued⟩ | hfault
    · refine Or.inl ⟨results, hok, hvalued.length_eq, ?_⟩
      intro pos i hi
      rw [hvalued.getElem?_iff, hi]
      simp
    · exact Or.inr hfault
  · rintro ⟨fault, hfault⟩
    cases hout : (b.evaluate store).outcome with
    | error f => exact ⟨f, rfl⟩
    | ok results =>
      -- An evaluation to the end would mean that the check has nothing to find.
      have hadmits := hstart.admits_of_evaluateFrom (b := b) rfl hout
      have hwf : b.WellFormed := b.wellFormed_iff_admits.mpr (by simpa using hadmits)
      obtain ⟨uses, huses⟩ := b.exists_ofBlock_iff.mpr hwf
      rw [hfault] at huses
      cases huses

/-- A block with a store between two values. -/
def Block.storing : Block :=
  ⟨[⟨.loadLocal, [.imm 3]⟩, ⟨.storeLocal, [.imm 0, .ref 0]⟩, ⟨.neg, [.ref 0]⟩]⟩

/-- A block that refers to a store, which comes after a division by zero. -/
def Block.voiding : Block :=
  ⟨[⟨.sdiv, [.imm 1, .imm 0]⟩, ⟨.storeLocal, [.imm 0, .imm 1]⟩, ⟨.neg, [.ref 1]⟩]⟩

/-- The theorem at these two blocks. The first has a value at positions 0 and 2 and none at the
store. The second never gets to its bad reference, and fails all the same. -/
theorem Block.evaluate_checked_stores :
    (∃ results, (storing.evaluate {}).outcome = .ok results ∧ results.size = 3 ∧
      (∃ v, results[0]? = some (some v)) ∧ (¬ ∃ v, results[1]? = some (some v)) ∧
      ∃ v, results[2]? = some (some v)) ∧
    UseTable.ofBlock voiding = .error (.voidReference 2 0 1) ∧
      ∃ f, (voiding.evaluate {}).outcome = .error f := by
  refine ⟨?_, rfl, (voiding.evaluate_checked {}).2 ⟨_, rfl⟩⟩
  rcases (storing.evaluate_checked {}).1 ⟨_, rfl⟩ with ⟨results, hok, hsize, hvalue⟩ | ⟨f, hf, -⟩
  · refine ⟨results, hok, hsize, (hvalue 0 _ rfl).mpr rfl, ?_, (hvalue 2 _ rfl).mpr rfl⟩
    rw [hvalue 1 _ rfl]
    decide
  · cases hf

end StackForm

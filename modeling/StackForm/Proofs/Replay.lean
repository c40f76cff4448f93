import StackForm.Proofs.Definedness

/-!
# `StackForm.Proofs.Replay`: the log tells the store

An evaluation writes to a store as it goes, and each write goes to the log as well.
`Block.evaluate_replays` says that the two stay in step, for every block and however the
evaluation ends: the log only grows, and writing its new entries over the initial values gives
the final ones. A failing instruction leaves nothing behind. The evaluation has then come exactly
as far as that of the instructions before (`Block.failure?` says which these are), and an
evaluation that succeeds has gone through all of those on its way.

Two facts carry this. An instruction that has an outcome changes the store by logged writes only
(`Instr.evaluate_replay`), so a whole evaluation replays a list of entries (`evaluateFrom_replay`).
And once some instructions have results, the evaluation goes on from these with the rest
(`evaluateFrom_append_of_ok`), so it can be cut anywhere.
-/

set_option autoImplicit false

namespace StackForm

/-! ### Replaying a log -/

namespace Store

/-- Makes the given stores one after the other. -/
def replay (s : Store) (entries : List (Nat × Word)) : Store :=
  entries.foldl (fun s e => s.put e.1 e.2) s

/-- Writes are replayed one after the other. -/
theorem replay_append (s : Store) (entries entries' : List (Nat × Word)) :
    s.replay (entries ++ entries') = (s.replay entries).replay entries' :=
  List.foldl_append ..

/-- Replayed entries are added to the log as they are. -/
theorem replay_log (s : Store) (entries : List (Nat × Word)) :
    (s.replay entries).log = s.log ++ entries.toArray := by
  induction entries generalizing s with
  | nil => exact Array.append_empty.symm
  | cons e entries ih =>
      show ((s.put e.1 e.2).replay entries).log = _
      rw [ih, log_put, Array.push_eq_append, Array.append_assoc]
      simp

/-- Replayed entries are written over the values. -/
theorem replay_values (s : Store) (entries : List (Nat × Word)) :
    (s.replay entries).values = entries.foldl (fun values e => values.insert e.1 e.2) s.values := by
  induction entries generalizing s with
  | nil => rfl
  | cons e entries ih => exact ih (s.put e.1 e.2)

end Store

/-- An opcode that ends well has made a store or none. -/
theorem Opcode.apply_replay {op : Opcode} {args : List Word} {s s' : Store} {result : Option Word}
    (h : op.apply args s = .ok (result, s')) : ∃ entries, s' = s.replay entries := by
  by_cases hlength : args.length = op.arity
  · obtain ⟨eff, heff, -, -⟩ := op.effect_cases args hlength
    rw [heff] at h
    cases eff with
    | value v =>
        cases h
        exact ⟨[], rfl⟩
    | load n =>
        cases h
        exact ⟨[], rfl⟩
    | store n v =>
        cases h
        exact ⟨[(n, v)], rfl⟩
    | fault f => cases h
  · rw [op.apply_of_length_ne args s hlength] at h
    cases h

/-- What an instruction does to the store can be said by the writes to replay. -/
theorem Instr.evaluate_replay {i : Instr} {results : Array (Option Word)} {s s' : Store}
    {result : Option Word} (h : i.evaluate results s = .ok (result, s')) :
    ∃ entries, s' = s.replay entries := by
  rw [Instr.evaluate] at h
  cases hargs : i.operands.mapM (·.resolve results) with
  | error f =>
      rw [hargs] at h
      cases h
  | ok args =>
      rw [hargs] at h
      exact Opcode.apply_replay h

/-- However it ends, an evaluation replays some entries. -/
theorem evaluateFrom_replay (is : List Instr) (results : Array (Option Word)) (s : Store) :
    ∃ entries, (evaluateFrom results s is).store = s.replay entries := by
  induction is generalizing results s with
  | nil => exact ⟨[], rfl⟩
  | cons i is ih =>
      rw [evaluateFrom]
      cases hi : i.evaluate results s with
      | error f => exact ⟨[], rfl⟩
      | ok outcome =>
          obtain ⟨result, s'⟩ := outcome
          obtain ⟨entry, rfl⟩ := Instr.evaluate_replay hi
          obtain ⟨entries, hentries⟩ := ih (results.push result) (s.replay entry)
          refine ⟨entry ++ entries, ?_⟩
          rw [Store.replay_append]
          exact hentries

/-! ### Stopping early -/

section Stopping

variable {results results' : Array (Option Word)} {s s' : Store} {is js : List Instr}
  {f : EvalFault}

/-- Once some instructions have results, the evaluation goes on with the rest. -/
theorem evaluateFrom_append_of_ok (h : evaluateFrom results s is = ⟨s', .ok results'⟩)
    (js : List Instr) : evaluateFrom results s (is ++ js) = evaluateFrom results' s' js := by
  induction is generalizing results s with
  | nil =>
      cases h
      rfl
  | cons i is ih =>
      rw [List.cons_append, evaluateFrom]
      rw [evaluateFrom] at h
      cases hi : i.evaluate results s with
      | error g =>
          rw [hi] at h
          cases h
      | ok outcome =>
          rw [hi] at h
          exact ih h

/-- Instructions that fail do so whatever comes behind them. -/
theorem FailsFrom.append {n : Nat} (h : FailsFrom results s is n f) (js : List Instr) :
    FailsFrom results s (is ++ js) n f := by
  obtain ⟨before, i, after, rs, st, rfl, hn, heval, hi⟩ := h
  exact ⟨before, i, after ++ js, rs, st, List.append_assoc .., hn, heval, hi⟩

/-- Results are added one for each instruction, behind those that were there. -/
theorem evaluateFrom_results (h : (evaluateFrom results s is).outcome = .ok results') :
    ∃ more, results' = results ++ more ∧ more.size = is.length := by
  induction is generalizing results s with
  | nil =>
      cases h
      exact ⟨#[], Array.append_empty.symm, rfl⟩
  | cons i is ih =>
      rw [evaluateFrom] at h
      cases hi : i.evaluate results s with
      | error g =>
          rw [hi] at h
          cases h
      | ok outcome =>
          rw [hi] at h
          obtain ⟨more, rfl, hsize⟩ := ih h
          refine ⟨#[outcome.1] ++ more, ?_, ?_⟩
          · rw [Array.push_eq_append, Array.append_assoc]
          · rw [Array.size_append, hsize, List.length_cons]
            exact Nat.add_comm ..

/-- An evaluation that succeeds has gone through that of its first instructions. -/
theorem evaluateFrom_of_append (h : (evaluateFrom #[] s (is ++ js)).outcome = .ok results) :
    (evaluateFrom #[] s is).outcome = .ok (results.take is.length) := by
  cases hout : (evaluateFrom #[] s is).outcome with
  | error f =>
      -- A failure among the first instructions is one of the whole.
      obtain ⟨n, hn⟩ := failsFrom_iff.mp hout
      have herror := failsFrom_iff.mpr ⟨n, hn.append js⟩
      rw [h] at herror
      cases herror
  | ok early =>
      have hfirst : evaluateFrom #[] s is = ⟨(evaluateFrom #[] s is).store, .ok early⟩ := by
        rw [← hout]
      rw [evaluateFrom_append_of_ok hfirst] at h
      obtain ⟨more, rfl, -⟩ := evaluateFrom_results h
      obtain ⟨all, hall, hsize⟩ := evaluateFrom_results hout
      rw [Array.empty_append] at hall
      subst hall
      rw [← hsize]
      simp

/-- The number of the first instruction that fails. -/
def failureFrom (results : Array (Option Word)) (s : Store) : List Instr → Option Nat
  | [] => none
  | i :: is =>
    match i.evaluate results s with
    | .error _ => some 0
    | .ok (result, s) => (failureFrom (results.push result) s is).map (· + 1)

/-- The number that is given is that of the first instruction to fail. -/
theorem failureFrom_eq_some_iff {n : Nat} :
    failureFrom results s is = some n ↔ ∃ f, FailsFrom results s is n f := by
  induction is generalizing results s n with
  | nil =>
      constructor
      · intro h
        cases h
      · rintro ⟨f, before, j, after, rs, st, hsplit, -⟩
        cases before <;> cases hsplit
  | cons i is ih =>
      rw [failureFrom]
      cases hi : i.evaluate results s with
      | error g =>
          constructor
          · intro h
            cases h
            exact ⟨g, .here hi⟩
          · rintro ⟨f, hf⟩
            obtain ⟨rfl, -⟩ := hf.unique (.here hi)
            rfl
      | ok outcome =>
          obtain ⟨result, s'⟩ := outcome
          show (failureFrom (results.push result) s' is).map (· + 1) = some n ↔ _
          rw [Option.map_eq_some_iff]
          constructor
          · rintro ⟨k, hk, rfl⟩
            obtain ⟨f, hf⟩ := ih.mp hk
            exact ⟨f, .later hi hf⟩
          · rintro ⟨f, hf⟩
            rcases hf.cons_cases with ⟨-, hg⟩ | ⟨k, result', s'', rfl, hok, hk⟩
            · rw [hi] at hg
              cases hg
            · rw [hi] at hok
              cases hok
              exact ⟨k, ih.mpr ⟨f, hk⟩, rfl⟩

end Stopping

namespace Block

/-- The position of the instruction at which the evaluation of a block fails. -/
def failure? (b : Block) (s : Store) : Option Nat := failureFrom #[] s b.instrs

/-- The block of the first `n` instructions. -/
def first (b : Block) (n : Nat) : Block := ⟨b.instrs.take n⟩

variable {b : Block} {s : Store} {results : Array (Option Word)}

/-- No instruction fails if and only if evaluation ends well. -/
theorem failure?_eq_none_iff :
    b.failure? s = none ↔ ∃ results, (b.evaluate s).outcome = .ok results := by
  cases hout : (b.evaluate s).outcome with
  | error f =>
      obtain ⟨n, hn⟩ := failsFrom_iff.mp hout
      have hsome : b.failure? s = some n := failureFrom_eq_some_iff.mpr ⟨f, hn⟩
      simp [hsome]
  | ok results =>
      refine iff_of_true ?_ ⟨results, rfl⟩
      by_contra hsome
      obtain ⟨n, hn⟩ := Option.ne_none_iff_exists'.mp hsome
      obtain ⟨f, hf⟩ := failureFrom_eq_some_iff.mp hn
      have herror : (b.evaluate s).outcome = .error f := failsFrom_iff.mpr ⟨n, hf⟩
      rw [hout] at herror
      cases herror

/-- Where an evaluation fails it has come as far as that of the instructions before. -/
theorem evaluate_first_of_failure {n : Nat} (h : b.failure? s = some n) :
    ∃ i f results, b.instrs[n]? = some i ∧
      (b.first n).evaluate s = ⟨(b.evaluate s).store, .ok results⟩ ∧
      i.evaluate results (b.evaluate s).store = .error f ∧ (b.evaluate s).outcome = .error f := by
  obtain ⟨f, before, i, after, results, s', hsplit, rfl, hbefore, hi⟩ :=
    failureFrom_eq_some_iff.mp h
  have hwhole : b.evaluate s = ⟨s', .error f⟩ := by
    rw [evaluate, hsplit, evaluateFrom_append_of_ok hbefore, evaluateFrom, hi]
  have hfirst : b.first before.length = ⟨before⟩ := by
    rw [first, hsplit, List.take_left]
  rw [hwhole, hfirst]
  exact ⟨i, f, results, by simp [hsplit], hbefore, hi, rfl⟩

/-- An evaluation that succeeds gives the first instructions the results that they have on their
own. -/
theorem evaluate_first_of_ok (h : (b.evaluate s).outcome = .ok results) (n : Nat) :
    ((b.first n).evaluate s).outcome = .ok (results.take n) := by
  obtain ⟨all, hall, hsize⟩ := evaluateFrom_results h
  rw [Array.empty_append] at hall
  -- Beyond the end of the block there is nothing to take.
  have htake : results.take n = results.take (b.instrs.take n).length := by
    rw [List.length_take, ← hsize, ← hall]
    ext k <;> simp
  have hsplit : b.evaluate s = evaluateFrom #[] s (b.instrs.take n ++ b.instrs.drop n) := by
    rw [List.take_append_drop]
    rfl
  rw [hsplit] at h
  rw [htake]
  exact evaluateFrom_of_append h

/-- The log tells the store, and failures leave nothing behind. However the evaluation of a block
ends, it has added entries to the log, and the values are the initial ones with these entries
written over them in order. If it fails at an instruction, the block of the instructions before
is evaluated from the same store to the same store, without a fault. If it does not fail, the
first instructions have the results that they have as a block of their own. -/
theorem evaluate_replays (b : Block) (s : Store) :
    (∃ entries : List (Nat × Word), (b.evaluate s).store.log = s.log ++ entries.toArray ∧
      (b.evaluate s).store.values
        = entries.foldl (fun values e => values.insert e.1 e.2) s.values) ∧
    (b.failure? s = none ↔ ∃ results, (b.evaluate s).outcome = .ok results) ∧
    (∀ n, b.failure? s = some n → ∃ i f results, b.instrs[n]? = some i ∧
      (b.first n).evaluate s = ⟨(b.evaluate s).store, .ok results⟩ ∧
      i.evaluate results (b.evaluate s).store = .error f ∧
      (b.evaluate s).outcome = .error f) ∧
    ∀ results, (b.evaluate s).outcome = .ok results →
      ∀ n, ((b.first n).evaluate s).outcome = .ok (results.take n) := by
  obtain ⟨entries, hentries⟩ := evaluateFrom_replay b.instrs #[] s
  refine ⟨⟨entries, ?_, ?_⟩, failure?_eq_none_iff, fun n => evaluate_first_of_failure,
    fun results => evaluate_first_of_ok⟩
  · rw [evaluate, hentries, Store.replay_log]
  · rw [evaluate, hentries, Store.replay_values]

/-- A block that stores twice to one local and once to another, and then divides by what it
stored first. -/
def overwriting : Block :=
  ⟨[⟨.storeLocal, [.imm 4, .imm 0]⟩, ⟨.storeLocal, [.imm 1, .imm 7]⟩, ⟨.loadLocal, [.imm 4]⟩,
    ⟨.storeLocal, [.imm 4, .imm 2]⟩, ⟨.sdiv, [.imm 1, .ref 2]⟩, ⟨.storeLocal, [.imm 1, .imm 8]⟩]⟩

/-- The theorem at that block, which fails at the division, and at the block of the instructions
before, which does not. -/
theorem evaluate_replays_overwriting :
    overwriting.failure? {} = some 4 ∧
    ∃ results,
      (overwriting.first 4).evaluate {} = ⟨(overwriting.evaluate {}).store, .ok results⟩ ∧
      (((overwriting.first 4).first 3).evaluate {}).outcome = .ok (results.take 3) := by
  have hfails : overwriting.failure? {} = some 4 := rfl
  obtain ⟨-, -, hstops, -⟩ := overwriting.evaluate_replays {}
  obtain ⟨i, f, results, -, hfirst, -, -⟩ := hstops 4 hfails
  obtain ⟨-, -, -, hgoes⟩ := (overwriting.first 4).evaluate_replays {}
  exact ⟨hfails, results, hfirst, hgoes results (congrArg Evaluation.outcome hfirst) 3⟩

end Block

end StackForm

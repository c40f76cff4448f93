import StackForm.Proofs.Evaluation
import StackForm.Proofs.Safety

/-!
# `StackForm.Proofs.Simulation`: lowered code does what its block means

The evaluation of a block and a run of its code go side by side. `Layout.Tracks` is what
links them at a point of the code: the values on the stack are those of the operands that
the layout names, the written slots hold the results of their positions, and the stores
agree on all locals that the program can get at. An opcode takes both sides one instruction
further or makes both fail (`Layout.Tracks.perform`); any other operation moves the machine
alone.

Which locals the program can get at is a parameter, `shared`. All that is asked of it is that
no slot is shared, and that whatever the evaluation loads or stores is.
`Block.lower_preserves` is the result for stores that are equal at the start, with all locals
outside the frame shared.
-/

set_option autoImplicit false

namespace StackForm

/-! ### Stores that agree -/

/-- Two stores hold the same in the shared locals and have the same log. -/
structure Store.AgreesOn (shared : Nat → Prop) (s t : Store) : Prop where
  get? : ∀ n, shared n → s.get? n = t.get? n
  log : s.log = t.log

namespace Store.AgreesOn

variable {shared : Nat → Prop} {s t : Store}

/-- A slot can be written on one side only, since it is not shared. -/
theorem set (h : AgreesOn shared s t) {n : Nat} (hn : ¬ shared n) (v : Word) :
    AgreesOn shared (s.set n v) t := by
  refine ⟨?_, h.log⟩
  intro k hk
  have hne : n ≠ k := by
    rintro rfl
    exact hn hk
  rw [Store.get?_set, if_neg hne, h.get? k hk]

/-- Stores that agree still do when both are written to. -/
theorem put (h : AgreesOn shared s t) (n : Nat) (v : Word) :
    AgreesOn shared (s.put n v) (t.put n v) := by
  refine ⟨?_, ?_⟩
  · intro k hk
    rw [Store.get?_put, Store.get?_put, h.get? k hk]
  · rw [Store.log_put, Store.log_put, h.log]

/-- Stores that agree have the same value for a shared local. -/
theorem load (h : AgreesOn shared s t) {n : Nat} (hn : shared n) : s.load n = t.load n := by
  rw [Store.load, Store.load, h.get? n hn]

end Store.AgreesOn

namespace Layout

/-! ### One step -/

/-- A point of the code, as an evaluation and a run pass it. The evaluation has come to
`results` and `store`. -/
structure Tracks (shared : Nat → Prop) (L : Layout) (results : Array (Option Word))
    (store : Store) (m : Machine) : Prop where
  size : results.size = L.done
  stack : List.Forall₂ (Operand.Denotes results) m.stack L.stack
  slots : ∀ s a, (s, a) ∈ L.saved →
    ∃ v : Word, results[a]? = some (some v) ∧ m.store.get? s = some v
  agrees : m.store.AgreesOn shared store

variable {shared : Nat → Prop} {b : Block} {L M N : Layout} {op : Op} {ops : List Op}
  {results : Array (Option Word)} {store : Store} {m : Machine}

/-- The arguments of an instruction are on top of the stack, the last one first. -/
theorem Tracks.arguments {done : Nat} {os stack : List Operand} {saved : List (Nat × Nat)}
    (hm : Tracks shared ⟨done, os.reverse ++ stack, saved⟩ results store m) :
    ∃ args rest, m.stack = args.reverse ++ rest ∧
      List.Forall₂ (Operand.Denotes results) args os ∧
      List.Forall₂ (Operand.Denotes results) rest stack := by
  have htop := List.forall₂_take_append m.stack os.reverse stack hm.stack
  have hrest := List.forall₂_drop_append m.stack os.reverse stack hm.stack
  refine ⟨(m.stack.take os.reverse.length).reverse, m.stack.drop os.reverse.length, ?_, ?_, hrest⟩
  · rw [List.reverse_reverse, List.take_append_drop]
  · rw [← List.forall₂_reverse_iff, List.reverse_reverse]
    exact htop

/-- The point after an instruction. Its result is on the stack, and all that could be
referred to before still can. -/
theorem Tracks.advance {done : Nat} {stack stack' : List Operand} {saved : List (Nat × Nat)}
    (hm : Tracks shared ⟨done, stack', saved⟩ results store m) {rest : List Word}
    (hrest : List.Forall₂ (Operand.Denotes results) rest stack) (op : Opcode)
    (result : Option Word) (hresult : result.isSome = op.hasResult) {new store' : Store}
    (hslots : ∀ s a, (s, a) ∈ saved → new.get? s = m.store.get? s)
    (hagrees : new.AgreesOn shared store') :
    Tracks shared ⟨done + 1, op.resultRefs done ++ stack, saved⟩ (results.push result) store'
      ⟨result.toList ++ rest, new⟩ := by
  have hold : List.Forall₂ (Operand.Denotes (results.push result)) rest stack :=
    hrest.imp fun v o ho => Operand.resolve_push ho result
  have hsize : results.size = done := hm.size
  refine ⟨?_, ?_, ?_, hagrees⟩
  · rw [Array.size_push, hsize]
  · cases result with
    | none =>
        rw [Opcode.resultRefs_of_no_result hresult.symm]
        exact hold
    | some v =>
        -- The result stands at position `done`, right after all earlier ones.
        rw [Opcode.resultRefs_of_result hresult.symm]
        refine .cons ?_ hold
        show Operand.resolve (results.push (some v)) (.ref done) = .ok v
        rw [← hsize, Operand.resolve, Array.getElem?_push_size]
        rfl
  · intro s a hmem
    obtain ⟨v, hv, hs⟩ := hm.slots s a hmem
    have hlt := (Array.getElem?_eq_some_iff.mp hv).1
    refine ⟨v, ?_, by rw [hslots s a hmem, hs]⟩
    rw [Array.getElem?_push_lt hlt, ← Array.getElem?_eq_getElem hlt, hv]

/-- An opcode takes the evaluation and the machine one instruction further, or makes both
fail. In the one case where the store changes it changes at a shared local, which is no
slot. -/
theorem Tracks.perform (hwf : b.WellFormed) {done : Nat} {stack : List Operand}
    {saved : List (Nat × Nat)} (hprivate : ∀ s a, (s, a) ∈ saved → ¬ shared s) {i : Instr}
    (hi : b.instrs[done]? = some i)
    (hm : Tracks shared ⟨done, i.operands.reverse ++ stack, saved⟩ results store m)
    (haccess : ∀ n, i.accessed? results = some n → shared n) (pc : Nat) :
    (∃ result store' m', i.evaluate results store = .ok (result, store') ∧
      m.perform pc i.opcode = (m', none) ∧
      Tracks shared ⟨done + 1, i.opcode.resultRefs done ++ stack, saved⟩ (results.push result)
        store' m') ∨
    ∃ f rest, i.evaluate results store = .error f ∧
      m.perform pc i.opcode = ({ m with stack := rest }, some (.eval pc f)) := by
  -- The words that the machine takes from the stack are those that the operands resolve to.
  obtain ⟨args, rest, hstack, hargs, hrest⟩ := hm.arguments
  have hresolve := Operand.mapM_resolve hargs
  have hlen : args.length = i.opcode.arity := by
    rw [hargs.length_eq, hwf.arity done i hi]
  have heval : i.evaluate results store = i.opcode.apply args store := by
    rw [Instr.evaluate, hresolve]
    rfl
  obtain ⟨eff, heff, haccessed, hpossible⟩ := i.opcode.effect_cases args hlen
  have hshared : ∀ n, eff.local? = some n → shared n := by
    intro n hn
    refine haccess n ?_
    rw [Instr.accessed?, hresolve]
    exact haccessed.trans hn
  rw [heval, heff, m.perform_eq pc i.opcode args rest eff hstack hlen (heff m.store)]
  cases eff with
  | value v =>
      exact Or.inl ⟨some v, store, _, rfl, rfl,
        hm.advance hrest i.opcode (some v) hpossible.symm (fun s a _ => rfl) hm.agrees⟩
  | load n =>
      have hload : m.store.load n = store.load n := hm.agrees.load (hshared n rfl)
      refine Or.inl ⟨some (store.load n), store, _, rfl, rfl, ?_⟩
      rw [hload]
      exact hm.advance hrest i.opcode (some (store.load n)) hpossible.symm (fun s a _ => rfl)
        hm.agrees
  | store n v =>
      refine Or.inl ⟨none, store.put n v, _, rfl, rfl, ?_⟩
      refine hm.advance hrest i.opcode none hpossible.symm ?_ (hm.agrees.put n v)
      -- The local stored to is shared, so it is none of the slots.
      intro s a hmem
      have hne : n ≠ s := by
        rintro rfl
        exact hprivate n a hmem (hshared n rfl)
      rw [Store.get?_put, if_neg hne]
  | fault f => exact Or.inr ⟨f, rest, rfl, rfl⟩

/-- A written slot holds the value that is on top of the stack. -/
theorem Tracks.slots_set {done : Nat} {stack : List Operand} {saved : List (Nat × Nat)}
    {s a : Nat} (hm : Tracks shared ⟨done, .ref a :: stack, saved⟩ results store m) {v : Word}
    (hv : Operand.Denotes results v (.ref a)) (fresh : ∀ a', (s, a') ∉ saved) :
    ∀ s' a', (s', a') ∈ (s, a) :: saved →
      ∃ w : Word, results[a']? = some (some w) ∧ (m.store.set s v).get? s' = some w := by
  intro s' a' hmem
  rcases List.mem_cons.mp hmem with heq | hold
  · cases heq
    -- An operand that refers to a position stands for the result there.
    refine ⟨v, ?_, by rw [Store.get?_set, if_pos rfl]⟩
    rw [Operand.Denotes, Operand.resolve] at hv
    split at hv
    · rename_i w hw
      cases hv
      exact hw
    · cases hv
  · obtain ⟨w, hw, hget⟩ := hm.slots s' a' hold
    have hne : s ≠ s' := by
      rintro rfl
      exact fresh a' hold
    exact ⟨w, hw, by rw [Store.get?_set, if_neg hne, hget]⟩

/-- An operation that performs no opcode moves the machine and leaves the evaluation where it
is. -/
theorem Step.tracks (h : Step b L op M) (hop : op.performed? = none)
    (hprivate : ∀ s a, (s, a) ∈ M.saved → ¬ shared s) (hm : L.Tracks shared results store m)
    (pc : Nat) :
    M.done = L.done ∧ ∃ m', m.step pc op = (m', none) ∧ M.Tracks shared results store m' := by
  cases h with
  | push v => exact ⟨rfl, _, rfl, hm.size, .cons rfl hm.stack, hm.slots, hm.agrees⟩
  | perform instr => cases hop
  | @get done stack saved s a written =>
      obtain ⟨v, hresult, hv⟩ := hm.slots s a written
      refine ⟨rfl, { m with stack := v :: m.stack }, ?_, hm.size, .cons ?_ hm.stack, hm.slots,
        hm.agrees⟩
      · simp only [Machine.step, hv]
      · show Operand.resolve results (.ref a) = .ok v
        simp only [Operand.resolve, hresult]
        rfl
  | @set done stack saved s a fresh =>
      obtain ⟨v, rest, hv, hrest, hstack⟩ := List.forall₂_cons_right_iff.mp hm.stack
      have hs := hprivate s a (List.mem_cons_self ..)
      refine ⟨rfl, ⟨rest, m.store.set s v⟩, ?_, hm.size, hrest, hm.slots_set hv fresh,
        hm.agrees.set hs v⟩
      simp only [Machine.step, hstack]
  | @tee done stack saved s a fresh =>
      obtain ⟨v, rest, hv, hrest, hstack⟩ := List.forall₂_cons_right_iff.mp hm.stack
      have hs := hprivate s a (List.mem_cons_self ..)
      refine ⟨rfl, { m with store := m.store.set s v }, ?_, hm.size, hm.stack,
        hm.slots_set hv fresh, hm.agrees.set hs v⟩
      simp only [Machine.step, hstack]
  | drop =>
      obtain ⟨v, rest, -, hrest, hstack⟩ := List.forall₂_cons_right_iff.mp hm.stack
      refine ⟨rfl, { m with stack := rest }, ?_, hm.size, hrest, hm.slots, hm.agrees⟩
      simp only [Machine.step, hstack]

end Layout

/-! ### Whole runs -/

/-- Operation number `pc` performs an opcode, and `n` operations before it do. -/
def Op.PerformsAt (ops : List Op) (n pc : Nat) : Prop :=
  ∃ op, ops[pc]? = some (.perform op) ∧ ((ops.take pc).filterMap Op.performed?).length = n

/-- An operation in front moves the others on by one, and is counted if it performs an
instruction. -/
theorem Op.PerformsAt.cons {ops : List Op} {n pc : Nat} (h : Op.PerformsAt ops n pc) (op : Op) :
    Op.PerformsAt (op :: ops) ((if op.performed?.isSome then 1 else 0) + n) (pc + 1) := by
  obtain ⟨opcode, hat, rfl⟩ := h
  refine ⟨opcode, hat, ?_⟩
  rw [List.take_succ_cons]
  cases op with
  | perform _ =>
      show (_ :: _).length = 1 + _
      rw [List.length_cons]
      omega
  | push _ => exact (Nat.zero_add _).symm
  | get _ => exact (Nat.zero_add _).symm
  | set _ => exact (Nat.zero_add _).symm
  | tee _ => exact (Nat.zero_add _).symm
  | drop => exact (Nat.zero_add _).symm

namespace Layout

variable {shared : Nat → Prop} {b : Block} {L M N : Layout} {op : Op} {ops : List Op}
  {results : Array (Option Word)} {store : Store} {m : Machine}

/-- A slot once written stays written. -/
theorem Run.saved_mono (h : Run b L ops N) {entry : Nat × Nat} (hmem : entry ∈ L.saved) :
    entry ∈ N.saved := by
  induction h with
  | nil L => exact hmem
  | cons first rest ih =>
      refine ih ?_
      cases first with
      | set fresh => exact List.mem_cons_of_mem _ hmem
      | tee fresh => exact List.mem_cons_of_mem _ hmem
      | push v => exact hmem
      | perform instr => exact hmem
      | get written => exact hmem
      | drop => exact hmem

/-- An evaluation of the rest of a block and a run of the rest of its code end together. Both
succeed, and the final point links them. Or the evaluation fails at some instruction, and
the run at the operation that performs it. Induction over the code. -/
theorem Run.tracks (hwf : b.WellFormed) (h : Run b L ops N) (hdone : N.done = b.length)
    (hend : N.stack = []) (hprivate : ∀ s a, (s, a) ∈ N.saved → ¬ shared s)
    (hm : L.Tracks shared results store m)
    (haccess : ∀ n ∈ accessesFrom results store (b.instrs.drop L.done), shared n) (pc : Nat) :
    (∃ results', (evaluateFrom results store (b.instrs.drop L.done)).outcome = .ok results' ∧
      (m.runFrom pc ops).2 = none ∧
      N.Tracks shared results' (evaluateFrom results store (b.instrs.drop L.done)).store
        (m.runFrom pc ops).1) ∨
    ∃ n k f, FailsFrom results store (b.instrs.drop L.done) n f ∧ Op.PerformsAt ops n k ∧
      (m.runFrom pc ops).2 = some (.eval (pc + k) f) ∧
      (m.runFrom pc ops).1.store.AgreesOn shared
        (evaluateFrom results store (b.instrs.drop L.done)).store := by
  induction h generalizing results store m pc with
  | nil N =>
      have hempty : m.stack = [] := by
        have hstack := hm.stack
        rw [hend] at hstack
        exact List.forall₂_nil_right_iff.mp hstack
      have hrest : b.instrs.drop N.done = [] := by
        rw [hdone]
        exact List.drop_length
      rw [hrest]
      refine Or.inl ⟨results, rfl, ?_, hm⟩
      simp only [Machine.runFrom, hempty]
      rfl
  | @cons L M N op ops first rest ih =>
      have hsaved : ∀ s a, (s, a) ∈ M.saved → ¬ shared s := fun s a hmem =>
        hprivate s a (rest.saved_mono hmem)
      cases hop : op.performed? with
      | none =>
          -- The evaluation waits while the machine makes its step.
          obtain ⟨hsame, m', hstep, hm'⟩ := first.tracks hop hsaved hm pc
          rw [← hsame] at haccess ⊢
          simp only [Machine.runFrom, hstep]
          rcases ih hdone hend hprivate hm' haccess (pc + 1) with
            hok | ⟨n, k, f, hfails, hat, hfault, hagrees⟩
          · exact Or.inl hok
          · refine Or.inr ⟨n, k + 1, f, hfails, ?_, ?_, hagrees⟩
            · have hcons := hat.cons op
              rw [hop] at hcons
              simpa using hcons
            · rw [hfault]
              congr 2
              omega
      | some opcode =>
          cases first with
          | push _ => cases hop
          | get _ => cases hop
          | set _ => cases hop
          | tee _ => cases hop
          | drop => cases hop
          | @perform done stack saved i instr =>
              have hdrop : b.instrs.drop done = i :: b.instrs.drop (done + 1) := by
                obtain ⟨hlt, rfl⟩ := List.getElem?_eq_some_iff.mp instr
                exact List.drop_eq_getElem_cons hlt
              rw [hdrop] at haccess ⊢
              have haccessed : ∀ n, i.accessed? results = some n → shared n := by
                intro n hn
                refine haccess n ?_
                rw [accessesFrom, hn]
                exact List.mem_append_left _ (List.mem_cons_self ..)
              -- Both sides take up instruction `done` now.
              rcases hm.perform hwf hsaved instr haccessed pc with
                ⟨result, store', m', heval, hstep, hm'⟩ | ⟨f, stack', heval, hstep⟩
              · have hlater : ∀ n ∈ accessesFrom (results.push result) store'
                    (b.instrs.drop (done + 1)), shared n := by
                  intro n hn
                  refine haccess n ?_
                  rw [accessesFrom, heval]
                  exact List.mem_append_right _ hn
                simp only [Machine.runFrom, Machine.step, hstep, evaluateFrom, heval]
                rcases ih hdone hend hprivate hm' hlater (pc + 1) with
                  hok | ⟨n, k, g, hfails, hat, hfault, hagrees⟩
                · exact Or.inl hok
                · refine Or.inr ⟨n + 1, k + 1, g, .later heval hfails, ?_, ?_, hagrees⟩
                  · have hcons := hat.cons (.perform i.opcode)
                    rw [Nat.add_comm n 1]
                    exact hcons
                  · rw [hfault]
                    congr 2
                    omega
              · simp only [Machine.runFrom, Machine.step, hstep, evaluateFrom, heval]
                exact Or.inr ⟨0, 0, f, .here heval, ⟨i.opcode, rfl, rfl⟩, rfl, hm.agrees⟩

end Layout

/-! ### Lowered blocks -/

namespace Block

variable {b : Block} {opts : Options} {l : Lowering}

/-- Evaluating a block and running its code end together, from stores that agree on locals
outside the frame, among them all that the block loads and stores. -/
theorem lower_tracks (h : b.lower opts = .ok l) {shared : Nat → Prop}
    (hprivate : ∀ n, l.code.InFrame n → ¬ shared n) {m : Machine} {store : Store}
    (hagrees : m.store.AgreesOn shared store) (haccess : ∀ n ∈ b.accesses store, shared n) :
    (∃ results, (b.evaluate store).outcome = .ok results ∧ (m.run l.code.ops).2 = none ∧
      (m.run l.code.ops).1.store.AgreesOn shared (b.evaluate store).store ∧
      ∀ pos s, l.code.slot? pos = some s → ∃ v : Word, results[pos]? = some (some v) ∧
        (m.run l.code.ops).1.store.get? s = some v) ∨
    ∃ pos pc f, b.FailsAt store pos f ∧ Op.PerformsAt l.code.ops pos pc ∧
      (m.run l.code.ops).2 = some (.eval pc f) ∧
      (m.run l.code.ops).1.store.AgreesOn shared (b.evaluate store).store := by
  obtain ⟨hwf, -⟩ := lower_ok h
  obtain ⟨saved, hrun, hsaved⟩ := lower_run h
  have hstart : Layout.Tracks shared ⟨0, [], []⟩ #[] store { m with stack := [] } := by
    refine ⟨rfl, .nil, ?_, hagrees⟩
    intro s a hmem
    cases hmem
  have hslots : ∀ s a, (s, a) ∈ saved → ¬ shared s := by
    intro s a hmem
    exact hprivate s ((lower_frame h).1 a s ((hsaved s a).mp hmem))
  rcases hrun.tracks hwf rfl rfl hslots hstart haccess 0 with
    ⟨results, hok, hnone, htracks⟩ | ⟨pos, pc, f, hfails, hat, hfault, hstores⟩
  · refine Or.inl ⟨results, hok, hnone, htracks.agrees, ?_⟩
    intro pos s hs
    exact htracks.slots s pos ((hsaved s pos).mpr hs)
  · rw [Nat.zero_add] at hfault
    exact Or.inr ⟨pos, pc, f, hfails, hat, hfault, hstores⟩

/-- Lowering preserves what a block means. Let a block be evaluated from the store of a
machine, so that no local that it loads or stores is in the frame of its code. Then the run
of the code succeeds exactly when the evaluation does. If the evaluation fails at a
position, the run fails with the same fault at the operation that performs the instruction
there. In both cases the logs and all locals outside the frame come out equal, and after a
success every slot holds the result of its position. -/
theorem lower_preserves (h : b.lower opts = .ok l) (m : Machine)
    (haccess : ∀ n ∈ b.accesses m.store, ¬ l.code.InFrame n) :
    ((b.evaluate m.store).outcome.isOk = true ↔ (m.run l.code.ops).2 = none) ∧
    (∀ f, (b.evaluate m.store).outcome = .error f → ∃ pos, b.FailsAt m.store pos f) ∧
    (∀ pos f, b.FailsAt m.store pos f →
      ∃ pc, Op.PerformsAt l.code.ops pos pc ∧ (m.run l.code.ops).2 = some (.eval pc f)) ∧
    (m.run l.code.ops).1.store.log = (b.evaluate m.store).store.log ∧
    (∀ n, ¬ l.code.InFrame n →
      (m.run l.code.ops).1.store.get? n = (b.evaluate m.store).store.get? n) ∧
    ∀ results, (b.evaluate m.store).outcome = .ok results →
      ∀ pos s, l.code.slot? pos = some s → ∃ v : Word, results[pos]? = some (some v) ∧
        (m.run l.code.ops).1.store.get? s = some v := by
  have hequal : m.store.AgreesOn (fun n => ¬ l.code.InFrame n) m.store :=
    ⟨fun _ _ => rfl, rfl⟩
  -- Both sides succeed, or both fail at one place.
  rcases lower_tracks h (fun n hn hshared => hshared hn) hequal haccess with
    ⟨results, hok, hnone, hagrees, hslots⟩ | ⟨pos, pc, f, hfails, hat, hfault, hagrees⟩
  · have hnever : ∀ pos f, ¬ b.FailsAt m.store pos f := by
      intro pos f hfails
      have herror := failsFrom_iff.mpr ⟨pos, hfails⟩
      have hboth : Except.ok results = Except.error f := hok.symm.trans herror
      cases hboth
    refine ⟨?_, ?_, ?_, hagrees.log, hagrees.get?, ?_⟩
    · rw [hok, hnone]
      exact ⟨fun _ => rfl, fun _ => rfl⟩
    · intro f herror
      exact failsFrom_iff.mp herror
    · intro pos f hfails
      exact absurd hfails (hnever pos f)
    · intro results' hok'
      rw [hok] at hok'
      cases hok'
      exact hslots
  · have herror : (b.evaluate m.store).outcome = .error f := failsFrom_iff.mpr ⟨pos, hfails⟩
    refine ⟨?_, ?_, ?_, hagrees.log, hagrees.get?, ?_⟩
    · rw [herror, hfault]
      constructor
      · intro hfalse
        cases hfalse
      · intro hfalse
        cases hfalse
    · intro g hg
      exact failsFrom_iff.mp hg
    · intro pos' f' hfails'
      obtain ⟨rfl, rfl⟩ := hfails.unique hfails'
      exact ⟨pc, hat, hfault⟩
    · intro results hok
      rw [herror] at hok
      cases hok

/-- A block that stores to a computed local and then divides by what it loads. -/
def quotient : Block :=
  ⟨[⟨.loadLocal, [.imm 0]⟩, ⟨.storeLocal, [.ref 0, .imm 5]⟩, ⟨.loadLocal, [.imm 1]⟩,
    ⟨.sdiv, [.ref 0, .ref 2]⟩]⟩

/-- The theorem at that block, from a store where the divisor is zero and the computed local
is not the slot, which is local 2. The run fails where it performs the division, with the
store logged. -/
theorem lower_preserves_quotient :
    ∃ l, quotient.lower {} = .ok l ∧ l.code.slot? 0 = some 2 ∧
      (let m : Machine := { store := .ofList [(0, 9)] }
       quotient.accesses m.store = [0, 9, 1] ∧ quotient.FailsAt m.store 3 .divisionByZero ∧
       (∃ pc, Op.PerformsAt l.code.ops 3 pc ∧
         (m.run l.code.ops).2 = some (.eval pc .divisionByZero)) ∧
       (m.run l.code.ops).1.store.log = #[(9, 5)]) := by
  obtain ⟨l, hl, hslot, hbase, hsize⟩ : ∃ l, quotient.lower {} = .ok l ∧
      l.code.slot? 0 = some 2 ∧ l.code.base = 2 ∧ l.code.frameSize = 1 :=
    ⟨_, rfl, rfl, rfl, rfl⟩
  have haccesses : quotient.accesses (.ofList [(0, 9)]) = [0, 9, 1] := rfl
  have houtside : ∀ n ∈ quotient.accesses (.ofList [(0, 9)]), ¬ l.code.InFrame n := by
    rw [haccesses]
    simp [Code.InFrame, hbase, hsize]
  have hfails : quotient.FailsAt (.ofList [(0, 9)]) 3 .divisionByZero :=
    ⟨quotient.instrs.take 3, ⟨.sdiv, [.ref 0, .ref 2]⟩, [], #[some 9, none, some 0], _, rfl, rfl,
      rfl, rfl⟩
  obtain ⟨-, -, hfault, hlog, -⟩ := lower_preserves hl { store := .ofList [(0, 9)] } houtside
  exact ⟨l, hl, hslot, haccesses, hfails, hfault 3 _ hfails, hlog⟩

end Block

end StackForm

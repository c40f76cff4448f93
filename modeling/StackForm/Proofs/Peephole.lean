import StackForm.Machine
import StackForm.Proofs.Fusion

/-!
# `StackForm.Proofs.Peephole`: tees by rewriting finished code

A store that is read back at once can be a tee. `Op.peephole` goes through finished code from
the front and puts a tee in the place of every such pair. Two results are about it:

* `Block.emit_peephole`: emission with fusing on gives what `Op.peephole` makes of the code
  emitted with fusing off. It holds for every use table, also where a foreign table gives a slot
  to a value that is computed in place.
* `Machine.run_peephole`: every program runs like its rewriting, from every store. This is about
  programs at large, with underflows, slots never written and values left over, so it needs
  nothing of what emission promises.

A pair is replaced by one operation, so what follows it moves up by one. `Op.reloads` counts the
pairs, and a fault is reported as many operations earlier as there were pairs before it.

No two pairs overlap, since no operation is both a store and a read. `Op.peephole_induction` is
the way through a program that this leaves: pair by pair, and otherwise one operation at a time.
-/

set_option autoImplicit false

namespace StackForm

namespace Op

/-! ### Pairs -/

/-- Whether an operation is a store whose slot is read by the code right after it. -/
def readBack : Op → List Op → Bool
  | .set s, .get s' :: _ => s == s'
  | _, _ => false

/-- How many stores are read back at once. -/
def reloads : List Op → Nat
  | [] => 0
  | op :: ops => reloads ops + if readBack op ops then 1 else 0

/-- Code with a tee in the place of every store that is read back at once, and of the read. -/
def peephole : List Op → List Op
  | [] => []
  | .set s :: .get s' :: ops =>
    if s = s' then .tee s :: peephole ops else .set s :: peephole (.get s' :: ops)
  | op :: ops => op :: peephole ops

/-- An operation is read back if it stores to a slot and the next one loads from that slot. -/
theorem readBack_iff {op : Op} {ops : List Op} :
    readBack op ops = true ↔ ∃ s rest, op = .set s ∧ ops = .get s :: rest := by
  constructor
  · intro h
    rw [readBack.eq_def] at h
    split at h
    · rename_i s s' rest
      exact ⟨s, rest, rfl, by rw [eq_of_beq h]⟩
    · cases h
  · rintro ⟨s, rest, rfl, rfl⟩
    exact beq_self_eq_true s

/-- A store with a load from the same slot behind it becomes one operation. -/
theorem peephole_pair (s : Nat) (ops : List Op) :
    peephole (.set s :: .get s :: ops) = .tee s :: peephole ops := if_pos rfl

/-- An operation that is no store read back at once stays as it is. -/
theorem peephole_keep {op : Op} {ops : List Op} (h : readBack op ops = false) :
    peephole (op :: ops) = op :: peephole ops := by
  rw [peephole.eq_def]
  split
  · rename_i heq
    cases heq
  · rename_i s s' rest heq
    obtain ⟨rfl, rfl⟩ := List.cons.inj heq
    exact if_neg (beq_eq_false_iff_ne.mp h)
  · rename_i heq
    obtain ⟨rfl, rfl⟩ := List.cons.inj heq
    rfl

/-- Induction over a program by its pairs and its other operations. -/
@[elab_as_elim]
theorem peephole_induction {motive : List Op → Prop} (nil : motive [])
    (pair : ∀ s ops, motive ops → motive (.set s :: .get s :: ops))
    (keep : ∀ op ops, readBack op ops = false → motive ops → motive (op :: ops))
    (ops : List Op) : motive ops := by
  -- The code after a pair is two operations shorter, so the induction is over lengths.
  induction hlen : ops.length using Nat.strongRecOn generalizing ops with
  | ind n ih =>
      cases ops with
      | nil => exact nil
      | cons op ops =>
          rw [List.length_cons] at hlen
          cases hback : readBack op ops with
          | false => exact keep op ops hback (ih ops.length (by omega) ops rfl)
          | true =>
              obtain ⟨s, rest, rfl, rfl⟩ := readBack_iff.mp hback
              rw [List.length_cons] at hlen
              exact pair s rest (ih rest.length (by omega) rest rfl)

/-- Rewritten code starts with a read only if the code did, and then with the same. -/
theorem peephole_eq_get {ops rest : List Op} {s : Nat} (h : peephole ops = .get s :: rest) :
    ∃ rest', ops = .get s :: rest' := by
  induction ops using peephole_induction with
  | nil => cases h
  | pair s' ops _ =>
      rw [peephole_pair] at h
      cases h
  | keep op ops hback _ =>
      rw [peephole_keep hback] at h
      cases h
      exact ⟨ops, rfl⟩

/-- Rewriting the code after an operation makes no new pair with it: what starts with a read
after the rewriting did so before. -/
theorem readBack_peephole {op : Op} {ops : List Op} (h : readBack op ops = false) :
    readBack op (peephole ops) = false := by
  refine Bool.eq_false_iff.mpr fun hback => ?_
  obtain ⟨s, rest, rfl, hrest⟩ := readBack_iff.mp hback
  obtain ⟨rest', rfl⟩ := peephole_eq_get hrest
  rw [readBack_iff.mpr ⟨s, rest', rfl, rfl⟩] at h
  cases h

/-- Rewritten code has no store that is read back at once. -/
theorem not_infix_peephole (s : Nat) (ops : List Op) : ¬ [.set s, .get s] <:+: peephole ops := by
  induction ops using peephole_induction with
  | nil =>
      intro h
      cases List.eq_nil_of_infix_nil h
  | pair s' ops ih =>
      rw [peephole_pair, List.infix_cons_iff]
      rintro (⟨rest, heq⟩ | h)
      · cases heq
      · exact ih h
  | keep op ops hback ih =>
      rw [peephole_keep hback, List.infix_cons_iff]
      rintro (⟨rest, heq⟩ | h)
      -- A pair at the front would be one of the operation with the rewritten code.
      · obtain ⟨rfl, hrest⟩ := List.cons.inj heq
        have hpair := readBack_iff.mpr ⟨s, rest, rfl, hrest.symm⟩
        rw [readBack_peephole hback] at hpair
        cases hpair
      · exact ih h

/-- What is not read back is put in front as it is. -/
theorem fuseCons_keep {op : Op} {ops : List Op} (h : readBack op ops = false) :
    fuseCons op ops = op :: ops := by
  rw [fuseCons.eq_def]
  split
  · exact if_neg (beq_eq_false_iff_ne.mp h)
  · rfl

/-- Fusing from the back, as emission does, and rewriting from the front come to the same. -/
theorem fuse_eq_peephole (ops : List Op) : fuse ops = peephole ops := by
  induction ops using peephole_induction with
  | nil => rfl
  | pair s ops ih =>
      rw [fuse, fuse, ih, peephole_pair]
      show fuseCons (.set s) (.get s :: peephole ops) = .tee s :: peephole ops
      exact if_pos rfl
  | keep op ops hback ih =>
      -- `fuse` looks for the read in code that is fused already, `peephole` in the code as it was.
      rw [fuse, ih, fuseCons_keep (readBack_peephole hback), peephole_keep hback]

/-! ### Counting pairs -/

/-- A pair that is fused counts as one store that is read back, for every place behind it. -/
theorem reloads_take_pair (s : Nat) (ops : List Op) (k : Nat) :
    reloads ((.set s :: .get s :: ops).take (k + 2)) = reloads (ops.take k) + 1 := by
  simp [reloads, readBack]

/-- Of the first operations of a program, one that is not read back there counts nothing. -/
theorem reloads_take_keep {op : Op} {ops : List Op} (h : readBack op ops = false) (k : Nat) :
    reloads ((op :: ops).take (k + 1)) = reloads (ops.take k) := by
  have htake : readBack op (ops.take k) = false := by
    refine Bool.eq_false_iff.mpr fun hback => ?_
    obtain ⟨s, rest, rfl, hrest⟩ := readBack_iff.mp hback
    cases k with
    | zero => cases hrest
    | succ k =>
        cases ops with
        | nil => cases hrest
        | cons next ops =>
            obtain ⟨rfl, -⟩ := List.cons.inj hrest
            rw [readBack_iff.mpr ⟨s, ops, rfl, rfl⟩] at h
            cases h
  rw [List.take_succ_cons, reloads, htake]
  rfl

/-- Before a place no more stores are read back than there are operations. -/
theorem reloads_take_le (ops : List Op) (k : Nat) : reloads (ops.take k) ≤ k := by
  induction ops generalizing k with
  | nil => simp [reloads]
  | cons op ops ih =>
      cases k with
      | zero => exact Nat.le_refl 0
      | succ k =>
          have hrest := ih k
          rw [List.take_succ_cons, reloads]
          split <;> omega

end Op

/-! ### Emission -/

namespace EmitContext

variable {ctx : EmitContext}

/-- Without fusing no tee is emitted. -/
theorem keeps_no_tee (hfuse : ctx.fuse = false) : Keeps (fun e => ∀ s, .tee s ∉ e.ops) ctx where
  enter consumer pos op e h s := by
    -- Behind the instruction stands a store, a drop or nothing.
    rw [enter_ops hfuse, ending]
    split
    · simpa using h s
    · split <;> simpa using h s
  push v e h s := by simpa [Emission.prepend] using h s
  keep consumer target reason e e' h hk s := by
    rcases keep_cases hk with ⟨slot, -, hops, -, -⟩ | ⟨-, -, hops, -, -⟩
    · simpa [hops] using h s
    · simpa [hops] using h s

end EmitContext

namespace Block

variable {b : Block} {uses : UseTable} {opts : Options} {c : Code}

/-- Fusing is a rewriting of the code that is emitted without it. For every block, use table and
base for which there is code: there is code with fusing and without, the former is the latter with
a tee in the place of every store that is read back at once, and slots, base and size of the frame
are the same. Without fusing there are no tees, and with it no such store is left. -/
theorem emit_peephole (h : b.emit uses opts = .ok c) :
    ∃ fused plain, b.emit uses { opts with fuse := true } = .ok fused ∧
      b.emit uses { opts with fuse := false } = .ok plain ∧
      fused.ops = Op.peephole plain.ops ∧
      fused.slots = plain.slots ∧ fused.base = plain.base ∧ fused.frameSize = plain.frameSize ∧
      (∀ s, .tee s ∉ plain.ops) ∧ ∀ s, ¬ [.set s, .get s] <:+: fused.ops := by
  obtain ⟨hsize, e, he, -⟩ := emit_eq_ok_iff.mp h
  -- The two emissions end alike, and one of them is that of `h`.
  have halike := @EmitContext.emitAll_fuse { uses, fuse := true, traced := false }
    { uses, fuse := false, traced := false } rfl rfl rfl (b.plan uses) (b.slotBase opts)
  obtain ⟨d, d', hd, hd', hfused⟩ : ∃ d d',
      ({ uses, fuse := true, traced := false } : EmitContext).emitAll (b.plan uses)
        { next := b.slotBase opts } = .ok d ∧
      ({ uses, fuse := false, traced := false } : EmitContext).emitAll (b.plan uses)
        { next := b.slotBase opts } = .ok d' ∧ d.FusedFrom d' := by
    cases hfuse : opts.fuse with
    | true =>
        rw [hfuse] at he
        obtain ⟨d', hd', hrel⟩ := halike.ok_left he
        exact ⟨e, d', he, hd', hrel⟩
    | false =>
        rw [hfuse] at he
        obtain ⟨d, hd, hrel⟩ := halike.ok_right he
        exact ⟨d, e, hd, he, hrel⟩
  have hops : d.ops = Op.peephole d'.ops := by rw [hfused.ops, Op.fuse_eq_peephole]
  refine ⟨b.codeOf opts d, b.codeOf opts d', emit_eq_ok_iff.mpr ⟨hsize, d, hd, rfl⟩,
    emit_eq_ok_iff.mpr ⟨hsize, d', hd', rfl⟩, hops, hfused.slots, rfl, ?_, ?_, ?_⟩
  · show d.next - b.slotBase opts = d'.next - b.slotBase opts
    rw [hfused.next]
  · exact EmitContext.emitAll_keeps (EmitContext.keeps_no_tee rfl) (by simp) hd'
  · intro s
    show ¬ _ <:+: d.ops
    rw [hops]
    exact Op.not_infix_peephole s d'.ops

/-- A block whose second value is a factor of the third and a term of the last. -/
def sharedFactor : Block :=
  ⟨[⟨.loadLocal, [.imm 0]⟩, ⟨.loadLocal, [.imm 1]⟩, ⟨.mul, [.ref 1, .ref 0]⟩,
    ⟨.add, [.ref 1, .ref 2]⟩]⟩

/-- The theorem at that block, under a table that counts one use of the second value and two of
the first. The second value is computed in place as a term and kept as a factor, so it has a slot
all the same, and its store is read back at once. That of the first value is not. -/
theorem emit_peephole_sharedFactor :
    ∃ fused plain, sharedFactor.emit ⟨#[2, 1, 1, 0]⟩ { base := 2, fuse := true } = .ok fused ∧
      sharedFactor.emit ⟨#[2, 1, 1, 0]⟩ { base := 2, fuse := false } = .ok plain ∧
      plain.ops = [.push 0, .perform .loadLocal, .set 2, .push 1, .perform .loadLocal, .set 3,
        .get 3, .get 2, .perform .mul, .perform .add, .drop] ∧
      fused.ops = [.push 0, .perform .loadLocal, .set 2, .push 1, .perform .loadLocal, .tee 3,
        .get 2, .perform .mul, .perform .add, .drop] ∧
      fused.slots = plain.slots ∧ fused.frameSize = plain.frameSize := by
  obtain ⟨c, hc, hops⟩ : ∃ c,
      sharedFactor.emit ⟨#[2, 1, 1, 0]⟩ { base := 2, fuse := false } = .ok c ∧
      c.ops = [.push 0, .perform .loadLocal, .set 2, .push 1, .perform .loadLocal, .set 3,
        .get 3, .get 2, .perform .mul, .perform .add, .drop] := ⟨_, rfl, rfl⟩
  obtain ⟨fused, plain, hfused, hplain, hpeephole, hslots, -, hframe, -⟩ := emit_peephole hc
  obtain rfl : c = plain := Except.ok.inj (hc.symm.trans hplain)
  rw [hops] at hpeephole
  exact ⟨fused, c, hfused, hplain, hops, hpeephole, hslots, hframe⟩

end Block

/-! ### Running -/

/-- The same fault, reported at another operation. Values left over are reported at none. -/
def MachineFault.renumber (g : Nat → Nat) : MachineFault → MachineFault
  | stackUnderflow pc => stackUnderflow (g pc)
  | unsetSlot pc slot => unsetSlot (g pc) slot
  | eval pc source => eval (g pc) source
  | unbalancedStack depth => unbalancedStack depth

/-- The numbers of a program's operations, from `pc` on, are taken to those of the rewritten
program, from `qc` on: each is lower by the pairs before it. -/
def Op.Renumbers (ops : List Op) (pc qc : Nat) (g : Nat → Nat) : Prop :=
  ∀ k, g (pc + k) = qc + (k - Op.reloads (ops.take k))

namespace Op.Renumbers

variable {ops : List Op} {pc qc : Nat} {g : Nat → Nat}

/-- The first operation has the first number in both programs. -/
theorem start (h : Op.Renumbers ops pc qc g) : g pc = qc := h 0

/-- Two operations have become one, and the next ones follow it. -/
theorem pair {s : Nat} (h : Op.Renumbers (.set s :: .get s :: ops) pc qc g) :
    Op.Renumbers ops (pc + 2) (qc + 1) g := by
  intro k
  have hk := h (k + 2)
  -- There are no more pairs than operations, so the differences are not cut off at zero.
  have hle := Op.reloads_take_le ops k
  rw [Op.reloads_take_pair, Nat.add_comm k 2, ← Nat.add_assoc] at hk
  omega

/-- Behind an operation that is kept, both numbers are one further. -/
theorem keep {op : Op} (h : Op.Renumbers (op :: ops) pc qc g)
    (hback : Op.readBack op ops = false) : Op.Renumbers ops (pc + 1) (qc + 1) g := by
  intro k
  have hk := h (k + 1)
  have hle := Op.reloads_take_le ops k
  rw [Op.reloads_take_keep hback, Nat.add_comm k 1, ← Nat.add_assoc] at hk
  omega

end Op.Renumbers

namespace Machine

/-- The number of an operation shows in its fault and nowhere else. -/
theorem step_renumber (m : Machine) (op : Op) {pc qc : Nat} {g : Nat → Nat} (hg : g pc = qc) :
    m.step qc op = ((m.step pc op).1, (m.step pc op).2.map (MachineFault.renumber g)) := by
  subst hg
  cases op with
  | push v => rfl
  | perform op =>
      simp only [step, perform]
      split
      · rfl
      · split <;> rfl
  | get s =>
      simp only [step]
      cases m.store.get? s <;> rfl
  | set s =>
      simp only [step]
      cases m.stack <;> rfl
  | tee s =>
      simp only [step]
      cases m.stack <;> rfl
  | drop =>
      simp only [step]
      cases m.stack <;> rfl

/-- A store and the read of its slot do what a tee does. The read puts back what the store took,
and with nothing on the stack the store fails like the tee. -/
theorem runFrom_pair (m : Machine) (s : Nat) (ops : List Op) (pc qc : Nat) :
    (∃ m', m.step qc (.tee s) = (m', none) ∧
      m.runFrom pc (.set s :: .get s :: ops) = m'.runFrom (pc + 2) ops) ∨
    m.step qc (.tee s) = (m, some (.stackUnderflow qc)) ∧
      m.runFrom pc (.set s :: .get s :: ops) = (m, some (.stackUnderflow pc)) := by
  cases hstack : m.stack with
  | nil => exact Or.inr ⟨by simp [step, hstack], by simp [runFrom, step, hstack]⟩
  | cons v rest =>
      -- The slot has just been written, so the read cannot fail.
      refine Or.inl ⟨{ m with store := m.store.set s v }, by simp [step, hstack], ?_⟩
      simp [runFrom, step, hstack]

/-- Rewritten code runs like the code it was made from, from every machine. Induction over the
program, pair by pair. -/
theorem runFrom_peephole (ops : List Op) (m : Machine) {pc qc : Nat} {g : Nat → Nat}
    (hg : Op.Renumbers ops pc qc g) :
    m.runFrom qc (Op.peephole ops)
      = ((m.runFrom pc ops).1, (m.runFrom pc ops).2.map (MachineFault.renumber g)) := by
  induction ops using Op.peephole_induction generalizing m pc qc with
  | nil =>
      rw [Op.peephole, runFrom, runFrom]
      split <;> rfl
  | pair s ops ih =>
      rw [Op.peephole_pair, runFrom]
      rcases m.runFrom_pair s ops pc qc with ⟨m', htee, hpair⟩ | ⟨htee, hpair⟩
      · rw [htee, hpair]
        exact ih m' hg.pair
      · rw [htee, hpair, ← hg.start]
        rfl
  | keep op ops hback ih =>
      rw [Op.peephole_keep hback, runFrom, runFrom, m.step_renumber op hg.start]
      -- The step is the same on both sides, and a fault of it ends both runs.
      rcases m.step pc op with ⟨m', _ | f⟩
      · exact ih m' (hg.keep hback)
      · rfl

/-- Every program runs like the program with a tee in the place of every store that is read back
at once. From every store both runs end with the same stack and the same store, values and log.
Both end well, or both fail with the same fault. If the fault is that of an operation, its number
in the rewritten program is lower by the number of pairs before it. -/
theorem run_peephole (m : Machine) (ops : List Op) :
    (m.run (Op.peephole ops)).1 = (m.run ops).1 ∧
    (m.run (Op.peephole ops)).2 = (m.run ops).2.map
      (MachineFault.renumber fun pc => pc - Op.reloads (ops.take pc)) := by
  have hg : Op.Renumbers ops 0 0 fun pc => pc - Op.reloads (ops.take pc) := by
    intro k
    simp only [Nat.zero_add]
  have hrun := runFrom_peephole ops { m with stack := [] } hg
  rw [run, run, hrun]
  exact ⟨rfl, rfl⟩

end Machine

end StackForm

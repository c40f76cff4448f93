import StackForm.Proofs.Numbering

/-!
# `StackForm.Proofs.Sequence`: several blocks on one machine

A machine can run the code of one block after that of another. It then starts from a store
in which earlier blocks have left their slots, and a run that failed may have left values on
the stack. `Machine.runAll_agrees` says that nothing of this shows, as long as the blocks
name their locals by constants and the options leave all these locals to the program. After
any number of blocks the log and the program's locals are those of evaluating the blocks one
after the other, and the next block ends in the same way on both sides.

The stores of machine and evaluation agree on the locals that `Options.Shared` admits. A run
needs no more than that from the store that it starts with, and gives no less back
(`Block.lower_sequel`), so that agreement goes from one block to the next.
-/

set_option autoImplicit false

namespace StackForm

/-! ### Blocks that name their locals -/

/-- The local of every load and store is given by a constant. -/
def Block.NamesLocals (b : Block) : Prop :=
  ∀ i ∈ b.instrs, i.opcode = .loadLocal ∨ i.opcode = .storeLocal →
    ∃ v, i.operands.head? = some (.imm v)

/-- Only loads and stores access a local, and both number it by their first argument. -/
theorem Opcode.accessed?_cases {op : Opcode} {args : List Word} {n : Nat}
    (h : op.accessed? args = some n) :
    (op = .loadLocal ∨ op = .storeLocal) ∧ ∃ w rest, args = w :: rest ∧ w.index? = some n := by
  unfold Opcode.accessed? at h
  split at h
  · exact ⟨Or.inl rfl, _, _, rfl, h⟩
  · exact ⟨Or.inr rfl, _, _, rfl, h⟩
  · cases h

/-- An instruction with a constant first operand accesses the local that the constant
numbers. -/
theorem Instr.constantLocal?_of_accessed? {i : Instr} {results : Array (Option Word)} {n : Nat}
    (hnames : i.opcode = .loadLocal ∨ i.opcode = .storeLocal →
      ∃ v, i.operands.head? = some (.imm v))
    (h : i.accessed? results = some n) : i.constantLocal? = some n := by
  rw [Instr.accessed?] at h
  split at h
  · rename_i args hargs
    obtain ⟨hop, w, rest, rfl, hindex⟩ := Opcode.accessed?_cases h
    obtain ⟨v, hv⟩ := hnames hop
    rw [Block.constantLocal?_of_head hop hv]
    -- A constant resolves to itself, so the first argument is the constant.
    obtain ⟨os, hos⟩ := List.head?_eq_some_iff.mp hv
    rw [hos, List.mapM_cons, bind_eq_ok] at hargs
    obtain ⟨v', hv', hargs⟩ := hargs
    obtain ⟨rest', -, hret⟩ := bind_eq_ok.mp hargs
    cases hv'
    cases hret
    exact hindex
  · cases h

/-- A block that names its locals accesses no others. -/
theorem mem_accessesFrom {is : List Instr} {results : Array (Option Word)} {store : Store} {n : Nat}
    (hnames : ∀ i ∈ is, i.opcode = .loadLocal ∨ i.opcode = .storeLocal →
      ∃ v, i.operands.head? = some (.imm v))
    (h : n ∈ accessesFrom results store is) : ∃ i ∈ is, i.constantLocal? = some n := by
  induction is generalizing results store with
  | nil => cases h
  | cons i is ih =>
      rw [accessesFrom, List.mem_append] at h
      rcases h with hhere | hlater
      · refine ⟨i, List.mem_cons_self .., ?_⟩
        exact Instr.constantLocal?_of_accessed? (hnames i (List.mem_cons_self ..))
          (Option.mem_toList.mp hhere)
      · split at hlater
        · cases hlater
        · obtain ⟨j, hj, hn⟩ := ih (fun j hj => hnames j (List.mem_cons_of_mem _ hj)) hlater
          exact ⟨j, List.mem_cons_of_mem _ hj, hn⟩

/-! ### Shared locals -/

/-- The locals that are the program's: those below the base of the slots. If the base is the
highest number there are no slots, and all locals are the program's. -/
def Options.Shared (opts : Options) (n : Nat) : Prop :=
  n < opts.base.toNat ∨ indexLimit ≤ opts.base.toNat + 1

/-- The locals of a block leave a number for a first slot. -/
theorem Block.frameBase_lt (b : Block) : b.frameBase < indexLimit := by
  have hbound : ∀ (ns : List Nat) (start : Nat), start < indexLimit →
      ns.foldl (fun base n => max base (min (n + 1) (indexLimit - 1))) start < indexLimit := by
    intro ns
    induction ns with
    | nil => exact fun _ hstart => hstart
    | cons n ns ih =>
        intro start hstart
        refine ih _ ?_
        show max start (min (n + 1) (indexLimit - 1)) < indexLimit
        omega
  exact hbound _ 0 (by decide)

/-- The options for a block have its first free number as their base. -/
theorem Options.base_forBlock (b : Block) : (Options.forBlock b).base.toNat = b.frameBase :=
  UInt32.toNat_ofNat_of_lt' b.frameBase_lt

/-- Two stores that agree on the program's locals show the same of them. -/
theorem Store.AgreesOn.below {shared : Nat → Prop} {s t : Store} (h : AgreesOn shared s t)
    {base : Nat} (hbase : ∀ n < base, shared n) : s.below base = t.below base := by
  have hlist : ∀ u : Store, u.below base
      = (u.values.filter fun n _ => decide (n < base)).toList := by
    intro u
    rw [Std.ExtTreeMap.toList_filter]
    rfl
  rw [hlist, hlist]
  congr 1
  refine Std.ExtTreeMap.ext_getElem? ?_
  intro n
  rw [Std.ExtTreeMap.getElem?_filter', Std.ExtTreeMap.getElem?_filter']
  by_cases hn : n < base
  · have hget : s.values[n]? = t.values[n]? := h.get? n (hbase n hn)
    rw [hget]
  · simp [hn]

/-! ### One block after another -/

/-- A block that names its locals, and all of them below the base of the slots. -/
structure Block.Fits (b : Block) (opts : Options) : Prop where
  names : b.NamesLocals
  base_le : (Options.forBlock b).base ≤ opts.base

/-- Stores that agree on the program's locals do so after an evaluation on the one side and a
run of the code on the other. Both end well, or both fail with one fault. -/
theorem Block.lower_sequel {b : Block} {opts : Options} {l : Lowering} (h : b.lower opts = .ok l)
    (hfits : b.Fits opts) {m : Machine} {store : Store}
    (hagrees : m.store.AgreesOn opts.Shared store) :
    (m.run l.code.ops).1.store.AgreesOn opts.Shared (b.evaluate store).store ∧
    ((∃ results, (b.evaluate store).outcome = .ok results ∧ (m.run l.code.ops).2 = none) ∨
      ∃ pc f, (b.evaluate store).outcome = .error f ∧
        (m.run l.code.ops).2 = some (.eval pc f)) := by
  have hbase : b.frameBase ≤ opts.base.toNat := by
    have hle := UInt32.le_iff_toNat_le.mp hfits.base_le
    rwa [Options.base_forBlock] at hle
  -- Slots are at the base or beyond, and there are none if the base is the highest number.
  have hprivate : ∀ n, l.code.InFrame n → ¬ opts.Shared n := by
    intro n hn hshared
    obtain ⟨a, ha⟩ := (lower_frame h).2.2 n hn
    have hlimit := lower_slot_lt h ha
    have hstart := hn.1
    rw [code_base h] at hstart
    rcases hshared with hlt | hhigh <;> omega
  have haccess : ∀ n ∈ b.accesses store, opts.Shared n := by
    intro n hn
    obtain ⟨i, hi, hlocal⟩ := mem_accessesFrom hfits.names hn
    have hle := le_frameBase hi hlocal
    by_cases hhigh : indexLimit ≤ opts.base.toNat + 1
    · exact Or.inr hhigh
    · exact Or.inl (by omega)
  rcases lower_tracks h hprivate hagrees haccess with
    ⟨results, hok, hnone, hstores, -⟩ | ⟨pos, pc, f, hfails, -, hfault, hstores⟩
  · exact ⟨hstores, Or.inl ⟨results, hok, hnone⟩⟩
  · exact ⟨hstores, Or.inr ⟨pc, f, failsFrom_iff.mpr ⟨pos, hfails⟩, hfault⟩⟩

/-- Runs programs one after the other, whether or not they end well. -/
def Machine.runAll (m : Machine) (programs : List (List Op)) : Machine :=
  programs.foldl (fun m ops => (m.run ops).1) m

/-- Evaluates blocks one after the other, whether or not they end well. -/
def Store.evaluateAll (s : Store) (blocks : List Block) : Store :=
  blocks.foldl (fun s b => (b.evaluate s).store) s

/-- Agreement on the program's locals lasts over any number of blocks. -/
theorem Machine.runAll_agreesOn {opts : Options} {bs : List Block} {ls : List Lowering}
    (hlower : List.Forall₂ (fun b l => b.lower opts = .ok l) bs ls)
    (hfits : ∀ b ∈ bs, b.Fits opts) {m : Machine} {s : Store}
    (hagrees : m.store.AgreesOn opts.Shared s) :
    (m.runAll (ls.map (·.code.ops))).store.AgreesOn opts.Shared (s.evaluateAll bs) := by
  induction hlower generalizing m s with
  | nil => exact hagrees
  | cons h _ ih =>
      have hnext := (Block.lower_sequel h (hfits _ (List.mem_cons_self ..)) hagrees).1
      exact ih (fun b hb => hfits b (List.mem_cons_of_mem _ hb)) hnext

/-- Lowering a list of blocks lowers each of them. -/
theorem Block.forall₂_of_mapM_lower {opts : Options} {bs : List Block} {ls : List Lowering}
    (h : bs.mapM (·.lower opts) = .ok ls) :
    List.Forall₂ (fun b l => b.lower opts = .ok l) bs ls := by
  induction bs generalizing ls with
  | nil =>
      cases h
      exact .nil
  | cons b bs ih =>
      rw [List.mapM_cons, bind_eq_ok] at h
      obtain ⟨l, hl, h⟩ := h
      obtain ⟨rest, hrest, hret⟩ := bind_eq_ok.mp h
      cases hret
      exact .cons hl (ih hrest)

/-- Several blocks on one machine. Let blocks that name their locals by constants be lowered
with options whose base is beyond all these locals. Run their code one after the other on one
machine, and evaluate the blocks one after the other from the store of that machine, going on
after failures. After any number of blocks the logs are equal and so are the locals below the
base, and the next block ends well on both sides or fails with the same fault on both. -/
theorem Machine.runAll_agrees {opts : Options} {bs : List Block} {ls : List Lowering}
    (hlower : bs.mapM (·.lower opts) = .ok ls) (hnames : ∀ b ∈ bs, b.NamesLocals)
    (hbase : ∀ b ∈ bs, (Options.forBlock b).base ≤ opts.base) (m : Machine) (k : Nat) :
    let m' := m.runAll ((ls.take k).map (·.code.ops))
    let s' := m.store.evaluateAll (bs.take k)
    m'.store.log = s'.log ∧
    m'.store.below opts.base.toNat = s'.below opts.base.toNat ∧
    ∀ b l, bs[k]? = some b → ls[k]? = some l →
      (∃ results, (b.evaluate s').outcome = .ok results ∧ (m'.run l.code.ops).2 = none) ∨
      ∃ pc f, (b.evaluate s').outcome = .error f ∧ (m'.run l.code.ops).2 = some (.eval pc f) := by
  intro m' s'
  have hall := Block.forall₂_of_mapM_lower hlower
  have hfits : ∀ b ∈ bs, b.Fits opts := fun b hb => ⟨hnames b hb, hbase b hb⟩
  have hagrees : m'.store.AgreesOn opts.Shared s' :=
    runAll_agreesOn (List.forall₂_take k hall) (fun b hb => hfits b (List.mem_of_mem_take hb))
      ⟨fun _ _ => rfl, rfl⟩
  refine ⟨hagrees.log, hagrees.below fun n hn => Or.inl hn, ?_⟩
  intro b l hb hl
  have hlowered : b.lower opts = .ok l := by
    obtain ⟨hkb, rfl⟩ := List.getElem?_eq_some_iff.mp hb
    obtain ⟨hkl, rfl⟩ := List.getElem?_eq_some_iff.mp hl
    exact hall.get hkb hkl
  exact (Block.lower_sequel hlowered (hfits b (List.mem_of_getElem? hb)) hagrees).2

/-- A block that divides by local 1, with a value waiting on the stack, after it has stored
to local 0 and kept what it read there. -/
def Block.dividing : Block :=
  ⟨[⟨.loadLocal, [.imm 0]⟩, ⟨.storeLocal, [.imm 0, .imm 8]⟩, ⟨.neg, [.ref 0]⟩,
    ⟨.loadLocal, [.imm 1]⟩, ⟨.sdiv, [.ref 0, .ref 3]⟩, ⟨.add, [.ref 2, .ref 4]⟩]⟩

/-- The theorem at that block, run before and after one that sets local 1, from a store where
local 1 is zero. The first run fails after its store and leaves its slot behind. The third
ends well. -/
theorem Machine.runAll_agrees_dividing :
    let opts : Options := .forLocals 2
    let bs : List Block := [.dividing, ⟨[⟨.storeLocal, [.imm 1, .imm 3]⟩]⟩, .dividing]
    let m : Machine := { store := .ofList [(0, 6)] }
    ∃ l₀ l₁ l₂, bs.mapM (·.lower opts) = .ok [l₀, l₁, l₂] ∧
      (∃ pc, (m.run l₀.code.ops).2 = some (.eval pc .divisionByZero)) ∧
      ((m.runAll [l₀.code.ops, l₁.code.ops]).run l₂.code.ops).2 = none ∧
      (m.runAll [l₀.code.ops, l₁.code.ops, l₂.code.ops]).store.below 2 = [(0, 8), (1, 3)] ∧
      (m.runAll [l₀.code.ops, l₁.code.ops, l₂.code.ops]).store.log
        = #[(0, 8), (1, 3), (0, 8)] := by
  intro opts bs m
  obtain ⟨l, hl⟩ : ∃ l, Block.dividing.lower opts = .ok l := ⟨_, rfl⟩
  obtain ⟨l₁, hl₁⟩ : ∃ l, Block.lower ⟨[⟨.storeLocal, [.imm 1, .imm 3]⟩]⟩ opts = .ok l := ⟨_, rfl⟩
  have hlower : bs.mapM (·.lower opts) = .ok [l, l₁, l] := by
    simp only [bs, List.mapM_cons, List.mapM_nil, hl, hl₁]
    rfl
  have hnames : ∀ b ∈ bs, b.NamesLocals := by
    simp [bs, Block.NamesLocals, Block.dividing]
  have hbase : ∀ b ∈ bs, (Options.forBlock b).base ≤ opts.base := by decide
  have hdivision : (Block.dividing.evaluate m.store).outcome = .error .divisionByZero := rfl
  obtain ⟨results, hthird⟩ : ∃ results, (Block.dividing.evaluate
      (m.store.evaluateAll (bs.take 2))).outcome = .ok results := ⟨_, rfl⟩
  have hbelow : (m.store.evaluateAll bs).below 2 = [(0, 8), (1, 3)] := rfl
  have hlog : (m.store.evaluateAll bs).log = #[(0, 8), (1, 3), (0, 8)] := rfl
  obtain ⟨-, -, hfirst⟩ := runAll_agrees hlower hnames hbase m 0
  obtain ⟨-, -, hlast⟩ := runAll_agrees hlower hnames hbase m 2
  obtain ⟨hlogs, hbelows, -⟩ := runAll_agrees hlower hnames hbase m 3
  refine ⟨l, l₁, l, hlower, ?_, ?_, hbelows.trans hbelow, hlogs.trans hlog⟩
  · rcases hfirst .dividing l rfl rfl with ⟨results, hok, -⟩ | ⟨pc, f, hf, hfault⟩
    · cases hok.symm.trans hdivision
    · cases hf.symm.trans hdivision
      exact ⟨pc, hfault⟩
  · rcases hlast .dividing l rfl rfl with ⟨results, -, hnone⟩ | ⟨pc, f, hf, -⟩
    · exact hnone
    · cases hf.symm.trans hthird

end StackForm

import StackForm.UseTable

/-!
# `StackForm.Proofs.WellFormed`: what the check in front of lowering accepts

`Block.fault?` looks for the first offence in reading order. `Block.WellFormed` says what a
block without an offence is like, and `Block.exists_ofBlock_iff` that the check accepts these
blocks and no others. `Block.Admits` is the same condition for the instruction at one position,
so that a block can be followed instruction by instruction.
-/

set_option autoImplicit false

namespace StackForm

/-! ### Well-formed blocks -/

namespace Block

/-- Every instruction has its opcode's number of operands, and refers to earlier
instructions with a result only. -/
structure WellFormed (b : Block) : Prop where
  arity : ∀ (pos : Nat) (i : Instr), b.instrs[pos]? = some i →
    i.operands.length = i.opcode.arity
  refs : ∀ (pos : Nat) (i : Instr) (target : Nat), b.instrs[pos]? = some i →
    .ref target ∈ i.operands →
    target < pos ∧ ∃ j : Instr, b.instrs[target]? = some j ∧ j.opcode.hasResult = true

/-- A value of the block that the instruction at `pos` may refer to. -/
def DefinedBefore (b : Block) (pos target : Nat) : Prop :=
  target < pos ∧ ∃ j : Instr, b.instrs[target]? = some j ∧ j.opcode.hasResult = true

/-- One position further on, the value of the instruction in between is defined as well. -/
theorem definedBefore_succ {b : Block} {pos : Nat} {i : Instr} (hi : b.instrs[pos]? = some i)
    (target : Nat) : b.DefinedBefore (pos + 1) target ↔
      b.DefinedBefore pos target ∨ target = pos ∧ i.opcode.hasResult = true := by
  unfold DefinedBefore
  by_cases ht : target = pos
  · subst ht
    simp [hi]
  · have hlt : target < pos + 1 ↔ target < pos := by omega
    simp [hlt, ht]

/-- The instruction can stand at `pos`: the number of its operands is right, and so are the
values it refers to. -/
def Admits (b : Block) (pos : Nat) (i : Instr) : Prop :=
  i.operands.length = i.opcode.arity ∧
    ∀ target, .ref target ∈ i.operands → b.DefinedBefore pos target

/-- A block is well-formed if and only if every instruction can be where it is. -/
theorem wellFormed_iff_admits (b : Block) :
    b.WellFormed ↔ ∀ (pos : Nat) (i : Instr), b.instrs[pos]? = some i → b.Admits pos i :=
  ⟨fun h pos i hi => ⟨h.arity pos i hi, fun target ht => h.refs pos i target hi ht⟩,
    fun h => ⟨fun pos i hi => (h pos i hi).1, fun pos i target hi ht => (h pos i hi).2 target ht⟩⟩

end Block

/-! ### The check

Operand, instruction and block, in the order in which the check is built up. -/

/-- The list of opcodes has that of every instruction at its position. -/
theorem Block.getElem?_opcodes (b : Block) (pos : Nat) :
    b.opcodes[pos]? = b.instrs[pos]?.map Instr.opcode := by
  simp [Block.opcodes]

/-- There is no fault in a reference if and only if it is to an earlier instruction with a
result. -/
theorem Operand.fault?_ref_eq_none_iff {b : Block} {pos k target : Nat} (hpos : pos < b.length) :
    (Operand.ref target).fault? b.opcodes pos k = none ↔ b.DefinedBefore pos target := by
  rw [Operand.fault?]
  by_cases hlt : target < pos
  · -- A reference backwards stays within the block, so there is an opcode to look at.
    have htarget : target < b.instrs.length := by
      rw [Block.length] at hpos
      omega
    have hop : b.opcodes[target]? = some b.instrs[target].opcode := by
      simp [Block.getElem?_opcodes, htarget]
    rw [if_neg (by omega), hop]
    simp [Block.DefinedBefore, hlt, htarget]
  · rw [if_pos (by omega)]
    simp [Block.DefinedBefore, hlt]

/-- There is no fault in an instruction if and only if it has as many operands as its opcode asks
for, and its references are good. -/
theorem Instr.fault?_eq_none_iff {b : Block} {pos : Nat} {i : Instr} (hpos : pos < b.length) :
    i.fault? b.opcodes pos = none ↔ b.Admits pos i := by
  rw [Instr.fault?]
  by_cases harity : i.operands.length = i.opcode.arity
  · rw [if_neg (by simpa using harity), List.findSome?_eq_none_iff]
    constructor
    · intro h
      refine ⟨harity, fun target hmem => ?_⟩
      obtain ⟨k, hk⟩ := List.mem_iff_getElem?.mp hmem
      have hfault := h (.ref target, k) (List.mem_zipIdx_iff_getElem?.mpr hk)
      exact (Operand.fault?_ref_eq_none_iff hpos).mp hfault
    · rintro ⟨-, hrefs⟩ ⟨o, k⟩ ho
      cases o with
      | imm v => rfl
      | ref target =>
        have hdefined := hrefs target (List.fst_mem_of_mem_zipIdx ho)
        exact (Operand.fault?_ref_eq_none_iff hpos).mpr hdefined
  · rw [if_pos harity]
    simp [Block.Admits, harity]

namespace Block

/-- There is no fault in a block if and only if it is well-formed. -/
theorem fault?_eq_none_iff (b : Block) : b.fault? = none ↔ b.WellFormed := by
  rw [fault?, List.findSome?_eq_none_iff, wellFormed_iff_admits]
  have hlt : ∀ {pos : Nat} {i : Instr}, b.instrs[pos]? = some i → pos < b.length :=
    fun hi => (List.getElem?_eq_some_iff.mp hi).1
  constructor
  · intro h pos i hi
    have hfault := h (i, pos) (List.mem_zipIdx_iff_getElem?.mpr hi)
    exact (Instr.fault?_eq_none_iff (hlt hi)).mp hfault
  · rintro h ⟨i, pos⟩ hmem
    have hi : b.instrs[pos]? = some i := List.mem_zipIdx_iff_getElem?.mp hmem
    exact (Instr.fault?_eq_none_iff (hlt hi)).mpr (h pos i hi)

end Block

/-- The table of a checked block is its tally, and the block is well formed. -/
theorem UseTable.ofBlock_ok {b : Block} {uses : UseTable} (h : UseTable.ofBlock b = .ok uses) :
    b.WellFormed ∧ uses = UseTable.tally b := by
  rw [UseTable.ofBlock] at h
  split at h
  · cases h
  · rename_i hfault
    cases h
    exact ⟨b.fault?_eq_none_iff.mp hfault, rfl⟩

/-- The uses of a block are counted if and only if it is well-formed. -/
theorem Block.exists_ofBlock_iff (b : Block) :
    (∃ uses, UseTable.ofBlock b = .ok uses) ↔ b.WellFormed := by
  constructor
  · rintro ⟨uses, h⟩
    exact (UseTable.ofBlock_ok h).1
  · intro h
    refine ⟨UseTable.tally b, ?_⟩
    rw [UseTable.ofBlock, b.fault?_eq_none_iff.mpr h]
    rfl

end StackForm

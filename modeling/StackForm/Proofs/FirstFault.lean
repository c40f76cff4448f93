import StackForm.Proofs.Uses

/-!
# `StackForm.Proofs.FirstFault`: what the check reports and what it counts

`Block.WellFormed` says which blocks pass the check in front of lowering. This module says what
is reported of the others, without the search: `Block.FirstFault` holds of the fault of the first
instruction that cannot stand where it does. That fault is about the number of its operands if
that number is wrong, and otherwise about the leftmost reference that is. The order is part of
the statement: everything before the reported place is in order, whatever comes after it.

A use table counts operands. `UseTable.ofBlock_exact` puts both sides together: the check accepts
the well-formed blocks with exact counts, and reports the first fault of each other block.
-/

set_option autoImplicit false

namespace StackForm

/-! ### Faults -/

/-- What is wrong with operand number `k` of the instruction at `pos`: it refers to a position
that is not before, or to one before that has no result. -/
inductive Operand.HasFault (b : Block) (pos k : Nat) : Operand → LowerFault → Prop where
  | notBefore {target : Nat} (h : pos ≤ target) :
      HasFault b pos k (.ref target) (.invalidReference pos k target)
  | void {target : Nat} {j : Instr} (h : target < pos) (hj : b.instrs[target]? = some j)
      (hvoid : j.opcode.hasResult = false) :
      HasFault b pos k (.ref target) (.voidReference pos k target)

/-- What is wrong with an instruction at `pos`: the number of its operands, or else its leftmost
operand with a fault. A wrong number is reported with the opcode and the number that it takes. -/
inductive Instr.HasFault (b : Block) (pos : Nat) (i : Instr) : LowerFault → Prop where
  | arity (h : i.operands.length ≠ i.opcode.arity) :
      HasFault b pos i (.arityMismatch pos i.opcode i.opcode.arity i.operands.length)
  | operand {k : Nat} {o : Operand} {f : LowerFault}
      (harity : i.operands.length = i.opcode.arity) (ho : i.operands[k]? = some o)
      (hleft : ∀ k' < k, ∀ target, i.operands[k']? = some (.ref target) →
        b.DefinedBefore pos target)
      (h : o.HasFault b pos k f) : HasFault b pos i f

/-- The first thing wrong with a block: every instruction before the one at fault can stand where
it does. -/
def Block.FirstFault (b : Block) (f : LowerFault) : Prop :=
  ∃ pos i, b.instrs[pos]? = some i ∧
    (∀ p < pos, ∀ j, b.instrs[p]? = some j → b.Admits p j) ∧ i.HasFault b pos f

/-! ### The search -/

/-- A search through numbered entries gives what it finds at the first entry that has a find. -/
theorem findSome?_zipIdx_eq_some_iff {α β : Type} {l : List α} {find : α × Nat → Option β} {r : β} :
    l.zipIdx.findSome? find = some r ↔ ∃ k a, l[k]? = some a ∧ find (a, k) = some r ∧
      ∀ k' < k, ∀ a', l[k']? = some a' → find (a', k') = none := by
  rw [List.findSome?_eq_some_iff]
  constructor
  · rintro ⟨_, entry, _, hsplit, hfind, hnone⟩
    -- A split of the numbered list is one of the list, and its place is the number.
    obtain ⟨before, rest, rfl, rfl, hrest⟩ := List.zipIdx_eq_append_iff.mp hsplit
    cases rest with
    | nil => cases hrest
    | cons a after =>
        rw [List.zipIdx_cons, Nat.zero_add] at hrest
        obtain ⟨rfl, -⟩ := List.cons.inj hrest
        refine ⟨before.length, a, by simp, hfind, fun k hk a' ha' => ?_⟩
        rw [List.getElem?_append_left hk] at ha'
        exact hnone (a', k) (List.mem_zipIdx_iff_getElem?.mpr ha')
  · rintro ⟨k, a, hk, hfind, hbefore⟩
    obtain ⟨hlt, rfl⟩ := List.getElem?_eq_some_iff.mp hk
    have hlen : (l.take k).length = k := List.length_take_of_le (Nat.le_of_lt hlt)
    refine ⟨(l.take k).zipIdx, (l[k], k), (l.drop (k + 1)).zipIdx (k + 1), ?_, hfind, ?_⟩
    · have hl : l.take k ++ l[k] :: l.drop (k + 1) = l := by
        rw [← List.drop_eq_getElem_cons hlt, List.take_append_drop]
      calc l.zipIdx = (l.take k ++ l[k] :: l.drop (k + 1)).zipIdx := by rw [hl]
        _ = (l.take k).zipIdx ++ (l[k], k) :: (l.drop (k + 1)).zipIdx (k + 1) := by
          rw [List.zipIdx_append, List.zipIdx_cons, hlen, Nat.zero_add]
    · rintro ⟨a', k'⟩ hmem
      have ha' := List.mem_zipIdx_iff_getElem?.mp hmem
      rw [List.getElem?_take] at ha'
      split at ha'
      · exact hbefore k' ‹_› a' ha'
      · cases ha'

/-- The fault that is found in an operand is the one that it has. -/
theorem Operand.fault?_eq_some_iff {b : Block} {pos k : Nat} {o : Operand} {f : LowerFault} :
    o.fault? b.opcodes pos k = some f ↔ o.HasFault b pos k f := by
  constructor
  · intro h
    cases o with
    | imm v => cases h
    | ref target =>
        rw [Operand.fault?, Block.getElem?_opcodes] at h
        split at h
        · cases h
          exact .notBefore ‹_›
        · rename_i hlt
          cases hj : b.instrs[target]? with
          | none =>
              rw [hj] at h
              cases h
          | some j =>
              simp only [hj, Option.map_some] at h
              split at h
              · cases h
              · rename_i hvoid
                cases h
                exact .void (Nat.lt_of_not_le hlt) hj (Bool.eq_false_iff.mpr hvoid)
  · intro h
    cases h with
    | notBefore hle => exact if_pos hle
    | void hlt hj hvoid =>
        rw [Operand.fault?, if_neg (Nat.not_le.mpr hlt), Block.getElem?_opcodes, hj]
        simp [hvoid]

/-- The position has to be in the block. From beyond it, a reference to a position in between would
go backward and find no instruction to object to. -/
theorem Instr.fault?_eq_some_iff {b : Block} {pos : Nat} {i : Instr} {f : LowerFault}
    (hpos : pos < b.length) : i.fault? b.opcodes pos = some f ↔ i.HasFault b pos f := by
  rw [Instr.fault?]
  by_cases harity : i.operands.length = i.opcode.arity
  · rw [if_neg (Decidable.not_not.mpr harity), findSome?_zipIdx_eq_some_iff]
    constructor
    · rintro ⟨k, o, ho, hfault, hleft⟩
      -- The operands to the left were passed over, so their references are in order.
      refine .operand harity ho (fun k' hk' target ht => ?_) (Operand.fault?_eq_some_iff.mp hfault)
      exact (Operand.fault?_ref_eq_none_iff hpos).mp (hleft k' hk' _ ht)
    · intro h
      cases h with
      | arity h => exact absurd harity h
      | @operand k o _ _ ho hleft h =>
          refine ⟨k, o, ho, Operand.fault?_eq_some_iff.mpr h, fun k' hk' o' ho' => ?_⟩
          cases o' with
          | imm v => rfl
          | ref target => exact (Operand.fault?_ref_eq_none_iff hpos).mpr (hleft k' hk' target ho')
  · rw [if_pos harity]
    constructor
    · intro h
      cases h
      exact .arity harity
    · intro h
      cases h with
      | arity _ => rfl
      | operand h _ _ _ => exact absurd h harity

/-- The check finds the first fault. -/
theorem Block.fault?_eq_some_iff {b : Block} {f : LowerFault} :
    b.fault? = some f ↔ b.FirstFault f := by
  have hlt : ∀ {pos : Nat} {i : Instr}, b.instrs[pos]? = some i → pos < b.length :=
    fun hi => (List.getElem?_eq_some_iff.mp hi).1
  rw [Block.fault?, findSome?_zipIdx_eq_some_iff]
  constructor
  · rintro ⟨pos, i, hi, hfault, hbefore⟩
    refine ⟨pos, i, hi, fun p hp j hj => ?_, (Instr.fault?_eq_some_iff (hlt hi)).mp hfault⟩
    exact (Instr.fault?_eq_none_iff (hlt hj)).mp (hbefore p hp j hj)
  · rintro ⟨pos, i, hi, hbefore, hfault⟩
    refine ⟨pos, i, hi, (Instr.fault?_eq_some_iff (hlt hi)).mpr hfault, fun p hp j hj => ?_⟩
    exact (Instr.fault?_eq_none_iff (hlt hj)).mpr (hbefore p hp j hj)

/-! ### Counts -/

/-- The references to a position, counted among the operands of the whole block. -/
theorem Block.count_refs_eq (b : Block) (pos : Nat) :
    b.refs.count pos = (b.instrs.flatMap Instr.operands).count (.ref pos) := by
  have hrefs : b.refs = (b.instrs.flatMap Instr.operands).filterMap Operand.target? := by
    rw [List.filterMap_flatMap]
    rfl
  rw [hrefs, List.count_filterMap, List.count]
  refine List.countP_congr fun o _ => ?_
  cases o <;> simp [Operand.target?]

/-- In a well-formed block nothing refers beyond the block, because references go backward. -/
theorem Block.WellFormed.count_refs_beyond {b : Block} (h : b.WellFormed) {pos : Nat}
    (hpos : b.length ≤ pos) : b.refs.count pos = 0 := by
  rw [Block.count_refs_eq, List.count_eq_zero]
  intro hmem
  obtain ⟨i, hi, href⟩ := List.mem_flatMap.mp hmem
  obtain ⟨p, hp⟩ := List.mem_iff_getElem?.mp hi
  have hbefore := (h.refs p i pos hp href).1
  have hlt : p < b.length := (List.getElem?_eq_some_iff.mp hp).1
  omega

namespace UseTable

/-- A table says nothing of positions beyond its end. -/
theorem uses_beyond {uses : UseTable} {pos : Nat} (h : uses.size ≤ pos) : uses.uses pos = 0 := by
  rw [UseTable.uses, Array.getD_eq_getD_getElem?, Array.getElem?_eq_none h]
  rfl

/-- The fault that is reported for a block is its first one. -/
theorem ofBlock_eq_error_iff {b : Block} {f : LowerFault} :
    ofBlock b = .error f ↔ b.FirstFault f := by
  rw [← Block.fault?_eq_some_iff, ofBlock]
  cases b.fault? with
  | none => constructor <;> (intro h; cases h)
  | some g =>
      show Except.error g = .error f ↔ _
      rw [Except.error.injEq, Option.some.injEq]

/-- The check is exact. A block has a use table if and only if every instruction has its opcode's
number of operands and refers to earlier instructions with a result only. The table covers the
block, and the uses of each position are the operands in the whole block that refer to it, of which
there are none beyond the block. If the number of all operands fits in 32 bits, so does every count.
If there is no table, the fault is the first one: that of the lowest position with an instruction
that cannot stand there, about its number of operands if that is wrong and otherwise about its
leftmost bad reference. -/
theorem ofBlock_exact (b : Block) :
    ((∃ uses, ofBlock b = .ok uses) ↔ b.WellFormed) ∧
    (∀ uses, ofBlock b = .ok uses → uses.size = b.length ∧
      (∀ pos, uses.uses pos = (b.instrs.flatMap Instr.operands).count (.ref pos)) ∧
      (∀ pos, b.length ≤ pos → uses.uses pos = 0) ∧
      ((b.instrs.flatMap Instr.operands).length < UInt32.size →
        ∀ pos, uses.uses pos < UInt32.size)) ∧
    ∀ f, ofBlock b = .error f ↔ b.FirstFault f := by
  refine ⟨b.exists_ofBlock_iff, fun uses h => ?_, fun f => ofBlock_eq_error_iff⟩
  obtain ⟨hwf, rfl⟩ := ofBlock_ok h
  have hsize := size_tally b
  have hbeyond : ∀ pos, b.length ≤ pos → (tally b).uses pos = 0 := fun pos hpos =>
    uses_beyond (by rw [hsize]; exact hpos)
  have hcount : ∀ pos, (tally b).uses pos = (b.instrs.flatMap Instr.operands).count (.ref pos) := by
    intro pos
    rw [← Block.count_refs_eq]
    by_cases hpos : pos < b.length
    · exact uses_tally hpos
    -- Beyond the block the table has no entry, and the block no reference.
    · rw [hbeyond pos (Nat.le_of_not_lt hpos), hwf.count_refs_beyond (Nat.le_of_not_lt hpos)]
  refine ⟨hsize, hcount, hbeyond, fun hlen pos => ?_⟩
  rw [hcount]
  exact Nat.lt_of_le_of_lt List.count_le_length hlen

end UseTable

/-- A block with faults in two instructions. The first of them refers to a store, and then to a
position beyond the block. The second has no operand. -/
def Block.faulty : Block :=
  ⟨[⟨.storeLocal, [.imm 0, .imm 1]⟩, ⟨.add, [.ref 0, .ref 5]⟩, ⟨.neg, []⟩]⟩

/-- A block whose first value is used by two instructions, and twice by one of them. -/
def Block.cube : Block :=
  ⟨[⟨.loadLocal, [.imm 0]⟩, ⟨.mul, [.ref 0, .ref 0]⟩, ⟨.mul, [.ref 1, .ref 0]⟩,
    ⟨.storeLocal, [.imm 1, .ref 2]⟩]⟩

/-- The theorem at these blocks. Of the three faults the one reported is about the left operand
of the sum. -/
theorem UseTable.ofBlock_exact_cube :
    UseTable.ofBlock .faulty = .error (.voidReference 1 0 0) ∧
    ∃ uses, UseTable.ofBlock .cube = .ok uses ∧ uses.size = 4 ∧
      uses.uses 0 = 3 ∧ uses.uses 1 = 1 ∧ uses.uses 3 = 0 ∧ uses.uses 7 = 0 := by
  constructor
  · refine ((UseTable.ofBlock_exact .faulty).2.2 _).mpr ⟨1, _, rfl, ?_, ?_⟩
    · intro p hp j hj
      obtain rfl : p = 0 := by omega
      cases hj
      exact ⟨rfl, by simp⟩
    · exact .operand rfl rfl (by simp) (.void Nat.zero_lt_one rfl rfl)
  · obtain ⟨uses, huses⟩ : ∃ uses, UseTable.ofBlock .cube = .ok uses := ⟨_, rfl⟩
    obtain ⟨hsize, hcount, hbeyond, -⟩ := (UseTable.ofBlock_exact .cube).2.1 uses huses
    exact ⟨uses, huses, hsize, hcount 0, hcount 1, hcount 3, hbeyond 7 (by decide)⟩

end StackForm

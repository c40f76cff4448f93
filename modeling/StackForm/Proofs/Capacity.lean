import StackForm.Proofs.Refusal
import StackForm.Proofs.Sequence

/-!
# `StackForm.Proofs.Capacity`: when there are too many slots

Every value that a forest refers to takes one slot, however many readers it has. So the number of
slots can be read off the forest (`Forest.backRefs`), before any code is emitted. A slot is only
assigned if there is a number for the slot after it, which makes the limit one for the end of the
frame: emission runs out of slots exactly if the base of the slots and their number together reach
`indexLimit` (`Block.emit_overflow_iff`). The base alone never does. It is a 32-bit number, also
where a block names the highest local and the base cannot be beyond it.

The numbers of an emission are naturals here. `Block.lower_capacity` says of each sum and
difference among them that 32-bit arithmetic would give the same.
-/

set_option autoImplicit false

namespace StackForm

/-! ### Counting slots -/

/-- The positions that the trees of a forest refer to. -/
def Forest.backRefs (f : Forest) : Finset Nat := (f.roots.toList.flatMap Tree.refs).toFinset

/-- What a forest refers to is what the plan keeps. -/
theorem Forest.mem_backRefs {b : Block} {uses : UseTable} {f : Forest}
    (h : Forest.ofBlock b uses = .ok f) {a : Nat} :
    a ∈ f.backRefs ↔ ∃ t ∈ b.plan uses, a ∈ t.kept := by
  rw [Forest.backRefs, List.mem_toFinset, (Forest.ofBlock_ok h).2, List.mem_flatMap]
  simp only [List.mem_map, exists_exists_and_eq_and, Tree.mem_refs_map]

/-- The values that a forest refers to are those that its plan keeps. -/
theorem Forest.backRefs_eq {b : Block} {uses : UseTable} {f : Forest}
    (h : Forest.ofBlock b uses = .ok f) :
    f.backRefs = ((b.plan uses).flatMap Tree.kept).toFinset := by
  ext a
  rw [Forest.mem_backRefs h, List.mem_toFinset, List.mem_flatMap]

/-- Every value that a root of the plan keeps is one that the forest refers to. -/
theorem Forest.kept_among_backRefs {b : Block} {uses : UseTable} {f : Forest}
    (h : Forest.ofBlock b uses = .ok f) : ∀ t ∈ b.plan uses, ∀ a ∈ t.kept, a ∈ f.backRefs :=
  fun t ht _ ha => (Forest.mem_backRefs h).mpr ⟨t, ht, ha⟩

/-- The next slot is always a number below the limit. -/
theorem EmitContext.keeps_next_lt (ctx : EmitContext) :
    Keeps (fun e => e.next < indexLimit) ctx where
  enter consumer pos op e h := by
    show (ctx.enter consumer pos op e).next < indexLimit
    rw [enter_next]
    exact h
  push v e h := h
  keep consumer target reason e e' h hk := by
    rcases keep_cases hk with ⟨_, -, -, -, hnext⟩ | ⟨-, hlt, -, -, hnext⟩ <;> omega

/-- A sum that fits in 32 bits is the same in 32-bit arithmetic. -/
theorem toNat_ofNat_succ {n : Nat} (h : n + 1 < indexLimit) :
    (UInt32.ofNat n + 1).toNat = n + 1 := by
  rw [UInt32.toNat_add, UInt32.toNat_ofNat_of_lt' (Nat.lt_of_succ_lt h)]
  exact Nat.mod_eq_of_lt h

/-- A difference of 32-bit numbers is the same in 32-bit arithmetic, the smaller one taken from the
larger. -/
theorem toNat_ofNat_sub {n k : Nat} (h : n + k < indexLimit) :
    (UInt32.ofNat (n + k) - UInt32.ofNat n).toNat = k := by
  have hsum : (UInt32.ofNat (n + k)).toNat = n + k := UInt32.toNat_ofNat_of_lt' h
  have hleft : (UInt32.ofNat n).toNat = n :=
    UInt32.toNat_ofNat_of_lt' (Nat.lt_of_le_of_lt (Nat.le_add_right n k) h)
  rw [UInt32.toNat_sub_of_le _ _ (by rw [UInt32.le_iff_toNat_le, hsum, hleft]; omega), hsum, hleft]
  omega

namespace Block

variable {b : Block} {uses : UseTable} {opts : Options} {f : Forest}

/-- The base is a number that a slot can have. -/
theorem slotBase_lt (b : Block) (opts : Options) : b.slotBase opts < indexLimit := by
  have hbase : opts.base.toNat < indexLimit := opts.base.toNat_lt
  have hframe := b.frameBase_lt
  show max opts.base.toNat b.frameBase < indexLimit
  omega

/-- Code has one slot for each position that the forest refers to, from the base on, and ends
below the limit. -/
theorem frame_emit (hf : Forest.ofBlock b uses = .ok f) {c : Code} (hc : b.emit uses opts = .ok c) :
    c.base = b.slotBase opts ∧ c.frameSize = f.backRefs.card ∧
      b.slotBase opts + f.backRefs.card < indexLimit := by
  obtain ⟨-, e, he, rfl⟩ := emit_eq_ok_iff.mp hc
  obtain ⟨given, -, hgiven, hnext⟩ := (EmitContext.emitAll_reports (b.plan uses)
    (Forest.kept_among_backRefs hf) (Emission.numbered_start _ f.backRefs)).post_of_ok he
  -- In the end a slot was given to everything that the plan keeps.
  have hall : given = f.backRefs := by
    ext a
    rw [← hgiven, EmitContext.emitAll_slots a _ he, Forest.mem_backRefs hf]
    simp
  rw [hall] at hnext
  have hlt : e.next < indexLimit :=
    EmitContext.emitAll_keeps (EmitContext.keeps_next_lt _) (slotBase_lt b opts) he
  have hsize : (b.codeOf opts e).frameSize = e.next - b.slotBase opts := rfl
  exact ⟨rfl, by omega, by omega⟩

/-- Emission runs out of slots exactly if the base and the number of slots together reach the
limit. -/
theorem emit_overflow_iff (hf : Forest.ofBlock b uses = .ok f) :
    b.emit uses opts = .error .slotOverflow ↔
      indexLimit ≤ b.slotBase opts + f.backRefs.card := by
  constructor
  · exact limit_of_slotOverflow (Forest.kept_among_backRefs hf)
  · intro hlimit
    by_contra hroom
    obtain ⟨c, hc⟩ := (emit_alike hroom).1.mpr ⟨f, hf⟩
    have hlt := (frame_emit hf hc).2.2
    omega

/-- A checked block is lowered when its code can be emitted. -/
theorem lower_eq_emit (h : UseTable.ofBlock b = .ok uses) (hf : Forest.ofBlock b uses = .ok f) :
    b.lower opts = b.emit uses opts >>= fun code => pure { uses, forest := f, code } := by
  rw [lower, h]
  show Forest.ofBlock b uses >>= _ = _
  rw [hf]
  rfl

/-- Of a checked block, lowering runs out of slots where emission does. -/
theorem lower_overflow_iff (h : UseTable.ofBlock b = .ok uses)
    (hf : Forest.ofBlock b uses = .ok f) :
    b.lower opts = .error .slotOverflow ↔ b.emit uses opts = .error .slotOverflow := by
  rw [lower_eq_emit h hf]
  cases b.emit uses opts with
  | error fault =>
      show Except.error fault = .error .slotOverflow ↔ _
      rw [Except.error.injEq, Except.error.injEq]
  | ok c => constructor <;> (intro hfull; cases hfull)

/-- Lowering runs out of slots exactly at the limit. Let the base be the number that the options
ask for, or the first one beyond the locals that the block names, whichever is higher. A checked
block has a forest. If the base and the number of positions that the forest refers to add up to
more than the highest 32-bit number, lowering fails for want of slots. Otherwise it succeeds, the
code has that base and that number of slots, and all sums and differences on the way are those of
32-bit arithmetic: the number after each slot, the size of the frame, and the position after a
value in the test whether it can be computed in place. -/
theorem lower_capacity (h : UseTable.ofBlock b = .ok uses) (opts : Options) (base : Nat)
    (hbase : base = max opts.base.toNat (Options.forBlock b).base.toNat) :
    ∃ f, Forest.ofBlock b uses = .ok f ∧
      (b.lower opts = .error .slotOverflow ↔ 4294967295 < base + f.backRefs.card) ∧
      LowerFault.slotOverflow.message = "frame slot index overflow" ∧
      (base + f.backRefs.card ≤ 4294967295 → ∃ l, b.lower opts = .ok l ∧
        l.uses = uses ∧ l.forest = f ∧ l.code.base = base ∧ l.code.frameSize = f.backRefs.card ∧
        (∀ a s, l.code.slot? a = some s → (UInt32.ofNat s + 1).toNat = s + 1) ∧
        (UInt32.ofNat (base + l.code.frameSize) - UInt32.ofNat base).toNat = l.code.frameSize ∧
        ∀ (pos : Nat) (i : Instr) (target : Nat), b.instrs[pos]? = some i →
          .ref target ∈ i.operands → pos < UInt32.size →
          (UInt32.ofNat target + 1).toNat = target + 1) := by
  obtain ⟨f, hf⟩ := exists_forest_of_checked h
  have hslotBase : b.slotBase opts = base := by
    rw [hbase, Options.base_forBlock]
    rfl
  have hoverflow : b.lower opts = .error .slotOverflow ↔ 4294967295 < base + f.backRefs.card := by
    rw [lower_overflow_iff h hf, emit_overflow_iff hf, hslotBase]
    rfl
  refine ⟨f, hf, hoverflow, rfl, fun hroom => ?_⟩
  have hne : b.emit uses opts ≠ .error .slotOverflow := by
    rw [ne_eq, ← lower_overflow_iff h hf, hoverflow]
    omega
  obtain ⟨c, hc⟩ := (emit_alike hne).1.mpr ⟨f, hf⟩
  obtain ⟨hcbase, hcsize, -⟩ := frame_emit hf hc
  have hl : b.lower opts = .ok { uses, forest := f, code := c } := by
    rw [lower_eq_emit h hf, hc]
    rfl
  refine ⟨_, hl, rfl, rfl, hcbase.trans hslotBase, hcsize, ?_, ?_, ?_⟩
  · intro a s hs
    exact toNat_ofNat_succ (lower_slot_lt hl hs)
  · refine toNat_ofNat_sub ?_
    show base + c.frameSize < 4294967296
    omega
  · intro pos i target hi ht hpos
    have hlt := ((UseTable.ofBlock_ok h).1.refs pos i target hi ht).1
    exact toNat_ofNat_succ (Nat.lt_of_le_of_lt hlt hpos)

/-- A block that keeps one value. -/
def doubled : Block := ⟨[⟨.loadLocal, [.imm 3]⟩, ⟨.add, [.ref 0, .ref 0]⟩]⟩

/-- A block that keeps one value and names the highest local. -/
def topmost : Block :=
  ⟨[⟨.loadLocal, [.imm 4294967295]⟩, ⟨.storeLocal, [.ref 0, .ref 0]⟩]⟩

/-- The theorem at these blocks. The first has room for its slot below the highest number, and not
at it. The second has none, whatever the options. -/
theorem lower_capacity_doubled :
    doubled.lower (.forLocals 4294967295) = .error .slotOverflow ∧
    (∃ l, doubled.lower (.forLocals 4294967294) = .ok l ∧ l.code.base = 4294967294 ∧
      l.code.frameSize = 1) ∧
    ∀ opts, topmost.lower opts = .error .slotOverflow := by
  obtain ⟨uses, huses⟩ : ∃ uses, UseTable.ofBlock doubled = .ok uses := ⟨_, rfl⟩
  obtain ⟨uses', huses'⟩ : ∃ uses', UseTable.ofBlock topmost = .ok uses' := ⟨_, rfl⟩
  -- Either forest refers to the first value only.
  have hdoubled : ∀ f, Forest.ofBlock doubled uses = .ok f → f.backRefs.card = 1 := by
    intro f hf
    cases huses
    rw [Forest.backRefs_eq hf]
    rfl
  have htopmost : ∀ f, Forest.ofBlock topmost uses' = .ok f → f.backRefs.card = 1 := by
    intro f hf
    cases huses'
    rw [Forest.backRefs_eq hf]
    rfl
  refine ⟨?_, ?_, fun opts => ?_⟩
  · obtain ⟨f, hf, hfull, -⟩ := lower_capacity huses (.forLocals 4294967295) 4294967295 rfl
    exact hfull.mpr (by rw [hdoubled f hf]; decide)
  · obtain ⟨f, hf, -, -, hroom⟩ := lower_capacity huses (.forLocals 4294967294) 4294967294 rfl
    rw [hdoubled f hf] at hroom
    obtain ⟨l, hl, -, -, hbase, hsize, -⟩ := hroom (by decide)
    exact ⟨l, hl, hbase, hsize⟩
  · obtain ⟨f, hf, hfull, -⟩ := lower_capacity huses' opts _ rfl
    have hbase : (Options.forBlock topmost).base.toNat = 4294967295 := rfl
    exact hfull.mpr (by rw [htopmost f hf, hbase]; omega)

end Block

end StackForm

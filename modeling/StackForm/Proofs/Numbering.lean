import StackForm.Proofs.Simulation

/-!
# `StackForm.Proofs.Numbering`: which values have slots, and which slots they have

Emission assigns a slot when it meets the first reader of a value, long before it comes to
the instruction that computes it. `Block.lower_numbering` describes the outcome without that
order. The values with a slot are those that some tree of the forest refers to, which are
the roots with a use. Their slots fill the frame of the code, each with one value, and the
code names no other slots. The frame begins beyond all locals that the block names by
constants.

The last point needs care at the highest local of all. A block that names it has a base that
is not beyond it, because there is no number left for such a base. Then no slot is assigned
either: `Block.lower_slot_lt` says that the highest number is never a slot.
-/

set_option autoImplicit false

namespace StackForm

/-! ### Values with a slot -/

/-- What a tree of a forest refers to is what the tree of the plan keeps. -/
theorem Tree.mem_refs_map (t : Tree Verdict) (a : Nat) :
    a ∈ (t.map Verdict.target).refs ↔ a ∈ t.kept := by
  rw [Tree.mem_refs, Tree.mem_kept, Tree.nodes_map]
  constructor
  · rintro ⟨u, hu, hleaf⟩
    obtain ⟨w, hw, rfl⟩ := List.mem_map.mp hu
    rw [Tree.leaves_map] at hleaf
    exact ⟨w, hw, hleaf⟩
  · rintro ⟨w, hw, hleaf⟩
    refine ⟨w.map Verdict.target, List.mem_map_of_mem hw, ?_⟩
    rw [Tree.leaves_map]
    exact hleaf

namespace Block

variable {b : Block}

/-- What a tree keeps is the value of a root, and has a use. The position belongs to some
tree of the plan, and below the root of a tree nothing is kept. -/
theorem kept_root (hwf : b.WellFormed) {t : Tree Verdict} (ht : t ∈ b.plan (UseTable.tally b))
    {a : Nat} (ha : a ∈ t.kept) :
    (∃ r ∈ b.plan (UseTable.tally b), r.pos = a) ∧ 1 ≤ (UseTable.tally b).uses a := by
  obtain ⟨j, hj, -⟩ := kept_hasResult hwf ht ha
  have hlt : a < b.length := (List.getElem?_eq_some_iff.mp hj).1
  constructor
  · have hmem : a ∈ (b.plan (UseTable.tally b)).flatMap Tree.postorder := by
      rw [b.plan_postorder, List.mem_range]
      exact hlt
    obtain ⟨r, hr, har⟩ := List.mem_flatMap.mp hmem
    refine ⟨r, hr, ?_⟩
    obtain ⟨u, hu, rfl⟩ := List.mem_map.mp har
    cases r with
    | node pos op cs =>
        rcases List.mem_append.mp hu with hbelow | hself
        · exact absurd ha ((nested_use hwf hr hbelow).2.2 t ht)
        · rw [List.mem_singleton.mp hself]
  · have hkept : 0 < (b.keptRefs (UseTable.tally b)).count a :=
      List.count_pos_iff.mpr (mem_keptRefs.mpr ⟨t, ht, ha⟩)
    have hcount := b.count_refs (UseTable.tally b) a
    rw [UseTable.uses_tally hlt]
    omega

end Block

/-! ### Slots in the code -/

/-- The slot that an operation reads or writes. -/
def Op.slot? : Op → Option Nat
  | get s => some s
  | set s => some s
  | tee s => some s
  | _ => none

namespace Layout

variable {b : Block} {L M N : Layout} {op : Op} {ops : List Op}

/-- After an operation that names a slot, the slot is written. -/
theorem Step.saved_of_slot (h : Step b L op M) {s : Nat} (hs : op.slot? = some s) :
    ∃ a, (s, a) ∈ M.saved := by
  cases h with
  | push v => cases hs
  | perform instr => cases hs
  | get written =>
      cases hs
      exact ⟨_, written⟩
  | set fresh =>
      cases hs
      exact ⟨_, List.mem_cons_self ..⟩
  | tee fresh =>
      cases hs
      exact ⟨_, List.mem_cons_self ..⟩
  | drop => cases hs

/-- Every slot that code names is written in the end. -/
theorem Run.saved_of_slot (h : Run b L ops N) {s : Nat} (hop : op ∈ ops)
    (hs : op.slot? = some s) : ∃ a, (s, a) ∈ N.saved := by
  induction h with
  | nil L => cases hop
  | cons first rest ih =>
      rcases List.mem_cons.mp hop with rfl | hlater
      · obtain ⟨a, ha⟩ := first.saved_of_slot hs
        exact ⟨a, rest.saved_mono ha⟩
      · exact ih hlater

end Layout

/-! ### Slots and named locals -/

/-- Assigning a slot needs a number for the slot after it. -/
theorem EmitContext.keeps_slot_lt (ctx : EmitContext) :
    Keeps (fun e => ∀ a s : Nat, e.slots[a]? = some s → s + 1 < indexLimit) ctx where
  enter consumer pos op e h := by simpa using h
  push v e h := h
  keep consumer target reason e e' h hk := by
    rcases keep_cases hk with ⟨slot, -, -, hslots, -⟩ | ⟨-, hnext, -, hslots, -⟩
    · rw [hslots]
      exact h
    · intro a s ha
      rw [hslots, Std.ExtTreeMap.getElem?_insert] at ha
      split at ha
      · cases ha
        exact hnext
      · exact h a s ha

namespace Block

variable {b : Block} {opts : Options} {l : Lowering}

/-- The highest number is never a slot. -/
theorem lower_slot_lt (h : b.lower opts = .ok l) {a s : Nat} (hs : l.code.slot? a = some s) :
    s + 1 < indexLimit := by
  obtain ⟨-, -, -, e, he, hcode⟩ := lower_ok h
  rw [hcode] at hs
  refine EmitContext.emitAll_keeps (EmitContext.keeps_slot_lt _) ?_ he a s hs
  intro a s ha
  simp at ha

/-- Taking the greatest of a start and bounds of numbers reaches each of the bounds and never
goes below the start. -/
theorem le_foldl_max (bound : Nat → Nat) (ns : List Nat) (start : Nat) :
    start ≤ ns.foldl (fun base n => max base (bound n)) start ∧
      ∀ n ∈ ns, bound n ≤ ns.foldl (fun base n => max base (bound n)) start := by
  induction ns generalizing start with
  | nil => simp
  | cons n ns ih =>
      obtain ⟨hstart, hns⟩ := ih (max start (bound n))
      rw [List.foldl_cons]
      refine ⟨by omega, ?_⟩
      intro k hk
      rcases List.mem_cons.mp hk with rfl | hk
      · omega
      · exact hns k hk

/-- The frame base is beyond a local that the block names, unless that is the highest one. -/
theorem le_frameBase {i : Instr} (hi : i ∈ b.instrs) {n : Nat} (hn : i.constantLocal? = some n) :
    min (n + 1) (indexLimit - 1) ≤ b.frameBase :=
  (le_foldl_max (fun n => min (n + 1) (indexLimit - 1)) _ 0).2 n
    (List.mem_filterMap.mpr ⟨i, hi, hn⟩)

/-- The base of the code is that of the options, unless the locals of the block go beyond it. -/
theorem code_base (h : b.lower opts = .ok l) : l.code.base = max opts.base.toNat b.frameBase := by
  obtain ⟨-, -, -, e, -, hcode⟩ := lower_ok h
  rw [hcode]
  rfl

/-- The local that a constant first operand names. -/
theorem constantLocal?_of_head {i : Instr} {v : Word}
    (hop : i.opcode = .loadLocal ∨ i.opcode = .storeLocal)
    (hhead : i.operands.head? = some (.imm v)) : i.constantLocal? = v.index? := by
  obtain ⟨opcode, operands⟩ := i
  obtain ⟨rest, rfl⟩ := List.head?_eq_some_iff.mp hhead
  rcases hop with rfl | rfl <;> rfl

/-- A slot is beyond every local that the block names by a constant. If the frame base is not
beyond the local, it is the highest number, and no slot reaches that. -/
theorem lt_slot (h : b.lower opts = .ok l) {i : Instr} (hi : i ∈ b.instrs) {n : Nat}
    (hn : i.constantLocal? = some n) {a s : Nat} (hs : l.code.slot? a = some s) : n < s := by
  have hbase := le_frameBase hi hn
  have hframe := ((lower_frame h).1 a s hs).1
  have hlimit := lower_slot_lt h hs
  rw [code_base h] at hframe
  omega

/-- Slots are a gapless numbering of the values that are kept, apart from the program's own
locals. For lowered code:

* a value has a slot exactly when some tree of the forest refers to it, and these are the
  roots that have a use;
* no two values share a slot, and the slots are the numbers of the frame;
* the operations name slots of the frame only;
* the frame starts no lower than the options ask, and every slot is above every local that a
  load or store names by a constant. -/
theorem lower_numbering (h : b.lower opts = .ok l) :
    (∀ a, (l.code.slot? a).isSome ↔ ∃ t ∈ l.forest.roots.toList, a ∈ t.refs) ∧
    (∀ a, (l.code.slot? a).isSome ↔
      (∃ t ∈ l.forest.roots.toList, t.pos = a) ∧ 1 ≤ l.uses.uses a) ∧
    (∀ a a' s, l.code.slot? a = some s → l.code.slot? a' = some s → a = a') ∧
    (∀ s, (∃ a, l.code.slot? a = some s) ↔
      l.code.base ≤ s ∧ s < l.code.base + l.code.frameSize) ∧
    (∀ op ∈ l.code.ops, ∀ s, op = .get s ∨ op = .set s ∨ op = .tee s →
      l.code.base ≤ s ∧ s < l.code.base + l.code.frameSize) ∧
    opts.base.toNat ≤ l.code.base ∧
    ∀ i ∈ b.instrs, i.opcode = .loadLocal ∨ i.opcode = .storeLocal →
      ∀ v : Word, i.operands.head? = some (.imm v) → 0 ≤ v.toInt → v.toInt < indexLimit →
        ∀ a s, l.code.slot? a = some s → v.toInt < s := by
  obtain ⟨hwf, huses, hroots, -⟩ := lower_ok h
  have hslots := lower_slots h
  obtain ⟨hinframe, hinj, hdense⟩ := lower_frame h
  refine ⟨?_, ?_, hinj, ?_, ?_, ?_, ?_⟩
  · intro a
    rw [hslots a, hroots]
    simp only [List.mem_map, exists_exists_and_eq_and, Tree.mem_refs_map]
  · intro a
    rw [hslots a, hroots, huses]
    simp only [List.mem_map, exists_exists_and_eq_and, Tree.pos_map]
    constructor
    · rintro ⟨t, ht, ha⟩
      exact kept_root hwf ht ha
    · rintro ⟨⟨r, hr, rfl⟩, hused⟩
      exact root_kept hr (by omega)
  · intro s
    constructor
    · rintro ⟨a, ha⟩
      exact hinframe a s ha
    · exact hdense s
  · intro op hop s hs
    obtain ⟨saved, hrun, hsaved⟩ := lower_run h
    have hslot : op.slot? = some s := by
      rcases hs with rfl | rfl | rfl <;> rfl
    obtain ⟨a, ha⟩ := hrun.saved_of_slot hop hslot
    exact hinframe a s ((hsaved s a).mp ha)
  · rw [code_base h]
    exact Nat.le_max_left ..
  · intro i hi hop v hhead hnonneg hfits a s hs
    have hindex : v.index? = some v.toInt.toNat := if_pos ⟨hnonneg, hfits⟩
    have hlt := lt_slot h hi ((constantLocal?_of_head hop hhead).trans hindex) hs
    omega

/-- A block that names local 7 and keeps two values. -/
def twoKept : Block :=
  ⟨[⟨.loadLocal, [.imm 7]⟩, ⟨.neg, [.ref 0]⟩, ⟨.add, [.ref 0, .ref 1]⟩,
    ⟨.mul, [.ref 1, .ref 2]⟩]⟩

/-- The theorem at that block, with options that ask for slots from 2 on. The slots begin
after local 7, and the value that is read last in the code has the first of them. -/
theorem lower_numbering_twoKept :
    ∃ l, twoKept.lower (.forLocals 2) = .ok l ∧
      l.code.slot? 1 = some 8 ∧ l.code.slot? 0 = some 9 ∧
      (∀ s, (∃ a, l.code.slot? a = some s) ↔ 8 ≤ s ∧ s < 10) ∧
      (∀ a, (l.code.slot? a).isSome ↔
        (∃ t ∈ l.forest.roots.toList, t.pos = a) ∧ 1 ≤ l.uses.uses a) ∧
      ∀ a s, l.code.slot? a = some s → (7 : Int) < s := by
  obtain ⟨l, hl, hfirst, hsecond, hbase, hsize⟩ : ∃ l, twoKept.lower (.forLocals 2) = .ok l ∧
      l.code.slot? 1 = some 8 ∧ l.code.slot? 0 = some 9 ∧ l.code.base = 8 ∧
      l.code.frameSize = 2 := ⟨_, rfl, rfl, rfl, rfl, rfl⟩
  obtain ⟨-, hroots, -, himage, -, -, habove⟩ := lower_numbering hl
  rw [hbase, hsize] at himage
  have hload : (⟨.loadLocal, [.imm 7]⟩ : Instr) ∈ twoKept.instrs := List.mem_cons_self ..
  exact ⟨l, hl, hfirst, hsecond, himage, hroots,
    habove _ hload (Or.inl rfl) 7 rfl (by decide) (by decide)⟩

end Block

end StackForm

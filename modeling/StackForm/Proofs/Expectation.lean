import StackForm.Directive.Check
import StackForm.Proofs.Capacity

/-!
# `StackForm.Proofs.Expectation`: a check fails on a wrong expectation only

A directive is checked by evaluating a block and running its code. Most of what can be reported
compares the two: how they ended, their logs, their locals. For a block that names its locals by
constants none of this is ever reported, because the code does what the block means
(`Block.lower_sequel`). What is left is the comparison with the expected values, and that one can
be said of the evaluation alone (`Directive.check_eq`): the code and its slots do not show.

`Directive.check_expectation` puts this together. A check passes exactly when the evaluation
fails, or nothing is expected, or every expected value is there.
-/

set_option autoImplicit false

namespace StackForm

/-! ### What a check sees of a store -/

namespace Store

/-- What a local holds for a program that owns the locals below `base`. The other locals count as
zero. -/
def visible (s : Store) (base n : Nat) : Word := if n < base then s.load n else 0

/-- What is visible of a local: its value if it belongs to the program, and otherwise zero. -/
theorem eq_visible_iff {s : Store} {base n : Nat} {v : Word} :
    v = s.visible base n ↔ (n < base → v = s.load n) ∧ (base ≤ n → v = 0) := by
  rw [visible]
  by_cases hlt : n < base
  · simp [hlt]
  · simp [hlt, Nat.le_of_not_lt hlt]

/-- The locals below a number are those of the store with smaller numbers. -/
theorem mem_below {s : Store} {base n : Nat} {v : Word} :
    (n, v) ∈ s.below base ↔ s.get? n = some v ∧ n < base := by
  rw [below, List.mem_filter, toList, Std.ExtTreeMap.mem_toList_iff_getElem?_eq_some,
    decide_eq_true_iff]
  rfl

/-- Looking a local up among those below `base` reads it from the store. -/
theorem lookup_below (s : Store) (base n : Nat) :
    (s.below base).lookup n = if n < base then s.get? n else none := by
  cases hlookup : (s.below base).lookup n with
  | some v =>
      obtain ⟨before, after, hsplit, -⟩ := List.lookup_eq_some_iff.mp hlookup
      have hmem : (n, v) ∈ s.below base := by simp [hsplit]
      obtain ⟨hget, hlt⟩ := mem_below.mp hmem
      rw [if_pos hlt, hget]
  | none =>
      split
      · -- A value in the store would be among the locals, and would have been found.
        rename_i hlt
        cases hget : s.get? n with
        | none => rfl
        | some v =>
            have hne := List.lookup_eq_none_iff.mp hlookup (n, v) (mem_below.mpr ⟨hget, hlt⟩)
            simp at hne
      · rfl

/-- Looking a local up among those below a number gives what is visible of it. -/
theorem getD_lookup_below (s : Store) (base n : Nat) :
    ((s.below base).lookup n).getD 0 = s.visible base n := by
  rw [lookup_below, visible]
  split <;> rfl

/-- Stores that agree on the locals below `base` look the same. -/
theorem AgreesOn.visible_eq {shared : Nat → Prop} {s t : Store} (h : AgreesOn shared s t)
    {base : Nat} (hbase : ∀ n < base, shared n) (n : Nat) :
    s.visible base n = t.visible base n := by
  rw [visible, visible]
  split
  · exact h.load (hbase n ‹_›)
  · rfl

end Store

namespace Directive

/-- The first pair whose value is not there is the one that is reported. -/
theorem findUnexpected_eq (store : Store) (base : Nat) (pairs : Pairs) :
    findUnexpected store base pairs
      = (pairs.find? fun e => store.visible base e.1 ≠ e.2).map
          fun e => .value e.1 e.2 (store.visible base e.1) := by
  induction pairs with
  | nil => rfl
  | cons e pairs ih =>
      obtain ⟨n, v⟩ := e
      rw [findUnexpected, store.getD_lookup_below, List.find?_cons]
      by_cases heq : store.visible base n = v
      · simp [heq, ih]
      · simp [heq]

/-- Nothing is unexpected if and only if every pair of the list has the value that is visible. -/
theorem findUnexpected_eq_none_iff {store : Store} {base : Nat} {pairs : Pairs} :
    findUnexpected store base pairs = none ↔
      ∀ n v, (n, v) ∈ pairs → v = store.visible base n := by
  rw [findUnexpected_eq, Option.map_eq_none_iff, List.find?_eq_none]
  simp only [ne_eq, decide_not, Bool.not_eq_true', decide_eq_false_iff_not, not_not, Prod.forall]
  exact ⟨fun h n v hmem => (h n v hmem).symm, fun h n v hmem => (h n v hmem).symm⟩

/-- What is unexpected is a pair of the list, and it is reported with the value that it has and the
one that is visible. -/
theorem exists_of_findUnexpected {store : Store} {base : Nat} {pairs : Pairs} {m : Mismatch}
    (h : findUnexpected store base pairs = some m) :
    ∃ n v, (n, v) ∈ pairs ∧ m = .value n v (store.visible base n) ∧
      store.visible base n ≠ v := by
  rw [findUnexpected_eq, Option.map_eq_some_iff] at h
  obtain ⟨⟨n, v⟩, hfind, rfl⟩ := h
  exact ⟨n, v, List.mem_of_find?_eq_some hfind, rfl, by simpa using List.find?_some hfind⟩

/-! ### Checks of lowered blocks -/

/-- Where an evaluation and a run agree on the program's locals and end alike, comparing them
shows what comparing the evaluation with the expected values does. -/
theorem compare_of_agrees (d : Directive) {c : Comparison} {base : Nat} {shared : Nat → Prop}
    (hagrees : c.machine.store.AgreesOn shared c.evaluation.store) (hbase : ∀ n < base, shared n)
    (hending : (∃ results, c.evaluation.outcome = .ok results ∧ c.fault? = none) ∨
      ∃ pc f, c.evaluation.outcome = .error f ∧ c.fault? = some (.eval pc f)) :
    d.compare c base = if c.evaluation.outcome.isOk then
      d.expected.bind (findUnexpected c.evaluation.store base) else none := by
  rcases hending with ⟨results, hok, hnone⟩ | ⟨pc, f, herror, hfault⟩
  · have hlog : c.sameLog = true := by
      rw [Comparison.sameLog, hagrees.log]
      exact beq_self_eq_true _
    have hbelow : c.sameBelow base = true := by
      rw [Comparison.sameBelow, hagrees.below hbase]
      exact beq_self_eq_true _
    have heval : c.evaluation.fault? = none := by rw [Evaluation.fault?, hok]
    -- The run shows the same values, so the same pair is the first that is not there.
    have hvalues : findUnexpected c.machine.store base
        = findUnexpected c.evaluation.store base := by
      funext pairs
      simp only [findUnexpected_eq, hagrees.visible_eq hbase]
    simp only [compare, heval, hnone, compareStores, hlog, hbelow, hvalues, hok]
    cases d.expected <;> rfl
  · have heval : c.evaluation.fault? = some f := by rw [Evaluation.fault?, herror]
    simp only [compare, heval, hfault, herror]
    rfl

/-- The outcome of checking a block that names its locals, said of the evaluation. -/
theorem check_eq {b : Block} {l : Lowering} (hlower : b.lower (.forBlock b) = .ok l)
    (hnames : b.NamesLocals) (d : Directive) :
    d.check b = if (b.evaluate (.ofList d.locals)).outcome.isOk then
      d.expected.bind (findUnexpected (b.evaluate (.ofList d.locals)).store
        (Options.forBlock b).base.toNat) else none := by
  have hfits : b.Fits (.forBlock b) := ⟨hnames, Nat.le_refl _⟩
  -- Both sides start from one store.
  have hstart : ({ store := .ofList d.locals } : Machine).store.AgreesOn
      (Options.forBlock b).Shared (.ofList d.locals) := ⟨fun _ _ => rfl, rfl⟩
  obtain ⟨hagrees, hending⟩ := Block.lower_sequel hlower hfits hstart
  rw [check, hlower]
  exact d.compare_of_agrees hagrees (fun n hn => Or.inl hn) hending

end Directive

/-- A checked block is lowered if there are slots enough. -/
theorem Block.exists_lower_of_room {b : Block} {uses : UseTable} {opts : Options}
    (h : UseTable.ofBlock b = .ok uses) (hroom : b.lower opts ≠ .error .slotOverflow) :
    ∃ l, b.lower opts = .ok l := by
  obtain ⟨f, hf⟩ := exists_forest_of_checked h
  have hemit : b.emit uses opts ≠ .error .slotOverflow :=
    fun hfull => hroom ((lower_overflow_iff h hf).mpr hfull)
  obtain ⟨c, hc⟩ := (emit_alike hemit).1.mpr ⟨f, hf⟩
  rw [lower_eq_emit h hf, hc]
  exact ⟨_, rfl⟩

/-- A check fails on a wrong expectation only. Take a block that passes its own check, names its
locals by constants and has slots enough beyond them, and any directive. The directive's check
passes exactly if the evaluation of the block from the directive's locals fails, or there is no
expectation, or every expected value is the right one: that of the local after the evaluation if
the local is below the base of the slots, and zero if it is not. Where the check does not pass,
what is reported is an expected value and the right one, which differ. -/
theorem Directive.check_expectation {b : Block} {uses : UseTable}
    (hchecked : UseTable.ofBlock b = .ok uses) (hnames : b.NamesLocals)
    (hroom : b.lower (.forBlock b) ≠ .error .slotOverflow) (d : Directive) :
    let base := (Options.forBlock b).base.toNat
    let final := b.evaluate (.ofList d.locals)
    (d.check b = none ↔ (∃ f, final.outcome = .error f) ∨ d.expected = none ∨
      ∃ pairs, d.expected = some pairs ∧ ∀ n v, (n, v) ∈ pairs →
        (n < base → v = final.store.load n) ∧ (base ≤ n → v = 0)) ∧
    ∀ m, d.check b = some m → ∃ pairs n v actual, d.expected = some pairs ∧ (n, v) ∈ pairs ∧
      m = .value n v actual ∧ actual ≠ v ∧
      (n < base → actual = final.store.load n) ∧ (base ≤ n → actual = 0) := by
  intro base final
  obtain ⟨l, hl⟩ := Block.exists_lower_of_room hchecked hroom
  have hcheck : d.check b = if final.outcome.isOk then
      d.expected.bind (findUnexpected final.store base) else none := check_eq hl hnames d
  cases houtcome : final.outcome with
  | error f =>
      rw [houtcome] at hcheck
      have hpass : d.check b = none := hcheck
      rw [hpass]
      exact ⟨⟨fun _ => Or.inl ⟨f, rfl⟩, fun _ => rfl⟩, fun m hm => by cases hm⟩
  | ok results =>
      rw [houtcome] at hcheck
      have hexpected : d.check b = d.expected.bind (findUnexpected final.store base) := hcheck
      rw [hexpected]
      cases d.expected with
      | none => exact ⟨⟨fun _ => Or.inr (Or.inl rfl), fun _ => rfl⟩, fun m hm => by cases hm⟩
      | some pairs =>
          show (findUnexpected final.store base pairs = none ↔ _) ∧
            ∀ m, findUnexpected final.store base pairs = some m → _
          constructor
          · simp only [findUnexpected_eq_none_iff, Store.eq_visible_iff]
            constructor
            · exact fun hall => Or.inr (Or.inr ⟨pairs, rfl, hall⟩)
            · rintro (⟨f, hf⟩ | hnone | ⟨pairs', hpairs, hall⟩)
              · cases hf
              · cases hnone
              · cases hpairs
                exact hall
          · intro m hm
            obtain ⟨n, v, hmem, rfl, hne⟩ := exists_of_findUnexpected hm
            exact ⟨pairs, n, v, _, rfl, hmem, rfl, hne, Store.eq_visible_iff.mp rfl⟩

/-- A block that divides twelve by local 1 and stores the quotient to two locals. The quotient is
kept in a slot, which is local 2. -/
def Block.quotientTwice : Block :=
  ⟨[⟨.loadLocal, [.imm 1]⟩, ⟨.sdiv, [.imm 12, .ref 0]⟩, ⟨.storeLocal, [.imm 0, .ref 1]⟩,
    ⟨.storeLocal, [.imm 1, .ref 1]⟩]⟩

/-- The theorem at that block. The right values pass, and local 2 counts as zero although its slot
was written. Expecting the value of the slot is reported. If the division fails, any expectation
passes. -/
theorem Directive.check_expectation_quotientTwice :
    let check locals expected := (⟨"", locals, expected⟩ : Directive).check .quotientTwice
    check [(1, 4)] (some [(0, 3), (1, 3), (2, 0)]) = none ∧
    check [(1, 4)] (some [(0, 3), (2, 3)]) = some (.value 2 3 0) ∧
    check [] (some [(0, 5)]) = none := by
  intro check
  obtain ⟨uses, huses⟩ : ∃ uses, UseTable.ofBlock .quotientTwice = .ok uses := ⟨_, rfl⟩
  have hnames : Block.quotientTwice.NamesLocals := by
    simp [Block.NamesLocals, Block.quotientTwice]
  have hroom : Block.quotientTwice.lower (.forBlock .quotientTwice) ≠ .error .slotOverflow := by
    intro h
    cases h
  have hstated := Directive.check_expectation huses hnames hroom
  have hbase : (Options.forBlock .quotientTwice).base.toNat = 2 := rfl
  have hquotient : ∀ n < 2, (Block.quotientTwice.evaluate (.ofList [(1, 4)])).store.load n = 3 := by
    decide +kernel
  refine ⟨?_, ?_, ?_⟩
  · refine (hstated ⟨"", [(1, 4)], some [(0, 3), (1, 3), (2, 0)]⟩).1.mpr (Or.inr (Or.inr ?_))
    refine ⟨_, rfl, fun n v hmem => ?_⟩
    rw [hbase]
    simp only [List.mem_cons, Prod.mk.injEq, List.not_mem_nil, or_false] at hmem
    rcases hmem with ⟨rfl, rfl⟩ | ⟨rfl, rfl⟩ | ⟨rfl, rfl⟩
    · exact ⟨fun hlt => (hquotient 0 hlt).symm, fun hle => absurd hle (by decide)⟩
    · exact ⟨fun hlt => (hquotient 1 hlt).symm, fun hle => absurd hle (by decide)⟩
    · exact ⟨fun hlt => absurd hlt (by decide), fun _ => rfl⟩
  · obtain ⟨hpass, hreport⟩ := hstated ⟨"", [(1, 4)], some [(0, 3), (2, 3)]⟩
    rw [hbase] at hpass hreport
    cases hcheck : check [(1, 4)] (some [(0, 3), (2, 3)]) with
    | none =>
        -- The value of the slot would have to be zero.
        rcases hpass.mp hcheck with ⟨f, hf⟩ | hnone | ⟨pairs, hpairs, hall⟩
        · cases hf
        · cases hnone
        · cases hpairs
          exact absurd ((hall 2 3 (by decide)).2 (Nat.le_refl 2)) (by decide)
    | some m =>
        obtain ⟨pairs, n, v, actual, hpairs, hmem, rfl, hne, hbelow, hbeyond⟩ := hreport m hcheck
        cases hpairs
        simp only [List.mem_cons, Prod.mk.injEq, List.not_mem_nil, or_false] at hmem
        rcases hmem with ⟨rfl, rfl⟩ | ⟨rfl, rfl⟩
        · exact absurd ((hbelow (by decide)).trans (hquotient 0 (by decide))) hne
        · rw [hbeyond (Nat.le_refl 2)]
  · exact (hstated ⟨"", [], some [(0, 5)]⟩).1.mpr (Or.inl ⟨.divisionByZero, rfl⟩)

end StackForm

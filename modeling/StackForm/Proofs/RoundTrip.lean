import Mathlib.Data.List.Nodup
import StackForm.Proofs.Printed
import StackForm.Proofs.WellFormed
import StackForm.Text.Parse

/-!
# `StackForm.Proofs.RoundTrip`: printing a block and reading it back

Any block can be printed, and what is printed always has the shape of a text. It is the second
half of reading that may refuse it, and it does so for the same blocks as the check in front of
lowering. `Text.parse_text` says this, and that a block which is not refused comes back as it
was, without comments and with the names `vk` for its values.

The second half takes statements one by one. `Resolution.UpTo` says what it has found when the
first `k` are taken: the names in use are those of the earlier results, there is a diagnostic
exactly if one of the instructions so far is not admitted by the block, and without any the
instructions read are the instructions printed.
-/

set_option autoImplicit false

namespace StackForm

/-! ### Printed numbers -/

/-- Digits are read as the library reads them. -/
theorem Text.natOfDigits_eq (cs : List Char) : natOfDigits cs = Nat.ofDigitChars 10 cs 0 :=
  Nat.ofDigitChars_eq_foldl.symm

/-- The digits of a number are read as the number. -/
theorem Text.natOfDigits_toDigits (n : Nat) : Text.natOfDigits (Nat.toDigits 10 n) = n := by
  rw [natOfDigits_eq, Nat.ofDigitChars_ten_toDigits]

/-- A printed constant is read as its value, with the sign. -/
theorem Text.intOfDigits_decimal (w : Word) : Text.intOfDigits w.decimal.toList = w.toInt := by
  rw [Word.toList_decimal]
  split
  · obtain ⟨d, ds, hn, hdigits⟩ := exists_toDigits w.toInt.toNat
    have hvalue := natOfDigits_toDigits w.toInt.toNat
    rw [hn] at hvalue ⊢
    unfold intOfDigits
    split
    · next heq => simp_all
    · omega
  · show -(natOfDigits _ : Int) = _
    rw [natOfDigits_toDigits]
    omega

/-- A word is read from its own number, and from no other. -/
theorem Word.ofInt?_eq_some_iff {n : Int} {v : Word} : Word.ofInt? n = some v ↔ v.toInt = n := by
  have hlow := v.le_toInt
  have hhigh := v.toInt_lt
  unfold Word.ofInt?
  constructor
  · intro h
    split at h
    · next hn =>
      rw [← Option.some.inj h]
      exact Int64.toInt_ofInt_of_le (by omega) (by omega)
    · simp at h
  · rintro rfl
    rw [if_pos (by omega), Int64.ofInt_toInt]

/-- Every word can be read from its decimal text, the least and the greatest included. -/
theorem Word.ofInt?_decimal (w : Word) :
    Word.ofInt? (Text.intOfDigits w.decimal.toList) = some w :=
  Word.ofInt?_eq_some_iff.2 (Text.intOfDigits_decimal w).symm

namespace Text

/-! ### Names -/

/-- The names defined before `pos` are those of the values that can be referred to there. -/
def NamesUpTo (b : Block) (pos : Nat) (names : Names) : Prop :=
  ∀ name target, names[name]? = some target ↔ name = valueName target ∧ b.DefinedBefore pos target

section Statements

variable {b : Block} {names : Names} {pos : Nat}

/-- A value that can be referred to is found under its printed name. -/
theorem NamesUpTo.lookup (h : NamesUpTo b pos names) {target : Nat}
    (ht : b.DefinedBefore pos target) : names[valueName target]? = some target :=
  (h _ _).2 ⟨rfl, ht⟩

/-- A value that cannot be referred to is not found under its printed name, nor is any other,
because no two values have the same name. -/
theorem NamesUpTo.lookup_none (h : NamesUpTo b pos names) {target : Nat}
    (ht : ¬ b.DefinedBefore pos target) : names[valueName target]? = none := by
  cases hfound : names[valueName target]? with
  | none => rfl
  | some found =>
    obtain ⟨hname, hdef⟩ := (h _ _).1 hfound
    exact absurd (valueName_injective hname ▸ hdef) ht

/-- The name of the next value is free. -/
theorem NamesUpTo.fresh (h : NamesUpTo b pos names) : names[valueName pos]? = none :=
  h.lookup_none fun hdef => Nat.lt_irrefl pos hdef.1

/-! ### Operands -/

/-- An operand is read back if what it refers to is defined. -/
theorem OperandText.Writes.read {x : OperandText} {o : Operand} (hx : x.Writes o)
    (hn : NamesUpTo b pos names) (ho : ∀ target, o = .ref target → b.DefinedBefore pos target) :
    x.read names = .ok o := by
  cases x <;> cases o
  · next l target =>
    have hl : l.text = valueName target := hx
    simp only [OperandText.read, hl, hn.lookup (ho target rfl)]
    rfl
  · exact hx.elim
  · exact hx.elim
  · next l v =>
    have hl : l.text = v.decimal := hx
    simp only [OperandText.read, hl, Word.ofInt?_decimal]
    rfl

/-- There is nothing wrong with a printed operand if and only if it is a constant, or refers to a
value that it can refer to. A constant always fits, since it came from a word. -/
theorem OperandText.Writes.diagnostic? {x : OperandText} {o : Operand} (hx : x.Writes o)
    (hn : NamesUpTo b pos names) :
    x.diagnostic? names = none ↔ ∀ target, o = .ref target → b.DefinedBefore pos target := by
  unfold OperandText.diagnostic?
  by_cases ho : ∀ target, o = .ref target → b.DefinedBefore pos target
  · rw [hx.read hn ho]
    exact iff_of_true rfl ho
  · refine iff_of_false ?_ ho
    push Not at ho
    obtain ⟨target, rfl, ht⟩ := ho
    cases x with
    | name l =>
      have hl : l.text = valueName target := hx
      simp only [OperandText.read, hl, hn.lookup_none ht]
      exact Option.some_ne_none _
    | integer l => exact hx.elim

/-- There is nothing wrong with printed operands if and only if their references are good. -/
theorem diagnostics_operands {xs : List OperandText} {os : List Operand}
    (h : List.Forall₂ OperandText.Writes xs os) (hn : NamesUpTo b pos names) :
    xs.filterMap (·.diagnostic? names) = [] ↔
      ∀ target, .ref target ∈ os → b.DefinedBefore pos target := by
  induction h with
  | nil => simp
  | cons hx _ ih =>
    rw [List.filterMap_eq_nil_iff] at ih ⊢
    rw [List.forall_mem_cons, ih, hx.diagnostic? hn, ← forall_and]
    refine forall_congr' fun target => ?_
    rw [List.mem_cons, or_imp, eq_comm]

/-- Printed operands with good references are read as themselves. -/
theorem read_operands {xs : List OperandText} {os : List Operand}
    (h : List.Forall₂ OperandText.Writes xs os) (hn : NamesUpTo b pos names)
    (ho : ∀ target, .ref target ∈ os → b.DefinedBefore pos target) :
    xs.filterMap (fun x => (x.read names).toOption) = os := by
  induction h with
  | nil => rfl
  | cons hx _ ih =>
    have hread := hx.read hn fun target ht => ho target (by simp [ht])
    have hrest := ih fun target ht => ho target (by simp [ht])
    rw [List.filterMap_cons_some (by rw [hread]; rfl), hrest]

/-! ### Statements -/

section

variable {s : Statement} {i : Instr} (hs : s.Writes (i, pos)) (hn : NamesUpTo b pos names)

include hs

/-- A printed opcode is known. -/
theorem Statement.Writes.opcode? : s.opcode? = some i.opcode := by
  unfold Statement.opcode?
  rw [hs.opcode]
  exact Opcode.ofName?_name i.opcode

/-- A statement is labelled exactly if its instruction has a result. -/
theorem Statement.Writes.label_cases :
    (i.opcode.hasResult = true ∧ ∃ l, s.label = some l ∧ l.text = valueName pos) ∨
      (i.opcode.hasResult = false ∧ s.label = none) := by
  have hlabel := hs.label
  cases hres : i.opcode.hasResult <;> simp_all

include hn

/-- Only the number of operands and what they refer to can be wrong. A printed label is always
new, since the names before it belong to earlier positions. -/
theorem Statement.Writes.diagnostics : s.diagnostics names = [] ↔ b.Admits pos i := by
  have hlength := hs.operands.length_eq
  have hlabel : (s.label.map (labelDiagnostics names i.opcode)).getD [] = [] := by
    obtain ⟨hres, l, hl, htext⟩ | ⟨-, hl⟩ := hs.label_cases
    · simp [hl, labelDiagnostics, hres, htext, Std.ExtTreeMap.contains_eq_isSome_getElem?, hn.fresh]
    · simp [hl]
  unfold Statement.diagnostics Block.Admits
  rw [hs.opcode?]
  simp only [hlabel, List.append_nil, List.append_eq_nil_iff, diagnostics_operands hs.operands hn,
    hlength]
  rw [and_comm]
  by_cases harity : i.operands.length = i.opcode.arity <;> simp [harity]

/-- A printed instruction that is admitted where it stands is read as itself. -/
theorem Statement.Writes.instr? (hi : b.Admits pos i) : s.instr? names = some i := by
  unfold Statement.instr?
  rw [hs.opcode?, read_operands hs.operands hn hi.2]

/-- Taking a printed instruction adds its name, if it has a result. -/
theorem Statement.Writes.define (hi : b.instrs[pos]? = some i) :
    NamesUpTo b (pos + 1) (s.define names pos) := by
  intro name target
  rw [Block.definedBefore_succ hi]
  unfold Statement.define
  rw [hs.opcode?]
  obtain ⟨hres, l, hl, htext⟩ | ⟨hres, hl⟩ := hs.label_cases
  · have hmem : valueName pos ∉ names := by
      rw [← Std.ExtTreeMap.isSome_getElem?_iff_mem, hn.fresh]
      simp
    rw [hl]
    show (names.insertIfNew l.text pos)[name]? = some target ↔ _
    rw [htext, Std.ExtTreeMap.getElem?_insertIfNew]
    by_cases hname : name = valueName pos
    · subst hname
      rw [if_pos ⟨by simp, hmem⟩, Option.some.injEq]
      constructor
      · rintro rfl
        exact ⟨rfl, .inr ⟨rfl, hres⟩⟩
      · rintro ⟨hvalue, -⟩
        exact valueName_injective hvalue
    · rw [if_neg (by simp [Ne.symm hname]), hn name target]
      refine and_congr_right fun hvalue => ?_
      have ht : target ≠ pos := fun h => hname (h ▸ hvalue)
      simp [ht]
  · rw [hl]
    show names[name]? = some target ↔ _
    rw [hn name target]
    simp [hres]

end

end Statements

/-! ### Resolution -/

/-- What is known when the statements before `pos` are taken. -/
structure Resolution.UpTo (b : Block) (pos : Nat) (r : Resolution) : Prop where
  names : NamesUpTo b pos r.names
  diagnostics : r.diagnostics = #[] ↔
    ∀ (k : Nat) (i : Instr), k < pos → b.instrs[k]? = some i → b.Admits k i
  instrs : r.diagnostics = #[] → r.instrs.toList = b.instrs.take pos

namespace Resolution.UpTo

variable {b : Block} {pos : Nat} {r : Resolution}

/-- Before the first statement no name is in use, and nothing is wrong. -/
theorem start (b : Block) : UpTo b 0 {} where
  names := by
    intro name target
    rw [Std.ExtTreeMap.getElem?_empty]
    simp [Block.DefinedBefore]
  diagnostics := by simp
  instrs := by simp

/-- One statement more. The names are kept up also when something was wrong before. -/
theorem take (h : UpTo b pos r) {s : Statement} {i : Instr} (hs : s.Writes (i, pos))
    (hi : b.instrs[pos]? = some i) : UpTo b (pos + 1) (r.take pos s) := by
  have hempty : (r.take pos s).diagnostics = #[] ↔ r.diagnostics = #[] ∧ b.Admits pos i := by
    rw [← hs.diagnostics h.names]
    simp [Resolution.take]
  refine ⟨hs.define h.names hi, ?_, ?_⟩
  · rw [hempty, h.diagnostics]
    constructor
    · rintro ⟨hbefore, hadmits⟩ k j hk hj
      by_cases hkpos : k = pos
      · subst hkpos
        rw [hi, Option.some.injEq] at hj
        exact hj ▸ hadmits
      · exact hbefore k j (by omega) hj
    · intro hall
      exact ⟨fun k j hk hj => hall k j (by omega) hj, hall pos i (by omega) hi⟩
  · intro hnone
    obtain ⟨hbefore, hadmits⟩ := hempty.1 hnone
    simp [Resolution.take, hs.instr? h.names hadmits, h.instrs hbefore, List.take_add_one, hi]

/-- All statements from `pos` on. -/
theorem takeAll {ss : List Statement} {is : List Instr}
    (hs : List.Forall₂ Statement.Writes ss (is.zipIdx pos)) (h : UpTo b pos r)
    (his : b.instrs.drop pos = is) : UpTo b (pos + is.length) (r.takeAll pos ss) := by
  induction is generalizing pos r ss with
  | nil =>
    cases hs
    exact h
  | cons i is ih =>
    rw [List.zipIdx_cons] at hs
    cases hs with
    | cons hfirst hrest =>
      have hi : b.instrs[pos]? = some i := by
        rw [← List.head?_drop, his]
        rfl
      have hnext : b.instrs.drop (pos + 1) = is := by
        rw [← List.tail_drop, his]
        rfl
      have hall := ih hrest (h.take hfirst hi) hnext
      rw [List.length_cons, Nat.add_comm is.length 1, ← Nat.add_assoc]
      exact hall

end Resolution.UpTo

/-! ### Value names -/

/-- The names under which the results of a block are printed, by increasing position. -/
def printedNames (b : Block) : List (Nat × String) :=
  (b.instrs.zipIdx.filter fun x => x.1.opcode.hasResult).map fun x => (x.2, valueName x.2)

/-- Positions increase along a list. -/
theorem zipIdx_increase {α : Type} (xs : List α) : xs.zipIdx.Pairwise fun x y => x.2 < y.2 := by
  rw [← List.pairwise_map (f := Prod.snd) (R := (· < ·)), List.zipIdx_map_snd]
  exact List.pairwise_lt_range'

/-- Names are listed by increasing position. -/
theorem printedNames_increase (b : Block) :
    (printedNames b).Pairwise fun x y => x.1 < y.1 :=
  List.pairwise_map.2 ((zipIdx_increase b.instrs).filter _)

/-- The names that are listed are the printed names of the results of the block. -/
theorem mem_printedNames {b : Block} {x : Nat × String} :
    x ∈ printedNames b ↔ x.2 = valueName x.1 ∧ b.DefinedBefore b.length x.1 := by
  unfold printedNames
  rw [List.mem_map]
  constructor
  · rintro ⟨⟨i, pos⟩, hmem, rfl⟩
    obtain ⟨hzip, hres⟩ := List.mem_filter.1 hmem
    have hi : b.instrs[pos]? = some i := List.mem_zipIdx_iff_getElem?.1 hzip
    exact ⟨rfl, (List.getElem?_eq_some_iff.1 hi).1, i, hi, hres⟩
  · rintro ⟨hname, -, i, hi, hres⟩
    have hzip : (i, x.1) ∈ b.instrs.zipIdx := List.mem_zipIdx_iff_getElem?.2 hi
    exact ⟨(i, x.1), List.mem_filter.2 ⟨hzip, hres⟩, Prod.ext rfl hname.symm⟩

/-- Names that were read are found in the order of their positions. -/
theorem Parsed.valueNames_eq {p : Parsed} {entries : List (Nat × String)}
    (hincrease : entries.Pairwise fun x y => x.1 < y.1)
    (hentries : ∀ name pos, p.names[name]? = some pos ↔ (pos, name) ∈ entries) :
    p.valueNames = entries := by
  have hmem : ∀ x, x ∈ p.valueNames ↔ x ∈ entries := by
    rintro ⟨pos, name⟩
    rw [← hentries]
    simp [Parsed.valueNames]
  have hsorted : p.valueNames.Pairwise fun x y => x.1 ≤ y.1 := by
    have hsort : p.valueNames.Pairwise fun x y => decide (x.1 ≤ y.1) = true :=
      List.pairwise_mergeSort (by simp; omega) (by simp; omega) _
    simpa using hsort
  have hnodup : p.valueNames.Nodup := by
    unfold Parsed.valueNames
    rw [(List.mergeSort_perm _ _).nodup_iff]
    refine List.pairwise_map.2 (Std.ExtTreeMap.distinct_keys_toList.imp ?_)
    intro x y hne heq
    rw [(Prod.mk.inj heq).2] at hne
    exact hne Std.ReflCmp.compare_self
  have hperm : p.valueNames.Perm entries :=
    (List.perm_ext_iff_of_nodup hnodup (hincrease.imp fun hlt heq => by simp [heq] at hlt)).2 hmem
  refine List.Perm.eq_of_pairwise ?_ hsorted (hincrease.imp Nat.le_of_lt) hperm
  -- There is one entry for a position at most, so that the order of positions is enough.
  have hpositions : (entries.map Prod.fst).Nodup :=
    List.pairwise_map.2 (hincrease.imp Nat.ne_of_lt)
  intro x y hx hy hxy hyx
  exact List.inj_on_of_nodup_map hpositions ((hmem x).1 hx) hy (Nat.le_antisymm hxy hyx)

/-- The names that are in use in the end, listed by position, are the printed names. Both lists
increase and have the same elements, so they are the same. -/
theorem NamesUpTo.valueNames {b : Block} {p : Parsed} (h : NamesUpTo b b.length p.names) :
    p.valueNames = printedNames b := by
  refine Parsed.valueNames_eq (printedNames_increase b) fun name pos => ?_
  rw [mem_printedNames, ← h]

/-! ### The round trip -/

/-- Reading a printed block gives the block, with the names of its values, if it gives
anything. -/
theorem exists_parse_text (b : Block) :
    ∃ names, NamesUpTo b b.length names ∧
      ∀ p, parse b.text = .ok p ↔ b.WellFormed ∧ p = ⟨b, [], names⟩ := by
  obtain ⟨statements, hlisting, hwrites⟩ := Listing.ofText_text b
  have hall := Resolution.UpTo.takeAll hwrites (.start b) rfl
  rw [Nat.zero_add] at hall
  refine ⟨_, hall.names, fun p => ?_⟩
  have hempty : (({} : Resolution).takeAll 0 statements).diagnostics = #[] ↔ b.WellFormed := by
    rw [hall.diagnostics, Block.wellFormed_iff_admits]
    exact ⟨fun h pos i hi => h pos i (List.getElem?_eq_some_iff.1 hi).1 hi,
      fun h pos i _ hi => h pos i hi⟩
  unfold parse
  rw [hlisting]
  show Listing.resolve ⟨statements, []⟩ = .ok p ↔ _
  unfold Listing.resolve
  by_cases hb : b.WellFormed
  · have hnone := hempty.2 hb
    have hinstrs := hall.instrs hnone
    rw [List.take_length] at hinstrs
    simp [hb, hnone, hinstrs, pure, Except.pure, eq_comm]
  · have hsome := mt hempty.1 hb
    simp [hb, hsome]

/-- What is printed for a block can be read back exactly if the block passes the check in front
of lowering. What is read is then the block itself, without any comment, and the names that the
text defines are `vk` for each position `k` with a result. -/
theorem parse_text (b : Block) :
    ((∃ p, parse b.text = .ok p) ↔ ∃ uses, UseTable.ofBlock b = .ok uses) ∧
      ∀ p, parse b.text = .ok p →
        p.block = b ∧ p.comments = [] ∧ p.valueNames = printedNames b := by
  obtain ⟨names, hnames, hparse⟩ := exists_parse_text b
  constructor
  · rw [Block.exists_ofBlock_iff]
    simp [hparse]
  · intro p hp
    obtain ⟨-, rfl⟩ := (hparse p).1 hp
    exact ⟨rfl, rfl, hnames.valueNames⟩

/-- The least and the greatest word, a store that defines no name, and a name after it. -/
def extremes : Block :=
  ⟨[⟨.add, [.imm (-9223372036854775808), .imm 9223372036854775807]⟩,
    ⟨.storeLocal, [.imm 0, .ref 0]⟩, ⟨.neg, [.ref 0]⟩]⟩

/-- The value at position 2 keeps its number in its name, since the store before it counts. -/
theorem parse_text_extremes :
    ∃ p, parse extremes.text = .ok p ∧ p.block = extremes ∧ p.comments = [] ∧
      p.valueNames = [(0, "v0"), (2, "v2")] := by
  obtain ⟨p, hp⟩ := (parse_text extremes).1.2 ⟨_, rfl⟩
  obtain ⟨hblock, hcomments, hnames⟩ := (parse_text extremes).2 p hp
  exact ⟨p, hp, hblock, hcomments, hnames.trans (by decide)⟩

end Text

end StackForm

import Mathlib.Logic.Equiv.Basic
import StackForm.Proofs.Resolution

/-!
# `StackForm.Proofs.Accepted`: what an accepted text says

A text that is accepted gives a block that passes the check in front of lowering, with one
instruction for each statement. `Text.parse_accepted` says what the parts of the instructions are
in terms of the words of the text: a name in an operand is the position of the only statement
that is labelled with it, which comes before. The names themselves do not matter. Another text
with the same statements, up to a renaming that keeps different names different, gives the same
block.

All of this follows from `Resolves`. The labels of statements that stand for instructions are all
different (`Resolves.label_unique`), since each of them is new where it stands.
-/

set_option autoImplicit false

namespace StackForm.Text

/-! ### Statements by position -/

section Positions

variable {ws : List StatementWords} {is : List Instr} {k pos : Nat} {name : String}

/-- The labels among the first statements are those at the first positions. -/
theorem labelAt_take :
    labelAt (ws.take k) pos = some name ↔ pos < k ∧ labelAt ws pos = some name := by
  unfold labelAt
  rw [List.getElem?_take]
  by_cases hpos : pos < k <;> simp [hpos]

/-- What an operand refers to is labelled. -/
theorem exists_label_of_ref {os : List OperandWord} {xs : List Operand} {target : Nat}
    (h : List.Forall₂ (OperandWord.Means ws) os xs) (htarget : .ref target ∈ xs) :
    ∃ name, labelAt ws target = some name := by
  induction h with
  | nil => simp at htarget
  | @cons o x os xs ho _ ih =>
      rcases List.mem_cons.1 htarget with rfl | hmem
      · cases o with
        | name text => exact ⟨text, ho⟩
        | integer text => exact ho.elim
      · exact ih hmem

namespace Resolves

/-- There are as many instructions as statements. -/
theorem length_eq (h : Resolves ws is) : is.length = ws.length := by
  induction h with
  | nil => rfl
  | snoc _ _ ih => simp [ih]

/-- Every statement stands for the instruction at its position. -/
theorem means_at (h : Resolves ws is) {w : StatementWords} (hw : ws[k]? = some w) :
    ∃ i, is[k]? = some i ∧ w.Means (ws.take k) i := by
  induction h with
  | nil => simp at hw
  | @snoc ws v is i hws hv ih =>
      have hlength := hws.length_eq
      by_cases hk : k < ws.length
      · rw [List.getElem?_append_left hk] at hw
        obtain ⟨j, hj, hmeans⟩ := ih hw
        refine ⟨j, ?_, ?_⟩
        · rw [List.getElem?_append_left (by omega)]
          exact hj
        · rwa [List.take_append_of_le_length (by omega)]
      · have hlast : k = ws.length := by
          have hlt := (List.getElem?_eq_some_iff.1 hw).1
          rw [List.length_append, List.length_singleton] at hlt
          omega
        obtain rfl : v = w := by simpa [hlast] using hw
        exact ⟨i, by simp [hlast, hlength], by simpa [hlast] using hv⟩

/-- No two statements have the same label. -/
theorem label_unique (h : Resolves ws is) (hpos : labelAt ws pos = some name)
    (hk : labelAt ws k = some name) : pos = k := by
  -- The later of two would have a label that was not new.
  have hlt : ∀ {j k : Nat}, labelAt ws j = some name → labelAt ws k = some name → ¬ j < k := by
    intro j k hj hk hjk
    obtain ⟨w, hw, hlabel⟩ := Option.bind_eq_some_iff.1 hk
    obtain ⟨i, -, hmeans⟩ := h.means_at hw
    exact (hmeans.label name hlabel).2 j (labelAt_take.2 ⟨hjk, hj⟩)
  have hle := hlt hpos hk
  have hge := hlt hk hpos
  omega

/-- A labelled statement stands for an instruction with a result. -/
theorem hasResult (h : Resolves ws is) (hpos : labelAt ws pos = some name) :
    ∃ j : Instr, is[pos]? = some j ∧ j.opcode.hasResult = true := by
  obtain ⟨w, hw, hlabel⟩ := Option.bind_eq_some_iff.1 hpos
  obtain ⟨j, hj, hmeans⟩ := h.means_at hw
  exact ⟨j, hj, (hmeans.label name hlabel).1⟩

/-- Statements that stand for instructions stand for a well-formed block. A name refers to an
earlier statement with a label, and only instructions with a result have one. -/
theorem wellFormed (h : Resolves ws is) : Block.WellFormed ⟨is⟩ := by
  rw [Block.wellFormed_iff_admits]
  intro pos i hi
  have hpos : pos < ws.length := h.length_eq ▸ (List.getElem?_eq_some_iff.1 hi).1
  obtain ⟨i', hi', hmeans⟩ := h.means_at (List.getElem?_eq_getElem hpos)
  obtain rfl : i = i' := Option.some.inj (hi.symm.trans hi')
  refine ⟨hmeans.operands.length_eq ▸ hmeans.arity, fun target htarget => ?_⟩
  obtain ⟨name, hname⟩ := exists_label_of_ref hmeans.operands htarget
  obtain ⟨hlt, hlabel⟩ := labelAt_take.1 hname
  exact ⟨hlt, h.hasResult hlabel⟩

end Resolves

end Positions

/-! ### Names -/

/-- The labels of statements, with their positions. -/
def labelled (ws : List StatementWords) : List (Nat × String) :=
  ws.zipIdx.filterMap fun x => x.1.label.map fun name => (x.2, name)

/-- The labels that are listed are those of the statements. -/
theorem mem_labelled {ws : List StatementWords} {pos : Nat} {name : String} :
    (pos, name) ∈ labelled ws ↔ labelAt ws pos = some name := by
  unfold labelled labelAt
  rw [List.mem_filterMap, Option.bind_eq_some_iff]
  constructor
  · intro ⟨⟨w, k⟩, hmem, hlabel⟩
    obtain ⟨text, htext, heq⟩ := Option.map_eq_some_iff.1 hlabel
    obtain ⟨rfl, rfl⟩ := Prod.mk.inj heq
    exact ⟨w, List.mem_zipIdx_iff_getElem?.1 hmem, htext⟩
  · intro ⟨w, hw, hlabel⟩
    exact ⟨(w, pos), List.mem_zipIdx_iff_getElem?.2 hw, by simp [hlabel]⟩

/-- Labels are listed by increasing position. -/
theorem labelled_increase (ws : List StatementWords) :
    (labelled ws).Pairwise fun x y => x.1 < y.1 := by
  refine List.pairwise_filterMap.2 ((zipIdx_increase ws).imp fun {x y} hlt a ha b hb => ?_)
  obtain ⟨_, -, rfl⟩ := Option.map_eq_some_iff.1 ha
  obtain ⟨_, -, rfl⟩ := Option.map_eq_some_iff.1 hb
  exact hlt

/-- A name put in the place of every name. -/
def OperandWord.rename (ρ : String → String) : OperandWord → OperandWord
  | .name text => .name (ρ text)
  | .integer text => .integer text

/-- A statement with other names, for its label and for its operands. -/
def StatementWords.rename (ρ : String → String) (w : StatementWords) : StatementWords where
  label := w.label.map ρ
  opcode := w.opcode
  operands := w.operands.map (OperandWord.rename ρ)

/-- Renaming renames the labels, where they are. -/
theorem labelAt_rename (ρ : String → String) (ws : List StatementWords) (pos : Nat) :
    labelAt (ws.map (StatementWords.rename ρ)) pos = (labelAt ws pos).map ρ := by
  unfold labelAt
  rw [List.getElem?_map]
  cases ws[pos]? <;> rfl

/-- An operand with another name stands for the same, if the labels have the other names too. -/
theorem OperandWord.Means.rename {ws : List StatementWords} {o : OperandWord} {x : Operand}
    (h : o.Means ws x) (ρ : String → String) :
    (o.rename ρ).Means (ws.map (StatementWords.rename ρ)) x := by
  cases o <;> cases x
  · next text pos =>
    show labelAt _ pos = some (ρ text)
    rw [labelAt_rename, show labelAt ws pos = some text from h]
    rfl
  · exact h.elim
  · exact h.elim
  · exact h

/-- Renaming keeps the meaning if it keeps different labels different. -/
theorem Resolves.rename {ws : List StatementWords} {is : List Instr} (h : Resolves ws is)
    {ρ : String → String} (hρ : Set.InjOn ρ {name | ∃ pos, labelAt ws pos = some name}) :
    Resolves (ws.map (StatementWords.rename ρ)) is := by
  induction h with
  | nil => exact .nil
  | @snoc ws w is i hws hw ih =>
      have hbefore : ∀ {pos name}, labelAt ws pos = some name →
          labelAt (ws ++ [w]) pos = some name := by
        intro pos name hname
        have htake : labelAt ((ws ++ [w]).take ws.length) pos = some name := by simpa using hname
        exact (labelAt_take.1 htake).2
      have hearlier : Set.InjOn ρ {name | ∃ pos, labelAt ws pos = some name} :=
        hρ.mono fun name hname => hname.imp fun pos hpos => hbefore hpos
      rw [List.map_append, List.map_singleton]
      refine .snoc (ih hearlier)
        ⟨hw.opcode, by simpa [StatementWords.rename] using hw.arity, ?_, ?_⟩
      · exact List.forall₂_map_left_iff.2 (hw.operands.imp fun o x ho => ho.rename ρ)
      · intro name' hname'
        obtain ⟨name, hname, rfl⟩ := Option.map_eq_some_iff.1 hname'
        obtain ⟨hres, hfresh⟩ := hw.label name hname
        refine ⟨hres, fun pos hpos => ?_⟩
        -- A label before that is renamed to the same name is the same label.
        rw [labelAt_rename] at hpos
        obtain ⟨other, hother, hsame⟩ := Option.map_eq_some_iff.1 hpos
        have hlast : labelAt (ws ++ [w]) ws.length = some name := by simp [labelAt_snoc, hname]
        obtain rfl := hρ ⟨pos, hbefore hother⟩ ⟨ws.length, hlast⟩ hsame
        exact hfresh pos hother

/-! ### Shapes -/

/-- An operand in a good line has its shape. -/
theorem OperandWord.IsLongest.isShaped {o : OperandWord} {rest : List Char}
    (h : o.IsLongest rest) : o.IsShaped := by
  cases o with
  | name text => trivial
  | integer text => exact Longest.mem h

/-- The further operands of a good line have their shapes. -/
theorem FurtherOperands.isShaped {os : List OperandWord} {c : Option (List Char)} {l : List Char}
    (h : FurtherOperands os c l) : ∀ o ∈ os, o.IsShaped := by
  induction h with
  | nil => simp
  | cons _ _ ho _ ih => exact List.forall_mem_cons.2 ⟨ho.isShaped, ih⟩

/-- The statement of a good line has the shape that is asked for when its words are looked up. -/
theorem Line.Written.isShaped {line : Line} {l : List Char} (h : line.Written l)
    {w : StatementWords} (hw : line.statement = some w) : w.IsShaped := by
  cases h with
  | blank => simp at hw
  | statement _ _ _ hos =>
      obtain rfl := Option.some.inj hw
      cases hos with
      | nil => exact fun o ho => by simp at ho
      | cons _ ho hos => exact List.forall_mem_cons.2 ⟨ho.isShaped, hos.isShaped⟩

/-- Integers that the grammar found have the shape of integers. -/
theorem Listing.isShaped {text : List Char} {l : Listing} (h : Listing.ofText text = .ok l) :
    ∀ s ∈ l.statements, s.words.IsShaped := by
  intro s hs
  obtain ⟨lines, hlines, hstatements, -⟩ := Listing.ofText_iff.1 ⟨l, h, rfl, rfl⟩
  have hmem : s.words ∈ lines.filterMap Line.statement := by
    rw [hstatements]
    exact List.mem_map_of_mem hs
  obtain ⟨line, hline, hw⟩ := List.mem_filterMap.1 hmem
  obtain ⟨k, hk, rfl⟩ := List.mem_iff_getElem.1 hline
  exact (hlines.get hk (hlines.length_eq ▸ hk)).isShaped hw

/-! ### Accepted texts -/

/-- What an operand of the statement at `k` denotes. A name denotes the position of the one
statement that is labelled with it, which comes before. -/
def OperandWord.Denotes (ws : List StatementWords) (k : Nat) : OperandWord → Operand → Prop
  | .name text, .ref pos => pos < k ∧ ∀ pos', labelAt ws pos' = some text ↔ pos' = pos
  | .integer text, .imm v => Decimal text.toList v.toInt
  | _, _ => False

/-- What an operand stands for is what it denotes. No label comes twice, so the statement that was
found before is the only one with that label. -/
theorem Resolves.denotes {ws : List StatementWords} {is : List Instr} (h : Resolves ws is)
    {k : Nat} {o : OperandWord} {x : Operand} (ho : o.Means (ws.take k) x) : o.Denotes ws k x := by
  cases o <;> cases x
  · next text pos =>
    obtain ⟨hlt, hlabel⟩ := labelAt_take.1 (show labelAt (ws.take k) pos = some text from ho)
    refine ⟨hlt, fun pos' => ⟨fun hpos' => h.label_unique hpos' hlabel, ?_⟩⟩
    rintro rfl
    exact hlabel
  · exact ho.elim
  · exact ho.elim
  · exact ho

/-- A text is accepted if and only if it is read and nothing is wrong with its statements. -/
theorem parse_eq_ok_iff {source : String} {p : Parsed} :
    parse source = .ok p ↔ ∃ l, Listing.ofText source.toList = .ok l ∧ l.resolve = .ok p := by
  unfold parse
  cases Listing.ofText source.toList <;> simp

/-- The block of an accepted text passes the check in front of lowering. It has one instruction
for each statement, with the opcode and the operands that are written there, and the names of
its values are the labels of the statements. Another text with the same statements, up to a
renaming that keeps different names different, gives the same block. -/
theorem parse_accepted {source : String} {p : Parsed} (h : parse source = .ok p) :
    ∃ l ws, Listing.ofText source.toList = .ok l ∧ l.statements.map Statement.words = ws ∧
      (∃ uses, UseTable.ofBlock p.block = .ok uses) ∧
      p.block.length = ws.length ∧
      (∀ (k : Nat) (w : StatementWords), ws[k]? = some w →
        ∃ i, p.block.instrs[k]? = some i ∧ w.opcode = i.opcode.name ∧
          List.Forall₂ (OperandWord.Denotes ws k) w.operands i.operands) ∧
      p.valueNames = labelled ws ∧
      ∀ (source' : String) (l' : Listing) (ρ : String → String),
        Listing.ofText source'.toList = .ok l' →
        l'.statements.map Statement.words = ws.map (StatementWords.rename ρ) →
        Set.InjOn ρ {name | ∃ pos, labelAt ws pos = some name} →
        ∃ p', parse source' = .ok p' ∧ p'.block = p.block := by
  obtain ⟨l, hl, hresolve⟩ := parse_eq_ok_iff.1 h
  obtain ⟨hws, hnames⟩ := Listing.resolves_of_resolve (Listing.isShaped hl) hresolve
  refine ⟨l, _, hl, rfl, (Block.exists_ofBlock_iff _).2 hws.wellFormed, hws.length_eq, ?_, ?_, ?_⟩
  · intro k w hw
    obtain ⟨i, hi, hmeans⟩ := hws.means_at hw
    exact ⟨i, hi, hmeans.opcode, hmeans.operands.imp fun o x ho => hws.denotes ho⟩
  · exact Parsed.valueNames_eq (labelled_increase _) fun name pos => by rw [mem_labelled, hnames]
  · intro source' l' ρ hl' hwords hρ
    have hrenamed := hws.rename hρ
    rw [← hwords] at hrenamed
    obtain ⟨p', hp', hblock⟩ := Listing.resolve_of_resolves (Listing.isShaped hl') hrenamed
    exact ⟨p', parse_eq_ok_iff.2 ⟨l', hl', hp'⟩, hblock⟩

/-- The sum of two integers is stored and squared. -/
def sumNamedSeven : String := "v7 = add 1, -2 # sum\r\nstore_local 0, v7\r\nv3=mul v7 ,v7"

/-- The same with the two names exchanged, and other blanks. -/
def sumNamedThree : String := "\n v3 = add 1,-2\nstore_local 0,v3\n\nv7 = mul v3, v3\n"

/-- The words of the first text. -/
def sumWords : List StatementWords :=
  [⟨some "v7", "add", [.integer "1", .integer "-2"]⟩,
    ⟨none, "store_local", [.integer "0", .name "v7"]⟩,
    ⟨some "v3", "mul", [.name "v7", .name "v7"]⟩]

/-- Exchanging names leaves the block as it was. -/
theorem parse_accepted_exchange :
    ∃ p p', parse sumNamedSeven = .ok p ∧ p.valueNames = [(0, "v7"), (2, "v3")] ∧
      parse sumNamedThree = .ok p' ∧ p'.block = p.block := by
  obtain ⟨p, hp⟩ : ∃ p, parse sumNamedSeven = .ok p := by
    have hread : (parse sumNamedSeven).isOk = true := by decide +kernel
    cases hp : parse sumNamedSeven with
    | error ds => simp [hp, Except.isOk, Except.toBool] at hread
    | ok p => exact ⟨p, rfl⟩
  obtain ⟨l, ws, hl, hws, -, -, -, hnames, hrename⟩ := parse_accepted hp
  obtain rfl : ws = sumWords := by
    have hwords : (Listing.ofText sumNamedSeven.toList).map (·.statements.map Statement.words) =
        .ok sumWords := by decide +kernel
    rw [hl] at hwords
    exact hws.symm.trans (Except.ok.inj hwords)
  have hwords : (Listing.ofText sumNamedThree.toList).map (·.statements.map Statement.words) =
      .ok (sumWords.map (StatementWords.rename (Equiv.swap "v7" "v3"))) := by decide +kernel
  cases hl' : Listing.ofText sumNamedThree.toList with
  | error attempts => simp [hl', Except.map] at hwords
  | ok l' =>
      rw [hl'] at hwords
      obtain ⟨p', hp', hblock⟩ := hrename sumNamedThree l' (Equiv.swap "v7" "v3") hl'
        (Except.ok.inj hwords) (Equiv.swap "v7" "v3").injective.injOn
      exact ⟨p, p', hp, hnames.trans (by decide), hp', hblock⟩

end StackForm.Text

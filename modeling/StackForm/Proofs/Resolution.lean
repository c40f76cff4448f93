import Mathlib.Data.Set.Function
import StackForm.Proofs.LineShape
import StackForm.Proofs.RoundTrip

/-!
# `StackForm.Proofs.Resolution`: the meaning of statements

The second half of reading gives the statements of a text a meaning. `Resolves` says which
instructions the words of statements stand for, statement by statement, without the tables that
are kept on the way: an opcode is known by its name, an integer is the number with these digits,
and a name is the position of the statement before that is labelled with it.

Reading finds this meaning whenever there is one (`Listing.resolve_of_resolves`), and there are
diagnostics otherwise (`Listing.resolves_of_resolve`). So nothing that stands in for a part
without a meaning gets into a block that is accepted.
-/

set_option autoImplicit false

namespace StackForm.Text

/-! ### Numbers -/

/-- The number that is written with digits, and with a minus sign or without. -/
def Decimal (cs : List Char) (n : Int) : Prop :=
  (IsDigits cs ∧ n = Nat.ofDigitChars 10 cs 0) ∨
    ∃ digits, cs = '-' :: digits ∧ IsDigits digits ∧ n = -(Nat.ofDigitChars 10 digits 0 : Int)

/-- Digits without a sign are read as their number. -/
theorem intOfDigits_of_isDigits {cs : List Char} (h : IsDigits cs) :
    intOfDigits cs = Nat.ofDigitChars 10 cs 0 := by
  unfold intOfDigits
  split
  · exact absurd h (not_isDigits_minus _)
  · rw [natOfDigits_eq]

/-- A text in the shape of an integer stands for one integer, the one that it is read as. -/
theorem decimal_iff {cs : List Char} (h : IsInteger cs) {n : Int} :
    Decimal cs n ↔ n = intOfDigits cs := by
  unfold Decimal
  obtain hdigits | ⟨digits, rfl, hdigits⟩ := h
  · have hminus : ∀ ds, cs ≠ '-' :: ds := fun ds hcs => not_isDigits_minus ds (hcs ▸ hdigits)
    simp [hdigits, intOfDigits_of_isDigits hdigits, hminus]
  · simp [not_isDigits_minus, hdigits, intOfDigits, natOfDigits_eq]

/-! ### Meanings -/

/-- The label of the statement at a position. -/
def labelAt (ws : List StatementWords) (pos : Nat) : Option String :=
  ws[pos]?.bind StatementWords.label

/-- What an operand stands for, when the statements `before` come before its own. -/
def OperandWord.Means (before : List StatementWords) : OperandWord → Operand → Prop
  | .name text, .ref pos => labelAt before pos = some text
  | .integer text, .imm v => Decimal text.toList v.toInt
  | _, _ => False

/-- What a statement stands for, when the statements `before` come before it. -/
structure StatementWords.Means (before : List StatementWords) (w : StatementWords) (i : Instr) :
    Prop where
  opcode : w.opcode = i.opcode.name
  arity : w.operands.length = i.opcode.arity
  operands : List.Forall₂ (OperandWord.Means before) w.operands i.operands
  label : ∀ name, w.label = some name →
    i.opcode.hasResult = true ∧ ∀ pos, labelAt before pos ≠ some name

/-- What statements stand for, from the first to the last. -/
inductive Resolves : List StatementWords → List Instr → Prop
  | nil : Resolves [] []
  | snoc {ws : List StatementWords} {w : StatementWords} {is : List Instr} {i : Instr}
      (hws : Resolves ws is) (hw : w.Means ws i) : Resolves (ws ++ [w]) (is ++ [i])

/-- The last of some statements stands for the last instruction, and is looked at with all the
others before it. The relation is opened from its end, as the statements are taken. -/
theorem resolves_snoc_iff {ws : List StatementWords} {w : StatementWords} {is : List Instr} :
    Resolves (ws ++ [w]) is ↔ ∃ is' i, Resolves ws is' ∧ w.Means ws i ∧ is = is' ++ [i] := by
  constructor
  · intro h
    generalize hall : ws ++ [w] = all at h
    cases h with
    | nil => simp at hall
    | snoc hws hw =>
        obtain ⟨rfl, hlast⟩ := List.append_inj' hall rfl
        obtain rfl := (List.cons.inj hlast).1
        exact ⟨_, _, hws, hw, rfl⟩
  · intro ⟨is', i, hws, hw, his⟩
    rw [his]
    exact .snoc hws hw

/-! ### Looking up names -/

/-- The names in use are the labels, with their positions. -/
def NamesOf (ws : List StatementWords) (names : Names) : Prop :=
  ∀ name pos, names[name]? = some pos ↔ labelAt ws pos = some name

/-- An integer operand has the shape of one. -/
def OperandWord.IsShaped : OperandWord → Prop
  | .name _ => True
  | .integer text => IsInteger text.toList

section Statements

variable {ws : List StatementWords} {names : Names}

/-- A name is free if no statement is labelled with it. -/
theorem NamesOf.not_mem_iff (hn : NamesOf ws names) {name : String} :
    name ∉ names ↔ ∀ pos, labelAt ws pos ≠ some name := by
  rw [← Std.ExtTreeMap.isSome_getElem?_iff_mem, Bool.not_eq_true, Option.isSome_eq_false_iff,
    Option.isNone_iff_eq_none, Option.eq_none_iff_forall_ne_some]
  exact forall_congr' fun pos => not_congr (hn name pos)

/-- A further statement adds its own label, and leaves the others as they are. -/
theorem labelAt_snoc (ws : List StatementWords) (w : StatementWords) (pos : Nat) :
    labelAt (ws ++ [w]) pos = if pos = ws.length then w.label else labelAt ws pos := by
  unfold labelAt
  by_cases hpos : pos = ws.length
  · simp [hpos]
  · by_cases hlt : pos < ws.length
    · simp [hpos, List.getElem?_append_left hlt]
    · rw [List.getElem?_eq_none (by simp; omega), List.getElem?_eq_none (by omega)]
      simp [hpos]

/-- A name is read as a reference to the position that it has among the names in use. -/
theorem name_read_iff (l : Lexeme) (x : Operand) :
    (OperandText.name l).read names = .ok x ↔ ∃ pos, names[l.text]? = some pos ∧ x = .ref pos := by
  simp only [OperandText.read]
  split
  · next pos hfound => simp [hfound, pure, Except.pure, eq_comm]
  · next hfound => simp [hfound]

/-- A number is read as a constant if it fits into a word. -/
theorem integer_read_iff (l : Lexeme) (x : Operand) :
    (OperandText.integer l).read names = .ok x ↔
      ∃ v, Word.ofInt? (intOfDigits l.text.toList) = some v ∧ x = .imm v := by
  simp only [OperandText.read]
  split
  · next v hfound => simp [hfound, pure, Except.pure, eq_comm]
  · next hfound => simp [hfound]

/-- An operand is read as what it stands for. -/
theorem OperandText.read_iff (hn : NamesOf ws names) {o : OperandText} (ho : o.word.IsShaped)
    (x : Operand) : o.read names = .ok x ↔ o.word.Means ws x := by
  cases o with
  | name l =>
      rw [name_read_iff]
      cases x with
      | ref pos => simpa [OperandText.word, OperandWord.Means] using hn l.text pos
      | imm v => simp [OperandText.word, OperandWord.Means]
  | integer l =>
      have hl : IsInteger l.text.toList := ho
      rw [integer_read_iff]
      cases x with
      | ref pos => simp [OperandText.word, OperandWord.Means]
      | imm v =>
          simp [OperandText.word, OperandWord.Means, decimal_iff hl, Word.ofInt?_eq_some_iff]

/-- There is nothing wrong with an operand if and only if it stands for something. -/
theorem OperandText.diagnostic?_iff (hn : NamesOf ws names) {o : OperandText}
    (ho : o.word.IsShaped) : o.diagnostic? names = none ↔ ∃ x, o.word.Means ws x := by
  simp only [← OperandText.read_iff hn ho]
  unfold OperandText.diagnostic?
  cases hread : o.read names <;> simp

/-- There is nothing wrong with a list of operands if and only if all of them stand for
something. -/
theorem diagnostics_operands_iff (hn : NamesOf ws names) {os : List OperandText}
    (hos : ∀ o ∈ os, o.word.IsShaped) :
    os.filterMap (·.diagnostic? names) = [] ↔
      ∃ xs, List.Forall₂ (OperandWord.Means ws) (os.map OperandText.word) xs := by
  induction os with
  | nil => simp
  | cons o os ih =>
      rw [List.forall_mem_cons] at hos
      rw [List.filterMap_eq_nil_iff] at ih ⊢
      rw [List.forall_mem_cons, ih hos.2, OperandText.diagnostic?_iff hn hos.1]
      simp only [List.map_cons, List.forall₂_cons_left_iff]
      constructor
      · intro ⟨⟨x, hx⟩, xs, hxs⟩
        exact ⟨x :: xs, x, xs, hx, hxs, rfl⟩
      · intro ⟨_, x, xs, hx, hxs, _⟩
        exact ⟨⟨x, hx⟩, xs, hxs⟩

/-- Operands that stand for something are read as what they stand for. None of them is dropped on
the way. -/
theorem read_operands_of_means (hn : NamesOf ws names) {os : List OperandText} {xs : List Operand}
    (hos : ∀ o ∈ os, o.word.IsShaped)
    (h : List.Forall₂ (OperandWord.Means ws) (os.map OperandText.word) xs) :
    os.filterMap (fun o => (o.read names).toOption) = xs := by
  induction os generalizing xs with
  | nil =>
      obtain rfl := List.forall₂_nil_left_iff.1 h
      rfl
  | cons o os ih =>
      rw [List.forall_mem_cons] at hos
      obtain ⟨x, xs, hx, hxs, rfl⟩ := List.forall₂_cons_left_iff.1 h
      have hread := (OperandText.read_iff hn hos.1 x).2 hx
      rw [List.filterMap_cons_some (by rw [hread]; rfl), ih hos.2 hxs]

/-! ### Statements -/

/-- The integers of a statement have the shape of integers. -/
def StatementWords.IsShaped (w : StatementWords) : Prop := ∀ o ∈ w.operands, o.IsShaped

variable {s : Statement}

/-- The opcode of a statement is known if and only if it is the name of one. -/
theorem Statement.opcode?_iff (op : Opcode) : s.opcode? = some op ↔ s.words.opcode = op.name := by
  constructor
  · exact fun h => (Opcode.name_of_ofName? h).symm
  · intro h
    unfold Statement.opcode?
    rw [show s.opcode.text = op.name from h]
    exact Opcode.ofName?_name op

/-- There is nothing wrong with a label if and only if its instruction has a result and its name is
free. -/
theorem labelDiagnostics_iff (hn : NamesOf ws names) (op : Opcode) :
    (s.label.map (Statement.labelDiagnostics names op)).getD [] = [] ↔
      ∀ name, s.words.label = some name →
        op.hasResult = true ∧ ∀ pos, labelAt ws pos ≠ some name := by
  cases hlabel : s.label with
  | none => simp [Statement.words, hlabel]
  | some l =>
      simp [Statement.words, hlabel, Statement.labelDiagnostics, ← hn.not_mem_iff]

/-- A statement has nothing wrong with it exactly if it stands for an instruction. -/
theorem Statement.diagnostics_iff (hn : NamesOf ws names) (hs : s.words.IsShaped) :
    s.diagnostics names = [] ↔ ∃ i, s.words.Means ws i := by
  have hos : ∀ o ∈ s.operands, o.word.IsShaped := fun o ho => hs o.word (List.mem_map_of_mem ho)
  have hoperands := diagnostics_operands_iff hn hos
  have hlength : s.words.operands.length = s.operands.length := List.length_map _
  unfold Statement.diagnostics
  cases hop : s.opcode? with
  | none =>
      -- Where the opcode is unknown the rest of the statement is not looked at.
      refine iff_of_false (by simp) fun ⟨i, hi⟩ => ?_
      rw [(Statement.opcode?_iff i.opcode).2 hi.opcode] at hop
      simp at hop
  | some op =>
      simp only [List.append_eq_nil_iff, hoperands, labelDiagnostics_iff hn op]
      constructor
      · intro ⟨⟨⟨xs, hxs⟩, harity⟩, hlabel⟩
        refine ⟨⟨op, xs⟩, (Statement.opcode?_iff op).1 hop, ?_, hxs, hlabel⟩
        rw [hlength]
        by_contra hne
        simp [hne] at harity
      · intro ⟨i, hi⟩
        obtain rfl : i.opcode = op := by
          rw [(Statement.opcode?_iff i.opcode).2 hi.opcode] at hop
          exact Option.some.inj hop
        refine ⟨⟨⟨i.operands, hi.operands⟩, ?_⟩, hi.label⟩
        rw [if_pos (hlength ▸ hi.arity)]

/-- A statement that stands for an instruction is read as that instruction. -/
theorem Statement.instr?_of_means (hn : NamesOf ws names) (hs : s.words.IsShaped) {i : Instr}
    (h : s.words.Means ws i) : s.instr? names = some i := by
  have hos : ∀ o ∈ s.operands, o.word.IsShaped := fun o ho => hs o.word (List.mem_map_of_mem ho)
  unfold Statement.instr?
  rw [(Statement.opcode?_iff i.opcode).2 h.opcode, read_operands_of_means hn hos h.operands]

/-- Taking a statement adds its label to the names in use. The name was free, so no other statement
loses it. -/
theorem NamesOf.define (hn : NamesOf ws names) {i : Instr} (h : s.words.Means ws i) :
    NamesOf (ws ++ [s.words]) (s.define names ws.length) := by
  have hend : labelAt ws ws.length = none := by simp [labelAt]
  intro name pos
  rw [labelAt_snoc]
  unfold Statement.define
  rw [(Statement.opcode?_iff i.opcode).2 h.opcode]
  cases hlabel : s.label with
  | none =>
      have hnone : s.words.label = none := by simp [Statement.words, hlabel]
      show names[name]? = some pos ↔ _
      rw [hn name pos, hnone]
      by_cases hpos : pos = ws.length <;> simp [hpos, hend]
  | some l =>
      have hsome : s.words.label = some l.text := by simp [Statement.words, hlabel]
      have hfresh := (h.label l.text hsome).2
      show (names.insertIfNew l.text ws.length)[name]? = some pos ↔ _
      rw [Std.ExtTreeMap.getElem?_insertIfNew, hsome]
      -- The label is new, so `insertIfNew` does insert it.
      by_cases hname : name = l.text
      · subst hname
        rw [if_pos ⟨by simp, hn.not_mem_iff.2 hfresh⟩]
        by_cases hpos : pos = ws.length
        · simp [hpos]
        · simp [hpos, hfresh pos, Ne.symm hpos]
      · rw [if_neg (by simp [Ne.symm hname]), hn name pos]
        by_cases hpos : pos = ws.length
        · simp [hpos, hend, Ne.symm hname]
        · simp [hpos]

end Statements

/-! ### Taking statements in order -/

/-- What is known when the statements with the words `ws` are taken: there is nothing wrong if
and only if they stand for instructions, and these and the labels are then what was found. -/
structure Resolution.Follows (ws : List StatementWords) (r : Resolution) : Prop where
  diagnostics : r.diagnostics = #[] ↔ ∃ is, Resolves ws is
  names : ∀ is, Resolves ws is → NamesOf ws r.names
  instrs : ∀ is, Resolves ws is → r.instrs.toList = is

namespace Resolution.Follows

variable {ws : List StatementWords} {r : Resolution}

/-- Before the first statement nothing is wrong and nothing is known. -/
theorem start : Follows [] {} where
  diagnostics := ⟨fun _ => ⟨[], .nil⟩, fun _ => rfl⟩
  names := by
    intro _ _ name pos
    rw [Std.ExtTreeMap.getElem?_empty]
    simp [labelAt]
  instrs := by
    intro is his
    generalize hnil : [] = ws at his
    cases his with
    | nil => rfl
    | snoc => simp at hnil

/-- Taking one more statement. If something was wrong before, it stays so, and the statements stand
for nothing; otherwise the names are known, and the statement is looked at by itself. -/
theorem take (h : Follows ws r) {s : Statement} (hs : s.words.IsShaped) :
    Follows (ws ++ [s.words]) (r.take ws.length s) where
  diagnostics := by
    have hempty : (r.take ws.length s).diagnostics = #[] ↔
        r.diagnostics = #[] ∧ s.diagnostics r.names = [] := by
      simp [Resolution.take]
    rw [hempty, h.diagnostics]
    simp only [resolves_snoc_iff]
    constructor
    · rintro ⟨⟨is, his⟩, hnone⟩
      obtain ⟨i, hi⟩ := (Statement.diagnostics_iff (h.names is his) hs).1 hnone
      exact ⟨_, is, i, his, hi, rfl⟩
    · rintro ⟨_, is, i, his, hi, -⟩
      exact ⟨⟨is, his⟩, (Statement.diagnostics_iff (h.names is his) hs).2 ⟨i, hi⟩⟩
  names := by
    intro all hall
    obtain ⟨is, i, his, hi, rfl⟩ := resolves_snoc_iff.1 hall
    exact (h.names is his).define hi
  instrs := by
    intro all hall
    obtain ⟨is, i, his, hi, rfl⟩ := resolves_snoc_iff.1 hall
    simp [Resolution.take, h.instrs is his, Statement.instr?_of_means (h.names is his) hs hi]

/-- Taking all statements, one after the other. The induction is on those still to come. -/
theorem takeAll {ss : List Statement} (h : Follows ws r) (hss : ∀ s ∈ ss, s.words.IsShaped) :
    Follows (ws ++ ss.map Statement.words) (r.takeAll ws.length ss) := by
  induction ss generalizing ws r with
  | nil => simpa [Resolution.takeAll] using h
  | cons s ss ih =>
      rw [List.forall_mem_cons] at hss
      have hall := ih (h.take hss.1) hss.2
      rw [List.append_assoc, List.length_append] at hall
      exact hall

end Resolution.Follows

section Listings

variable {l : Listing} (hl : ∀ s ∈ l.statements, s.words.IsShaped)

include hl

/-- What is known when all the statements of a text are taken. -/
theorem Listing.follows :
    Resolution.Follows (l.statements.map Statement.words)
      (({} : Resolution).takeAll 0 l.statements) :=
  Resolution.Follows.start.takeAll hl

/-- What is accepted has a meaning, and is read as what it means. -/
theorem Listing.resolves_of_resolve {p : Parsed} (h : l.resolve = .ok p) :
    Resolves (l.statements.map Statement.words) p.block.instrs ∧
      NamesOf (l.statements.map Statement.words) p.names := by
  have hall := Listing.follows hl
  unfold Listing.resolve at h
  by_cases hnone : (({} : Resolution).takeAll 0 l.statements).diagnostics = #[]
  · obtain ⟨is, his⟩ := hall.diagnostics.1 hnone
    simp only [hnone, hall.instrs is his] at h
    obtain rfl := Except.ok.inj h
    exact ⟨his, hall.names is his⟩
  · simp [hnone] at h

/-- What has a meaning is accepted. -/
theorem Listing.resolve_of_resolves {is : List Instr}
    (h : Resolves (l.statements.map Statement.words) is) :
    ∃ p, l.resolve = .ok p ∧ p.block = ⟨is⟩ := by
  have hall := Listing.follows hl
  have hnone := hall.diagnostics.2 ⟨is, h⟩
  unfold Listing.resolve
  simp [hnone, hall.instrs is h, pure, Except.pure]

end Listings

end StackForm.Text

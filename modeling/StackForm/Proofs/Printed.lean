import StackForm.Block
import StackForm.Proofs.Reading

/-!
# `StackForm.Proofs.Printed`: the grammar on a printed block

Every printed block has the shape of a text, well formed or not: its words are words of the
grammar, and the blanks, commas and line ends around them are where the grammar wants them.
`Listing.ofText_text` says what comes out, namely one statement for each instruction with the
words that were printed (`Statement.Writes`), and no comments. Whether these words mean
anything is not asked here.
-/

set_option autoImplicit false

namespace StackForm

/-! ### Printed words -/

/-- The characters of a value's name: a letter and the digits of the position. What is printed is
looked at through lists of characters from here on, since that is what the grammar reads. -/
theorem toList_valueName (pos : Nat) :
    (valueName pos).toList = 'v' :: Nat.toDigits 10 pos := by
  simp [valueName]

/-- No two positions have the same name, since the digits of a number give back the number. -/
theorem valueName_injective {a b : Nat} (h : valueName a = valueName b) : a = b := by
  have hdigits : Nat.toDigits 10 a = Nat.toDigits 10 b := by
    simpa [toList_valueName] using congrArg String.toList h
  rw [← Nat.ofDigitChars_ten_toDigits (n := a), hdigits, Nat.ofDigitChars_ten_toDigits]

/-- The characters of a constant: its digits, with a minus sign in front of a negative one. -/
theorem Word.toList_decimal (w : Word) :
    w.decimal.toList =
      if 0 ≤ w.toInt then Nat.toDigits 10 w.toInt.toNat
      else '-' :: Nat.toDigits 10 (-w.toInt).toNat := by
  unfold Word.decimal
  rw [Int.toString_eq_repr, Int.repr_eq_if]
  split <;> simp [Nat.repr_eq_ofList_toDigits]

/-- A number has at least one digit, and nothing but digits. The first one is given by itself
because it shows what kind of word a number is. -/
theorem exists_toDigits (n : Nat) :
    ∃ d ds, Nat.toDigits 10 n = d :: ds ∧ ∀ c ∈ d :: ds, c.isDigit = true := by
  cases h : Nat.toDigits 10 n with
  | nil => exact absurd h Nat.toDigits_ne_nil
  | cons d ds =>
    exact ⟨d, ds, rfl, fun c hc => Nat.isDigit_of_mem_toDigits (by omega) (by omega) (h ▸ hc)⟩

namespace Text

/-- The name of an opcode has the shape of one, and does not start like the name of a value. There
are finitely many opcodes, and each is looked at. -/
theorem exists_name (op : Opcode) :
    ∃ c cs, op.name.toList = c :: cs ∧ startsOpcode c = true ∧ c ≠ 'v' ∧
      cs.all continuesOpcode = true := by
  cases op <;> exact ⟨_, _, rfl, by decide, by decide, by decide⟩

/-- The digits of a number are found where no further digit follows. Without that condition the
digits behind it would be taken for its own. -/
theorem findDigits_toDigits (n : Nat) {rest : List Char}
    (hrest : rest.takeWhile Char.isDigit = []) :
    findDigits (Nat.toDigits 10 n ++ rest) = some (Nat.toDigits 10 n) := by
  obtain ⟨d, ds, hn, hdigits⟩ := exists_toDigits n
  unfold findDigits
  rw [hn, List.takeWhile_append_of_pos hdigits, hrest]
  simp

/-- The name of a value is found where no digit follows it, since its digits would go on
otherwise. -/
theorem findValueName_valueName (pos : Nat) {rest : List Char}
    (hrest : rest.takeWhile Char.isDigit = []) :
    findValueName ((valueName pos).toList ++ rest) = some (valueName pos).toList := by
  rw [toList_valueName]
  simp [findValueName, findDigits_toDigits pos hrest]

/-- A constant is found where no digit follows it. Numbers start with a digit or a minus sign, and
go on with digits only. -/
theorem findInteger_decimal (w : Word) {rest : List Char}
    (hrest : rest.takeWhile Char.isDigit = []) :
    findInteger (w.decimal.toList ++ rest) = some w.decimal.toList := by
  rw [Word.toList_decimal]
  split
  · obtain ⟨d, ds, hn, hdigits⟩ := exists_toDigits w.toInt.toNat
    have hfind := findDigits_toDigits w.toInt.toNat hrest
    rw [hn] at hfind ⊢
    unfold findInteger
    split
    · next heq => simp_all
    · exact hfind
  · simp [findInteger, findDigits_toDigits _ hrest]

/-- The name of an opcode is not taken for the name of a value, because no opcode starts with that
letter. So an opcode without a label is not mistaken for a label. -/
theorem findValueName_name (op : Opcode) (rest : List Char) :
    findValueName (op.name.toList ++ rest) = none := by
  obtain ⟨c, cs, hname, -, hv, -⟩ := exists_name op
  rw [hname]
  unfold findValueName
  split
  · next heq => exact absurd (List.cons.inj heq).1 hv
  · rfl

/-- The name of an opcode is found where nothing follows that an opcode can go on with. Behind a
printed opcode there is a blank or a line end. -/
theorem findOpcode_name (op : Opcode) {rest : List Char}
    (hrest : rest.takeWhile continuesOpcode = []) :
    findOpcode (op.name.toList ++ rest) = some op.name.toList := by
  obtain ⟨c, cs, hname, hstart, -, hmore⟩ := exists_name op
  rw [hname]
  simp [findOpcode, hstart, List.takeWhile_append_of_pos (List.all_eq_true.1 hmore), hrest]

/-- Nothing is skipped in front of an opcode. -/
theorem solid_name (op : Opcode) (rest : List Char) : Solid (op.name.toList ++ rest) := by
  obtain ⟨c, cs, hname, hstart, -⟩ := exists_name op
  rw [hname]
  exact solid_cons hstart (by decide) _

/-! ### Operands -/

/-- What is written for an operand, wherever it stands. The spans of the words do not come into
it. -/
def OperandText.Writes : OperandText → Operand → Prop
  | .name l, .ref target => l.text = valueName target
  | .integer l, .imm v => l.text = v.decimal
  | _, _ => False

/-- Whether a number can start with a character. -/
def startsInteger (c : Char) : Bool := c == '-' || c.isDigit

/-- A constant starts with a character that a number can start with. This tells it from a name. -/
theorem exists_decimal (w : Word) :
    ∃ c cs, w.decimal.toList = c :: cs ∧ startsInteger c = true := by
  rw [Word.toList_decimal]
  split
  · obtain ⟨d, ds, hn, hdigits⟩ := exists_toDigits w.toInt.toNat
    exact ⟨d, ds, hn, by simp [startsInteger, hdigits d]⟩
  · exact ⟨_, _, rfl, rfl⟩

/-- A constant is not taken for the name of a value. The grammar tries names first, so this is what
makes it go on to numbers. -/
theorem findValueName_decimal (w : Word) (rest : List Char) :
    findValueName (w.decimal.toList ++ rest) = none := by
  obtain ⟨c, cs, hw, hc⟩ := exists_decimal w
  rw [hw]
  unfold findValueName
  split
  · next heq => simp_all [startsInteger]
  · rfl

/-- Nothing is skipped in front of an operand. -/
theorem solid_text (o : Operand) (rest : List Char) : Solid (o.text.toList ++ rest) := by
  cases o with
  | ref t =>
    show Solid ((valueName t).toList ++ rest)
    rw [toList_valueName]
    exact solid_cons (p := (· == 'v')) rfl (by decide) _
  | imm w =>
    obtain ⟨c, cs, hw, hc⟩ := exists_decimal w
    show Solid (w.decimal.toList ++ rest)
    rw [hw]
    exact solid_cons hc (by decide) _

/-- An operand as it is printed behind another. -/
def printedFurther (o : Operand) : List Char := ',' :: ' ' :: o.text.toList

namespace Grammar

open Matcher

/-- A printed operand is read as itself where no digit follows it: a reference by the first
alternative of the rule, and a constant by the second. -/
theorem operand_takes (o : Operand) {rest : List Char}
    (hrest : rest.takeWhile Char.isDigit = []) :
    Takes operand o.text.toList rest (·.Writes o) := by
  cases o with
  | ref t =>
    exact .orElse (.map (lexeme_takes (findValueName_valueName t hrest)) fun l hl => hl)
  | imm w =>
    refine .orElse_rejects (.bind (lexeme_rejects (findValueName_decimal w rest))) ?_
    exact .map (lexeme_takes (findInteger_decimal w hrest)) fun l hl => hl

/-- An operand is followed by a comma or by the end of its line. Both show where the operand
ends. -/
def EndsOperand (tail : List Char) : Prop := ∃ c cs, tail = c :: cs ∧ (c = ',' ∨ c = '\n')

/-- Neither of the characters behind an operand belongs to it, and neither is skipped. -/
theorem EndsOperand.solid {tail : List Char} (h : EndsOperand tail) :
    tail.takeWhile Char.isDigit = [] ∧ Solid tail := by
  obtain ⟨c, cs, rfl, rfl | rfl⟩ := h
  · exact ⟨rfl, solid_cons (p := (· == ',')) rfl (by decide) cs⟩
  · exact ⟨rfl, solid_cons (p := (· == '\n')) rfl (by decide) cs⟩

/-- A printed operand behind another one is read as itself, with its comma and its blank. The blank
is skipped, and nothing else is there to be skipped. -/
theorem furtherOperand_takes (o : Operand) {tail : List Char} (h : EndsOperand tail) :
    Takes furtherOperand (printedFurther o) tail (·.Writes o) := by
  show Takes _ ([','] ++ ([' '] ++ o.text.toList)) _ _
  refine .bind (.char ',' _) fun _ _ => ?_
  refine .bind (skip_takes rfl (solid_text o tail)) fun _ _ => ?_
  exact operand_takes o h.solid.1

/-- The printed operands of a line are read as themselves, up to the end of the line. The first one
is read by itself, and the others are followed along their list. -/
theorem operands_takes (o : Operand) (os : List Operand) (tail : List Char) :
    Takes operands (o.text.toList ++ os.flatMap printedFurther) ('\n' :: tail)
      (List.Forall₂ OperandText.Writes · (o :: os)) := by
  have hmore : ∀ (o : Operand) (rest : List Char),
      EndsOperand (printedFurther o ++ rest) := fun o rest => ⟨_, _, rfl, .inl rfl⟩
  have hend : EndsOperand ('\n' :: tail) := ⟨_, _, rfl, .inr rfl⟩
  have hfollows := (follows hmore hend os).solid
  -- Behind every operand comes a comma or the line end, and neither is part of it.
  refine .bind (operand_takes o hfollows.1) fun first hfirst => ?_
  refine .nil_bind (skip_nothing hfollows.2) fun _ _ => ?_
  refine .map ?_ fun others hothers => .cons hfirst hothers
  exact spaced_takes (fun o tail h => furtherOperand_takes o h) hmore (by simp [printedFurther])
    (fun tail h => h.solid.2) hend (.bind (.char (by simp))) os

end Grammar

/-! ### Statements -/

/-- What is written for an instruction and its position, wherever it stands. The position is needed
for the name of the result. -/
structure Statement.Writes (s : Statement) (x : Instr × Nat) : Prop where
  label : s.label.map Lexeme.text = if x.1.opcode.hasResult then some (valueName x.2) else none
  opcode : s.opcode.text = x.1.opcode.name
  operands : List.Forall₂ OperandText.Writes s.operands x.1.operands

/-- The operands of an instruction as they are printed behind the opcode, the first with a blank and
the others with a comma and a blank. -/
def printedOperands : List Operand → List Char
  | [] => []
  | o :: os => ' ' :: (o.text.toList ++ os.flatMap printedFurther)

/-- A printed line, without its end. It is made of the pieces in which the grammar reads it. -/
def printed (x : Instr × Nat) : List Char :=
  (if x.1.opcode.hasResult then (valueName x.2).toList ++ [' ', '=', ' '] else []) ++
    (x.1.opcode.name.toList ++ printedOperands x.1.operands)

/-- A statement is followed by the end of its line, and printed lines all have one. -/
def EndsStatement (tail : List Char) : Prop := ∃ cs, tail = '\n' :: cs

/-- A line end is not skipped, so skipping never leads from one line into the next. -/
theorem EndsStatement.solid {tail : List Char} (h : EndsStatement tail) : Solid tail := by
  obtain ⟨cs, rfl⟩ := h
  exact solid_cons (p := (· == '\n')) rfl (by decide) cs

namespace Grammar

open Matcher

variable {β : Type} {Q : β → Prop}

/-- A printed label is read as the name of its value, with the blank and the equals sign behind it.
The blank behind the sign is left to the statement. -/
theorem label_takes (pos : Nat) (rest : List Char) :
    Takes label ((StackForm.valueName pos).toList ++ [' ', '=']) rest
      (·.text = StackForm.valueName pos) := by
  refine .bind (lexeme_takes (findValueName_valueName pos rfl)) fun name hname => ?_
  show Takes _ ([' '] ++ ['=']) _ _
  refine .bind (skip_takes rfl (solid_cons (p := (· == '=')) rfl (by decide) rest))
    fun _ _ => ?_
  exact .map (.char '=' rest) fun _ _ => hname

/-- The label of a printed line, if it has one, ends at the opcode. If it has none, the opcode is
not taken for a label, because it does not start like the name of a value. -/
theorem optional_label_takes (x : Instr × Nat) {body tail : List Char}
    {next : Option Lexeme → Matcher β} (hsolid : Solid (body ++ tail))
    (hname : findValueName (body ++ tail) = none)
    (hnext : ∀ found : Option Lexeme, found.map Lexeme.text =
      (if x.1.opcode.hasResult then some (StackForm.valueName x.2) else none) →
      Takes (next found) body tail Q) :
    Takes (optional label >>= fun found => skip >>= fun _ => next found)
      ((if x.1.opcode.hasResult then (StackForm.valueName x.2).toList ++ [' ', '=', ' '] else [])
        ++ body) tail Q := by
  by_cases hres : x.1.opcode.hasResult = true
  · simp only [hres, if_true] at hnext ⊢
    have hlabel : Takes (optional label) ((StackForm.valueName x.2).toList ++ [' ', '='])
        ([' '] ++ body ++ tail) (·.map Lexeme.text = some (StackForm.valueName x.2)) :=
      .optional (label_takes x.2 _) fun l hl => congrArg some hl
    rw [show (StackForm.valueName x.2).toList ++ [' ', '=', ' '] ++ body =
      ((StackForm.valueName x.2).toList ++ [' ', '=']) ++ ([' '] ++ body) by simp]
    refine .bind hlabel fun found hfound => ?_
    exact .bind (skip_takes rfl hsolid) fun _ _ => hnext found hfound
  · simp only [hres] at hnext ⊢
    have hlabel : Takes (optional label) [] (body ++ tail) (·.map Lexeme.text = none) :=
      .optional_rejects (.bind (lexeme_rejects hname)) rfl
    refine .bind hlabel fun found hfound => ?_
    exact .nil_bind (skip_nothing hsolid) fun _ _ => hnext found hfound

/-- The operands of a printed line, if it has any, end with the line. If it has none, the line end
is not taken for an operand. -/
theorem optional_operands_takes (os : List Operand) {tail : List Char}
    {next : Option (List OperandText) → Matcher β}
    (hnext : ∀ found : Option (List OperandText),
      List.Forall₂ OperandText.Writes (found.getD []) os → Takes (next found) [] ('\n' :: tail) Q) :
    Takes (skip >>= fun _ => optional operands >>= next) (printedOperands os) ('\n' :: tail) Q := by
  cases os with
  | nil =>
    have hsolid : EndsStatement ('\n' :: tail) := ⟨tail, rfl⟩
    refine .nil_bind (skip_nothing hsolid.solid) fun _ _ => ?_
    -- A line end is the start of neither a name nor a number.
    have hnone : Rejects operands ('\n' :: tail) :=
      .bind (.orElse (.bind (lexeme_rejects rfl)) (.bind (lexeme_rejects rfl)))
    exact .bind (.optional_rejects hnone .nil) hnext
  | cons o os =>
    have hsolid : Solid (o.text.toList ++ os.flatMap printedFurther ++ '\n' :: tail) := by
      rw [List.append_assoc]
      exact solid_text o _
    have hskip : Takes skip [' '] _ fun _ => True := skip_takes rfl hsolid
    refine .bind hskip fun _ _ => ?_
    exact .bind_nil (.optional (operands_takes o os tail) fun found h => h) hnext

/-- A printed line is read as a statement with its words. The pieces of the line are taken in the
order of the rule: the label, the opcode and the operands. -/
theorem statement_takes (x : Instr × Nat) {tail : List Char} (h : EndsStatement tail) :
    Takes statement (printed x) tail (·.Writes x) := by
  obtain ⟨cs, rfl⟩ := h
  refine .rule (.offset_bind fun start => ?_)
  refine optional_label_takes x ?_ ?_ fun found hfound => ?_
  · rw [List.append_assoc]
    exact solid_name x.1.opcode _
  · rw [List.append_assoc]
    exact findValueName_name x.1.opcode _
  · refine .bind (lexeme_takes (findOpcode_name x.1.opcode ?_)) fun op hop => ?_
    · cases x.1.operands <;> rfl
    · refine optional_operands_takes _ fun args hargs => .offset_bind fun stop => .pure ?_ _
      exact ⟨hfound, hop, hargs⟩

end Grammar

/-! ### Blocks -/

/-- A printed line starts like an opcode, since the letter of a value's name is one that an
opcode can start with. -/
theorem exists_printed (x : Instr × Nat) :
    ∃ c cs, printed x = c :: cs ∧ startsOpcode c = true := by
  obtain ⟨c, cs, hname, hstart, -⟩ := exists_name x.1.opcode
  unfold printed
  rw [hname, toList_valueName]
  split
  · exact ⟨_, _, rfl, rfl⟩
  · exact ⟨c, _, rfl, hstart⟩

/-- Nothing is skipped in front of a printed line. -/
theorem solid_printed (x : Instr × Nat) (rest : List Char) : Solid (printed x ++ rest) := by
  obtain ⟨c, cs, hx, hstart⟩ := exists_printed x
  rw [hx]
  exact solid_cons hstart (by decide) _

/-- A printed line does not start with a line end, so no line is empty. -/
theorem findNewline_printed (x : Instr × Nat) (rest : List Char) :
    findNewline (printed x ++ rest) = none := by
  obtain ⟨c, cs, hx, hstart⟩ := exists_printed x
  have hne : ∀ d, startsOpcode d = false → c ≠ d := fun d hd hcd => by simp [hcd, hd] at hstart
  have hfeed := hne '\n' (by decide)
  have hreturn := hne '\r' (by decide)
  rw [hx]
  unfold findNewline
  split <;> simp_all

/-- The lines of a block, with the line ends seen as standing between them. The grammar sees them
so, while the printer puts one behind each line. -/
theorem flatMap_printed (x : Instr × Nat) (xs : List (Instr × Nat)) :
    (x :: xs).flatMap (fun x => printed x ++ ['\n']) =
      printed x ++ (xs.flatMap fun x => '\n' :: printed x) ++ ['\n'] := by
  induction xs generalizing x with
  | nil => simp
  | cons y ys ih =>
    rw [List.flatMap_cons, ih y]
    simp

namespace Grammar

open Matcher

/-- A line feed is read as a line end. -/
theorem newline_takes (rest : List Char) : Takes newline ['\n'] rest fun _ => True :=
  .map (.scan rfl) fun _ _ => trivial

/-- One line end is read as the line ends between two lines, where a line with a statement follows
or nothing does. -/
theorem newlines_takes {rest : List Char} (hsolid : Solid rest) (hnone : findNewline rest = none) :
    Takes newlines ['\n'] rest fun _ => True := by
  refine .bind_nil (newline_takes rest) fun _ _ => ?_
  refine .nil_bind (skip_nothing hsolid) fun _ _ => ?_
  exact .map (spaced_rejects (.bind (.scan hnone))) fun _ _ => trivial

/-- A printed line behind another one is read as itself, with the line end between them. No line is
empty, so there is just one line end to be read. -/
theorem furtherStatement_takes (x : Instr × Nat) {tail : List Char} (h : EndsStatement tail) :
    Takes furtherStatement ('\n' :: printed x) tail (·.Writes x) := by
  show Takes _ (['\n'] ++ printed x) _ _
  refine .bind (newlines_takes (solid_printed x _) (findNewline_printed x _)) fun _ _ => ?_
  refine .nil_bind (skip_nothing (solid_printed x _)) fun _ _ => ?_
  exact statement_takes x h

/-- There is no statement at the end of a text, since there is no opcode. -/
theorem statement_rejects : Rejects statement [] := by
  have hlabel : Takes (optional label) [] [] fun _ => True :=
    .optional_rejects (.bind (lexeme_rejects rfl)) trivial
  refine .rule (.offset_bind fun start => ?_)
  refine .bind_takes hlabel fun _ _ => ?_
  refine .bind_takes (skip_nothing solid_nil) fun _ _ => ?_
  exact .bind (lexeme_rejects rfl)

/-- The last line end has no statement behind it, and is left to the block. It is read at first and
given back. -/
theorem furtherStatement_rejects : Rejects furtherStatement ['\n'] := by
  refine .bind_takes (newlines_takes solid_nil rfl) fun _ _ => ?_
  exact .bind_takes (skip_nothing solid_nil) fun _ _ => statement_rejects

/-- The printed lines of a block are read as its statements, up to the last line end. That one is
not taken, because no statement follows it. -/
theorem statements_takes (x : Instr × Nat) (xs : List (Instr × Nat)) :
    Takes statements (printed x ++ xs.flatMap fun x => '\n' :: printed x) ['\n']
      (List.Forall₂ Statement.Writes · (x :: xs)) := by
  have hmore : ∀ (x : Instr × Nat) (rest : List Char),
      EndsStatement ('\n' :: printed x ++ rest) := fun x rest => ⟨_, rfl⟩
  have hend : EndsStatement ['\n'] := ⟨[], rfl⟩
  have hfollows := follows hmore hend xs
  refine .bind (statement_takes x hfollows) fun first hfirst => ?_
  refine .nil_bind (skip_nothing hfollows.solid) fun _ _ => ?_
  refine .map ?_ fun others hothers => .cons hfirst hothers
  exact spaced_takes (fun x tail h => furtherStatement_takes x h) hmore (by simp)
    (fun tail h => h.solid) hend furtherStatement_rejects xs

/-- The end of a text is where nothing is left. -/
theorem endOfInput_takes : Takes endOfInput [] [] fun _ => True := by
  refine .rule fun r _ hrest => ⟨(), r, ⟨trivial, rfl⟩, fun t => ?_⟩
  simp [hrest]

/-- Behind its statements a text has nothing but line ends, which are read up to the end of the
text. -/
theorem closing_takes {α : Type} {P : α → Prop} {a : α} (ha : P a) (ends : List Unit) :
    Takes (skip >>= fun _ => spaced newline >>= fun _ => skip >>= fun _ => endOfInput >>= fun _ =>
      Pure.pure a) (ends.flatMap fun _ => ['\n']) [] P := by
  have hsolid : ∀ (_ : Unit) (tail : List Char), Solid (['\n'] ++ tail) :=
    fun _ tail => EndsStatement.solid ⟨tail, rfl⟩
  have hnewlines := spaced_takes (P := fun _ _ => True) (fun _ tail _ => newline_takes tail) hsolid
    (by simp) (fun _ h => h) solid_nil (.bind (.scan rfl)) ends
  refine .nil_bind (skip_nothing (follows hsolid solid_nil ends)) fun _ _ => ?_
  refine .bind_nil hnewlines fun _ _ => ?_
  refine .nil_bind (skip_nothing solid_nil) fun _ _ => ?_
  exact .map endOfInput_takes fun _ _ => ha

/-- A printed block is read to its end, as the statements of its instructions. An empty block has no
line and is read as no statements. -/
theorem block_takes (xs : List (Instr × Nat)) :
    Takes block (xs.flatMap fun x => printed x ++ ['\n']) []
      (List.Forall₂ Statement.Writes · xs) := by
  refine .rule ?_
  cases xs with
  | nil =>
    have hnone : Takes (optional statements) [] [] (· = none) :=
      .optional_rejects (.bind statement_rejects) rfl
    refine .nil_bind (skip_nothing solid_nil) fun _ _ => ?_
    refine .nil_bind (spaced_rejects (.bind (.scan rfl))) fun _ _ => ?_
    refine .nil_bind (skip_nothing solid_nil) fun _ _ => ?_
    refine .nil_bind hnone fun found hfound => ?_
    exact closing_takes (by simp [hfound]) []
  | cons x xs =>
    have hfound : Takes (optional statements)
        (printed x ++ xs.flatMap fun x => '\n' :: printed x) ['\n']
        fun found => List.Forall₂ Statement.Writes (found.getD []) (x :: xs) :=
      .optional (statements_takes x xs) fun found h => h
    have hsolid : Solid (printed x ++ (xs.flatMap fun x => '\n' :: printed x) ++ ['\n'] ++ []) := by
      simpa using solid_printed x _
    have hnewline : findNewline
        (printed x ++ (xs.flatMap fun x => '\n' :: printed x) ++ ['\n'] ++ []) = none := by
      simpa using findNewline_printed x _
    -- The last line end is behind the statements, and is read with the end of the text.
    rw [flatMap_printed]
    refine .nil_bind (skip_nothing hsolid) fun _ _ => ?_
    refine .nil_bind (spaced_rejects (.bind (.scan hnewline))) fun _ _ => ?_
    refine .nil_bind (skip_nothing hsolid) fun _ _ => ?_
    refine .bind hfound fun found h => ?_
    exact closing_takes (P := (List.Forall₂ Statement.Writes · (x :: xs))) h [()]

end Grammar

/-! ### Printing -/

/-- Texts with commas between them: each one behind the first has its comma in front. This is
the form in which such a list is read, whether it is one of operands or one of slots. -/
theorem toList_separated {α : Type} (f : α → String) (a : α) (as : List α) :
    (", ".intercalate ((a :: as).map f)).toList =
      (f a).toList ++ as.flatMap fun b => ',' :: ' ' :: (f b).toList := by
  induction as generalizing a with
  | nil => simp
  | cons b as ih =>
    rw [List.map_cons, List.map_cons, String.intercalate_cons_cons, ← List.map_cons,
      String.toList_append, ih b]
    simp

/-- A line as it is printed is made of the pieces in which it is read. This is where strings are
left for lists of characters. -/
theorem toList_line (x : Instr × Nat) : (Block.line x.2 x.1).toList = printed x ++ ['\n'] := by
  have htext : x.1.text.toList = x.1.opcode.name.toList ++ printedOperands x.1.operands := by
    unfold Instr.text printedOperands
    cases x.1.operands with
    | nil => simp
    | cons o os =>
      show (x.1.opcode.name ++ " " ++ _).toList = _
      rw [String.toList_append, toList_separated]
      show _ ++ (o.text.toList ++ os.flatMap printedFurther) = _
      simp
  unfold Block.line printed
  split <;> simp [htext]

/-- A printed block is made of its printed lines, each with a line end. -/
theorem toList_text (b : Block) :
    b.text.toList = b.instrs.zipIdx.flatMap fun x => printed x ++ ['\n'] := by
  unfold Block.text
  rw [String.toList_join, List.flatMap_map]
  exact List.flatMap_congr fun x _ => toList_line x

/-- Every printed block is read as its own statements, with no comments. This holds of malformed
blocks too, since only the shape of the words is asked for. -/
theorem Listing.ofText_text (b : Block) :
    ∃ statements, Listing.ofText b.text.toList = .ok ⟨statements, []⟩ ∧
      List.Forall₂ Statement.Writes statements b.instrs.zipIdx := by
  have hat : (Reader.ofText b.text.toList).rest =
      (b.instrs.zipIdx.flatMap fun x => printed x ++ ['\n']) ++ [] := by
    rw [List.append_nil]
    exact toList_text b
  obtain ⟨statements, _, ⟨hwrites, rfl⟩, hblock⟩ := Grammar.block_takes b.instrs.zipIdx
    (.ofText b.text.toList) (Reader.sound_ofText _) hat
  refine ⟨statements, ?_, hwrites⟩
  have hfound := hblock {}
  unfold Listing.ofText
  split
  · next heq =>
    rw [heq, Option.some.injEq, Prod.mk.injEq] at hfound
    rw [hfound.1, hfound.2]
    rfl
  · next heq => simp [heq] at hfound

end Text

end StackForm

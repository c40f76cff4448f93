import StackForm.Text.Grammar

/-!
# `StackForm.Proofs.LineLanguage`: texts line by line

The grammar of a text runs over its lines with one set of rules. This module says line by line
what a text may be. `splitLines` cuts a text at its line ends, and `Line.Written` says which
lines there are and what stands in them: a statement or none, and a comment or none, with blanks
around every part. Words are taken by longest match (`Longest`), so `add1` is an opcode, and not
an opcode with an operand.

Beside the definitions stands what ties them to the functions by which the grammar finds words:
such a function finds the longest word of its class (`Finds`, with `finds_digits` and its like).
That it finds the same in a text as in the first line of the text is `Finds.line`, in
`StackForm.Proofs.WithinLine`.
-/

set_option autoImplicit false

namespace StackForm.Text

/-! ### Classes of words -/

/-- A word of a class, where no longer word of the class starts at the same place. -/
structure Longest (P : List Char → Prop) (word rest : List Char) : Prop where
  mem : P word
  longest : ∀ more after, rest = more ++ after → P (word ++ more) → more = []

/-- One or more digits. -/
def IsDigits (cs : List Char) : Prop := cs ≠ [] ∧ ∀ c ∈ cs, c.isDigit = true

/-- A `v` and one or more digits. -/
def IsValueName (cs : List Char) : Prop := ∃ digits, cs = 'v' :: digits ∧ IsDigits digits

/-- One or more digits, with a minus sign or without. -/
def IsInteger (cs : List Char) : Prop :=
  IsDigits cs ∨ ∃ digits, cs = '-' :: digits ∧ IsDigits digits

/-- Letters, digits and underscores, a small letter or an underscore first. -/
def IsOpcode (cs : List Char) : Prop :=
  ∃ c others, cs = c :: others ∧ (c.isLower = true ∨ c = '_') ∧
    ∀ d ∈ others, d.isAlphanum = true ∨ d = '_'

/-! ### Lines -/

/-- Cuts a text at its line ends. A carriage return with a line feed is one line end. -/
def splitLines : List Char → List (List Char)
  | '\r' :: '\n' :: cs => [] :: splitLines cs
  | '\r' :: cs => [] :: splitLines cs
  | '\n' :: cs => [] :: splitLines cs
  | c :: cs => (splitLines cs).modifyHead (c :: ·)
  | [] => [[]]

/-- The word of an operand, wherever it stands. -/
inductive OperandWord where
  | name (text : String)
  | integer (text : String)
  deriving DecidableEq, Repr

/-- The words of a statement, wherever they stand. -/
structure StatementWords where
  label : Option String
  opcode : String
  operands : List OperandWord
  deriving DecidableEq, Repr

/-- What stands in a line. -/
structure Line where
  statement : Option StatementWords
  comment : Option (List Char)
  deriving DecidableEq, Repr

/-- The characters of an operand as a word. -/
def OperandWord.text : OperandWord → String
  | name text => text
  | integer text => text

/-- The word of an operand is the longest of its class. -/
def OperandWord.IsLongest : OperandWord → List Char → Prop
  | name text, rest => Longest IsValueName text.toList rest
  | integer text, rest => Longest IsInteger text.toList rest

/-- Spaces and tabs. -/
def Blanks (cs : List Char) : Prop := ∀ c ∈ cs, c = ' ' ∨ c = '\t'

/-- The end of a line: blanks, and perhaps a comment. -/
inductive Closing : Option (List Char) → List Char → Prop
  | blanks {b : List Char} (hb : Blanks b) : Closing none b
  | comment {b : List Char} (hb : Blanks b) (cs : List Char) :
      Closing (some ('#' :: cs)) (b ++ '#' :: cs)

/-- What may follow an operand in a line: further operands, each behind a comma, and the end of
the line. -/
inductive FurtherOperands : List OperandWord → Option (List Char) → List Char → Prop
  | nil {c : Option (List Char)} {l : List Char} (h : Closing c l) : FurtherOperands [] c l
  | cons {b b' l : List Char} {o : OperandWord} {os : List OperandWord} {c : Option (List Char)}
      (hb : Blanks b) (hb' : Blanks b') (ho : o.IsLongest l) (hos : FurtherOperands os c l) :
      FurtherOperands (o :: os) c (b ++ ',' :: (b' ++ (o.text.toList ++ l)))

/-- What may follow an opcode in a line: its operands, and the end of the line. -/
inductive Operands : List OperandWord → Option (List Char) → List Char → Prop
  | nil {c : Option (List Char)} {l : List Char} (h : Closing c l) : Operands [] c l
  | cons {b l : List Char} {o : OperandWord} {os : List OperandWord} {c : Option (List Char)}
      (hb : Blanks b) (ho : o.IsLongest l) (hos : FurtherOperands os c l) :
      Operands (o :: os) c (b ++ (o.text.toList ++ l))

/-- What may stand before an opcode: the name of the result and an equals sign. -/
inductive Labelling : Option String → List Char → Prop
  | none : Labelling none []
  | some {name : String} {b b' : List Char} (hname : IsValueName name.toList) (hb : Blanks b)
      (hb' : Blanks b') : Labelling (some name) (name.toList ++ (b ++ '=' :: b'))

/-- The lines of a text, and what stands in them. -/
inductive Line.Written : Line → List Char → Prop
  | blank {c : Option (List Char)} {l : List Char} (h : Closing c l) : Written ⟨none, c⟩ l
  | statement {b labelling l : List Char} {label : Option String} {opcode : String}
      {os : List OperandWord} {c : Option (List Char)} (hb : Blanks b)
      (hlabel : Labelling label labelling) (hop : Longest IsOpcode opcode.toList l)
      (hos : Operands os c l) :
      Written ⟨some ⟨label, opcode, os⟩, c⟩ (b ++ (labelling ++ (opcode.toList ++ l)))

/-- The word of an operand that was read. -/
def OperandText.word : OperandText → OperandWord
  | name l => .name l.text
  | integer l => .integer l.text

/-- The words of a statement that was read. -/
def Statement.words (s : Statement) : StatementWords where
  label := s.label.map Lexeme.text
  opcode := s.opcode.text
  operands := s.operands.map OperandText.word

/-! ### Finding the longest word -/

section Finding

variable {P : List Char → Prop} {p : Char → Bool} {word rest cs more : List Char}

/-- What is taken while characters are of a kind ends where the next one is not. -/
theorem takeWhile_eq_iff :
    cs.takeWhile p = word ↔
      ∃ rest, cs = word ++ rest ∧ (∀ c ∈ word, p c = true) ∧ rest.takeWhile p = [] := by
  constructor
  · intro h
    have hstop : (cs.dropWhile p).takeWhile p = [] := by
      induction cs generalizing word with
      | nil => rfl
      | cons c cs ih =>
          by_cases hc : p c = true <;> simp [hc, ih rfl]
    refine ⟨cs.dropWhile p, ?_, ?_, hstop⟩
    · rw [← h, List.takeWhile_append_dropWhile]
    · rw [← h]
      exact List.all_eq_true.1 List.all_takeWhile
  · intro ⟨rest, hcs, hword, hrest⟩
    rw [hcs, List.takeWhile_append_of_pos hword, hrest, List.append_nil]

/-- A word that goes on as long as characters are of a kind is the longest where the next one is
not. -/
theorem longest_iff (hmore : P word → ∀ more, P (word ++ more) ↔ ∀ c ∈ more, p c = true) :
    Longest P word rest ↔ P word ∧ rest.takeWhile p = [] := by
  constructor
  · intro h
    have hall : ∀ c ∈ rest.takeWhile p, p c = true := List.all_eq_true.1 List.all_takeWhile
    exact ⟨h.mem, h.longest _ _ List.takeWhile_append_dropWhile.symm ((hmore h.mem _).2 hall)⟩
  · intro ⟨hword, hrest⟩
    refine ⟨hword, fun more after hsplit hP => ?_⟩
    rw [hsplit, List.takeWhile_append_of_pos ((hmore hword more).1 hP)] at hrest
    exact (List.append_eq_nil_iff.1 hrest).1

/-- Digits go on being digits as long as digits follow. -/
theorem IsDigits.append_iff (h : IsDigits cs) :
    IsDigits (cs ++ more) ↔ ∀ c ∈ more, c.isDigit = true := by
  constructor
  · exact fun happ c hc => happ.2 c (List.mem_append_right cs hc)
  · intro hmore
    refine ⟨by simp [h.1], fun c hc => ?_⟩
    rcases List.mem_append.1 hc with hc | hc
    · exact h.2 c hc
    · exact hmore c hc

/-- Digits are the longest where no digit follows. -/
theorem longest_digits_iff :
    Longest IsDigits word rest ↔ IsDigits word ∧ rest.takeWhile Char.isDigit = [] :=
  longest_iff fun h _ => h.append_iff

/-- The name of a value is the longest where no digit follows. -/
theorem longest_valueName_iff :
    Longest IsValueName word rest ↔ IsValueName word ∧ rest.takeWhile Char.isDigit = [] := by
  refine longest_iff fun ⟨digits, hword, hdigits⟩ more => ?_
  simp [IsValueName, hword, hdigits.append_iff]

/-- A minus sign is no digit. -/
theorem not_isDigits_minus (cs : List Char) : ¬ IsDigits ('-' :: cs) :=
  fun h => by simpa using h.2 '-' List.mem_cons_self

/-- A number is the longest where no digit follows, with a sign or without. -/
theorem longest_integer_iff :
    Longest IsInteger word rest ↔ IsInteger word ∧ rest.takeWhile Char.isDigit = [] := by
  refine longest_iff fun hword more => ?_
  rcases hword with hdigits | ⟨digits, rfl, hdigits⟩
  · have hne : ∀ ds, word ++ more ≠ '-' :: ds := by
      intro ds heq
      obtain ⟨c, cs, rfl⟩ := List.exists_cons_of_ne_nil hdigits.1
      exact not_isDigits_minus cs ((List.cons.inj heq).1 ▸ hdigits)
    simp [IsInteger, hdigits.append_iff, hne]
  · simp [IsInteger, not_isDigits_minus, hdigits.append_iff]

/-- The characters that an opcode goes on with are letters, digits and underscores. -/
theorem continuesOpcode_iff {c : Char} :
    continuesOpcode c = true ↔ c.isAlphanum = true ∨ c = '_' := by
  simp [continuesOpcode]

/-- An opcode is the longest where none of these characters follows. -/
theorem longest_opcode_iff :
    Longest IsOpcode word rest ↔ IsOpcode word ∧ rest.takeWhile continuesOpcode = [] := by
  refine longest_iff fun ⟨c, others, hword, hc, hothers⟩ more => ?_
  simp only [IsOpcode, hword, List.cons_append, List.cons.injEq, continuesOpcode_iff]
  constructor
  · rintro ⟨d, ds, ⟨-, rfl⟩, -, hds⟩ e he
    exact hds e (List.mem_append_right others he)
  · intro hmore
    refine ⟨c, others ++ more, ⟨rfl, rfl⟩, hc, fun d hd => ?_⟩
    rcases List.mem_append.1 hd with hd | hd
    · exact hothers d hd
    · exact hmore d hd

/-- A function on texts finds the longest word of a class. -/
structure Finds (find : List Char → Option (List Char)) (P : List Char → Prop) : Prop where
  sound : ∀ {cs word}, find cs = some word → ∃ rest, cs = word ++ rest ∧ Longest P word rest
  complete : ∀ {word rest}, Longest P word rest → find (word ++ rest) = some word

/-- The longest digits are found, where there are any. The other classes of words are made from this
one or are like it. -/
theorem finds_digits : Finds findDigits IsDigits where
  sound {cs word} h := by
    have hword : cs.takeWhile Char.isDigit = word ∧ word ≠ [] := by
      simp only [findDigits] at h
      split at h
      · simp at h
      · next hne =>
        obtain rfl := Option.some.inj h
        exact ⟨rfl, fun hnil => hne (List.isEmpty_iff.2 hnil)⟩
    obtain ⟨rest, hcs, hdigits, hrest⟩ := takeWhile_eq_iff.1 hword.1
    exact ⟨rest, hcs, longest_digits_iff.2 ⟨⟨hword.2, hdigits⟩, hrest⟩⟩
  complete {word rest} h := by
    obtain ⟨hword, hrest⟩ := longest_digits_iff.1 h
    simp [findDigits, List.takeWhile_append_of_pos hword.2, hrest, hword.1]

/-- The longest name of a value is found, where there is one. -/
theorem finds_valueName : Finds findValueName IsValueName where
  sound {cs word} h := by
    unfold findValueName at h
    split at h
    · next cs =>
      obtain ⟨digits, hdigits, rfl⟩ := Option.map_eq_some_iff.1 h
      obtain ⟨rest, rfl, hlong⟩ := finds_digits.sound hdigits
      rw [longest_digits_iff] at hlong
      exact ⟨rest, rfl, longest_valueName_iff.2 ⟨⟨digits, rfl, hlong.1⟩, hlong.2⟩⟩
    · simp at h
  complete {word rest} h := by
    obtain ⟨⟨digits, rfl, hdigits⟩, hrest⟩ := longest_valueName_iff.1 h
    simp [findValueName, finds_digits.complete (longest_digits_iff.2 ⟨hdigits, hrest⟩)]

/-- The longest number is found, where there is one. The sign decides which of the two forms is
looked for. -/
theorem finds_integer : Finds findInteger IsInteger where
  sound {cs word} h := by
    unfold findInteger at h
    split at h
    · next cs =>
      obtain ⟨digits, hdigits, rfl⟩ := Option.map_eq_some_iff.1 h
      obtain ⟨rest, rfl, hlong⟩ := finds_digits.sound hdigits
      rw [longest_digits_iff] at hlong
      exact ⟨rest, rfl, longest_integer_iff.2 ⟨.inr ⟨digits, rfl, hlong.1⟩, hlong.2⟩⟩
    · obtain ⟨rest, hcs, hlong⟩ := finds_digits.sound h
      rw [longest_digits_iff] at hlong
      exact ⟨rest, hcs, longest_integer_iff.2 ⟨.inl hlong.1, hlong.2⟩⟩
  complete {word rest} h := by
    obtain ⟨hdigits | ⟨digits, rfl, hdigits⟩, hrest⟩ := longest_integer_iff.1 h
    · have hfind := finds_digits.complete (longest_digits_iff.2 ⟨hdigits, hrest⟩)
      unfold findInteger
      split
      · next heq =>
        obtain ⟨c, cs, rfl⟩ := List.exists_cons_of_ne_nil hdigits.1
        have hc := hdigits.2 c List.mem_cons_self
        simp [(List.cons.inj heq).1] at hc
      · exact hfind
    · simp [findInteger, finds_digits.complete (longest_digits_iff.2 ⟨hdigits, hrest⟩)]

/-- The longest opcode is found, where there is one. -/
theorem finds_opcode : Finds findOpcode IsOpcode where
  sound {cs word} h := by
    unfold findOpcode at h
    split at h
    · next c cs =>
      split at h
      · next hc =>
        obtain rfl := Option.some.inj h
        obtain ⟨rest, hcs, hothers, hrest⟩ :=
          takeWhile_eq_iff.1 (Eq.refl (cs.takeWhile continuesOpcode))
        refine ⟨rest, congrArg (c :: ·) hcs, longest_opcode_iff.2 ⟨⟨c, _, rfl, ?_, ?_⟩, hrest⟩⟩
        · simpa [startsOpcode] using hc
        · exact fun d hd => continuesOpcode_iff.1 (hothers d hd)
      · simp at h
    · simp at h
  complete {word rest} h := by
    obtain ⟨⟨c, others, rfl, hc, hothers⟩, hrest⟩ := longest_opcode_iff.1 h
    have hall : ∀ d ∈ others, continuesOpcode d = true :=
      fun d hd => continuesOpcode_iff.2 (hothers d hd)
    simp [findOpcode, startsOpcode, hc, List.takeWhile_append_of_pos hall, hrest]

end Finding

/-! ### The first line -/

/-- A text has at least one line, if only an empty one. -/
theorem exists_splitLines (text : List Char) : ∃ l ls, splitLines text = l :: ls := by
  fun_induction splitLines text with
  | case1 cs ih => exact ⟨_, _, rfl⟩
  | case2 cs _ ih => exact ⟨_, _, rfl⟩
  | case3 cs ih => exact ⟨_, _, rfl⟩
  | case4 c cs _ _ _ ih =>
      obtain ⟨l, ls, h⟩ := ih
      exact ⟨c :: l, ls, by simp [h]⟩
  | case5 => exact ⟨_, _, rfl⟩

/-- A line end ends an empty line, and what is behind it has the other lines. A carriage return with
a line feed behind it is one line end. -/
theorem splitLines_newline {nl cs : List Char} (h : findNewline (nl ++ cs) = some nl) :
    splitLines (nl ++ cs) = [] :: splitLines cs := by
  generalize htext : nl ++ cs = text at h ⊢
  fun_cases findNewline text with
  | case1 tail =>
      obtain rfl : ['\n'] = nl := Option.some.inj h
      obtain rfl : cs = tail := (List.cons.inj htext).2
      rfl
  | case2 tail =>
      obtain rfl : ['\r', '\n'] = nl := Option.some.inj h
      obtain rfl : cs = tail := (List.cons.inj (List.cons.inj htext).2).2
      rfl
  | case3 tail hne =>
      obtain rfl : ['\r'] = nl := by simpa [findNewline, hne] using h
      obtain rfl : cs = tail := (List.cons.inj htext).2
      rw [splitLines]
      exact hne
  | case4 => simp_all [findNewline]

example : splitLines "a\r\n\rb\n".toList = ["a".toList, [], "b".toList, []] := by decide

/-- A character that is no line end is at the front of the first line. -/
theorem splitLines_cons {c : Char} (hc : isLineEnd c = false) (cs : List Char) :
    splitLines (c :: cs) = (splitLines cs).modifyHead (c :: ·) := by
  simp only [isLineEnd, Bool.or_eq_false_iff, beq_eq_false_iff_ne] at hc
  rw [splitLines]
  all_goals simp_all

/-- Where no line end is next, none is found. -/
theorem findNewline_cons {c : Char} (hc : isLineEnd c = false) (cs : List Char) :
    findNewline (c :: cs) = none := by
  simp only [isLineEnd, Bool.or_eq_false_iff, beq_eq_false_iff_ne] at hc
  unfold findNewline
  split <;> simp_all

/-- A text is empty, or starts with a line end, or goes on with its first line. -/
theorem line_cases (text : List Char) :
    text = [] ∨ (∃ nl cs, text = nl ++ cs ∧ findNewline text = some nl) ∨
      ∃ c cs, text = c :: cs ∧ isLineEnd c = false := by
  fun_cases splitLines text with
  | case1 cs => exact .inr (.inl ⟨['\r', '\n'], cs, rfl, rfl⟩)
  | case2 cs h =>
      refine .inr (.inl ⟨['\r'], cs, rfl, ?_⟩)
      unfold findNewline
      split <;> simp_all
  | case3 cs => exact .inr (.inl ⟨['\n'], cs, rfl, rfl⟩)
  | case4 c cs h h' h'' =>
      refine .inr (.inr ⟨c, cs, rfl, ?_⟩)
      simp_all [isLineEnd]
  | case5 => exact .inl rfl

/-- Characters that are no line ends are at the front of the first line. The induction is on these
characters. -/
theorem splitLines_append {w rest l : List Char} {ls : List (List Char)}
    (hw : ∀ c ∈ w, isLineEnd c = false) (h : splitLines rest = l :: ls) :
    splitLines (w ++ rest) = (w ++ l) :: ls := by
  induction w with
  | nil => exact h
  | cons c w ih =>
      rw [List.forall_mem_cons] at hw
      rw [List.cons_append, splitLines_cons hw.1, ih hw.2]
      rfl

/-- A first line that goes on with a word is one of a text that does so. -/
theorem exists_of_splitLines_append {text w l : List Char} {ls : List (List Char)}
    (h : splitLines text = (w ++ l) :: ls) :
    ∃ rest, text = w ++ rest ∧ splitLines rest = l :: ls := by
  induction w generalizing text with
  | nil => exact ⟨text, rfl, h⟩
  | cons c w ih =>
      obtain rfl | ⟨nl, cs, rfl, hnl⟩ | ⟨d, cs, rfl, hd⟩ := line_cases text
      · simp [splitLines] at h
      · simp [splitLines_newline hnl] at h
      · obtain ⟨l', ls', hcs⟩ := exists_splitLines cs
        rw [splitLines_cons hd, hcs] at h
        obtain ⟨⟨rfl, hl⟩, rfl⟩ : (d = c ∧ l' = w ++ l) ∧ ls' = ls := by simpa using h
        obtain ⟨rest, rfl, hrest⟩ := ih (hl ▸ hcs)
        exact ⟨rest, rfl, hrest⟩

/-- Where the first line is over, the text is, or there is a line end with further lines. -/
theorem splitLines_eq_nil_cons {text : List Char} {ls : List (List Char)}
    (h : splitLines text = [] :: ls) :
    (text = [] ∧ ls = []) ∨
      ∃ nl rest, text = nl ++ rest ∧ findNewline text = some nl ∧ splitLines rest = ls := by
  obtain rfl | ⟨nl, cs, rfl, hnl⟩ | ⟨c, cs, rfl, hc⟩ := line_cases text
  · exact .inl ⟨rfl, by simpa [splitLines] using h.symm⟩
  · rw [splitLines_newline hnl] at h
    exact .inr ⟨nl, cs, rfl, hnl, (List.cons.inj h).2⟩
  · obtain ⟨l, ls', hcs⟩ := exists_splitLines cs
    simp [splitLines_cons hc, hcs] at h

/-- The first line of a text is what comes before the first line end. -/
theorem takeWhile_of_splitLines {text l : List Char} {ls : List (List Char)}
    (h : splitLines text = l :: ls) : text.takeWhile (!isLineEnd ·) = l := by
  induction text generalizing l ls with
  | nil => simp_all [splitLines]
  | cons c cs ih =>
      by_cases hc : isLineEnd c = true
      · obtain hnil | ⟨nl, cs', heq, hnl⟩ | ⟨d, cs', heq, hd⟩ := line_cases (c :: cs)
        · simp at hnil
        · rw [heq, splitLines_newline (heq ▸ hnl)] at h
          simp [hc, (List.cons.inj h).1.symm]
        · simp_all
      · have hc' : isLineEnd c = false := by simpa using hc
        obtain ⟨l', ls', hcs⟩ := exists_splitLines cs
        rw [splitLines_cons hc', hcs] at h
        obtain ⟨rfl, rfl⟩ : c :: l' = l ∧ ls' = ls := by simpa using h
        simp [hc', ih hcs]

/-- Whether a word is the longest depends on its line only, if words do not reach over lines. -/
theorem longest_line_iff {P : List Char → Prop} {word rest l : List Char} {ls : List (List Char)}
    (hP : ∀ cs, P cs → ∀ c ∈ cs, isLineEnd c = false) (h : splitLines rest = l :: ls) :
    Longest P word l ↔ Longest P word rest := by
  constructor
  · intro hl
    refine ⟨hl.mem, fun more after hrest hmore => ?_⟩
    have hends := List.forall_mem_append.1 (hP _ hmore)
    obtain ⟨l', ls', hafter⟩ := exists_splitLines after
    rw [hrest, splitLines_append hends.2 hafter] at h
    exact hl.longest more l' (List.cons.inj h).1.symm hmore
  · intro hrest
    refine ⟨hrest.mem, fun more after hl hmore => ?_⟩
    obtain ⟨tail, htext, -⟩ := exists_of_splitLines_append (w := l) (l := []) (by simpa using h)
    exact hrest.longest more (after ++ tail) (by rw [htext, hl, List.append_assoc]) hmore

/-- Characters of some class do not end a line, if the class is without line ends. -/
theorem isLineEnd_eq_false {p : Char → Bool} {c : Char} (hc : p c = true)
    (hp : p '\n' = false ∧ p '\r' = false) : isLineEnd c = false := by
  have hne : ∀ d, p d = false → c ≠ d := fun d hd hcd => by simp [hcd, hd] at hc
  simp [isLineEnd, hne _ hp.1, hne _ hp.2]

/-- Blanks are no line ends. -/
theorem Blanks.not_isLineEnd {b : List Char} (h : Blanks b) : ∀ c ∈ b, isLineEnd c = false := by
  intro c hc
  rcases h c hc with rfl | rfl <;> rfl

/-- Digits are no line ends. -/
theorem IsDigits.not_isLineEnd {cs : List Char} (h : IsDigits cs) :
    ∀ c ∈ cs, isLineEnd c = false :=
  fun c hc => isLineEnd_eq_false (h.2 c hc) (by decide)

/-- There is no line end in the name of a value. -/
theorem IsValueName.not_isLineEnd {cs : List Char} (h : IsValueName cs) :
    ∀ c ∈ cs, isLineEnd c = false := by
  obtain ⟨digits, rfl, hdigits⟩ := h
  exact List.forall_mem_cons.2 ⟨rfl, hdigits.not_isLineEnd⟩

/-- There is no line end in a number. -/
theorem IsInteger.not_isLineEnd {cs : List Char} (h : IsInteger cs) :
    ∀ c ∈ cs, isLineEnd c = false := by
  obtain hdigits | ⟨digits, rfl, hdigits⟩ := h
  · exact hdigits.not_isLineEnd
  · exact List.forall_mem_cons.2 ⟨rfl, hdigits.not_isLineEnd⟩

/-- There is no line end in an opcode. -/
theorem IsOpcode.not_isLineEnd {cs : List Char} (h : IsOpcode cs) :
    ∀ c ∈ cs, isLineEnd c = false := by
  obtain ⟨c, others, rfl, hc, hothers⟩ := h
  have hc' : startsOpcode c = true := by simpa [startsOpcode] using hc
  refine List.forall_mem_cons.2 ⟨isLineEnd_eq_false hc' (by decide), fun d hd => ?_⟩
  exact isLineEnd_eq_false (continuesOpcode_iff.2 (hothers d hd)) (by decide)

/-- There is at most one line more than there are characters. -/
theorem length_splitLines_le (text : List Char) : (splitLines text).length ≤ text.length + 1 := by
  fun_induction splitLines text with
  | case1 cs ih => simp; omega
  | case2 cs _ ih => simpa using ih
  | case3 cs ih => simpa using ih
  | case4 c cs _ _ _ ih => simp; omega
  | case5 => simp

end StackForm.Text

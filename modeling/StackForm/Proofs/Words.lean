import StackForm.Proofs.RoundTrip

/-!
# `StackForm.Proofs.Words`: where a printed word ends

Printed forests and reports are made of words: names of values and opcodes, and numbers. None of
them has a character that may stand behind a word, so where a word ends can be seen from the text
alone (`word_unique`). Each kind of word comes with its own form of this, which also gives back
what the word stands for: `valueName_unique` for a value and `number_unique` for a number.
-/

set_option autoImplicit false

namespace StackForm

/-- Whether a word ends before a character. These are the characters that printed texts put behind
a word: blanks, line ends and punctuation. -/
def isDelimiter (c : Char) : Bool :=
  c == ' ' || c == '\n' || c == ')' || c == ':' || c == '=' || c == ','

/-- A word has no character before which it would end. -/
def IsPlain (w : List Char) : Prop := ∀ c ∈ w, isDelimiter c = false

/-- A text begins with a character before which a word ends. This is what has to stand behind a
word for its end to be seen. -/
def Delimited (rest : List Char) : Prop := rest.head?.any isDelimiter = true

instance (rest : List Char) : Decidable (Delimited rest) :=
  inferInstanceAs (Decidable (rest.head?.any isDelimiter = true))

/-- What starts with a delimiter is delimited. -/
theorem delimited_cons {c : Char} (hc : isDelimiter c = true) (rest : List Char) :
    Delimited (c :: rest) := hc

/-- What follows does not matter: a text shows by its first character that it is delimited. -/
theorem Delimited.append {text : List Char} (h : Delimited text) (rest : List Char) :
    Delimited (text ++ rest) := by
  cases text with
  | nil => cases h
  | cons c cs => exact h

/-- A plain word does not reach into a text that begins with a delimiter. Here `more` is what the
word would have of that text, and it has none. -/
theorem IsPlain.eq_nil {w more rest : List Char} (hw : IsPlain (w ++ more))
    (hrest : Delimited (more ++ rest)) : more = [] := by
  cases more with
  | nil => rfl
  | cons c cs =>
      -- The delimiter would be a character of the word.
      have hplain := hw c (by simp)
      have hdelimiter : isDelimiter c = true := hrest
      rw [hdelimiter] at hplain
      cases hplain

/-- Where a word ends is determined, since neither of two words can go on where the other ends. -/
theorem word_unique {w w' rest rest' : List Char} (hw : IsPlain w) (hw' : IsPlain w')
    (hrest : Delimited rest) (hrest' : Delimited rest') (h : w ++ rest = w' ++ rest') :
    w = w' ∧ rest = rest' := by
  rcases List.append_eq_append_iff.mp h with ⟨more, rfl, rfl⟩ | ⟨more, rfl, rfl⟩
  · obtain rfl := hw'.eq_nil hrest
    exact ⟨(List.append_nil w).symm, rfl⟩
  · obtain rfl := hw.eq_nil hrest'
    exact ⟨List.append_nil w', rfl⟩

/-- A word that is given can be looked through for delimiters. -/
theorem isPlain_of_all {w : List Char} (h : w.all (fun c => !isDelimiter c) = true) :
    IsPlain w := by
  intro c hc
  simpa using List.all_eq_true.mp h c hc

/-! ### Kinds of words -/

/-- No digit is a delimiter. Every word with a number in it is plain because of this. -/
theorem isDelimiter_of_isDigit {c : Char} (h : c.isDigit = true) : isDelimiter c = false := by
  by_contra hne
  simp only [isDelimiter, Bool.not_eq_false, Bool.or_eq_true, beq_iff_eq] at hne
  rcases hne with ((((rfl | rfl) | rfl) | rfl) | rfl) | rfl <;> exact absurd h (by decide)

/-- The digits of a number are a word. -/
theorem isPlain_toDigits (n : Nat) : IsPlain (Nat.toDigits 10 n) := by
  intro c hc
  obtain ⟨d, ds, hn, hdigits⟩ := exists_toDigits n
  exact isDelimiter_of_isDigit (hdigits c (hn ▸ hc))

/-- The name of a value is a word: a letter and digits. -/
theorem isPlain_valueName (pos : Nat) : IsPlain (valueName pos).toList := by
  rw [toList_valueName]
  intro c hc
  rcases List.mem_cons.mp hc with rfl | hc
  · rfl
  · exact isPlain_toDigits pos c hc

/-- A constant is a word, with its minus sign if it has one. -/
theorem isPlain_decimal (v : Word) : IsPlain v.decimal.toList := by
  rw [Word.toList_decimal]
  split
  · exact isPlain_toDigits _
  · intro c hc
    rcases List.mem_cons.mp hc with rfl | hc
    · rfl
    · exact isPlain_toDigits _ c hc

/-- The name of an opcode is a word. There is no rule for the names, so each one is looked at. -/
theorem isPlain_name (op : Opcode) : IsPlain op.name.toList := by
  refine isPlain_of_all ?_
  cases op <;> decide

/-- No two words of the machine have the same decimal text, since the text can be read back. -/
theorem Word.decimal_injective {v w : Word} (h : v.decimal.toList = w.decimal.toList) : v = w := by
  have hread := Word.ofInt?_decimal v
  rw [h, Word.ofInt?_decimal w] at hread
  exact (Option.some.inj hread).symm

/-! ### What a word stands for -/

section

variable {rest rest' : List Char} (hrest : Delimited rest) (hrest' : Delimited rest')

include hrest hrest'

/-- The name of a value in front of a delimiter gives the value, and what follows it. -/
theorem valueName_unique {i j : Nat}
    (h : (valueName i).toList ++ rest = (valueName j).toList ++ rest') : i = j ∧ rest = rest' := by
  obtain ⟨hname, hsame⟩ := word_unique (isPlain_valueName i) (isPlain_valueName j) hrest hrest' h
  exact ⟨valueName_injective (String.toList_injective hname), hsame⟩

/-- A number in front of a delimiter can be read off, and what follows it. -/
theorem number_unique {m n : Nat}
    (h : (toString m).toList ++ rest = (toString n).toList ++ rest') : m = n ∧ rest = rest' := by
  -- The name of a value is a letter and its number.
  refine valueName_unique hrest hrest' ?_
  simpa [valueName] using h

/-- A constant in front of a delimiter can be read off, and what follows it. -/
theorem decimal_unique {v w : Word}
    (h : v.decimal.toList ++ rest = w.decimal.toList ++ rest') : v = w ∧ rest = rest' := by
  obtain ⟨hdecimal, hsame⟩ := word_unique (isPlain_decimal v) (isPlain_decimal w) hrest hrest' h
  exact ⟨Word.decimal_injective hdecimal, hsame⟩

/-- The name of an opcode in front of a delimiter gives the opcode, and what follows it. -/
theorem name_unique {op op' : Opcode}
    (h : op.name.toList ++ rest = op'.name.toList ++ rest') : op = op' ∧ rest = rest' := by
  obtain ⟨hname, hsame⟩ := word_unique (isPlain_name op) (isPlain_name op') hrest hrest' h
  exact ⟨Opcode.name_injective (String.toList_injective hname), hsame⟩

end

/-- The name of a value in front of a fixed text, which opens with a delimiter. -/
theorem valueName_before (fixed : List Char) (hfixed : Delimited fixed) {i j : Nat}
    {tail tail' : List Char}
    (h : (valueName i).toList ++ (fixed ++ tail) = (valueName j).toList ++ (fixed ++ tail')) :
    i = j ∧ tail = tail' := by
  obtain ⟨hsame, hrest⟩ := valueName_unique (hfixed.append tail) (hfixed.append tail') h
  exact ⟨hsame, List.append_cancel_left hrest⟩

/-- A number in front of a fixed text, which opens with a delimiter. -/
theorem number_before (fixed : List Char) (hfixed : Delimited fixed) {m n : Nat}
    {tail tail' : List Char}
    (h : (toString m).toList ++ (fixed ++ tail) = (toString n).toList ++ (fixed ++ tail')) :
    m = n ∧ tail = tail' := by
  obtain ⟨hsame, hrest⟩ := number_unique (hfixed.append tail) (hfixed.append tail') h
  exact ⟨hsame, List.append_cancel_left hrest⟩

end StackForm

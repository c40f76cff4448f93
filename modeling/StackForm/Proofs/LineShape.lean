import StackForm.Proofs.LineReading

/-!
# `StackForm.Proofs.LineShape`: only texts of good lines are read

If a text is read, then all its lines are of the right form (`Listing.lines_of_ofText`).
Together with `Listing.ofText_of_lines` this makes the grammar of texts and the language of lines
the same (`Listing.ofText_iff`, and `Listing.line_language` for the statements alone).

The proof goes from the end of a text to its front. `Matcher.Extends` says what reading a piece
does to the text behind it: if that text has one property, then the text with the piece in front
has another. Nothing has to be known here about what a matcher would have read instead, since
every piece that is read has a form of its own.
-/

set_option autoImplicit false

namespace StackForm.Text

/-! ### From the end to the front -/

namespace Matcher

variable {α β : Type}

/-- What a matcher reads extends a text with the property `Q` to one with `Q'`: whenever the matcher
succeeds and `Q` holds of what it leaves, `Q'` holds of what it started from. Nothing is asked of a
matcher that fails. -/
def Extends (m : Matcher α) (Q Q' : List Char → Prop) : Prop :=
  ∀ r t a r' t', m r t = (some (a, r'), t') → Q r'.rest → Q' r.rest

namespace Extends

variable {m : Matcher α} {Q Q' Q'' : List Char → Prop}

/-- The property of the longer text may be weakened. This brings what a part of a rule gives into
the form that the part in front of it asks for. -/
theorem imp (h : Extends m Q Q') (hQ : ∀ cs, Q' cs → Q'' cs) : Extends m Q Q'' :=
  fun r t a r' t' hm hr' => hQ _ (h r t a r' t' hm hr')

/-- The property of the text that is left may be strengthened, for a part that is used where more is
known. -/
theorem of_imp (h : Extends m Q' Q'') (hQ : ∀ cs, Q cs → Q' cs) : Extends m Q Q'' :=
  fun r t a r' t' hm hr' => h r t a r' t' hm (hQ _ hr')

/-- A matcher that reads nothing leaves the text as it is, so the one property has to give the
other. This covers the position, the kept comments and `pure`. -/
theorem of_unread (h : ∀ r t a r' t', m r t = (some (a, r'), t') → r'.rest = r.rest)
    (hQ : ∀ cs, Q cs → Q' cs) : Extends m Q Q' :=
  fun r t a r' t' hm hr' => hQ _ (h r t a r' t' hm ▸ hr')

/-- Succeeding at once extends a text by nothing. -/
theorem pure (a : α) : Extends (Pure.pure a) Q Q :=
  of_unread (fun r t a r' t' hm => by cases hm; rfl) fun _ h => h

/-- Two matchers one after the other. The property in the middle is that of the text between what
the first has read and what the second reads, so a rule of the grammar is taken from its last piece
to its first. -/
theorem bind {f : α → Matcher β} (hm : Extends m Q' Q'') (hf : ∀ a, Extends (f a) Q Q') :
    Extends (m >>= f) Q Q'' := by
  intro r t b r'' t'' h hr''
  simp only [Bind.bind] at h
  split at h
  · next a r' t' hfirst => exact hm r t a r' t' hfirst (hf a r' t' b r'' t'' h hr'')
  · simp at h

/-- Asking for the position reads nothing. -/
theorem offset_bind {f : Nat → Matcher β} (hf : ∀ n, Extends (f n) Q Q') :
    Extends (offset >>= f) Q Q' :=
  .bind (of_unread (fun r t a r' t' hm => by cases hm; rfl) fun _ h => h) hf

/-- A rule reads what its body reads. What is put on record of a failed attempt does not matter. -/
theorem rule {name : Rule} (h : Extends m Q Q') : Extends (Matcher.rule name m) Q Q' := by
  intro r t a r' t' hm hr'
  unfold Matcher.rule at hm
  split at hm
  · next found t₁ hfound =>
    cases hm
    exact h r t a r' t' hfound hr'
  · simp at hm

/-- Of two alternatives either may be the one that read, so both have to extend the text. -/
theorem orElse {n : Matcher α} (hm : Extends m Q Q') (hn : Extends n Q Q') :
    Extends (m.orElse n) Q Q' := by
  intro r t a r' t' h hr'
  unfold Matcher.orElse at h
  split at h
  · next found t₁ hfound =>
    cases h
    exact hm r t a r' t' hfound hr'
  · next t₁ _ => exact hn r t₁ a r' t' h hr'

/-- An optional piece was either read or is not there, and then nothing was read. -/
theorem optional (h : Extends m Q Q') (hQ : ∀ cs, Q cs → Q' cs) : Extends m.optional Q Q' := by
  intro r t a r' t' hm hr'
  unfold Matcher.optional at hm
  split at hm
  · next a r₁ t₁ hfound =>
    cases hm
    exact h r t a r' t' hfound hr'
  · cases hm
    exact hQ _ hr'

/-- A repetition keeps a property that every round keeps. The induction is on the bound of the
rounds, from which the rounds themselves are counted down. -/
theorem manyUpTo (h : Extends m Q Q) (fuel : Nat) : Extends (m.manyUpTo fuel) Q Q := by
  induction fuel with
  | zero =>
      intro r t a r' t' hm hr'
      cases hm
      exact hr'
  | succ fuel ih =>
      intro r t as r' t' hm hr'
      unfold Matcher.manyUpTo at hm
      split at hm
      · cases hm
        exact hr'
      · next a r₁ t₁ hfirst =>
        -- The later rounds come first: they are behind this one in the text.
        split at hm
        · next as₁ r₂ t₂ hmore =>
          cases hm
          exact h r t a r₁ t₁ hfirst (ih r₁ t₁ _ r' t' hmore hr')
        · simp at hm

/-- A repetition keeps a property that every round keeps, however many rounds there were. -/
theorem many (h : Extends m Q Q) : Extends m.many Q Q :=
  fun r t as r' t' hm hr' => h.manyUpTo (r.size - r.offset + 1) r t as r' t' hm hr'

/-- A scan reads the characters that its function finds. They have to be the front of the text, and
to extend what is behind them. -/
theorem scan {find : List Char → Option (List Char)}
    (h : ∀ text cs, find text = some cs → ∃ rest, text = cs ++ rest ∧ (Q rest → Q' text)) :
    Extends (Matcher.scan find) Q Q' := by
  intro r t cs r' t' hm hr'
  unfold Matcher.scan at hm
  split at hm
  · next hfind =>
    cases hm
    obtain ⟨rest, hrest, hQ⟩ := h _ _ hfind
    rw [Reader.rest_advance hrest] at hr'
    exact hQ hr'
  · simp at hm

/-- A character reads itself, so it extends a text by one character. -/
theorem char {c : Char} (h : ∀ rest, Q rest → Q' (c :: rest)) : Extends (Matcher.char c) Q Q' := by
  intro r t a r' t' hm hr'
  unfold Matcher.char at hm
  split at hm
  · next d cs hrest =>
    split at hm
    · next hcd =>
      cases hm
      have hd : r.rest = [d] ++ cs := hrest
      rw [Reader.rest_advance hd] at hr'
      rw [hrest, ← hcd]
      exact h cs hr'
    · simp at hm
  · simp at hm

end Extends

end Matcher

open Matcher

/-! ### Within a line -/

/-- What is left of the current line has the property `P`, and all later lines are of the right
form. A reader that stands within a line has a text of which this can be said, and `P` is what the
grammar still expects of that line. -/
def Formed (P : List Char → Prop) (text : List Char) : Prop :=
  ∃ l ls, splitLines text = l :: ls ∧ P l ∧ ∀ l' ∈ ls, ∃ line : Line, line.Written l'

namespace Formed

variable {P P' : List Char → Prop} {text w : List Char}

/-- The property of the current line may be weakened. The later lines stay as they are. -/
theorem imp (h : Formed P text) (hP : ∀ l, P l → P' l) : Formed P' text := by
  obtain ⟨l, ls, hsplit, hl, hls⟩ := h
  exact ⟨l, ls, hsplit, hP l hl, hls⟩

/-- Characters in front of a text, none of them a line end, are at the front of its current line.
All words of a statement are put in front of a text in this way. -/
theorem append (h : Formed P text) (hw : ∀ c ∈ w, isLineEnd c = false)
    (hP : ∀ l, P l → P' (w ++ l)) : Formed P' (w ++ text) := by
  obtain ⟨l, ls, hsplit, hl, hls⟩ := h
  exact ⟨w ++ l, ls, splitLines_append hw hsplit, hP l hl, hls⟩

end Formed

section Words

variable {P P' : List Char → Prop}

/-- A word extends the current line by itself. It is the longest of its class in the text, and so it
is in the line, because a word does not reach over a line end. -/
theorem lexeme_extends {name : Rule} {find : List Char → Option (List Char)}
    {C : List Char → Prop} (hfind : Finds find C) (hC : ∀ cs, C cs → ∀ c ∈ cs, isLineEnd c = false)
    (hP : ∀ (word : String) l, Longest C word.toList l → P l → P' (word.toList ++ l)) :
    Extends (Grammar.lexeme name find) (Formed P) (Formed P') := by
  refine .rule (.offset_bind fun start => .bind (.scan fun text cs hcs => ?_) fun found =>
    .offset_bind fun stop => .pure _)
  obtain ⟨rest, rfl, hlongest⟩ := hfind.sound hcs
  refine ⟨rest, rfl, fun ⟨l, ls, hsplit, hl, hls⟩ => ?_⟩
  -- The word ends before its line does, so the line tells as much as the text what follows it.
  have hline : Longest C cs l := (longest_line_iff hC hsplit).2 hlongest
  have hword := hP (String.ofList cs) l (by simpa using hline) hl
  exact ⟨cs ++ l, ls, splitLines_append (hC cs hlongest.mem) hsplit, by simpa using hword, hls⟩

/-- A character that is no line end extends the current line by itself. There are two of them in the
grammar, the comma and the equals sign. -/
theorem char_extends {c : Char} (hc : isLineEnd c = false) (hP : ∀ l, P l → P' (c :: l)) :
    Extends (Matcher.char c) (Formed P) (Formed P') :=
  .char fun _ h => h.append (w := [c]) (by simpa using hc) hP

/-- What is left of a line may have blanks in front, or else be a comment. Every place of the
grammar where something is skipped has a property of this kind. -/
structure Skipping (P : List Char → Prop) : Prop where
  blanks : ∀ b l, Blanks b → P l → P (b ++ l)
  comment : ∀ cs, P [] → P ('#' :: cs)

/-- Blanks in front of a line keep a property that allows them. What is scanned are just the
characters that `Blanks` asks for. -/
theorem spacing_extends (hP : Skipping P) : Extends Grammar.spacing (Formed P) (Formed P) := by
  refine .bind (.scan fun text cs hcs => ?_) fun _ => .pure _
  obtain ⟨rest, htext, hblanks, -⟩ := takeWhile_eq_iff.1 (Option.some.inj hcs)
  have hb : Blanks cs := fun c hc => by simpa [isSpacing] using hblanks c hc
  refine ⟨rest, htext, fun h => ?_⟩
  rw [htext]
  exact h.append hb.not_isLineEnd fun l hl => hP.blanks cs l hb hl

/-- A comment keeps a property that allows it. It runs to the end of its line, so the line behind it
is empty, and it is only there that the property has to hold. -/
theorem comment_extends (hP : Skipping P) : Extends Grammar.comment (Formed P) (Formed P) := by
  have hkeep : ∀ cs, Extends (Grammar.keepComment cs) (Formed P) (Formed P) := fun cs =>
    .of_unread (fun r t a r' t' hm => by cases hm; rfl) fun _ h => h
  refine .bind (.rule (.scan fun text cs hcs => ?_)) hkeep
  unfold findComment at hcs
  split at hcs
  · next text =>
    obtain rfl := Option.some.inj hcs
    generalize hword : text.takeWhile (!isLineEnd ·) = word
    obtain ⟨rest, htext, hends, hrest⟩ := takeWhile_eq_iff.1 hword
    refine ⟨rest, congrArg ('#' :: ·) htext, fun ⟨l, ls, hsplit, hl, hls⟩ => ?_⟩
    -- The line goes no further than the comment.
    obtain rfl : [] = l := hrest ▸ takeWhile_of_splitLines hsplit
    have hin : ∀ c ∈ '#' :: word, isLineEnd c = false :=
      List.forall_mem_cons.2 ⟨rfl, fun c hc => by simpa using hends c hc⟩
    have hline := splitLines_append hin hsplit
    rw [htext]
    exact ⟨'#' :: word, ls, by simpa using hline, hP.comment word hl, hls⟩
  · simp at hcs

/-- Blanks and comments in any order keep a property that allows both, since every round of the
repetition does. -/
theorem skip_extends (hP : Skipping P) : Extends Grammar.skip (Formed P) (Formed P) :=
  .bind (spacing_extends hP) fun _ =>
    .bind (.many (.bind (comment_extends hP) fun _ => spacing_extends hP)) fun _ => .pure _

/-- A list with blanks and comments between its elements keeps a property that the elements keep and
that allows what is between them. -/
theorem spaced_extends {α : Type} {m : Matcher α} (hm : Extends m (Formed P) (Formed P))
    (hP : Skipping P) : Extends (Grammar.spaced m) (Formed P) (Formed P) :=
  .bind (.optional (.bind hm fun _ => .bind (.many (.bind (skip_extends hP) fun _ => hm))
    fun _ => .pure _) fun _ h => h) fun _ => .pure _

end Words

/-! ### The parts of a line -/

/-- Blanks behind blanks are blanks. -/
theorem Blanks.append {b b' : List Char} (hb : Blanks b) (hb' : Blanks b') : Blanks (b ++ b') := by
  intro c hc
  rcases List.mem_append.1 hc with hc | hc
  · exact hb c hc
  · exact hb' c hc

/-- The end of a line may have blanks in front, and may be a comment. Blanks in front of a comment
are part of the end too. -/
theorem skipping_closing : Skipping fun l => ∃ c, Closing c l where
  blanks b l hb hl := by
    obtain ⟨c, hb' | ⟨hb', cs⟩⟩ := hl
    · exact ⟨none, .blanks (hb.append hb')⟩
    · rw [← List.append_assoc]
      exact ⟨_, .comment (hb.append hb') cs⟩
  comment cs _ := ⟨_, .comment (b := []) blanks_nil cs⟩

/-- Behind an operand there may be blanks. A comment there ends the line, so no operand follows. -/
theorem skipping_furtherOperands : Skipping fun l => ∃ os c, FurtherOperands os c l where
  blanks b l hb hl := by
    obtain ⟨os, c, hl⟩ := hl
    cases hl with
    | nil hl =>
        obtain ⟨c, hl⟩ := skipping_closing.blanks b l hb ⟨c, hl⟩
        exact ⟨[], c, .nil hl⟩
    | cons hb' hb'' ho hos =>
        rw [← List.append_assoc]
        exact ⟨_, _, .cons (hb.append hb') hb'' ho hos⟩
  comment cs _ := ⟨[], _, .nil (.comment (b := []) blanks_nil cs)⟩

/-- Behind an opcode there may be blanks. A comment there ends the line, so the opcode has no
operands. -/
theorem skipping_operands : Skipping fun l => ∃ os c, Operands os c l where
  blanks b l hb hl := by
    obtain ⟨os, c, hl⟩ := hl
    cases hl with
    | nil hl =>
        obtain ⟨c, hl⟩ := skipping_closing.blanks b l hb ⟨c, hl⟩
        exact ⟨[], c, .nil hl⟩
    | cons hb' ho hos =>
        rw [← List.append_assoc]
        exact ⟨_, _, .cons (hb.append hb') ho hos⟩
  comment cs _ := ⟨[], _, .nil (.comment (b := []) blanks_nil cs)⟩

/-- A whole line may have blanks in front. A line that is a comment has no statement. -/
theorem skipping_line : Skipping fun l => ∃ line : Line, line.Written l where
  blanks b l hb hl := by
    obtain ⟨line, hl⟩ := hl
    cases hl with
    | blank hl =>
        obtain ⟨c, hl⟩ := skipping_closing.blanks b l hb ⟨_, hl⟩
        exact ⟨⟨none, c⟩, .blank hl⟩
    | statement hb' hlabel hop hos =>
        rw [← List.append_assoc]
        exact ⟨_, .statement (hb.append hb') hlabel hop hos⟩
  comment cs _ := ⟨_, .blank (.comment (b := []) blanks_nil cs)⟩

/-- Blanks in front of what has a property. In the middle of a statement this is what skipping leads
to, since a comment there would leave the statement without its end. -/
def BlanksThen (P : List Char → Prop) (l : List Char) : Prop :=
  ∃ b l', Blanks b ∧ P l' ∧ l = b ++ l'

/-- There may be no blanks at all in front of what has the property. -/
theorem BlanksThen.of_self {P : List Char → Prop} {l : List Char} (h : P l) : BlanksThen P l :=
  ⟨[], l, blanks_nil, h, rfl⟩

/-- Where something has to follow, only blanks can have been skipped: a comment would have reached
the end of the line, with nothing behind it. -/
theorem skipping_blanksThen {P : List Char → Prop} (hP : ¬ P []) : Skipping (BlanksThen P) where
  blanks b l hb hl := by
    obtain ⟨b', l', hb', hl', rfl⟩ := hl
    exact ⟨b ++ b', l', hb.append hb', hl', (List.append_assoc b b' l').symm⟩
  comment cs hl := by
    obtain ⟨b', l', hb', hl', hnil⟩ := hl
    obtain rfl := (List.append_eq_nil_iff.1 hnil.symm).2
    exact absurd hl' hP

namespace Grammar

/-- An operand and what may follow it. The word is the longest of its class, so what follows does
not continue it. -/
def OperandAhead (l : List Char) : Prop :=
  ∃ o l' os c, OperandWord.IsLongest o l' ∧ FurtherOperands os c l' ∧ l = o.text.toList ++ l'

/-- An operand is not empty, so the end of a line is none. Skipping in front of an operand can
therefore not have met a comment. -/
theorem not_operandAhead_nil : ¬ OperandAhead [] := by
  intro ⟨o, l', os, c, ho, _, hnil⟩
  obtain ⟨d, cs, htext, -⟩ := ho.exists_cons
  simp [htext] at hnil

/-- An operand in front of what may follow one. The two alternatives are the two classes of
words. -/
theorem operand_extends :
    Extends operand (Formed fun l => ∃ os c, FurtherOperands os c l) (Formed OperandAhead) := by
  refine .orElse ?_ ?_
  · refine .bind (lexeme_extends finds_valueName (fun _ => IsValueName.not_isLineEnd) ?_)
      fun _ => .pure _
    exact fun word l hword ⟨os, c, hos⟩ => ⟨.name word, l, os, c, hword, hos, rfl⟩
  · refine .bind (lexeme_extends finds_integer (fun _ => IsInteger.not_isLineEnd) ?_)
      fun _ => .pure _
    exact fun word l hword ⟨os, c, hos⟩ => ⟨.integer word, l, os, c, hword, hos, rfl⟩

/-- A comma and an operand, in front of what may follow an operand, are themselves something that
may follow an operand. -/
theorem furtherOperand_extends :
    Extends furtherOperand (Formed fun l => ∃ os c, FurtherOperands os c l)
      (Formed fun l => ∃ os c, FurtherOperands os c l) := by
  have hskip := skip_extends (skipping_blanksThen not_operandAhead_nil)
  refine .bind (char_extends rfl ?_) fun _ => .bind hskip fun _ => ?_
  · intro l ⟨b, l', hb, ⟨o, l'', os, c, ho, hos, hl'⟩, hl⟩
    rw [hl, hl']
    exact ⟨o :: os, c, .cons (b := []) blanks_nil hb ho hos⟩
  · exact operand_extends.imp fun text h => h.imp fun l hl => .of_self hl

/-- Operands in front of the end of a line are a list of operands, of which the first has no
comma. -/
theorem operands_extends :
    Extends operands (Formed fun l => ∃ c, Closing c l) (Formed OperandAhead) := by
  refine .bind operand_extends fun _ => .bind (skip_extends skipping_furtherOperands) fun _ => ?_
  refine .bind (spaced_extends furtherOperand_extends skipping_furtherOperands) fun _ => ?_
  exact (Extends.pure _).of_imp fun text h => h.imp fun l ⟨c, hl⟩ => ⟨[], c, .nil hl⟩

/-- An opcode and what may follow it. This is the line without its label. -/
def OpcodeAhead (l : List Char) : Prop :=
  ∃ (op : String) (l' : List Char) (os : List OperandWord) (c : Option (List Char)),
    Longest IsOpcode op.toList l' ∧ Operands os c l' ∧ l = op.toList ++ l'

/-- An opcode is not empty, so the end of a line is none. Skipping in front of an opcode can
therefore not have met a comment. -/
theorem not_opcodeAhead_nil : ¬ OpcodeAhead [] := by
  intro ⟨op, l', os, c, hop, _, hnil⟩
  obtain ⟨d, others, htext, -⟩ := hop.mem
  simp [htext] at hnil

/-- An opcode in front of its operands makes a line that lacks nothing but its label. The word is
the longest of its class, which keeps it apart from what follows. -/
theorem opcode_extends :
    Extends opcode (Formed fun l => ∃ os c, Operands os c l) (Formed (BlanksThen OpcodeAhead)) :=
  lexeme_extends finds_opcode (fun _ => IsOpcode.not_isLineEnd) fun word l hword ⟨os, c, hos⟩ =>
    .of_self ⟨word, l, os, c, hword, hos, rfl⟩

/-- An equals sign and what may follow it. This is what a label leaves of its line when its name is
taken away. -/
def EqualsAhead (l : List Char) : Prop := ∃ l', BlanksThen OpcodeAhead l' ∧ l = '=' :: l'

/-- A label in front of an opcode makes a line with a statement. The blanks around the equals sign
have been skipped on the way, so all the pieces of the line are at hand here. -/
theorem label_extends :
    Extends label (Formed (BlanksThen OpcodeAhead))
      (Formed fun l => ∃ line : Line, line.Written l) := by
  have hskip := skip_extends (P := BlanksThen EqualsAhead)
    (skipping_blanksThen fun ⟨l', _, hnil⟩ => by simp at hnil)
  refine .bind (lexeme_extends finds_valueName (fun _ => IsValueName.not_isLineEnd) ?_) fun _ =>
    .bind hskip fun _ => .bind (char_extends rfl fun l hl => .of_self ⟨l, hl, rfl⟩) fun _ => .pure _
  intro word l hword ⟨b, _, hb, ⟨_, ⟨b', _, hb', ⟨op, l', os, c, hop, hos, rfl⟩, rfl⟩, rfl⟩, hl⟩
  refine ⟨⟨some ⟨some word, op, os⟩, c⟩, ?_⟩
  have hline := Line.Written.statement blanks_nil (.some hword.mem hb hb') hop hos
  rw [hl]
  simpa using hline

/-- A statement in front of the end of a line is a whole line, with its label or without one, and
with its operands or without any. -/
theorem statement_extends :
    Extends statement (Formed fun l => ∃ c, Closing c l)
      (Formed fun l => ∃ line : Line, line.Written l) := by
  -- The label is the last piece to be looked at, because it is the first in the line.
  refine .rule (.offset_bind fun start => .bind (.optional label_extends ?_) fun _ => ?_)
  · refine fun text h => h.imp fun l ⟨b, l', hb, ⟨op, l'', os, c, hop, hos, hl'⟩, hl⟩ => ?_
    rw [hl, hl']
    exact ⟨_, .statement hb .none hop hos⟩
  · refine .bind (skip_extends (skipping_blanksThen not_opcodeAhead_nil)) fun _ => ?_
    refine .bind opcode_extends fun _ => ?_
    refine .bind (skip_extends skipping_operands) fun _ => ?_
    refine .bind (.optional (operands_extends.imp ?_) ?_) fun _ => .offset_bind fun stop => .pure _
    · refine fun text h => h.imp fun l ⟨o, l', os, c, ho, hos, hl⟩ => ?_
      rw [hl]
      exact ⟨o :: os, c, .cons (b := []) blanks_nil ho hos⟩
    · exact fun text h => h.imp fun l ⟨c, hl⟩ => ⟨[], c, .nil hl⟩

/-! ### Lines -/

/-- A line end in front of a good line. What is in front of the line end is a line of its own, so
far an empty one. -/
theorem newline_extends :
    Extends newline (Formed fun l => ∃ line : Line, line.Written l)
      (Formed fun l => ∃ c, Closing c l) := by
  refine .bind (.scan fun text nl hnl => ?_) fun _ => .pure _
  obtain rfl | ⟨nl', rest, rfl, hnl'⟩ | ⟨c, cs, rfl, hc⟩ := line_cases text
  · simp [findNewline] at hnl
  · obtain rfl : nl' = nl := Option.some.inj (hnl'.symm.trans hnl)
    refine ⟨rest, rfl, fun h => ?_⟩
    obtain ⟨l, ls, hsplit, hl, hls⟩ := h
    refine ⟨[], l :: ls, ?_, ⟨none, .blanks blanks_nil⟩, List.forall_mem_cons.2 ⟨hl, hls⟩⟩
    rw [splitLines_newline hnl, hsplit]
  · simp [findNewline_cons hc] at hnl

/-- The end of a line is a line without a statement. -/
theorem line_of_closing (text : List Char) (h : Formed (fun l => ∃ c, Closing c l) text) :
    Formed (fun l => ∃ line : Line, line.Written l) text :=
  h.imp fun _ ⟨_, hl⟩ => ⟨_, .blank hl⟩

/-- Line ends in front of a good line, with nothing but blanks and comments between them. -/
theorem newlines_extends :
    Extends newlines (Formed fun l => ∃ line : Line, line.Written l)
      (Formed fun l => ∃ c, Closing c l) :=
  .bind newline_extends fun _ => .bind (skip_extends skipping_line) fun _ =>
    .bind (spaced_extends (newline_extends.imp line_of_closing) skipping_line) fun _ => .pure _

/-- A statement on a line of its own, in front of the end of its line. The line in front of it ends
where the line ends begin. -/
theorem furtherStatement_extends :
    Extends furtherStatement (Formed fun l => ∃ c, Closing c l)
      (Formed fun l => ∃ c, Closing c l) :=
  .bind newlines_extends fun _ => .bind (skip_extends skipping_line) fun _ => statement_extends

/-- Statements in front of the end of a line, each on a line of its own. The first is on the current
line, so what comes out is a whole line and not the end of one. -/
theorem statements_extends :
    Extends statements (Formed fun l => ∃ c, Closing c l)
      (Formed fun l => ∃ line : Line, line.Written l) :=
  .bind statement_extends fun _ => .bind (skip_extends skipping_closing) fun _ =>
    .bind (spaced_extends furtherStatement_extends skipping_closing) fun _ => .pure _

/-- The end of a text is the end of its last line. Here the way from the end to the front begins, so
nothing is asked of the text that is left. -/
theorem endOfInput_extends :
    Extends endOfInput (fun _ => True) (Formed fun l => ∃ c, Closing c l) := by
  refine .rule fun r t a r' t' hm _ => ?_
  have hrest : r.rest = [] := by
    by_cases h : r.rest = []
    · exact h
    · simp [h] at hm
  rw [hrest]
  exact ⟨[], [], rfl, ⟨none, .blanks blanks_nil⟩, by simp⟩

/-- A whole text that is read consists of good lines. Here the parts of the rule are put together,
once more from the last to the first. -/
theorem block_extends :
    Extends block (fun _ => True) (Formed fun l => ∃ line : Line, line.Written l) := by
  refine .rule (.bind (skip_extends skipping_line) fun _ => ?_)
  refine .bind (spaced_extends (newline_extends.imp line_of_closing) skipping_line) fun _ => ?_
  refine .bind (skip_extends skipping_line) fun _ => ?_
  refine .bind (.optional statements_extends line_of_closing) fun _ => ?_
  refine .bind (skip_extends skipping_closing) fun _ => ?_
  refine .bind (spaced_extends (newline_extends.of_imp line_of_closing) skipping_closing)
    fun _ => ?_
  refine .bind (skip_extends skipping_closing) fun _ => ?_
  exact .bind endOfInput_extends fun _ => .pure _

end Grammar

/-- Lines that are good one by one are good as a list. The forms of the lines are chosen one by one,
along the list. -/
theorem exists_lines {ls : List (List Char)} (h : ∀ l ∈ ls, ∃ line : Line, line.Written l) :
    ∃ lines, List.Forall₂ Line.Written lines ls := by
  induction ls with
  | nil => exact ⟨[], .nil⟩
  | cons l ls ih =>
      rw [List.forall_mem_cons] at h
      obtain ⟨line, hline⟩ := h.1
      obtain ⟨lines, hlines⟩ := ih h.2
      exact ⟨line :: lines, .cons hline hlines⟩

/-- All lines of a text that is read are of the right form. This is the half of `Listing.ofText_iff`
in which nothing is known of the text beforehand. -/
theorem Listing.lines_of_ofText {text : List Char} {listing : Listing}
    (h : Listing.ofText text = .ok listing) :
    ∃ lines, List.Forall₂ Line.Written lines (splitLines text) := by
  unfold Listing.ofText at h
  split at h
  · next found r t hblock =>
    obtain ⟨l, ls, hsplit, hl, hls⟩ := Grammar.block_extends _ _ _ _ _ hblock trivial
    rw [show splitLines text = l :: ls from hsplit]
    exact exists_lines (List.forall_mem_cons.2 ⟨hl, hls⟩)
  · simp at h

/-- What is read of a text are the statements and the comments of its lines, if all lines are of
the right form, and otherwise the text is not read. -/
theorem Listing.ofText_iff {text : List Char} {statements : List StatementWords}
    {comments : List String} :
    (∃ listing, Listing.ofText text = .ok listing ∧
      listing.statements.map Statement.words = statements ∧ listing.comments = comments) ↔
    ∃ lines, List.Forall₂ Line.Written lines (splitLines text) ∧
      lines.filterMap Line.statement = statements ∧
      (lines.filterMap Line.comment).map keptComment = comments := by
  constructor
  · intro ⟨listing, hlisting, hstatements, hcomments⟩
    obtain ⟨lines, hlines⟩ := Listing.lines_of_ofText hlisting
    obtain ⟨listing', hlisting', hstatements', hcomments'⟩ := Listing.ofText_of_lines hlines
    obtain rfl : listing = listing' := Except.ok.inj (hlisting.symm.trans hlisting')
    exact ⟨lines, hlines, hstatements' ▸ hstatements, hcomments' ▸ hcomments⟩
  · intro ⟨lines, hlines, hstatements, hcomments⟩
    obtain ⟨listing, hlisting, hstatements', hcomments'⟩ := Listing.ofText_of_lines hlines
    exact ⟨listing, hlisting, hstatements'.trans hstatements, hcomments'.trans hcomments⟩

/-- The grammar reads the texts whose lines are all of the right form, and no others. The
statements that it finds are those of the lines, in their order. -/
theorem Listing.line_language (text : List Char) (statements : List StatementWords) :
    (∃ listing, Listing.ofText text = .ok listing ∧
      listing.statements.map Statement.words = statements) ↔
    ∃ lines, List.Forall₂ Line.Written lines (splitLines text) ∧
      lines.filterMap Line.statement = statements := by
  constructor
  · intro ⟨listing, hlisting, hstatements⟩
    obtain ⟨lines, hlines, hlines', -⟩ := Listing.ofText_iff.1 ⟨listing, hlisting, hstatements, rfl⟩
    exact ⟨lines, hlines, hlines'⟩
  · intro ⟨lines, hlines, hstatements⟩
    obtain ⟨listing, hlisting, hlisting', -⟩ :=
      Listing.ofText_iff.2 ⟨lines, hlines, hstatements, rfl⟩
    exact ⟨listing, hlisting, hlisting'⟩

end StackForm.Text

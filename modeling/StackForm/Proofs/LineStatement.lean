import StackForm.Proofs.LineLanguage
import StackForm.Proofs.Printed

/-!
# `StackForm.Proofs.LineStatement`: a statement is read from its line

A reader within a line is described by what is left of the line (`Ahead`). From the start of a
statement such a reader goes on to the end of the line, or to the blanks and the comment there
(`Ahead.statement`). On the way the three choices of the grammar are settled: whether there is a
label, which an opcode in front may look like (`Ahead.label_none`), whether there are operands,
and whether there is one more (`Ahead.furtherOperands`).

The comments that were read and those still ahead make up the same list throughout, wherever the
comment of the line is skipped.
-/

set_option autoImplicit false

namespace StackForm.Text

open Matcher

/-! ### Within a line -/

/-- Nothing is skipped in front of a text that starts with neither a blank nor a number sign. -/
theorem solid_cons_iff {c : Char} {cs : List Char} :
    Solid (c :: cs) ↔ isSpacing c = false ∧ c ≠ '#' := by
  by_cases hc : c = '#'
  · simp [Solid, hc, findComment]
  · by_cases hb : isSpacing c = true <;> simp [Solid, hb, hc, findComment]

/-- Where a line is over, the text is, or it goes on with the end of the line. -/
theorem head_of_splitLines {text : List Char} {ls : List (List Char)}
    (h : splitLines text = [] :: ls) :
    text = [] ∨ ∃ cs, text = '\n' :: cs ∨ text = '\r' :: cs := by
  obtain ⟨rfl, -⟩ | ⟨nl, rest, -, hnl, -⟩ := splitLines_eq_nil_cons h
  · exact .inl rfl
  · refine .inr ?_
    unfold findNewline at hnl
    split at hnl
    · exact ⟨_, .inl rfl⟩
    · exact ⟨_, .inr rfl⟩
    · exact ⟨_, .inr rfl⟩
    · simp at hnl

/-- Whether something is skipped depends on the line only. -/
theorem solid_iff_of_splitLines {text l : List Char} {ls : List (List Char)}
    (h : splitLines text = l :: ls) : Solid text ↔ Solid l := by
  cases l with
  | nil =>
      have hnil : Solid [] := solid_nil
      obtain rfl | ⟨cs, rfl | rfl⟩ := head_of_splitLines h
      · rfl
      · simp [solid_cons_iff, hnil, isSpacing]
      · simp [solid_cons_iff, hnil, isSpacing]
  | cons c l =>
      obtain ⟨rest, rfl, -⟩ := exists_of_splitLines_append (w := [c]) h
      simp [solid_cons_iff]

/-- No blanks at all count as blanks. -/
theorem blanks_nil : Blanks [] := by simp [Blanks]

/-- Where nothing is to be skipped there are no blanks. -/
theorem Blanks.eq_nil_of_solid {b l : List Char} (hb : Blanks b) (h : Solid (b ++ l)) :
    b = [] := by
  cases b with
  | nil => rfl
  | cons c b =>
      have hc := (solid_cons_iff.1 h).1
      rcases hb c List.mem_cons_self with rfl | rfl <;> simp [isSpacing] at hc

/-- Blanks are the characters that skipping takes. -/
theorem Blanks.all_isSpacing {b : List Char} (hb : Blanks b) : b.all isSpacing = true := by
  rw [List.all_eq_true]
  intro d hd
  rcases hb d hd with rfl | rfl <;> rfl

/-- Where nothing is to be skipped at the end of a line, the line is over: what else could be there
are blanks and a comment. -/
theorem Closing.eq_nil_of_solid {c : Option (List Char)} {l : List Char} (h : Closing c l)
    (hl : Solid l) : c = none ∧ l = [] := by
  cases h with
  | blanks hb => exact ⟨rfl, hb.eq_nil_of_solid (l := []) (by simpa using hl)⟩
  | comment hb cs =>
      obtain rfl := hb.eq_nil_of_solid hl
      simp [solid_cons_iff] at hl

/-- A comment as it is kept. -/
def keptComment (cs : List Char) : String := String.ofList (trimEnd cs)

/-- A reader in a line, with `l` left of the line and the comment `c` in it. All comments, read
or not, are `comments`. -/
structure Ahead (r : Reader) (l : List Char) (c : Option (List Char)) (lines : List Line)
    (comments : List String) : Prop where
  sound : r.Sound
  split : ∃ ls, splitLines r.rest = l :: ls ∧ List.Forall₂ Line.Written lines ls
  comments : r.comments.reverse ++ (c.toList ++ lines.filterMap Line.comment).map keptComment =
    comments

namespace Ahead

variable {r : Reader} {w l b : List Char} {c : Option (List Char)} {lines : List Line}
  {comments : List String}

/-- Whether something is to be skipped can be seen from the line alone. Where the line is over, a
line end or nothing follows, and neither is skipped. -/
theorem solid_iff (h : Ahead r l c lines comments) : Solid r.rest ↔ Solid l := by
  obtain ⟨ls, hsplit, -⟩ := h.split
  exact solid_iff_of_splitLines hsplit

/-- A piece of the line is a piece of the text, and the rest of the line is the first line of what
is left. -/
theorem exists_rest (h : Ahead r (w ++ l) c lines comments) :
    ∃ rest ls, r.rest = w ++ rest ∧ splitLines rest = l :: ls ∧
      List.Forall₂ Line.Written lines ls := by
  obtain ⟨ls, hsplit, hlines⟩ := h.split
  obtain ⟨rest, hrest, hls⟩ := exists_of_splitLines_append hsplit
  exact ⟨rest, ls, hrest, hls, hlines⟩

/-- The line has no more characters than what is left of the text. -/
theorem length_le (h : Ahead r l c lines comments) : l.length ≤ r.rest.length := by
  rw [← List.append_nil l] at h
  obtain ⟨rest, ls, hrest, -⟩ := h.exists_rest
  rw [hrest, List.length_append]
  omega

/-- A reader that has read a piece of the line has the rest of it ahead. -/
theorem advance (h : Ahead r (w ++ l) c lines comments) :
    Ahead (r.advance w) l c lines comments := by
  obtain ⟨rest, ls, hrest, hls, hlines⟩ := h.exists_rest
  exact ⟨h.sound.advance hrest, ⟨ls, by rw [Reader.rest_advance hrest]; exact ⟨hls, hlines⟩⟩,
    h.comments⟩

/-- A matcher that takes a piece of the line. -/
theorem goes {α : Type} {m : Matcher α} {P : α → Prop} (h : Ahead r (w ++ l) c lines comments)
    (hm : ∀ rest ls, splitLines rest = l :: ls → Takes m w rest P) :
    Goes m r fun a r' => P a ∧ Ahead r' l c lines comments := by
  obtain ⟨rest, ls, hrest, hls, -⟩ := h.exists_rest
  refine (hm rest ls hls r h.sound hrest).imp fun a r' ⟨ha, hr'⟩ => ⟨ha, ?_⟩
  rw [hr']
  exact h.advance

/-- A word that is the longest of its class in the line is read. It is the longest in the text too,
because no word goes on over a line end. -/
theorem lexeme {name : Rule} {find : List Char → Option (List Char)} {P : List Char → Prop}
    {word : String} (hfind : Finds find P) (hP : ∀ cs, P cs → ∀ c ∈ cs, isLineEnd c = false)
    (h : Ahead r (word.toList ++ l) c lines comments) (hword : Longest P word.toList l) :
    Goes (Grammar.lexeme name find) r fun a r' => a.text = word ∧ Ahead r' l c lines comments :=
  h.goes fun _ _ hls =>
    Grammar.lexeme_takes (hfind.complete ((longest_line_iff hP hls).1 hword))

/-- A character of the line is read where it is next. -/
theorem char {d : Char} (h : Ahead r (d :: l) c lines comments) :
    Goes (Matcher.char d) r fun _ r' => Ahead r' l c lines comments :=
  (h.goes (w := [d]) fun rest _ _ => .char d rest).imp fun _ _ h => h.2

/-- A character that is not next in the line is not read, and neither is it found behind the
line. -/
theorem char_none {d : Char} (h : Ahead r l c lines comments) (hd : isLineEnd d = false)
    (hl : l.head? ≠ some d) : (Matcher.char d).Gives r none := by
  refine Rejects.char ?_ r h.sound rfl
  cases l with
  | nil =>
      obtain ⟨ls, hsplit, -⟩ := h.split
      obtain hrest | ⟨cs, hrest | hrest⟩ := head_of_splitLines hsplit
      · simp [hrest]
      · have hne : '\n' ≠ d := fun heq => by simp [isLineEnd, ← heq] at hd
        simp [hrest, hne]
      · have hne : '\r' ≠ d := fun heq => by simp [isLineEnd, ← heq] at hd
        simp [hrest, hne]
  | cons c l =>
      obtain ⟨rest, ls, hrest, -⟩ := h.exists_rest (w := [c])
      simpa [hrest] using hl

/-- Blanks are skipped, up to where there is nothing more to skip. The comment of the line is still
ahead. -/
theorem skip_blanks (h : Ahead r (b ++ l) c lines comments) (hb : Blanks b) (hl : Solid l) :
    Goes Grammar.skip r fun _ r' => Ahead r' l c lines comments := by
  have hskip := h.goes fun rest ls hls =>
    Grammar.skip_takes hb.all_isSpacing ((solid_iff_of_splitLines hls).2 hl)
  exact hskip.imp fun _ _ h => h.2

/-- A comment runs to the end of its line, and is kept. -/
theorem comment {cs : List Char} (h : Ahead r ('#' :: cs) (some ('#' :: cs)) lines comments) :
    Goes Grammar.comment r fun _ r' => Ahead r' [] none lines comments := by
  obtain ⟨ls, hsplit, -⟩ := h.split
  obtain ⟨rest, hrest, hls⟩ := exists_of_splitLines_append (w := '#' :: cs) (l := [])
    (by simpa using hsplit)
  have hfind : findComment ('#' :: cs ++ rest) = some ('#' :: cs) := by
    have htake := takeWhile_of_splitLines hsplit
    rw [hrest] at htake
    simpa [findComment, isLineEnd] using htake
  have htakes : Takes (Matcher.rule .comment (scan findComment)) ('#' :: cs) rest (· = '#' :: cs) :=
    .rule (.scan hfind)
  have hscan := htakes r h.sound hrest
  refine hscan.bind fun found r' h' => ?_
  obtain ⟨hfound, hr'⟩ := h'
  have hend : Ahead r' [] (some ('#' :: cs)) lines comments := by
    rw [hr']
    exact Ahead.advance (by simpa using h)
  refine ⟨(), { r' with comments := keptComment found :: r'.comments }, ?_, fun t => rfl⟩
  refine ⟨hend.sound, hend.split, ?_⟩
  simpa [hfound] using hend.comments

/-- At the end of a line the blanks and the comment are skipped. -/
theorem skip_closing (h : Ahead r l c lines comments) (hl : Closing c l) :
    Goes Grammar.skip r fun _ r' => Ahead r' [] none lines comments := by
  cases hl with
  | blanks hb =>
      rw [← List.append_nil l] at h
      exact h.skip_blanks hb solid_nil
  | comment hb cs =>
      have hsign : ∀ rest ls, splitLines rest = ('#' :: cs) :: ls →
          rest.takeWhile isSpacing = [] := by
        intro rest ls hls
        obtain ⟨rest', rfl, -⟩ := exists_of_splitLines_append (w := ['#']) hls
        rfl
      have hspacing := h.goes fun rest ls hls =>
        Grammar.spacing_takes hb.all_isSpacing (hsign rest ls hls)
      refine hspacing.bind fun _ r' hr' => ?_
      have hitem : Goes (Grammar.comment >>= fun _ => Grammar.spacing) r'
          fun _ r'' => Ahead r'' [] none lines comments := by
        refine hr'.2.comment.bind fun _ r'' hr'' => ?_
        have hend := hr''.goes (w := []) fun rest ls hls =>
          Grammar.spacing_takes rfl ((solid_iff_of_splitLines hls).2 solid_nil).1
        exact hend.imp fun _ _ h => h.2
      -- The comment ends with its line, so a second round finds none.
      refine (hitem.many_once fun _ r'' hr'' => .bind_none ?_).bind
        fun _ r'' ⟨_, hr''⟩ => .pure hr''
      exact Grammar.comment_rejects (hr''.solid_iff.2 solid_nil).2 r'' hr''.sound rfl

end Ahead

/-! ### Operands -/

/-- Whether an operand can start with a character. -/
def startsOperand (c : Char) : Bool := c == 'v' || startsInteger c

/-- An operand starts with a character that operands start with. -/
theorem OperandWord.IsLongest.exists_cons {o : OperandWord} {rest : List Char}
    (h : o.IsLongest rest) : ∃ c cs, o.text.toList = c :: cs ∧ startsOperand c = true := by
  cases o with
  | name text =>
      obtain ⟨digits, htext, -⟩ := Longest.mem h
      exact ⟨'v', digits, htext, rfl⟩
  | integer text =>
      obtain hdigits | ⟨digits, htext, -⟩ := Longest.mem h
      · obtain ⟨c, cs, hcs⟩ := List.exists_cons_of_ne_nil hdigits.1
        have hc : c.isDigit = true := hdigits.2 c (by simp [hcs])
        exact ⟨c, cs, hcs, by simp [startsOperand, startsInteger, hc]⟩
      · exact ⟨'-', digits, htext, rfl⟩

/-- Nothing is skipped in front of an operand. -/
theorem OperandWord.IsLongest.solid {o : OperandWord} {rest : List Char} (h : o.IsLongest rest) :
    Solid (o.text.toList ++ rest) := by
  obtain ⟨c, cs, htext, hc⟩ := h.exists_cons
  rw [htext]
  exact solid_cons hc (by decide) _

/-- What does not start with the letter of value names is none. -/
theorem findValueName_eq_none {c : Char} (hc : c ≠ 'v') (cs : List Char) :
    findValueName (c :: cs) = none := by
  unfold findValueName
  split
  · next heq => exact absurd (List.cons.inj heq).1 hc
  · rfl

/-- There are no more further operands than characters, since each has its comma. This is what
bounds the rounds of their repetition. -/
theorem FurtherOperands.length_le {os : List OperandWord} {c : Option (List Char)}
    {l : List Char} (h : FurtherOperands os c l) : os.length ≤ l.length := by
  induction h with
  | nil => simp
  | cons =>
      simp only [List.length_append, List.length_cons]
      omega

namespace Ahead

variable {r : Reader} {l b : List Char} {c : Option (List Char)} {lines : List Line}
  {comments : List String} {o : OperandWord} {os : List OperandWord}

/-- An integer is not taken for a name. -/
theorem valueName_none {text : String} (h : Ahead r (text.toList ++ l) c lines comments)
    (htext : IsInteger text.toList) : Grammar.valueName.Gives r none := by
  obtain ⟨rest, ls, hrest, -⟩ := h.exists_rest
  refine Grammar.lexeme_rejects ?_ r h.sound hrest
  show findValueName (text.toList ++ rest) = none
  obtain hdigits | ⟨digits, hminus, -⟩ := htext
  · obtain ⟨c, cs, hcs⟩ := List.exists_cons_of_ne_nil hdigits.1
    have hc : c.isDigit = true := hdigits.2 c (by simp [hcs])
    rw [hcs]
    exact findValueName_eq_none (fun heq => by simp [heq] at hc) _
  · rw [hminus]
    exact findValueName_eq_none (by decide) _

/-- An operand of the line is read. A name is found by the first alternative, and a number by the
second, where no name is found. -/
theorem operand (h : Ahead r (o.text.toList ++ l) c lines comments) (ho : o.IsLongest l) :
    Goes Grammar.operand r fun a r' => a.word = o ∧ Ahead r' l c lines comments := by
  cases o with
  | name text =>
      refine .orElse ?_
      refine (h.lexeme finds_valueName (fun _ => IsValueName.not_isLineEnd) ho).bind ?_
      exact fun a r' ⟨ha, hr'⟩ => .pure ⟨congrArg OperandWord.name ha, hr'⟩
  | integer text =>
      refine .orElse_none (.bind_none (h.valueName_none (Longest.mem ho))) ?_
      refine (h.lexeme finds_integer (fun _ => IsInteger.not_isLineEnd) ho).bind ?_
      exact fun a r' ⟨ha, hr'⟩ => .pure ⟨congrArg OperandWord.integer ha, hr'⟩

/-- No operand stands at the end of a line. -/
theorem operand_none (h : Ahead r [] c lines comments) : Grammar.operand.Gives r none := by
  obtain ⟨ls, hsplit, -⟩ := h.split
  have hfind : findValueName r.rest = none ∧ findInteger r.rest = none := by
    obtain hrest | ⟨cs, hrest | hrest⟩ := head_of_splitLines hsplit <;> rw [hrest] <;>
      exact ⟨rfl, rfl⟩
  exact Rejects.orElse (.bind (Grammar.lexeme_rejects hfind.1))
    (.bind (Grammar.lexeme_rejects hfind.2)) r h.sound rfl

/-- Further operands are read one by one. Where the list is over, the line goes on with no comma, so
the repetition stops. -/
theorem furtherOperands :
    Repeats Grammar.furtherOperand (fun a o => a.word = o) fun os r =>
      ∃ c l, Ahead r l c lines comments ∧ FurtherOperands os c l where
  fits := by
    intro os r ⟨c, l, h, hos⟩
    have hline := h.length_le
    have hwords := hos.length_le
    exact ⟨h.sound, by omega⟩
  skips := by
    intro os r ⟨c, l, h, hos⟩
    cases hos with
    | nil hl =>
        refine (h.skip_closing hl).imp fun _ r' hr' => ?_
        exact ⟨⟨none, [], hr', .nil (.blanks blanks_nil)⟩, hr'.solid_iff.2 solid_nil⟩
    | cons hb hb' ho hos =>
        have hcomma : ∀ cs, Solid (',' :: cs) := fun _ => solid_cons_iff.2 (by decide)
        refine (h.skip_blanks hb (hcomma _)).imp fun _ r' hr' => ?_
        exact ⟨⟨c, _, hr', .cons blanks_nil hb' ho hos⟩, hr'.solid_iff.2 (hcomma _)⟩
  stops := by
    intro r ⟨c, l, h, hos⟩ hsolid
    cases hos with
    | nil hl =>
        obtain ⟨rfl, rfl⟩ := hl.eq_nil_of_solid (h.solid_iff.1 hsolid)
        exact .bind_none (h.char_none rfl (by simp))
  reads := by
    intro o os r ⟨c, l, h, hos⟩ hsolid
    cases hos with
    | cons hb hb' ho hos =>
        obtain rfl := hb.eq_nil_of_solid (h.solid_iff.1 hsolid)
        refine (Ahead.char h).bind fun _ r₁ h₁ => ?_
        refine (h₁.skip_blanks hb' ho.solid).bind fun _ r₂ h₂ => ?_
        exact (h₂.operand ho).imp fun a r₃ h₃ => ⟨h₃.1, c, _, h₃.2, hos⟩

/-- Behind an opcode the blanks up to the first operand are skipped, or the rest of the line. -/
theorem skip_operands (h : Ahead r l c lines comments) (hos : Operands os c l) :
    Goes Grammar.skip r fun _ r' =>
      ∃ c' l', Ahead r' l' c' lines comments ∧ Operands os c' l' ∧ Solid l' := by
  cases hos with
  | nil hl =>
      refine (h.skip_closing hl).imp fun _ r' hr' => ?_
      exact ⟨none, [], hr', .nil (.blanks blanks_nil), solid_nil⟩
  | cons hb ho hos =>
      refine (h.skip_blanks hb ho.solid).imp fun _ r' hr' => ?_
      exact ⟨c, _, hr', .cons blanks_nil ho hos, ho.solid⟩

/-- The operands are read up to the end of the line, or up to the blanks and the comment there. -/
theorem operands (h : Ahead r l c lines comments) (hos : Operands os c l) (hl : Solid l) :
    Goes (optional Grammar.operands) r fun found r' =>
      (found.getD []).map OperandText.word = os ∧
        ∃ c' l', Ahead r' l' c' lines comments ∧ Closing c' l' := by
  cases hos with
  | nil hclosing =>
      obtain ⟨rfl, rfl⟩ := hclosing.eq_nil_of_solid hl
      exact .optional_none (.bind_none h.operand_none) ⟨rfl, none, [], h, hclosing⟩
  | @cons _ _ o os _ hb ho hos =>
      obtain rfl := hb.eq_nil_of_solid hl
      have hall : Goes Grammar.operands r fun found r' =>
          found.map OperandText.word = o :: os ∧
            ∃ c' l', Ahead r' l' c' lines comments ∧ Closing c' l' := by
        refine (Ahead.operand h ho).bind fun first r₁ ⟨hfirst, h₁⟩ => ?_
        refine (furtherOperands.skips ⟨c, _, h₁, hos⟩).bind fun _ r₂ ⟨h₂, hsolid⟩ => ?_
        refine (furtherOperands.spaced h₂ hsolid).bind fun others r₃ ⟨hothers, c₃, l₃, h₃, hend⟩ =>
          .pure ⟨?_, c₃, l₃, h₃, ?_⟩
        · rw [List.map_cons, hfirst, eq_map_of_forall₂ (fun _ _ ho => ho.symm) hothers]
        · cases hend with
          | nil hclosing => exact hclosing
      exact hall.optional fun found r' hfound => hfound

end Ahead

/-! ### Statements -/

/-- The name of a value has the shape of an opcode too. -/
theorem IsValueName.isOpcode {cs : List Char} (h : IsValueName cs) : IsOpcode cs := by
  obtain ⟨digits, hcs, hdigits⟩ := h
  refine ⟨'v', digits, hcs, .inl rfl, fun d hd => .inl ?_⟩
  simp [Char.isAlphanum, hdigits.2 d hd]

/-- The characters behind a first part of an opcode can stand in one. -/
theorem IsOpcode.continues {word more : List Char} {d : Char} (h : IsOpcode (word ++ d :: more))
    (hword : word ≠ []) : continuesOpcode d = true := by
  obtain ⟨c, others, hcs, -, hothers⟩ := h
  obtain ⟨e, word, rfl⟩ := List.exists_cons_of_ne_nil hword
  exact continuesOpcode_iff.2 (hothers d (by simp [← (List.cons.inj hcs).2]))

/-- Nothing is skipped in front of an opcode. -/
theorem IsOpcode.solid {cs : List Char} (h : IsOpcode cs) (rest : List Char) :
    Solid (cs ++ rest) := by
  obtain ⟨c, others, rfl, hc, -⟩ := h
  have hstart : startsOpcode c = true := by simpa [startsOpcode] using hc
  exact solid_cons hstart (by decide) _

/-- A statement starts like an opcode, with a label or without. -/
theorem Labelling.exists_start {label : Option String} {labelling opcode : List Char}
    (h : Labelling label labelling) (hop : IsOpcode opcode) (l : List Char) :
    ∃ c cs, labelling ++ (opcode ++ l) = c :: cs ∧ startsOpcode c = true := by
  cases h with
  | none =>
      obtain ⟨c, others, rfl, hc, -⟩ := hop
      exact ⟨c, others ++ l, rfl, by simpa [startsOpcode] using hc⟩
  | some hname =>
      obtain ⟨digits, hdigits, -⟩ := hname
      exact ⟨'v', _, by rw [hdigits]; rfl, rfl⟩

/-- Where there is no label, the name of a value in front is a part of the opcode. -/
theorem Longest.exists_append_of_valueName {opcode rest word after : List Char}
    (hop : Longest IsOpcode opcode rest) (hword : IsValueName word)
    (h : word ++ after = opcode ++ rest) :
    ∃ more, opcode = word ++ more ∧ after = more ++ rest := by
  rcases List.append_eq_append_iff.1 h with ⟨more, hopcode, hafter⟩ | ⟨more, hword', hrest⟩
  · exact ⟨more, hopcode, hafter⟩
  · obtain rfl := hop.longest more after hrest (hword' ▸ hword.isOpcode)
    exact ⟨[], by simpa using hword'.symm, by simpa using hrest.symm⟩

/-- Behind an opcode there is no equals sign. So an opcode that looks like the name of a value is
not taken for a label. -/
theorem Operands.head?_ne {os : List OperandWord} {c : Option (List Char)} {l : List Char}
    (h : Operands os c l) (hl : Solid l) : l.head? ≠ some '=' := by
  cases h with
  | nil hclosing => simp [(hclosing.eq_nil_of_solid hl).2]
  | cons hb ho hos =>
      obtain rfl := hb.eq_nil_of_solid hl
      obtain ⟨c, cs, htext, hc⟩ := ho.exists_cons
      have hne : c ≠ '=' := fun heq => by simp [heq, startsOperand, startsInteger] at hc
      simp [htext, hne]

namespace Ahead

variable {r : Reader} {l b : List Char} {c : Option (List Char)} {lines : List Line}
  {comments : List String} {os : List OperandWord} {name opcode : String}

/-- A label of the line is read, up to its equals sign. -/
theorem label (h : Ahead r (name.toList ++ (b ++ '=' :: l)) c lines comments)
    (hname : IsValueName name.toList) (hb : Blanks b) :
    Goes Grammar.label r fun a r' => a.text = name ∧ Ahead r' l c lines comments := by
  have hequals : Solid ('=' :: l) := solid_cons_iff.2 (by decide)
  have hdigits : (b ++ '=' :: l).takeWhile Char.isDigit = [] := by
    cases b with
    | nil => rfl
    | cons d b => rcases hb d List.mem_cons_self with rfl | rfl <;> rfl
  have hlongest := longest_valueName_iff.2 ⟨hname, hdigits⟩
  refine (h.lexeme finds_valueName (fun _ => IsValueName.not_isLineEnd) hlongest).bind
    fun a r₁ ⟨ha, h₁⟩ => ?_
  refine (h₁.skip_blanks hb hequals).bind fun _ r₂ h₂ => ?_
  exact h₂.char.bind fun _ r₃ h₃ => .pure ⟨ha, h₃⟩

/-- No equals sign follows what stands before the operands of an opcode. -/
theorem label_none (h : Ahead r (opcode.toList ++ l) c lines comments)
    (hop : Longest IsOpcode opcode.toList l) (hos : Operands os c l) :
    Grammar.label.Gives r none := by
  obtain ⟨rest, ls, hrest, hls, -⟩ := h.exists_rest
  cases hfind : findValueName r.rest with
  | none => exact .bind_none (Grammar.lexeme_rejects hfind r h.sound rfl)
  | some word =>
      obtain ⟨after, hafter, hword⟩ := finds_valueName.sound hfind
      have hop' := (longest_line_iff (fun _ => IsOpcode.not_isLineEnd) hls).1 hop
      obtain ⟨more, hopcode, -⟩ := hop'.exists_append_of_valueName hword.mem (hafter ▸ hrest)
      have hname : Goes Grammar.valueName r fun _ r' => Ahead r' (more ++ l) c lines comments := by
        have htakes : Takes Grammar.valueName (String.ofList word).toList after _ :=
          Grammar.lexeme_takes (by simpa [← hafter] using hfind)
        refine (htakes r h.sound (by simpa using hafter)).imp fun a r' ⟨_, hr'⟩ => ?_
        rw [hopcode, List.append_assoc] at h
        rw [hr', String.toList_ofList]
        exact h.advance
      refine hname.bind_none fun _ r₁ h₁ => ?_
      -- The opcode is a name itself, or begins with one and goes on with a letter.
      cases more with
      | nil =>
          refine (h₁.skip_operands hos).bind_none fun _ r₂ ⟨c', l', h₂, hos', hl'⟩ => ?_
          exact .bind_none (h₂.char_none rfl (hos'.head?_ne hl'))
      | cons d more =>
          have hd : continuesOpcode d = true := by
            obtain ⟨digits, hdigits, -⟩ := hword.mem
            exact (hopcode ▸ hop.mem).continues (by simp [hdigits])
          have hne : d ≠ '=' := fun heq => by simp [heq, continuesOpcode] at hd
          refine (h₁.skip_blanks (b := []) blanks_nil ?_).bind_none fun _ r₂ h₂ => ?_
          · exact solid_cons hd (by decide) _
          · exact .bind_none (h₂.char_none rfl (by simpa using hne))

/-- A label is read where there is one. Where there is none, the opcode may still look like the name
of a value; it is given back when no equals sign is found behind it. -/
theorem optional_label {label : Option String} {labelling : List Char}
    (h : Ahead r (labelling ++ (opcode.toList ++ l)) c lines comments)
    (hlabel : Labelling label labelling) (hop : Longest IsOpcode opcode.toList l)
    (hos : Operands os c l) :
    Goes (optional Grammar.label) r fun found r' => found.map Lexeme.text = label ∧
      ∃ b, Blanks b ∧ Ahead r' (b ++ (opcode.toList ++ l)) c lines comments := by
  cases hlabel with
  | none => exact .optional_none (h.label_none hop hos) ⟨rfl, [], blanks_nil, h⟩
  | some hname hb hb' =>
      simp only [List.append_assoc, List.cons_append] at h
      exact (h.label hname hb).optional fun a r' ⟨ha, hr'⟩ => ⟨congrArg some ha, _, hb', hr'⟩

/-- The statement of a line is read, with its words. What is left is the end of the line, with the
comment if there is one. -/
theorem statement {label : Option String} {labelling : List Char}
    (h : Ahead r (labelling ++ (opcode.toList ++ l)) c lines comments)
    (hlabel : Labelling label labelling) (hop : Longest IsOpcode opcode.toList l)
    (hos : Operands os c l) :
    Goes Grammar.statement r fun found r' => found.words = ⟨label, opcode, os⟩ ∧
      ∃ c' l', Ahead r' l' c' lines comments ∧ Closing c' l' := by
  refine .rule (.offset_bind fun start => ?_)
  refine (h.optional_label hlabel hop hos).bind fun label r₁ ⟨hlabel, b, hb, h₁⟩ => ?_
  refine (h₁.skip_blanks hb (hop.mem.solid l)).bind fun _ r₂ h₂ => ?_
  refine (h₂.lexeme finds_opcode (fun _ => IsOpcode.not_isLineEnd) hop).bind
    fun op r₃ ⟨hop, h₃⟩ => ?_
  refine (h₃.skip_operands hos).bind fun _ r₄ ⟨c₄, l₄, h₄, hos₄, hl₄⟩ => ?_
  refine (h₄.operands hos₄ hl₄).bind fun found r₅ ⟨hfound, h₅⟩ => .offset_bind fun stop => .pure ?_
  exact ⟨by simp [Statement.words, hlabel, hop, hfound], h₅⟩

end Ahead

end StackForm.Text

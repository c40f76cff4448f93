import Mathlib.Data.List.ReduceOption
import StackForm.Proofs.LineStatement

/-!
# `StackForm.Proofs.LineReading`: a text of good lines is read

Every text whose lines are all of the right form is read to its end, with the statements and
the comments of its lines (`Listing.ofText_of_lines`).

Between lines a reader is described by what the current line and the later ones have to offer
from there on, a statement or none (`AtLines`). The rules of the grammar act on such lists: a
line end drops a leading `none`, and a statement turns a leading `some` into `none`.
-/

set_option autoImplicit false

namespace StackForm.Text

open Matcher

/-- A reader in a text of good lines. In the current line and in the later ones there are the
statements `ss` from here on. All comments, read or not, are `comments`. -/
def AtLines (r : Reader) (ss : List (Option StatementWords)) (comments : List String) : Prop :=
  r.Sound ∧ ∃ lines, List.Forall₂ Line.Written lines (splitLines r.rest) ∧
    lines.map Line.statement = ss ∧
    r.comments.reverse ++ (lines.filterMap Line.comment).map keptComment = comments

namespace AtLines

variable {r : Reader} {s : Option StatementWords} {ss : List (Option StatementWords)}
  {comments : List String}

/-- A reader in a text of good lines is in the first of them, with the others behind it. -/
theorem cons_iff : AtLines r (s :: ss) comments ↔
    ∃ c l lines, Line.Written ⟨s, c⟩ l ∧ Ahead r l c lines comments ∧
      lines.map Line.statement = ss := by
  constructor
  · rintro ⟨hsound, lines, hlines, hss, hcomments⟩
    obtain ⟨⟨s', c⟩, lines, rfl⟩ :=
      List.exists_cons_of_ne_nil (l := lines) (by rintro rfl; simp at hss)
    obtain ⟨l, ls, hl, hls, hsplit⟩ := List.forall₂_cons_left_iff.1 hlines
    obtain ⟨rfl, rfl⟩ := List.cons.inj hss
    refine ⟨c, l, lines, hl, ⟨hsound, ⟨ls, hsplit, hls⟩, ?_⟩, rfl⟩
    cases c <;> simpa using hcomments
  · rintro ⟨c, l, lines, hl, h, hss⟩
    obtain ⟨ls, hsplit, hls⟩ := h.split
    refine ⟨h.sound, ⟨s, c⟩ :: lines, ?_, by simp [hss], ?_⟩
    · rw [hsplit]
      exact .cons hl hls
    · have hcomments := h.comments
      cases c <;> simpa using hcomments

/-- There always is a current line, if only an empty one. -/
theorem exists_cons (h : AtLines r ss comments) : ∃ s ss', ss = s :: ss' := by
  obtain ⟨-, lines, hlines, rfl, -⟩ := h
  obtain ⟨l, ls, hsplit⟩ := exists_splitLines r.rest
  rw [hsplit] at hlines
  obtain ⟨f, lines, -, -, rfl⟩ := List.forall₂_cons_right_iff.1 hlines
  exact ⟨f.statement, lines.map Line.statement, rfl⟩

/-- There is at most one line more than there are characters. -/
theorem length_le (h : AtLines r ss comments) : ss.length ≤ r.rest.length + 1 := by
  obtain ⟨-, lines, hlines, rfl, -⟩ := h
  rw [List.length_map, hlines.length_eq]
  exact length_splitLines_le r.rest

/-- Blanks and a comment are skipped, and the statements ahead stay the same. A comment that is
skipped moves from those ahead to those kept. -/
theorem skip (h : AtLines r ss comments) :
    Goes Grammar.skip r fun _ r' => AtLines r' ss comments ∧ Solid r'.rest := by
  obtain ⟨s, ss, rfl⟩ := h.exists_cons
  obtain ⟨c, l, lines, hl, hr, hss⟩ := cons_iff.1 h
  cases hl with
  | blank hl =>
      refine (hr.skip_closing hl).imp fun _ r' hr' => ⟨cons_iff.2 ?_, hr'.solid_iff.2 solid_nil⟩
      exact ⟨none, [], lines, .blank (.blanks blanks_nil), hr', hss⟩
  | @statement _ _ tail _ _ _ _ hb hlabel hop hos =>
      obtain ⟨d, cs, hcs, hd⟩ := hlabel.exists_start hop.mem tail
      have hsolid : Solid (d :: cs) := solid_cons hd (by decide) cs
      rw [← hcs] at hsolid
      refine (hr.skip_blanks hb hsolid).imp fun _ r' hr' => ⟨cons_iff.2 ?_, hr'.solid_iff.2 hsolid⟩
      exact ⟨c, _, lines, .statement blanks_nil hlabel hop hos, hr', hss⟩

/-- Where nothing is left to skip and no statement follows, the line is over. -/
theorem ahead_nil (h : AtLines r (none :: ss) comments) (hr : Solid r.rest) :
    ∃ lines, Ahead r [] none lines comments ∧ lines.map Line.statement = ss := by
  obtain ⟨c, l, lines, hl, hahead, hss⟩ := cons_iff.1 h
  cases hl with
  | blank hl =>
      obtain ⟨rfl, rfl⟩ := hl.eq_nil_of_solid (hahead.solid_iff.1 hr)
      exact ⟨lines, hahead, hss⟩

/-- Behind the last line the text is over. -/
theorem rest_eq_nil (h : AtLines r [none] comments) (hr : Solid r.rest) : r.rest = [] := by
  obtain ⟨lines, hahead, hlines⟩ := h.ahead_nil hr
  obtain rfl := List.map_eq_nil_iff.1 hlines
  obtain ⟨ls, hsplit, hls⟩ := hahead.split
  obtain ⟨hnil, -⟩ | ⟨nl, rest, -, -, hrest⟩ := splitLines_eq_nil_cons hsplit
  · exact hnil
  · obtain ⟨l, ls', hsplit'⟩ := exists_splitLines rest
    simp [← hrest, hsplit'] at hls

/-- Where nothing is left of a line, its line end is read, and the reader is in the next line. -/
theorem newline (h : AtLines r (none :: s :: ss) comments) (hr : Solid r.rest) :
    Goes Grammar.newline r fun _ r' => AtLines r' (s :: ss) comments := by
  obtain ⟨lines, hahead, hlines⟩ := h.ahead_nil hr
  obtain ⟨ls, hsplit, hls⟩ := hahead.split
  obtain ⟨-, rfl⟩ | ⟨nl, rest, hrest, hnl, rfl⟩ := splitLines_eq_nil_cons hsplit
  · obtain rfl := List.forall₂_nil_right_iff.1 hls
    simp at hlines
  · have htakes : Takes Grammar.newline nl rest fun _ => True :=
      .map (.scan (hrest ▸ hnl)) fun _ _ => trivial
    refine (htakes r hahead.sound hrest).imp fun _ r' ⟨_, hr'⟩ => ?_
    rw [hr']
    refine ⟨hahead.sound.advance hrest, lines, ?_, hlines, hahead.comments⟩
    rwa [Reader.rest_advance hrest]

/-- Where nothing is left of the last line, no line end follows. -/
theorem newline_none (h : AtLines r [none] comments) (hr : Solid r.rest) :
    Grammar.newline.Gives r none :=
  .bind_none (Rejects.scan (by rw [h.rest_eq_nil hr]; rfl) r h.1 rfl)

/-- A statement that is next starts with a letter or an underscore. -/
theorem exists_start {s : StatementWords} (h : AtLines r (some s :: ss) comments)
    (hr : Solid r.rest) : ∃ c cs, r.rest = c :: cs ∧ startsOpcode c = true := by
  obtain ⟨c, l, lines, hl, hahead, hss⟩ := cons_iff.1 h
  cases hl with
  | @statement _ _ tail _ _ _ _ hb hlabel hop hos =>
      obtain rfl := hb.eq_nil_of_solid (hahead.solid_iff.1 hr)
      obtain ⟨d, cs, hcs, hd⟩ := hlabel.exists_start hop.mem tail
      rw [List.nil_append, hcs] at hahead
      obtain ⟨rest, -, hrest, -⟩ := hahead.exists_rest (w := [d])
      exact ⟨d, rest, hrest, hd⟩

/-- Where a statement is ahead, no line end is. -/
theorem newline_none_of_statement {s : StatementWords} (h : AtLines r (some s :: ss) comments)
    (hr : Solid r.rest) : Grammar.newline.Gives r none := by
  obtain ⟨c, cs, hrest, hc⟩ := h.exists_start hr
  have hnone := findNewline_cons (isLineEnd_eq_false hc (by decide)) cs
  exact .bind_none (Rejects.scan hnone r h.1 hrest)

/-- Where a statement is ahead, it is read. The line has no other. -/
theorem statement {s : StatementWords} (h : AtLines r (some s :: ss) comments)
    (hr : Solid r.rest) :
    Goes Grammar.statement r fun found r' =>
      found.words = s ∧ AtLines r' (none :: ss) comments := by
  obtain ⟨c, l, lines, hl, hahead, hss⟩ := cons_iff.1 h
  cases hl with
  | statement hb hlabel hop hos =>
      obtain rfl := hb.eq_nil_of_solid (hahead.solid_iff.1 hr)
      refine (Ahead.statement hahead hlabel hop hos).imp
        fun found r' ⟨hfound, c', l', hr', hl'⟩ => ?_
      exact ⟨hfound, cons_iff.2 ⟨c', l', lines, .blank hl', hr', hss⟩⟩

/-! ### Line ends -/

/-- No line end is read before such lines: there is a statement in the first one, or no other
line. -/
def Settled (ss : List (Option StatementWords)) : Prop :=
  ss = [none] ∨ ∃ s ss', ss = some s :: ss'

/-- Lines without a statement come before settled ones. -/
theorem exists_settled (ss : List (Option StatementWords)) (h : ss ≠ []) :
    ∃ n ss', ss = List.replicate n none ++ ss' ∧ Settled ss' := by
  induction ss with
  | nil => exact absurd rfl h
  | cons s ss ih =>
      cases s with
      | some s => exact ⟨0, _, rfl, .inr ⟨s, ss, rfl⟩⟩
      | none =>
          by_cases hss : ss = []
          · exact ⟨0, _, rfl, .inl (by rw [hss])⟩
          · obtain ⟨n, ss', rfl, hss'⟩ := ih hss
            exact ⟨n + 1, ss', rfl, hss'⟩

/-- Line ends are read one by one, up to lines before which there is none. The items are the lines
without a statement, of which only the number matters. -/
theorem newlines_repeat (hss : Settled ss) :
    Repeats Grammar.newline (fun _ _ => True) fun (xs : List Unit) r =>
      AtLines r (List.replicate xs.length none ++ ss) comments where
  fits := by
    intro xs r h
    have hlen := h.length_le
    have hpos : 0 < ss.length := by rcases hss with rfl | ⟨s, ss', rfl⟩ <;> simp
    rw [List.length_append, List.length_replicate] at hlen
    exact ⟨h.1, by omega⟩
  skips := fun h => h.skip
  stops := by
    intro r h hr
    rcases hss with rfl | ⟨s, ss', rfl⟩
    · exact h.newline_none hr
    · exact h.newline_none_of_statement hr
  reads := by
    intro x xs r h hr
    obtain ⟨s, ss', hmore⟩ : ∃ s ss', List.replicate xs.length none ++ ss = s :: ss' :=
      List.exists_cons_of_ne_nil (by rcases hss with rfl | ⟨s, ss', rfl⟩ <;> simp)
    rw [List.length_cons, List.replicate_succ, List.cons_append, hmore] at h
    refine (h.newline hr).imp fun _ r' hr' => ⟨trivial, ?_⟩
    rwa [hmore]

/-- Line ends are read up to the next statement, or up to the last line. -/
theorem spaced_newline {n : Nat} (h : AtLines r (List.replicate n none ++ ss) comments)
    (hss : Settled ss) (hr : Solid r.rest) :
    Goes (Grammar.spaced Grammar.newline) r fun _ r' => AtLines r' ss comments := by
  have hitems : AtLines r (List.replicate (List.replicate n ()).length none ++ ss) comments := by
    rwa [List.length_replicate]
  exact ((newlines_repeat hss).spaced hitems hr).imp fun _ r' hr' => hr'.2

/-- Line ends are read up to the next statement, or to the last line where there is no further
statement. -/
theorem newlines {n : Nat} (h : AtLines r (none :: (List.replicate n none ++ ss)) comments)
    (hss : Settled ss) (hr : Solid r.rest) :
    Goes Grammar.newlines r fun _ r' => AtLines r' ss comments := by
  obtain ⟨s, ss', hmore⟩ : ∃ s ss', List.replicate n none ++ ss = s :: ss' :=
    List.exists_cons_of_ne_nil (by rcases hss with rfl | ⟨s, ss', rfl⟩ <;> simp)
  rw [hmore] at h
  refine (h.newline hr).bind fun _ r₁ h₁ => h₁.skip.bind fun _ r₂ ⟨h₂, hr₂⟩ => ?_
  exact (spaced_newline (hmore ▸ h₂) hss hr₂).bind fun _ r₃ h₃ => .pure h₃

/-! ### Statements -/

/-- Lines without a statement do not count among the statements. -/
theorem reduceOption_replicate_none_append (n : Nat) :
    (List.replicate n none ++ ss).reduceOption = ss.reduceOption := by
  induction n with
  | zero => rfl
  | succ n ih => simpa [List.replicate_succ] using ih

/-- Behind the last statement there is none. -/
theorem statement_none (h : AtLines r [none] comments) (hr : Solid r.rest) :
    Grammar.statement.Gives r none :=
  Grammar.statement_rejects r h.1 (h.rest_eq_nil hr)

/-- Further statements are read one by one, each with the line ends in front of it. Where no
statement is left, the line ends are given back, since a statement was looked for behind them. -/
theorem furtherStatements :
    Repeats Grammar.furtherStatement (fun a w => a.words = w) fun ws r =>
      ∃ ss, AtLines r (none :: ss) comments ∧ ss.reduceOption = ws where
  fits := by
    intro ws r ⟨ss, h, hws⟩
    have hlen := h.length_le
    have hle := ss.reduceOption_length_le
    rw [List.length_cons] at hlen
    rw [hws] at hle
    exact ⟨h.1, by omega⟩
  skips := by
    intro ws r ⟨ss, h, hws⟩
    exact h.skip.imp fun _ r' ⟨hr', hsolid⟩ => ⟨⟨ss, hr', hws⟩, hsolid⟩
  stops := by
    intro r ⟨ss, h, hws⟩ hr
    by_cases hss : ss = []
    · rw [hss] at h
      exact .bind_none (.bind_none (h.newline_none hr))
    -- The lines that are left hold no statement: their ends are read, and then given back.
    · obtain ⟨n, ss', rfl, hsettled⟩ := exists_settled ss hss
      rw [reduceOption_replicate_none_append] at hws
      obtain rfl | ⟨s, ss', rfl⟩ := id hsettled
      · refine (h.newlines hsettled hr).bind_none fun _ r₁ h₁ => ?_
        exact h₁.skip.bind_none fun _ r₂ ⟨h₂, hr₂⟩ => h₂.statement_none hr₂
      · simp at hws
  reads := by
    intro w ws r ⟨ss, h, hws⟩ hr
    obtain ⟨n, ss', rfl, hsettled⟩ := exists_settled ss (by rintro rfl; simp at hws)
    rw [reduceOption_replicate_none_append] at hws
    obtain rfl | ⟨s, ss', rfl⟩ := id hsettled
    · simp at hws
    · obtain ⟨rfl, rfl⟩ : s = w ∧ ss'.reduceOption = ws := by simpa using hws
      refine (h.newlines hsettled hr).bind fun _ r₁ h₁ => h₁.skip.bind fun _ r₂ ⟨h₂, hr₂⟩ => ?_
      exact (h₂.statement hr₂).imp fun found r₃ ⟨hfound, h₃⟩ => ⟨hfound, ss', h₃, rfl⟩

/-- All statements are read, from the first to the last. Lines without a statement are all that is
left. -/
theorem statements {s : StatementWords} (h : AtLines r (some s :: ss) comments)
    (hr : Solid r.rest) :
    Goes Grammar.statements r fun found r' => found.map Statement.words = s :: ss.reduceOption ∧
      ∃ ss', AtLines r' (none :: ss') comments ∧ ss'.reduceOption = [] := by
  refine (h.statement hr).bind fun first r₁ ⟨hfirst, h₁⟩ => ?_
  refine (furtherStatements.skips ⟨ss, h₁, rfl⟩).bind fun _ r₂ ⟨h₂, hr₂⟩ => ?_
  refine (furtherStatements.spaced h₂ hr₂).bind fun others r₃ ⟨hothers, h₃⟩ => .pure ⟨?_, h₃⟩
  rw [List.map_cons, hfirst, eq_map_of_forall₂ (fun _ _ hw => hw.symm) hothers]

/-! ### Texts -/

/-- Lines without statements are read to the end of the text. -/
theorem closing {α : Type} (a : α) (h : AtLines r ss comments) (hss : ss.reduceOption = []) :
    Goes (Grammar.skip >>= fun _ => Grammar.spaced Grammar.newline >>= fun _ => Grammar.skip >>=
      fun _ => Grammar.endOfInput >>= fun _ => Pure.pure a) r
      fun found r' => found = a ∧ r'.comments.reverse = comments := by
  obtain ⟨s, ss₀, hcons⟩ := h.exists_cons
  obtain ⟨n, ss', rfl, hsettled⟩ := exists_settled ss (by simp [hcons])
  rw [reduceOption_replicate_none_append] at hss
  obtain rfl | ⟨s, ss', rfl⟩ := id hsettled
  · refine h.skip.bind fun _ r₁ ⟨h₁, hr₁⟩ => ?_
    refine (h₁.spaced_newline hsettled hr₁).bind fun _ r₂ h₂ => ?_
    refine h₂.skip.bind fun _ r₃ ⟨h₃, hr₃⟩ => ?_
    have hend : Goes Grammar.endOfInput r₃ fun _ r' => True ∧ r' = r₃ :=
      Grammar.endOfInput_takes r₃ h₃.1 (h₃.rest_eq_nil hr₃)
    refine hend.bind fun _ r₄ ⟨_, hr₄⟩ => .pure ⟨rfl, ?_⟩
    obtain ⟨lines, hahead, hlines⟩ := h₃.ahead_nil hr₃
    obtain rfl := List.map_eq_nil_iff.1 hlines
    simpa [hr₄] using hahead.comments
  · simp at hss

/-- A text of good lines is read to its end. The statements are those of its lines, and so are the
comments. -/
theorem block (h : AtLines r ss comments) :
    Goes Grammar.block r fun found r' =>
      found.map Statement.words = ss.reduceOption ∧ r'.comments.reverse = comments := by
  obtain ⟨s, ss₀, hcons⟩ := h.exists_cons
  obtain ⟨n, ss', rfl, hsettled⟩ := exists_settled ss (by simp [hcons])
  rw [reduceOption_replicate_none_append]
  refine .rule (h.skip.bind fun _ r₁ ⟨h₁, hr₁⟩ => ?_)
  refine (h₁.spaced_newline hsettled hr₁).bind fun _ r₂ h₂ => ?_
  refine h₂.skip.bind fun _ r₃ ⟨h₃, hr₃⟩ => ?_
  have hfound : Goes (optional Grammar.statements) r₃ fun found r' =>
      (found.getD []).map Statement.words = ss'.reduceOption ∧
        ∃ ss'', AtLines r' ss'' comments ∧ ss''.reduceOption = [] := by
    obtain rfl | ⟨s, ss', rfl⟩ := hsettled
    · exact .optional_none (.bind_none (h₃.statement_none hr₃)) ⟨rfl, _, h₃, rfl⟩
    · refine (h₃.statements hr₃).optional fun found r' ⟨hfound, ss'', hr', hss''⟩ => ?_
      exact ⟨by simpa using hfound, _, hr', by simpa using hss''⟩
  refine hfound.bind fun found r₄ ⟨hwords, ss'', h₄, hss''⟩ => ?_
  exact (h₄.closing (found.getD []) hss'').imp
    fun found' r₅ ⟨hfound', hr₅⟩ => ⟨hfound' ▸ hwords, hr₅⟩

end AtLines

/-- A text of good lines is read, with the statements and the comments of its lines. -/
theorem Listing.ofText_of_lines {text : List Char} {lines : List Line}
    (h : List.Forall₂ Line.Written lines (splitLines text)) :
    ∃ listing, Listing.ofText text = .ok listing ∧
      listing.statements.map Statement.words = lines.filterMap Line.statement ∧
      listing.comments = (lines.filterMap Line.comment).map keptComment := by
  have hstart : AtLines (.ofText text) (lines.map Line.statement)
      ((lines.filterMap Line.comment).map keptComment) :=
    ⟨Reader.sound_ofText text, lines, h, rfl, rfl⟩
  obtain ⟨found, r, ⟨hfound, hcomments⟩, hblock⟩ := hstart.block
  refine ⟨⟨found, r.comments.reverse⟩, ?_, ?_, hcomments⟩
  · unfold Listing.ofText
    rw [hblock.eq {}]
    rfl
  · simpa [List.reduceOption, List.filterMap_map] using hfound

end StackForm.Text

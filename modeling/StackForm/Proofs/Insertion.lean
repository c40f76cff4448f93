import StackForm.Proofs.DirectiveText
import StackForm.Proofs.GoodLines

/-!
# `StackForm.Proofs.Insertion`: lines of directives in a text

Directives may be put into a text between any two of its lines, before the first and behind the
last. `Text.parse_inserted` says that the text is then accepted as before, with the same block and
the same names, and that its directives are those that were put in.

What is accepted depends on a text only through its lines (`Listing.ofText_iff`). So insertion is a
relation between lists of lines, and the texts may end their lines in any of the three ways. The
lines that are put in have no statement (`Inserted.exists_lines`), and without a change to the
statements there is none to the block (`parse_of_statements`).
-/

set_option autoImplicit false

namespace StackForm

namespace Check

/-- There is no line end in a list of locals. -/
theorem not_isLineEnd_pairsText (xs : List (UInt32 × Word)) :
    ∀ c ∈ (pairsText xs).toList, Text.isLineEnd c = false := by
  intro c hc
  rcases mem_pairsText hc with hdigit | rfl | rfl | rfl | rfl
  · exact Text.isLineEnd_eq_false hdigit (by decide)
  all_goals decide

/-- A directive is one line. -/
theorem not_isLineEnd_text (c : Check) : ∀ d ∈ c.text.toList, Text.isLineEnd d = false := by
  obtain ⟨xs, expected⟩ := c
  cases expected with
  | none =>
      simp only [toList_text_none, List.forall_mem_append, List.forall_mem_cons]
      exact ⟨by simp [Text.isLineEnd], by decide, by decide, not_isLineEnd_pairsText xs⟩
  | some ys =>
      simp only [toList_text_some, List.forall_mem_append, List.forall_mem_cons]
      exact ⟨⟨by simp [Text.isLineEnd], by decide, not_isLineEnd_pairsText xs,
        by simp [Text.isLineEnd]⟩, by decide, by decide, not_isLineEnd_pairsText ys⟩

/-- A directive is a comment. -/
theorem exists_text_eq (c : Check) : ∃ cs, c.text.toList = '#' :: cs := by
  obtain ⟨xs, expected⟩ := c
  cases expected with
  | none => exact ⟨_, toList_text_none xs⟩
  | some ys => exact ⟨_, toList_text_some xs ys⟩

end Check

namespace Text

/-! ### Texts with given lines -/

/-- The lines of a text. The last of them may have a line end or not. -/
def HasLines (text : String) (ls : List (List Char)) : Prop :=
  splitLines text.toList = ls ∨ splitLines text.toList = ls ++ [[]]

/-- Lines, each with a line end. -/
def unlines (ls : List (List Char)) : String := String.ofList (ls.flatMap (· ++ ['\n']))

/-- Lines with a line end behind each make a text with these lines. -/
theorem hasLines_unlines {ls : List (List Char)}
    (h : ∀ l ∈ ls, ∀ c ∈ l, isLineEnd c = false) : HasLines (unlines ls) ls := by
  refine Or.inr ?_
  rw [unlines, String.toList_ofList]
  induction ls with
  | nil => rfl
  | cons l ls ih =>
      rw [List.forall_mem_cons] at h
      have hline : splitLines (['\n'] ++ ls.flatMap (· ++ ['\n'])) = [] :: (ls ++ [[]]) := by
        rw [splitLines_newline rfl, ih h.2]
      rw [List.flatMap_cons, List.append_assoc, splitLines_append h.1 hline, List.append_nil]
      rfl

/-- There is no line end within a line. -/
theorem HasLines.not_isLineEnd {text : String} {ls : List (List Char)} (h : HasLines text ls) :
    ∀ l ∈ ls, ∀ c ∈ l, isLineEnd c = false := by
  intro l hl
  have hmem : l ∈ splitLines text.toList := by
    rcases h with h | h
    · rwa [h]
    · rw [h]
      exact List.mem_append_left _ hl
  obtain ⟨before, after, hsplit⟩ := List.append_of_mem hmem
  obtain ⟨v, -, hv⟩ := exists_terminated hsplit
  exact not_isLineEnd_of_splitLines hv

/-! ### What is read in lines -/

/-- An empty line has no statement and no comment. -/
theorem Line.Written.eq_of_nil {line : Line} (h : line.Written []) : line = ⟨none, none⟩ := by
  have hcomment : line.comment = none := h.fromHash?_eq.symm.trans (fromHash?_of_not_mem (by simp))
  generalize hnil : ([] : List Char) = l at h
  cases h with
  | blank => exact congrArg _ hcomment
  | @statement b labelling l label opcode os c hb hlabel hop hos =>
      obtain ⟨d, others, hopcode, -⟩ := hop.mem
      simp [hopcode] at hnil

/-- Behind the last line end there is nothing to read. -/
theorem forall₂_written_append_nil_iff {lines : List Line} {ls : List (List Char)} :
    List.Forall₂ Line.Written lines (ls ++ [[]]) ↔
      ∃ front, lines = front ++ [⟨none, none⟩] ∧ List.Forall₂ Line.Written front ls := by
  constructor
  · intro h
    obtain ⟨last, hlast⟩ : ∃ last, lines.drop ls.length = [last] ∧ last.Written [] := by
      have hdrop := List.forall₂_drop_append lines ls [[]] h
      generalize lines.drop ls.length = rest at hdrop
      cases hdrop with
      | cons hwritten hnone =>
          cases hnone
          exact ⟨_, rfl, hwritten⟩
    refine ⟨lines.take ls.length, ?_, List.forall₂_take_append lines ls [[]] h⟩
    rw [← hlast.2.eq_of_nil, ← hlast.1, List.take_append_drop]
  · intro h
    obtain ⟨front, rfl, hfront⟩ := h
    exact List.rel_append hfront (.cons (.blank (.blanks blanks_nil)) .nil)

/-- Reading is about the lines, whether the last of them has a line end or not. -/
theorem HasLines.exists_lines_iff {text : String} {ls : List (List Char)} (h : HasLines text ls)
    {ws : List StatementWords} {comments : List String} :
    (∃ listing, Listing.ofText text.toList = .ok listing ∧
      listing.statements.map Statement.words = ws ∧ listing.comments = comments) ↔
    ∃ lines, List.Forall₂ Line.Written lines ls ∧ lines.filterMap Line.statement = ws ∧
      (lines.filterMap Line.comment).map keptComment = comments := by
  rw [Listing.ofText_iff]
  rcases h with h | h
  · rw [h]
  · simp only [h, forall₂_written_append_nil_iff]
    constructor
    · intro ⟨lines, ⟨front, hlines, hfront⟩, hstatements, hcomments⟩
      subst hlines
      exact ⟨front, hfront, by simpa using hstatements, by simpa using hcomments⟩
    · intro ⟨front, hfront, hstatements, hcomments⟩
      exact ⟨front ++ [⟨none, none⟩], ⟨front, rfl, hfront⟩, by simpa using hstatements,
        by simpa using hcomments⟩

/-- A text with the statements of an accepted text is accepted, with the same block. -/
theorem parse_of_statements {source result : String} {p : Parsed} {l l' : Listing}
    (hl : Listing.ofText source.toList = .ok l) (hp : l.resolve = .ok p)
    (hl' : Listing.ofText result.toList = .ok l')
    (hsame : l'.statements.map Statement.words = l.statements.map Statement.words) :
    ∃ p', parse result = .ok p' ∧ p'.block = p.block ∧ p'.valueNames = p.valueNames ∧
      p'.comments = l'.comments := by
  obtain ⟨hws, hnames⟩ := Listing.resolves_of_resolve (Listing.isShaped hl) hp
  rw [← hsame] at hws hnames
  obtain ⟨p', hp', hblock⟩ := Listing.resolve_of_resolves (Listing.isShaped hl') hws
  obtain ⟨-, hnames'⟩ := Listing.resolves_of_resolve (Listing.isShaped hl') hp'
  refine ⟨p', parse_eq_ok_iff.2 ⟨l', hl', hp'⟩, hblock, ?_, Listing.resolve_comments hp'⟩
  have hentries : ∀ {q : Parsed}, NamesOf (l'.statements.map Statement.words) q.names →
      q.valueNames = labelled (l'.statements.map Statement.words) := by
    intro q hq
    exact Parsed.valueNames_eq (labelled_increase _) fun name pos => by rw [mem_labelled, hq]
  rw [hentries hnames, hentries hnames']

/-! ### Insertion -/

/-- Lines with those of directives between them. -/
inductive Inserted : List (List Char) → List Check → List (List Char) → Prop
  | nil : Inserted [] [] []
  /-- The next line is one of the text. -/
  | line {ls ls' : List (List Char)} {checks : List Check} (l : List Char)
      (h : Inserted ls checks ls') : Inserted (l :: ls) checks (l :: ls')
  /-- The next line is a directive. -/
  | check {ls ls' : List (List Char)} {checks : List Check} (c : Check)
      (h : Inserted ls checks ls') : Inserted ls (c :: checks) (c.text.toList :: ls')

namespace Inserted

variable {ls ls' : List (List Char)} {checks : List Check}

/-- Lines with directives between them are lines. -/
theorem not_isLineEnd (h : Inserted ls checks ls')
    (hls : ∀ l ∈ ls, ∀ c ∈ l, isLineEnd c = false) : ∀ l ∈ ls', ∀ c ∈ l, isLineEnd c = false := by
  induction h with
  | nil => exact hls
  | line l _ ih =>
      rw [List.forall_mem_cons] at hls ⊢
      exact ⟨hls.1, ih hls.2⟩
  | check c _ ih => exact List.forall_mem_cons.2 ⟨c.not_isLineEnd_text, ih hls⟩

/-- The lines that are put in have no statements, and of the comments the directives are theirs. -/
theorem exists_lines (h : Inserted ls checks ls') {lines : List Line}
    (hlines : List.Forall₂ Line.Written lines ls)
    (hplain : ∀ comment ∈ (lines.filterMap Line.comment).map keptComment,
      Directive.isDirective comment = false) :
    ∃ lines', List.Forall₂ Line.Written lines' ls' ∧
      lines'.filterMap Line.statement = lines.filterMap Line.statement ∧
      ((lines'.filterMap Line.comment).map keptComment).filter Directive.isDirective
        = checks.map Check.comment := by
  induction h generalizing lines with
  | nil =>
      cases hlines
      exact ⟨[], .nil, rfl, rfl⟩
  | line l _ ih =>
      cases hlines with
      | @cons line _ lines _ hline hlines =>
          have hrest : ∀ comment ∈ (lines.filterMap Line.comment).map keptComment,
              Directive.isDirective comment = false := by
            intro comment hmem
            have hsublist := (List.sublist_cons_self line lines).filterMap Line.comment
            exact hplain comment ((hsublist.map keptComment).subset hmem)
          obtain ⟨lines', hlines', hstatements, hcomments⟩ := ih hlines hrest
          refine ⟨line :: lines', .cons hline hlines', ?_, ?_⟩
          · rw [List.filterMap_cons, List.filterMap_cons, hstatements]
          · -- A comment of the text is no directive, so it drops out.
            rw [← hcomments]
            cases hcomment : line.comment with
            | none => rw [List.filterMap_cons_none hcomment]
            | some cs =>
                have hcs : Directive.isDirective (keptComment cs) = false :=
                  hplain _ (by simp [hcomment])
                rw [List.filterMap_cons_some hcomment, List.map_cons,
                  List.filter_cons_of_neg (by simp [hcs])]
  | check c _ ih =>
      obtain ⟨lines', hlines', hstatements, hcomments⟩ := ih hlines hplain
      obtain ⟨cs, hcs⟩ := c.exists_text_eq
      refine ⟨⟨none, some c.text.toList⟩ :: lines', .cons ?_ hlines', hstatements, ?_⟩
      · -- The line has nothing before its `#`.
        rw [hcs]
        exact .blank (.comment blanks_nil cs)
      · rw [List.map_cons, ← hcomments]
        exact List.filter_cons_of_pos (Directive.isDirective_comment c)

end Inserted

/-- Comments are read as directives if those among them that start like one are the comments of
directives. The other comments are passed over. -/
theorem ofComments_of_filter {comments : List String} {checks : List Check}
    (h : comments.filter Directive.isDirective = checks.map Check.comment) :
    Directive.ofComments comments = .ok (checks.map Check.directive) := by
  rw [Directive.ofComments, h]
  clear h
  induction checks with
  | nil => rfl
  | cons c checks ih =>
      rw [List.map_cons, List.mapM_cons, Directive.parse_comment, ih]
      rfl

/-- Directives in lines of their own, wherever they are, leave the block and its names as they
are, and are read as they were written, one for each line and in the same order. There is a text
with these lines, and all of them are read alike. -/
theorem parse_inserted {source : String} {p : Parsed} (h : parse source = .ok p)
    (hplain : ∀ comment ∈ p.comments, Directive.isDirective comment = false)
    {ls ls' : List (List Char)} {checks : List Check} (hls : HasLines source ls)
    (hinserted : Inserted ls checks ls') :
    HasLines (unlines ls') ls' ∧
    ∀ result : String, HasLines result ls' →
      ∃ p', parse result = .ok p' ∧ p'.block = p.block ∧ p'.valueNames = p.valueNames ∧
        Directive.ofComments p'.comments = .ok (checks.map Check.directive) := by
  refine ⟨hasLines_unlines (hinserted.not_isLineEnd hls.not_isLineEnd), fun result hresult => ?_⟩
  obtain ⟨l, hl, hresolve⟩ := parse_eq_ok_iff.1 h
  obtain ⟨lines, hlines, hstatements, hcomments⟩ := hls.exists_lines_iff.1 ⟨l, hl, rfl, rfl⟩
  rw [Listing.resolve_comments hresolve, ← hcomments] at hplain
  obtain ⟨lines', hlines', hsame, hdirectives⟩ := hinserted.exists_lines hlines hplain
  obtain ⟨l', hl', hstatements', hcomments'⟩ :=
    hresult.exists_lines_iff.2 ⟨lines', hlines', rfl, rfl⟩
  obtain ⟨p', hp', hblock, hnames, hkept⟩ := parse_of_statements hl hresolve hl'
    (hstatements'.trans (hsame.trans hstatements))
  refine ⟨p', hp', hblock, hnames, ofComments_of_filter ?_⟩
  rw [hkept, hcomments', hdirectives]

/-- A local is copied to another. -/
def copying : String := "v0 = load_local 0 # a copy\r\nstore_local 1, v0"

/-- Checks without an arrow, without locals, and without pairs behind the arrow. -/
def copyChecks : List Check :=
  [⟨[(0, -5), (1, 7)], none⟩, ⟨[], some [(1, 0)]⟩,
    ⟨[(4294967295, -9223372036854775808)], some []⟩]

/-- The text with a directive before each of its lines and one at the end. -/
def copyingChecked : String :=
  "#! locals: 0=-5, 1=7\nv0 = load_local 0 # a copy\r\n#! locals:  -> 1=0\rstore_local 1, v0\n" ++
    "#! locals: 4294967295=-9223372036854775808 -> \n"

/-- Three directives between the lines of a program with a comment of its own: the program stays the
same, and the directives are read in their order. -/
theorem parse_inserted_copying :
    ∃ p p', parse copying = .ok p ∧ p.comments = ["# a copy"] ∧
      HasLines copying (splitLines copying.toList) ∧
      Inserted (splitLines copying.toList) copyChecks (splitLines copyingChecked.toList).dropLast ∧
      HasLines copyingChecked (splitLines copyingChecked.toList).dropLast ∧
      parse copyingChecked = .ok p' ∧ p'.block = p.block ∧ p'.valueNames = p.valueNames ∧
      Directive.ofComments p'.comments = .ok
        [⟨"#! locals: 0=-5, 1=7", [(0, -5), (1, 7)], none⟩,
          ⟨"#! locals:  -> 1=0", [], some [(1, 0)]⟩,
          ⟨"#! locals: 4294967295=-9223372036854775808 ->",
            [(4294967295, -9223372036854775808)], some []⟩] := by
  obtain ⟨p, hp, hcomments⟩ : ∃ p, parse copying = .ok p ∧ p.comments = ["# a copy"] := by
    have hread : (parse copying).map (·.comments) = .ok ["# a copy"] := by decide +kernel
    cases hp : parse copying with
    | error ds => simp [hp, Except.map] at hread
    | ok p =>
        rw [hp] at hread
        exact ⟨p, rfl, Except.ok.inj hread⟩
  have hplain : ∀ comment ∈ p.comments, Directive.isDirective comment = false := by
    rw [hcomments]
    decide +kernel
  have hlines : HasLines copying (splitLines copying.toList) := Or.inl rfl
  have hresult : HasLines copyingChecked (splitLines copyingChecked.toList).dropLast :=
    Or.inr (by decide +kernel)
  have hinserted : Inserted (splitLines copying.toList) copyChecks
      (splitLines copyingChecked.toList).dropLast := by
    have hsource : splitLines copying.toList
        = ["v0 = load_local 0 # a copy".toList, "store_local 1, v0".toList] := by decide +kernel
    have hchecked : (splitLines copyingChecked.toList).dropLast
        = [(copyChecks.get ⟨0, by decide⟩).text.toList, "v0 = load_local 0 # a copy".toList,
          (copyChecks.get ⟨1, by decide⟩).text.toList, "store_local 1, v0".toList,
          (copyChecks.get ⟨2, by decide⟩).text.toList] := by decide +kernel
    rw [hsource, hchecked]
    exact .check _ (.line _ (.check _ (.line _ (.check _ .nil))))
  obtain ⟨-, hall⟩ := parse_inserted hp hplain hlines hinserted
  obtain ⟨p', hp', hblock, hnames, hdirectives⟩ := hall copyingChecked hresult
  refine ⟨p, p', hp, hcomments, hlines, hinserted, hresult, hp', hblock, hnames, ?_⟩
  rw [hdirectives]
  decide +kernel

end Text

end StackForm

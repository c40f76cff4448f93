import StackForm.Proofs.Accepted

/-!
# `StackForm.Proofs.Diagnosis`: everything that is wrong with a text

A text that is not accepted is reported by a list of problems. `problems` says which they are, in
terms of the words of the statements alone: there is no table of names here, and a name is in use
if a statement before with a known opcode is labelled with it.

While statements are taken, the table of names holds the names in use (`Tracks`). This
is so whether or not something was wrong with the statements before. So the diagnostics of a
statement are its problems, and a list of problems is complete: one problem does not hide another.
-/

set_option autoImplicit false

namespace StackForm.Text

/-! ### Problems of statements -/

/-- A statement with a known opcode is labelled with the name. -/
def Defines (ws : List StatementWords) (name : String) : Prop :=
  ∃ w ∈ ws, (Opcode.ofName? w.opcode).isSome ∧ w.label = some name

instance (ws : List StatementWords) (name : String) : Decidable (Defines ws name) :=
  inferInstanceAs (Decidable (∃ w ∈ ws, _))

/-- What is wrong with an operand, when the statements `before` come before its own. -/
def OperandWord.problem? (before : List StatementWords) : OperandWord → Option Problem
  | .name text => if Defines before text then none else some (.undefinedValue text)
  | .integer text =>
    if -9223372036854775808 ≤ intOfDigits text.toList ∧
        intOfDigits text.toList ≤ 9223372036854775807 then none
    else some .numberOutOfBounds

/-- What is wrong with the number of operands and the label of a statement with a known
opcode. -/
def StatementWords.opcodeProblems (before : List StatementWords) (w : StatementWords)
    (op : Opcode) : List Problem :=
  (if w.operands.length ≠ op.arity then [.argCount op.arity w.operands.length] else []) ++
    (if w.label.isSome ∧ op.hasResult = false then [.unexpectedName op] else []) ++
    (w.label.toList.filter (Defines before ·)).map .duplicateName

/-- What is wrong with a statement, when the statements `before` come before it. -/
def StatementWords.problems (before : List StatementWords) (w : StatementWords) : List Problem :=
  (if Opcode.ofName? w.opcode = none then [.unknownInstr w.opcode] else []) ++
    w.operands.filterMap (OperandWord.problem? before) ++
    (Opcode.ofName? w.opcode).toList.flatMap (w.opcodeProblems before)

/-- What is wrong with statements, in their order, when the statements `before` come before. -/
def problems (before : List StatementWords) : List StatementWords → List Problem
  | [] => []
  | w :: ws => w.problems before ++ problems (before ++ [w]) ws

/-! ### Diagnostics of statements -/

section Statements

variable {ws : List StatementWords} {names : Names}

/-- The names in the table are the names in use. -/
def Tracks (ws : List StatementWords) (names : Names) : Prop :=
  ∀ name, name ∈ names ↔ Defines ws name

/-- Before the first statement no name is in use. -/
theorem tracks_nil : Tracks [] ∅ := by
  intro name
  simp [Defines]

/-- A further statement puts its label in use, if its opcode is known. -/
theorem defines_snoc {w : StatementWords} {name : String} :
    Defines (ws ++ [w]) name ↔
      Defines ws name ∨ ((Opcode.ofName? w.opcode).isSome ∧ w.label = some name) := by
  simp [Defines, or_and_right, exists_or]

/-- Taking a statement puts its label in use in the same way. -/
theorem Tracks.define (h : Tracks ws names) (s : Statement) (pos : Nat) :
    Tracks (ws ++ [s.words]) (s.define names pos) := by
  intro name
  rw [defines_snoc, ← h name]
  have hop : Opcode.ofName? s.words.opcode = s.opcode? := rfl
  have hlabel : s.words.label = s.label.map Lexeme.text := rfl
  rw [hop, hlabel]
  unfold Statement.define
  cases s.opcode? with
  | none => simp
  | some op =>
      cases s.label with
      | none => simp
      | some l =>
          simp only [Std.ExtTreeMap.mem_insertIfNew]
          simp [or_comm]

/-- What is found wrong with an operand is what is wrong with its word. -/
theorem OperandText.diagnostic?_problem (h : Tracks ws names) (o : OperandText) :
    (o.diagnostic? names).map (·.problem) = o.word.problem? ws := by
  cases o with
  | name l =>
      have hname := h l.text
      rw [← Std.ExtTreeMap.isSome_getElem?_iff_mem] at hname
      simp only [OperandText.word, OperandWord.problem?, ← hname]
      cases hfound : names[l.text]? with
      | none =>
          simp only [OperandText.diagnostic?, OperandText.read, hfound]
          rfl
      | some pos => simp [OperandText.diagnostic?, OperandText.read, hfound, pure, Except.pure]
  | integer l =>
      simp only [OperandText.word, OperandWord.problem?, OperandText.diagnostic?, OperandText.read,
        Word.ofInt?]
      by_cases hword : -9223372036854775808 ≤ intOfDigits l.text.toList ∧
          intOfDigits l.text.toList ≤ 9223372036854775807
      · simp [hword, pure, Except.pure]
      · simp only [if_neg hword]
        rfl

/-- What is found wrong with a label: first that there is no result to be named, and then that the
name is in use. -/
theorem problem_labelDiagnostics (h : Tracks ws names) (op : Opcode) (l : Lexeme) :
    (Statement.labelDiagnostics names op l).map (·.problem) =
      (if op.hasResult = false then [.unexpectedName op] else []) ++
        ([l.text].filter (Defines ws ·)).map .duplicateName := by
  have hname := h l.text
  unfold Statement.labelDiagnostics
  rw [List.map_append]
  congr 1
  · cases op.hasResult <;> rfl
  · by_cases hdef : Defines ws l.text
    · simp [hdef, hname.2 hdef]
    · simp [hdef, mt hname.1 hdef]

/-- The diagnostics of a statement tell its problems. -/
theorem Statement.problem_diagnostics (h : Tracks ws names) (s : Statement) :
    (s.diagnostics names).map (·.problem) = s.words.problems ws := by
  have hop : Opcode.ofName? s.words.opcode = s.opcode? := rfl
  have hlabel : s.words.label = s.label.map Lexeme.text := rfl
  have hlength : s.words.operands.length = s.operands.length := List.length_map _
  have hoperands : (s.operands.filterMap (·.diagnostic? names)).map (·.problem) =
      s.words.operands.filterMap (OperandWord.problem? ws) := by
    rw [List.map_filterMap, show s.words.operands = s.operands.map OperandText.word from rfl,
      List.filterMap_map]
    exact List.filterMap_congr fun o _ => OperandText.diagnostic?_problem h o
  unfold Statement.diagnostics StatementWords.problems
  rw [hop, ← hoperands]
  cases s.opcode? with
  | none => simp [Statement.words]
  | some op =>
      simp only [List.map_append, Option.toList_some, List.flatMap_singleton,
        StatementWords.opcodeProblems, hlength, hlabel]
      cases s.label with
      | none => by_cases harity : s.operands.length = op.arity <;> simp [harity]
      | some l =>
          simp only [Option.map_some, Option.getD_some, problem_labelDiagnostics h]
          by_cases harity : s.operands.length = op.arity <;> simp [harity]

end Statements

/-! ### Diagnostics of texts -/

/-- The problems of all statements are found one statement after the other, behind those that were
there. Each statement is looked at with the labels of those before it. -/
theorem Resolution.problem_takeAll {ws : List StatementWords} {r : Resolution}
    (h : Tracks ws r.names) (pos : Nat) (ss : List Statement) :
    (r.takeAll pos ss).diagnostics.toList.map (·.problem) =
      r.diagnostics.toList.map (·.problem) ++ problems ws (ss.map Statement.words) := by
  induction ss generalizing ws r pos with
  | nil => simp [Resolution.takeAll, problems]
  | cons s ss ih =>
      have hstep : (r.take pos s).diagnostics.toList.map (·.problem) =
          r.diagnostics.toList.map (·.problem) ++ s.words.problems ws := by
        simp [Resolution.take, ← Statement.problem_diagnostics h s]
      have hnames : Tracks (ws ++ [s.words]) (r.take pos s).names := h.define s pos
      unfold Resolution.takeAll
      rw [ih hnames, hstep, List.append_assoc]
      rfl

/-- What is reported of statements are their problems. -/
theorem Listing.problem_resolve (l : Listing) :
    (∀ p, l.resolve = .ok p → problems [] (l.statements.map Statement.words) = []) ∧
      ∀ ds, l.resolve = .error ds →
        ds ≠ [] ∧ ds.map (·.problem) = problems [] (l.statements.map Statement.words) := by
  have hall := Resolution.problem_takeAll (r := {}) tracks_nil 0 l.statements
  unfold Listing.resolve
  by_cases hnone : (({} : Resolution).takeAll 0 l.statements).diagnostics = #[]
  · rw [hnone] at hall
    simp only [hnone]
    refine ⟨fun _ _ => by simpa using hall.symm, fun ds hds => ?_⟩
    cases hds
  · refine ⟨fun p hp => ?_, fun ds hds => ?_⟩
    · simp [hnone] at hp
    · rw [if_neg (by simpa using hnone)] at hds
      obtain rfl := Except.error.inj hds
      exact ⟨by simpa using hnone, by simpa using hall⟩

/-- The second statement has every problem that a labelled statement can have, and the statements
after it are not spared. The name that it gives again keeps its meaning, and an unknown opcode
gives no name. -/
example :
    (((Listing.ofText ("v0 = add 1, 2\nv0 = store_local v1, 9223372036854775808, v0\n" ++
        "v1 = adds v1\nadd v1, v0").toList).toOption.map Listing.resolve).map fun
      | .ok _ => []
      | .error ds => ds.map (·.problem)) = some
      [.undefinedValue "v1", .numberOutOfBounds, .argCount 2 3, .unexpectedName .storeLocal,
        .duplicateName "v0", .unknownInstr "adds", .undefinedValue "v1", .undefinedValue "v1"] := by
  decide +kernel

/-- A text that is read is refused, if at all, for what is wrong with its statements. -/
theorem parse_of_read {source : String} {l : Listing}
    (h : Listing.ofText source.toList = .ok l) : parse source = l.resolve := by
  unfold parse
  rw [h]

/-- A text that is not read is refused for that alone, at the offset of the last failure on
record. -/
theorem parse_of_malformed {source : String} {attempts : Attempts}
    (h : Listing.ofText source.toList = .error attempts) :
    parse source = .error [⟨.malformed attempts.expected, .point attempts.offset⟩] := by
  unfold parse
  rw [h]
  rfl

/-- A text with a line of the wrong form is reported by one problem, which is that. The report of
any other text that is not accepted lists the problems of its statements, and nothing else. A text
is accepted exactly if all its lines are of the right form and its statements have no problems. -/
theorem parse_problems (source : String) :
    ((¬ ∃ lines, List.Forall₂ Line.Written lines (splitLines source.toList)) →
      ∃ expected span, parse source = .error [⟨.malformed expected, span⟩]) ∧
    (∀ lines, List.Forall₂ Line.Written lines (splitLines source.toList) →
      problems [] (lines.filterMap Line.statement) ≠ [] →
      ∃ ds, parse source = .error ds ∧
        ds.map (·.problem) = problems [] (lines.filterMap Line.statement)) ∧
    ((∃ p, parse source = .ok p) ↔
      ∃ lines, List.Forall₂ Line.Written lines (splitLines source.toList) ∧
        problems [] (lines.filterMap Line.statement) = []) := by
  have hread : ∀ lines, List.Forall₂ Line.Written lines (splitLines source.toList) →
      ∃ l : Listing, parse source = l.resolve ∧
        l.statements.map Statement.words = lines.filterMap Line.statement := by
    intro lines hlines
    obtain ⟨l, hl, hwords, -⟩ := Listing.ofText_of_lines hlines
    exact ⟨l, parse_of_read hl, hwords⟩
  refine ⟨fun hbad => ?_, fun lines hlines hne => ?_, ?_, ?_⟩
  · cases htext : Listing.ofText source.toList with
    | ok l => exact absurd (Listing.lines_of_ofText htext) hbad
    | error attempts => exact ⟨_, _, parse_of_malformed htext⟩
  · obtain ⟨l, hparse, hwords⟩ := hread lines hlines
    rw [hparse, ← hwords]
    rw [← hwords] at hne
    cases hl : l.resolve with
    | ok p => exact absurd (l.problem_resolve.1 p hl) hne
    | error ds => exact ⟨ds, rfl, (l.problem_resolve.2 ds hl).2⟩
  · rintro ⟨p, hp⟩
    obtain ⟨l, htext, hl⟩ := parse_eq_ok_iff.1 hp
    obtain ⟨lines, hlines⟩ := Listing.lines_of_ofText htext
    obtain ⟨l', hparse, hwords⟩ := hread lines hlines
    rw [hp] at hparse
    exact ⟨lines, hlines, hwords ▸ l'.problem_resolve.1 p hparse.symm⟩
  · rintro ⟨lines, hlines, hnone⟩
    obtain ⟨l, hparse, hwords⟩ := hread lines hlines
    rw [hparse]
    cases hl : l.resolve with
    | ok p => exact ⟨p, rfl⟩
    | error ds =>
        obtain ⟨hne, hds⟩ := l.problem_resolve.2 ds hl
        rw [hwords, hnone, List.map_eq_nil_iff] at hds
        exact absurd hds hne

/-- The theorem at two texts. In the first a comma is missing. The second names an instruction that
there is not, and values that are not defined. -/
theorem parse_problems_adds :
    (∃ expected span, parse "v0 = add 1 2" = .error [⟨.malformed expected, span⟩]) ∧
    ∃ ds, parse "v0 = adds v1, v0" = .error ds ∧
      ds.map (·.problem) = [.unknownInstr "adds", .undefinedValue "v1", .undefinedValue "v0"] := by
  constructor
  · refine (parse_problems "v0 = add 1 2").1 ?_
    rintro ⟨lines, hlines⟩
    obtain ⟨l, hl, -⟩ := Listing.ofText_of_lines hlines
    have hfails : (Listing.ofText "v0 = add 1 2".toList).isOk = false := by decide +kernel
    rw [hl] at hfails
    cases hfails
  · have hall : (Listing.ofText "v0 = adds v1, v0".toList).map
        (fun l => problems [] (l.statements.map Statement.words)) =
          .ok [.unknownInstr "adds", .undefinedValue "v1", .undefinedValue "v0"] := by
      decide +kernel
    cases hl : Listing.ofText "v0 = adds v1, v0".toList with
    | error attempts =>
        rw [hl] at hall
        cases hall
    | ok l =>
        obtain ⟨lines, hlines⟩ := Listing.lines_of_ofText hl
        obtain ⟨l', hl', hwords, -⟩ := Listing.ofText_of_lines hlines
        rw [hl'] at hall
        have hproblems : problems [] (lines.filterMap Line.statement)
            = [.unknownInstr "adds", .undefinedValue "v1", .undefinedValue "v0"] := by
          rw [← hwords]
          exact Except.ok.inj hall
        rw [← hproblems]
        refine (parse_problems "v0 = adds v1, v0").2.1 lines hlines ?_
        rw [hproblems]
        exact List.cons_ne_nil _ _

end StackForm.Text

import StackForm.Proofs.Diagnosis
import StackForm.Proofs.LineInvariant

/-!
# `StackForm.Proofs.Spans`: what a diagnostic points at

The diagnostics of a text of the right shape point at pieces of the text (`parse_located`): a name
at fault is pointed at where it stands, and a statement with the wrong number of operands from its
first word on.

Words and statements carry spans of their own, and diagnostics use these. While a statement is
read, `Reading` keeps the piece of the text that was read so far and where the words stand in it.
It holds of all statements of a text (`Listing.standsIn`), so what is left is to see which spans
the diagnostics of a statement use (`Statement.mem_diagnostics`).
-/

set_option autoImplicit false

namespace StackForm.Text

open Matcher

/-! ### Pieces of a text -/

/-- The span of a piece of the text. -/
def Span.Holds (text : List Char) (span : Span) (cs : List Char) : Prop :=
  ∃ before after, text = before ++ (cs ++ after) ∧
    span = ⟨byteLength before, byteLength before + byteLength cs⟩

/-- The words stand in the text in this order, the first of them at its start. -/
def Strung : List String → List Char → Prop
  | [], _ => True
  | w :: ws, cs => ∃ gap rest, cs = w.toList ++ (gap ++ rest) ∧ Strung ws rest

/-- Words that stand in a text stand in it when more follows. -/
theorem Strung.append {ws : List String} {cs : List Char} (h : Strung ws cs) (more : List Char) :
    Strung ws (cs ++ more) := by
  induction ws generalizing cs with
  | nil => trivial
  | cons w ws ih =>
      obtain ⟨gap, rest, rfl, hrest⟩ := h
      exact ⟨gap, rest ++ more, by simp only [List.append_assoc], ih hrest⟩

/-- One more word at the end of a text stands behind the others. If it is the first, it has to be at
the start, so the text has to be empty before it. -/
theorem Strung.snoc {ws : List String} {cs : List Char} (h : Strung ws cs)
    (hstart : ws = [] → cs = []) (w : String) : Strung (ws ++ [w]) (cs ++ w.toList) := by
  induction ws generalizing cs with
  | nil =>
      rw [hstart rfl]
      exact ⟨[], [], by simp, trivial⟩
  | cons v ws ih =>
      obtain ⟨gap, rest, rfl, hrest⟩ := h
      by_cases hws : ws = []
      · subst hws
        exact ⟨gap ++ rest, w.toList, by simp only [List.append_assoc], [], [], by simp, trivial⟩
      · refine ⟨gap, rest ++ w.toList, by simp only [List.append_assoc], ih hrest fun h => ?_⟩
        exact absurd h hws

/-! ### Reading a statement -/

/-- A word stands in a piece of the text that starts at an offset. -/
def Lexeme.StandsIn (x : Lexeme) (offset : Nat) (cs : List Char) : Prop :=
  x.text.toList ≠ [] ∧ ∃ before after, cs = before ++ (x.text.toList ++ after) ∧
    x.span = .ofRange (offset + byteLength before)
      (offset + byteLength before + byteLength x.text.toList)

/-- A word that stands in a piece of the text stands in it when more follows. -/
theorem Lexeme.StandsIn.append {x : Lexeme} {offset : Nat} {cs : List Char}
    (h : x.StandsIn offset cs) (more : List Char) : x.StandsIn offset (cs ++ more) := by
  obtain ⟨hne, before, after, rfl, hspan⟩ := h
  exact ⟨hne, before, after ++ more, by simp only [List.append_assoc], hspan⟩

/-- The words `xs` were read from the reader `start` on, the first of them right there, and all in
one line. -/
def Reading (start : Reader) (xs : List Lexeme) (r : Reader) : Prop :=
  ∃ cs, start.Past cs r ∧ (∀ c ∈ cs, isLineEnd c = false) ∧ (xs = [] → cs = []) ∧
    Strung (xs.map Lexeme.text) cs ∧ ∀ x ∈ xs, x.StandsIn start.offset cs

namespace Reading

variable {start r s : Reader} {xs : List Lexeme} {x : Lexeme} {cs : List Char}

/-- At the start no word is read. -/
theorem refl (r : Reader) : Reading r [] r :=
  ⟨[], .refl r, by simp, fun _ => rfl, trivial, by simp⟩

/-- Reading words leaves a reader whose position fits its text. -/
theorem sound (h : Reading start xs r) (hstart : start.Sound) : r.Sound := by
  obtain ⟨cs, hpast, -⟩ := h
  exact hpast.sound hstart

/-- Behind a word more of the line is read. -/
theorem gap (h : Reading start xs r) (hxs : xs ≠ []) (hs : r.Past cs s)
    (hcs : ∀ c ∈ cs, isLineEnd c = false) : Reading start xs s := by
  obtain ⟨ds, hpast, hds, -, hstrung, hstand⟩ := h
  exact ⟨ds ++ cs, hpast.trans hs, List.forall_mem_append.2 ⟨hds, hcs⟩, fun h => absurd h hxs,
    hstrung.append cs, fun x hx => (hstand x hx).append cs⟩

/-- One more word is read. -/
theorem word (h : Reading start xs r) (hs : r.Past x.text.toList s)
    (hin : ∀ c ∈ x.text.toList, isLineEnd c = false) (hne : x.text.toList ≠ [])
    (hspan : x.span = .ofRange r.offset s.offset) : Reading start (xs ++ [x]) s := by
  obtain ⟨ds, hpast, hds, hstart, hstrung, hstand⟩ := h
  refine ⟨ds ++ x.text.toList, hpast.trans hs, List.forall_mem_append.2 ⟨hds, hin⟩, by simp, ?_, ?_⟩
  · rw [List.map_append]
    exact hstrung.snoc (fun hnil => hstart (List.map_eq_nil_iff.1 hnil)) x.text
  · rw [List.forall_mem_append]
    refine ⟨fun y hy => (hstand y hy).append _, ?_⟩
    rw [List.forall_mem_singleton]
    exact ⟨hne, ds, [], by simp, by rw [hspan, hs.offset, hpast.offset]⟩

end Reading

section Words

variable {start : Reader} {xs : List Lexeme}

/-- The record of failures does not matter here. -/
theorem lexeme_reading {name : Rule} {find : List Char → Option (List Char)}
    {P : List Char → Prop} (hfind : Finds find P) (hP : ∀ cs, P cs → ∀ c ∈ cs, isLineEnd c = false)
    (hne : ∀ cs, P cs → cs ≠ []) :
    Ensures (fun _ => True) (Reading start xs) (Grammar.lexeme name find)
      fun x => Reading start (xs ++ [x]) := by
  refine .rule (.offset_bind fun k => ?_) fun _ _ _ _ => trivial
  refine .bind (Q := fun cs s => ∃ r, Reading start xs r ∧ r.offset = k ∧ r.Past cs s ∧ P cs)
    (.scan fun r cs hr hcs => ?_) fun cs => .offset_bind fun k' => .pure fun s hs => ?_
  · obtain ⟨rest, hrest, hword⟩ := hfind.sound hcs
    exact ⟨r, hr.1, hr.2, .advance hrest, hword.mem⟩
  · obtain ⟨⟨r, hr, rfl, hpast, hmem⟩, rfl⟩ := hs
    exact hr.word (by simpa using hpast) (by simpa using hP cs hmem)
      (by simpa using hne cs hmem) rfl

/-- Behind a word matchers that stay in the line only read on. -/
theorem reading_ensures {α : Type} {k : Nat} {m : Matcher α} (hm : Local k m)
    (hstart : start.Sound) (hxs : xs ≠ []) :
    Ensures (fun _ => True) (Reading start xs) m fun _ => Reading start xs := by
  refine .of_local hm fun r hr => ?_
  obtain ⟨l, w, hline⟩ := exists_inLine (hr.sound hstart)
  refine ⟨l, w, hline, fun _ _ _ _ => trivial, fun cs l' a s hl hs _ => ?_⟩
  refine hr.gap hxs hs fun c hc => ?_
  exact hline.inside c (hl ▸ List.mem_append_left l' hc)

/-- Where nothing is to be skipped in front of the first word, nothing is. -/
theorem skip_reading (hstart : start.Sound) (hsolid : Solid start.rest) :
    Ensures (fun _ => True) (Reading start xs) Grammar.skip fun _ => Reading start xs := by
  by_cases hxs : xs = []
  · subst hxs
    intro r t hr ht
    refine ⟨ht, fun a s has => ?_⟩
    have hrest : Solid r.rest := by
      obtain ⟨cs, hpast, -, hnil, -⟩ := id hr
      have hread := hpast.rest
      rw [hnil rfl, List.nil_append] at hread
      exact hread ▸ hsolid
    obtain ⟨_, _, ⟨-, rfl⟩, hskip⟩ := Grammar.skip_nothing hrest r (hr.sound hstart) rfl
    rw [hskip t] at has
    cases has
    exact hr
  · exact reading_ensures Grammar.skip_local hstart hxs

/-- An operand is read as a word, be it a name or a number. -/
theorem operand_reading :
    Ensures (fun _ => True) (Reading start xs) Grammar.operand
      fun o => Reading start (xs ++ [o.lexeme]) :=
  .orElse
    (.bind (lexeme_reading finds_valueName (fun _ => IsValueName.not_isLineEnd)
      fun _ => IsValueName.ne_nil) fun _ => .pure fun _ hr => hr)
    (.bind (lexeme_reading finds_integer (fun _ => IsInteger.not_isLineEnd)
      fun _ => IsInteger.ne_nil) fun _ => .pure fun _ hr => hr)

/-- The operands of a statement are read as words, one after the other, with commas and blanks
between them. There is a word in front of them, so what is skipped is a gap. -/
theorem operands_reading (hstart : start.Sound) (hxs : xs ≠ []) :
    Ensures (fun _ => True) (Reading start xs) Grammar.operands
      fun os => Reading start (xs ++ os.map OperandText.lexeme) := by
  have hne : ∀ ys, xs ++ ys ≠ [] := fun ys h => hxs (List.append_eq_nil_iff.1 h).1
  have hskip : ∀ ys, Ensures (fun _ => True) (Reading start (xs ++ ys)) Grammar.skip
      fun _ => Reading start (xs ++ ys) :=
    fun ys => reading_ensures Grammar.skip_local hstart (hne ys)
  have hmore : ∀ os, Ensures (fun _ => True) (Reading start (xs ++ os.map OperandText.lexeme))
      (Grammar.spaced Grammar.furtherOperand)
      fun os' => Reading start (xs ++ (os ++ os').map OperandText.lexeme) := by
    refine Grammar.spaced_ensures (fun os => ?_) (fun os => hskip _) fun _ _ hr => hr
    refine .bind (reading_ensures (.char rfl) hstart (hne _)) fun _ => .bind (hskip _) fun _ => ?_
    exact operand_reading.imp (fun _ hr => hr) fun o s hs => by simpa using hs
  refine .bind operand_reading fun first => .bind (hskip [first.lexeme]) fun _ => ?_
  refine .bind ((hmore [first]).imp (fun _ hr => by simpa using hr) fun _ _ hs => hs)
    fun others => ?_
  exact .pure fun _ hr => by simpa using hr

/-- A label is read as a word. The equals sign belongs to the gap behind it. -/
theorem label_reading (hstart : start.Sound) :
    Ensures (fun _ => True) (Reading start []) Grammar.label fun x => Reading start [x] := by
  have hgap : ∀ (x : Lexeme) {k : Nat} {m : Matcher Unit}, Local k m →
      Ensures (fun _ => True) (Reading start [x]) m fun _ => Reading start [x] :=
    fun x k m hm => reading_ensures hm hstart (by simp)
  refine .bind (lexeme_reading finds_valueName (fun _ => IsValueName.not_isLineEnd)
    fun _ => IsValueName.ne_nil) fun x => ?_
  exact .bind (hgap x Grammar.skip_local) fun _ => .bind (hgap x (.char rfl)) fun _ =>
    .pure fun _ hr => hr

end Words

/-- The words of a statement, in their order. -/
def Statement.lexemes (s : Statement) : List Lexeme :=
  s.label.toList ++ s.opcode :: s.operands.map OperandText.lexeme

/-- A statement that is entered at its first word. -/
theorem statement_reading {start : Reader} (hstart : start.Sound) (hsolid : Solid start.rest) :
    Ensures (fun _ => True) (fun r => r = start) Grammar.statement
      fun a s => a.span = .ofRange start.offset s.offset ∧ Reading start a.lexemes s := by
  refine .rule (.offset_bind fun k => ?_) fun _ _ _ _ => trivial
  have hskip : ∀ xs, Ensures (fun _ => True) (fun r => k = start.offset ∧ Reading start xs r)
      Grammar.skip fun _ r => k = start.offset ∧ Reading start xs r :=
    fun xs => (skip_reading hstart hsolid).frame _
  have hlabel : Ensures (fun _ => True) (fun r => r = start ∧ r.offset = k)
      (optional Grammar.label) fun found r => k = start.offset ∧ Reading start found.toList r := by
    refine (((label_reading hstart).optional (R := fun found r => Reading start found.toList r)
      (fun _ _ hs => hs) fun _ hr => hr).frame (k = start.offset)).imp ?_ fun _ _ hs => hs
    rintro r ⟨rfl, rfl⟩
    exact ⟨rfl, .refl r⟩
  refine .bind hlabel fun label => .bind (hskip _) fun _ => ?_
  refine .bind ((lexeme_reading finds_opcode (fun _ => IsOpcode.not_isLineEnd)
    fun _ => IsOpcode.ne_nil).frame _) fun op => .bind (hskip _) fun _ => ?_
  refine .bind (((operands_reading hstart (by simp)).optional
    (R := fun found => Reading start (label.toList ++ [op] ++ (found.getD []).map
      OperandText.lexeme)) (fun _ _ hs => hs) fun _ hr => by simpa using hr).frame _)
    fun found => ?_
  refine .offset_bind fun k' => .pure fun r hr => ?_
  obtain ⟨⟨rfl, hr⟩, rfl⟩ := hr
  exact ⟨rfl, by simpa [Statement.lexemes] using hr⟩

/-! ### Reading a text -/

/-- Where a statement stands in the text. -/
def Statement.StandsIn (text : List Char) (a : Statement) : Prop :=
  ∃ before start s, (Reader.ofText text).Past before start ∧
    a.span = .ofRange start.offset s.offset ∧ Reading start a.lexemes s

/-- Every statement that is read stands in the text. Where a statement is tried, everything in front
of it has been skipped, so its first word is at its start. -/
theorem lineInvariant_standsIn (text : List Char) :
    LineInvariant (fun _ => True) (fun r => ∃ before, (Reader.ofText text).Past before r)
      (fun r => (∃ before, (Reader.ofText text).Past before r) ∧ Solid r.rest)
      (fun r => ∃ before, (Reader.ofText text).Past before r) (Statement.StandsIn text) := by
  have hsound : ∀ {before r}, (Reader.ofText text).Past before r → r.Sound :=
    fun h => h.sound (Reader.sound_ofText text)
  have hskip : Ensures (fun _ => True) (fun r => ∃ before, (Reader.ofText text).Past before r)
      Grammar.skip fun _ r => (∃ before, (Reader.ofText text).Past before r) ∧ Solid r.rest := by
    rintro r t ⟨before, hr⟩ ht
    obtain ⟨l, w, hline⟩ := exists_inLine (hsound hr)
    obtain ⟨s, cs, l', t', hskip, -, -, -, hs, hsolid, -⟩ := Grammar.skip_stops t hline
    rw [hskip]
    refine ⟨trivial, fun a s' has => ?_⟩
    cases has
    exact ⟨⟨_, hr.trans hs⟩, hsolid⟩
  refine ⟨hskip, hskip.imp (fun _ hr => hr) fun _ _ hs => hs.1, ?_, ?_, fun _ hr => hr.1,
    fun _ hr => hr, fun _ _ _ _ => trivial⟩
  · rintro r t ⟨⟨before, hr⟩, hsolid⟩ ht
    obtain ⟨-, hmatch⟩ := statement_reading (hsound hr) hsolid r t rfl ht
    refine ⟨trivial, fun a s has => ?_⟩
    obtain ⟨hspan, hread⟩ := hmatch a s has
    obtain ⟨cs, hs, -⟩ := id hread
    exact ⟨⟨before, r, s, hr, hspan, hread⟩, _, hr.trans hs⟩
  · rintro r t ⟨before, hr⟩ ht
    refine ⟨trivial, fun a s has => ?_⟩
    obtain hnone | ⟨nl, s', hsome, -, hs⟩ := newline_cases r t
    · simp [hnone] at has
    · obtain rfl : s' = s := by simpa [hsome] using has
      exact ⟨_, hr.trans hs⟩

/-- All statements of a text that is read stand in it. -/
theorem Listing.standsIn {text : List Char} {l : Listing} (h : Listing.ofText text = .ok l) :
    ∀ a ∈ l.statements, a.StandsIn text := by
  unfold Listing.ofText at h
  split at h
  · next found r t hblock =>
    obtain rfl := Except.ok.inj h
    have hrun := (lineInvariant_standsIn text).block (.ofText text) {} ⟨[], .refl _⟩ trivial
    rw [hblock] at hrun
    exact hrun.2 found r rfl
  · cases h

/-! ### Spans of short texts -/

section Short

variable {text : List Char} (hsize : byteLength text < indexLimit)

include hsize

/-- A range of offsets is the span of the piece between them. -/
theorem Span.holds_ofRange {before cs after : List Char} (h : text = before ++ (cs ++ after)) :
    (Span.ofRange (byteLength before) (byteLength before + byteLength cs)).Holds text cs := by
  refine ⟨before, after, h, ?_⟩
  rw [h, byteLength_append, byteLength_append] at hsize
  unfold Span.ofRange
  rw [Nat.min_eq_left (by omega), Nat.min_eq_left (by omega)]

/-- The words of a statement are pieces of the text. -/
theorem Statement.StandsIn.word {a : Statement} (h : a.StandsIn text) {x : Lexeme}
    (hx : x ∈ a.lexemes) :
    x.text.toList ≠ [] ∧ (∀ c ∈ x.text.toList, isLineEnd c = false) ∧
      x.span.Holds text x.text.toList := by
  obtain ⟨before, start, s, hstart, -, cs, hs, hin, -, -, hstand⟩ := h
  obtain ⟨hne, before', after, rfl, hspan⟩ := hstand x hx
  refine ⟨hne, fun c hc => hin c (by simp [hc]), ?_⟩
  have htext : text = (before ++ before') ++ (x.text.toList ++ (after ++ s.rest)) := by
    have hpieces := (hstart.trans hs).of_start.1
    simpa only [List.append_assoc] using hpieces
  rw [hspan, hstart.of_start.2, ← byteLength_append]
  exact Span.holds_ofRange hsize htext

/-- A statement is a piece of the text, with its words in it. -/
theorem Statement.StandsIn.piece {a : Statement} (h : a.StandsIn text) :
    ∃ cs, cs ≠ [] ∧ (∀ c ∈ cs, isLineEnd c = false) ∧ a.span.Holds text cs ∧
      Strung (a.lexemes.map Lexeme.text) cs := by
  obtain ⟨before, start, s, hstart, hspan, cs, hs, hin, -, hstrung, hstand⟩ := h
  have hopcode : a.opcode ∈ a.lexemes := by simp [Statement.lexemes]
  refine ⟨cs, ?_, hin, ?_, hstrung⟩
  · rintro rfl
    obtain ⟨hne, before', after, hnil, -⟩ := hstand a.opcode hopcode
    exact hne (List.append_eq_nil_iff.1 (List.append_eq_nil_iff.1 hnil.symm).2).1
  · have hpieces := (hstart.trans hs).of_start.1
    rw [List.append_assoc] at hpieces
    rw [hspan, hs.offset, hstart.of_start.2]
    exact Span.holds_ofRange hsize hpieces

end Short

/-! ### Diagnostics -/

/-- The diagnostics of a statement, with the spans that they use. -/
theorem Statement.mem_diagnostics {names : Names} {a : Statement} {d : Diagnostic}
    (h : d ∈ a.diagnostics names) :
    d = ⟨.unknownInstr a.opcode.text, a.opcode.span⟩ ∨
      (∃ o ∈ a.operands, d.span = o.lexeme.span ∧ o.read names = .error d.problem) ∨
      (∃ op, a.opcode? = some op ∧ a.operands.length ≠ op.arity ∧
        d = ⟨.argCount op.arity a.operands.length, a.span⟩) ∨
      ∃ op label, a.opcode? = some op ∧ a.label = some label ∧
        ((op.hasResult = false ∧ d = ⟨.unexpectedName op, label.span⟩) ∨
          d = ⟨.duplicateName label.text, label.span⟩) := by
  have hoperand : d ∈ a.operands.filterMap (·.diagnostic? names) →
      ∃ o ∈ a.operands, d.span = o.lexeme.span ∧ o.read names = .error d.problem := by
    intro hd
    obtain ⟨o, ho, hdiag⟩ := List.mem_filterMap.1 hd
    unfold OperandText.diagnostic? at hdiag
    cases hread : o.read names with
    | ok x => simp [hread] at hdiag
    | error problem =>
        simp only [hread, Option.some.injEq] at hdiag
        subst hdiag
        exact ⟨o, ho, rfl, hread⟩
  unfold Statement.diagnostics at h
  cases hop : a.opcode? with
  | none =>
      simp only [hop, List.mem_cons] at h
      exact h.imp id fun hd => .inl (hoperand hd)
  | some op =>
      simp only [hop, List.mem_append] at h
      rcases h with (hd | hd) | hd
      · exact .inr (.inl (hoperand hd))
      · by_cases harity : a.operands.length = op.arity
        · simp [harity] at hd
        · exact .inr (.inr (.inl ⟨op, rfl, harity, by simpa [harity] using hd⟩))
      · cases hlabel : a.label with
        | none => simp [hlabel] at hd
        | some label =>
            refine .inr (.inr (.inr ⟨op, label, rfl, rfl, ?_⟩))
            simp only [hlabel, Option.map_some, Option.getD_some, Statement.labelDiagnostics,
              List.mem_append] at hd
            refine hd.imp (fun hd => ?_) fun hd => ?_
            · cases hres : op.hasResult with
              | false => exact ⟨rfl, by simpa [hres] using hd⟩
              | true => simp [hres] at hd
            · by_cases hdup : names.contains label.text = true
              · simpa [hdup] using hd
              · simp [hdup] at hd

/-- What is found wrong with statements is found with one of them, by the names that were in use
there. -/
theorem Resolution.mem_takeAll {r : Resolution} {pos : Nat} {as : List Statement} {d : Diagnostic}
    (h : d ∈ (r.takeAll pos as).diagnostics.toList) :
    d ∈ r.diagnostics.toList ∨ ∃ a ∈ as, ∃ names, d ∈ a.diagnostics names := by
  induction as generalizing r pos with
  | nil => exact .inl h
  | cons a as ih =>
      rcases ih h with hd | ⟨b, hb, hd⟩
      · have hstep : d ∈ r.diagnostics ∨ d ∈ a.diagnostics r.names := by
          simpa [Resolution.take] using hd
        rcases hstep with hd | hd
        · exact .inl (Array.mem_toList_iff.2 hd)
        · exact .inr ⟨a, List.mem_cons_self, r.names, hd⟩
      · exact .inr ⟨b, List.mem_cons_of_mem a hb, hd⟩

/-- Diagnostics are about statements of the text. -/
theorem Listing.mem_resolve {l : Listing} {ds : List Diagnostic} {d : Diagnostic}
    (h : l.resolve = .error ds) (hd : d ∈ ds) :
    ∃ a ∈ l.statements, ∃ names, d ∈ a.diagnostics names := by
  unfold Listing.resolve at h
  by_cases hnone : (({} : Resolution).takeAll 0 l.statements).diagnostics = #[]
  · simp only [hnone] at h
    cases h
  · rw [if_neg (by simpa using hnone)] at h
    obtain rfl := Except.error.inj h
    exact (Resolution.mem_takeAll hd).resolve_left (by simp)

/-- What is to be seen at the span of a problem. -/
def Problem.Shows (statements : List Statement) (span : Span) (cs : List Char) : Problem → Prop
  | .malformed _ => False
  | .undefinedValue name => String.ofList cs = name
  | .unknownInstr name => String.ofList cs = name
  | .duplicateName name => String.ofList cs = name
  | .numberOutOfBounds =>
    ∃ n, Decimal cs n ∧ ¬ (-9223372036854775808 ≤ n ∧ n ≤ 9223372036854775807)
  | .unexpectedName op => op = .storeLocal ∧ ∃ a ∈ statements, a.opcode.text = op.name ∧
    ∃ label, a.label = some label ∧ label.span = span ∧ label.text.toList = cs
  | .argCount expected actual => ∃ a ∈ statements, a.span = span ∧
    (∃ op, a.opcode? = some op ∧ op.arity = expected) ∧ a.operands.length = actual ∧
    actual ≠ expected ∧ Strung (a.lexemes.map Lexeme.text) cs

/-- There is one opcode without a result. -/
theorem Opcode.eq_storeLocal {op : Opcode} (h : op.hasResult = false) : op = .storeLocal := by
  cases op <;> first | rfl | cases h

/-- An operand that cannot be read is shown by its word. -/
theorem OperandText.shows_of_read {names : Names} {o : OperandText} {problem : Problem}
    (hshape : o.word.IsShaped) (h : o.read names = .error problem) (statements : List Statement)
    (span : Span) : problem.Shows statements span o.lexeme.text.toList := by
  cases o with
  | name x =>
      cases hfound : names[x.text]? with
      | some pos => simp [OperandText.read, hfound, pure, Except.pure] at h
      | none =>
          simp only [OperandText.read, hfound] at h
          cases h
          exact String.ofList_toList
  | integer x =>
      have hinteger : IsInteger x.text.toList := hshape
      simp only [OperandText.read, Word.ofInt?] at h
      by_cases hword : -9223372036854775808 ≤ intOfDigits x.text.toList ∧
          intOfDigits x.text.toList ≤ 9223372036854775807
      · simp [hword, pure, Except.pure] at h
      · simp only [if_neg hword] at h
        cases h
        exact ⟨_, (decimal_iff hinteger).2 rfl, hword⟩

/-- Every diagnostic of a text that has the shape of a block and is not accepted points at a piece
of one line of the text. A name at fault is this piece, and so is a number. A statement with the
wrong number of operands is pointed at from its first word on, with all its words in the piece. -/
theorem parse_located {source : String} {l : Listing} {ds : List Diagnostic} {d : Diagnostic}
    (hsize : byteLength source.toList < indexLimit)
    (hl : Listing.ofText source.toList = .ok l) (h : parse source = .error ds) (hd : d ∈ ds) :
    ∃ cs, cs ≠ [] ∧ (∀ c ∈ cs, isLineEnd c = false) ∧ d.span.Holds source.toList cs ∧
      d.problem.Shows l.statements d.span cs := by
  rw [parse_of_read hl] at h
  obtain ⟨a, ha, names, hdiag⟩ := Listing.mem_resolve h hd
  have hstands := Listing.standsIn hl a ha
  have hword : ∀ x ∈ a.lexemes, d.span = x.span →
      d.problem.Shows l.statements d.span x.text.toList →
      ∃ cs, cs ≠ [] ∧ (∀ c ∈ cs, isLineEnd c = false) ∧ d.span.Holds source.toList cs ∧
        d.problem.Shows l.statements d.span cs := by
    intro x hx hspan hshows
    obtain ⟨hne, hin, hholds⟩ := hstands.word hsize hx
    exact ⟨x.text.toList, hne, hin, hspan ▸ hholds, hshows⟩
  obtain rfl | ⟨o, ho, hspan, hread⟩ | ⟨op, hop, harity, rfl⟩ | ⟨op, label, hop, hlabel, hd⟩ :=
    Statement.mem_diagnostics hdiag
  · exact hword a.opcode (by simp [Statement.lexemes]) rfl String.ofList_toList
  · have hshape : o.word.IsShaped := Listing.isShaped hl a ha o.word (List.mem_map_of_mem ho)
    have hmem : o.lexeme ∈ a.lexemes := by
      simp [Statement.lexemes, List.mem_map_of_mem (f := OperandText.lexeme) ho]
    exact hword o.lexeme hmem hspan (OperandText.shows_of_read hshape hread _ _)
  · obtain ⟨cs, hne, hin, hholds, hstrung⟩ := hstands.piece hsize
    exact ⟨cs, hne, hin, hholds, a, ha, rfl, ⟨op, hop, rfl⟩, rfl, harity, hstrung⟩
  · have hmem : label ∈ a.lexemes := by simp [Statement.lexemes, hlabel]
    rcases hd with ⟨hres, rfl⟩ | rfl
    · have hname : a.opcode.text = op.name := (Statement.opcode?_iff op).1 hop
      exact hword label hmem rfl
        ⟨Opcode.eq_storeLocal hres, a, ha, hname, label, hlabel, rfl, rfl⟩
    · exact hword label hmem rfl String.ofList_toList

/-- A text with a problem of every kind. All but one are in its second statement, and the comment
in the line before has a character of two bytes. -/
def manyFaults : String :=
  "v0 = add 1, 2 # ½\r\n v0 = store_local v1,\t-9223372036854775809 , v0\nv1 = adds"

/-- Six kinds of problems in one text, each with the words that it is about. -/
theorem parse_located_manyFaults :
    ∃ l ds, Listing.ofText manyFaults.toList = .ok l ∧ parse manyFaults = .error ds ∧
      ds.map (·.problem) = [.undefinedValue "v1", .numberOutOfBounds, .argCount 2 3,
        .unexpectedName .storeLocal, .duplicateName "v0", .unknownInstr "adds"] ∧
      ∀ d ∈ ds, ∃ cs, cs ≠ [] ∧ (∀ c ∈ cs, isLineEnd c = false) ∧
        d.span.Holds manyFaults.toList cs ∧ d.problem.Shows l.statements d.span cs := by
  have hwords : (Listing.ofText manyFaults.toList).map
      (fun l => problems [] (l.statements.map Statement.words)) = .ok [.undefinedValue "v1",
        .numberOutOfBounds, .argCount 2 3, .unexpectedName .storeLocal, .duplicateName "v0",
        .unknownInstr "adds"] := by decide +kernel
  cases hl : Listing.ofText manyFaults.toList with
  | error attempts =>
      rw [hl] at hwords
      cases hwords
  | ok l =>
      rw [hl] at hwords
      have hproblems := Except.ok.inj hwords
      cases hparse : l.resolve with
      | ok p => cases (l.problem_resolve.1 p hparse).symm.trans hproblems
      | error ds =>
          have hds := (l.problem_resolve.2 ds hparse).2.trans hproblems
          have hread : parse manyFaults = .error ds := (parse_of_read hl).trans hparse
          exact ⟨l, ds, rfl, hread, hds, fun d hd => parse_located (by decide) hl hread hd⟩

end StackForm.Text

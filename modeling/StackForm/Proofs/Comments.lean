import Mathlib.Data.List.DropRight
import StackForm.Proofs.Accepted

/-!
# `StackForm.Proofs.Comments`: the comments of a text

The grammar meets comments in many places, behind statements and between them, and reads some of
them more than once when it goes back. `Text.parse_comments` says that none of this shows: the
comments of an accepted text are those of its lines, one after the other.

A `#` starts a comment wherever it stands, since no blank, no word and no sign of a statement
holds one. So the comment of a line is what the line has from its first `#` on
(`Line.Written.fromHash?_eq`), and to know it one need not know what stands before.
-/

set_option autoImplicit false

namespace StackForm.Text

/-! ### The comment of a line -/

/-- What a line has from its first `#` on. A line without one has no comment. -/
def fromHash? (line : List Char) : Option (List Char) :=
  if '#' ∈ line then some (line.dropWhile (· != '#')) else none

/-- The comment of a line: what it has from its first `#` on, without the white space at its end.
Nothing is asked about the rest of the line. -/
def lineComment? (line : List Char) : Option String :=
  (fromHash? line).map fun cs => String.ofList (cs.rdropWhile isBlank)

section Hash

variable {line before cs kept : List Char}

/-- A line without a `#` has no comment. -/
theorem fromHash?_of_not_mem (h : '#' ∉ line) : fromHash? line = none := if_neg h

/-- A line that starts with a `#` is a comment from its start to its end, with any further `#` in
it. -/
theorem fromHash?_hash (cs : List Char) : fromHash? ('#' :: cs) = some ('#' :: cs) := by
  rw [fromHash?, if_pos List.mem_cons_self, List.dropWhile_cons_of_neg (by simp)]

/-- What stands before the first `#` does not matter. Lines are taken apart with this lemma, one
piece at a time. -/
theorem fromHash?_append (h : '#' ∉ before) (cs : List Char) :
    fromHash? (before ++ cs) = fromHash? cs := by
  have hbefore : ∀ c ∈ before, (c != '#') = true := by
    intro c hc
    exact bne_iff_ne.mpr fun heq => h (heq ▸ hc)
  rw [fromHash?, fromHash?, List.dropWhile_append_of_pos hbefore]
  simp only [List.mem_append, h, false_or]

/-- A comment is an end of its line that starts with a `#` and has none before it. There is at most
one such end, so this says which one is meant. -/
theorem fromHash?_eq_some_iff :
    fromHash? line = some cs ↔
      ∃ before, line = before ++ cs ∧ '#' ∉ before ∧ cs.head? = some '#' := by
  constructor
  · intro h
    obtain ⟨before, rest, rfl, hbefore⟩ : ∃ before rest, line = before ++ '#' :: rest ∧
        '#' ∉ before := by
      refine List.eq_append_cons_of_mem ?_
      by_contra hnone
      rw [fromHash?_of_not_mem hnone] at h
      cases h
    rw [fromHash?_append hbefore, fromHash?_hash] at h
    cases h
    exact ⟨before, rfl, hbefore, rfl⟩
  · intro h
    obtain ⟨before, rfl, hbefore, hhead⟩ := h
    obtain ⟨rest, rfl⟩ := List.head?_eq_some_iff.mp hhead
    rw [fromHash?_append hbefore, fromHash?_hash]

/-- What is left once characters of a kind are dropped from the end: the rest is of the kind, and
the last character that is left is not. The characters that were dropped are followed from the last
one to the first. -/
theorem rdropWhile_eq_iff {p : Char → Bool} :
    cs.rdropWhile p = kept ↔
      ∃ after, cs = kept ++ after ∧ (∀ c ∈ after, p c = true) ∧
        ∀ c, kept.getLast? = some c → p c = false := by
  constructor
  · intro h
    refine ⟨cs.rtakeWhile p, ?_, fun c hc => List.mem_rtakeWhile_imp hc, fun c hc => ?_⟩
    · rw [← h, List.rdropWhile_append_rtakeWhile]
    · have hlast := List.rdropWhile_last_not p cs
      rw [h] at hlast
      obtain ⟨hne, rfl⟩ := List.mem_getLast?_eq_getLast hc
      simpa using hlast hne
  · intro h
    obtain ⟨after, rfl, hafter, hlast⟩ := h
    induction after using List.reverseRecOn with
    | nil =>
        rw [List.append_nil, List.rdropWhile_eq_self_iff]
        intro hne
        simpa using hlast _ (List.getLast?_eq_some_getLast hne)
    | append_singleton after c ih =>
        rw [← List.append_assoc, List.rdropWhile_concat_pos _ _ _ (hafter c (by simp))]
        exact ih fun d hd => hafter d (List.mem_append_left _ hd)

/-- A comment starts with the first `#` of its line, does not end in white space, and has only white
space behind it. This is all that has to be known of a comment, and nothing in it says how the
comment is found. -/
theorem lineComment?_eq_some_iff {text : String} :
    lineComment? line = some text ↔
      ∃ before after, line = before ++ (text.toList ++ after) ∧ '#' ∉ before ∧
        text.toList.head? = some '#' ∧ (∀ c ∈ after, isBlank c = true) ∧
        ∀ c, text.toList.getLast? = some c → isBlank c = false := by
  -- The text is compared as a list of characters, since the rule is about characters.
  have htext : ∀ cs : List Char, String.ofList (cs.rdropWhile isBlank) = text ↔
      cs.rdropWhile isBlank = text.toList := by
    intro cs
    constructor
    · intro h
      rw [← h, String.toList_ofList]
    · intro h
      rw [h, String.ofList_toList]
  simp only [lineComment?, Option.map_eq_some_iff, htext, fromHash?_eq_some_iff,
    rdropWhile_eq_iff]
  constructor
  · intro h
    obtain ⟨cs, ⟨before, rfl, hbefore, hhead⟩, after, rfl, hafter, hlast⟩ := h
    refine ⟨before, after, rfl, hbefore, ?_, hafter, hlast⟩
    -- The `#` is not among the white space behind.
    rw [List.head?_append] at hhead
    cases hkept : text.toList.head? with
    | some c => rwa [hkept] at hhead
    | none =>
        rw [hkept] at hhead
        have hblank := hafter '#' (List.mem_of_mem_head? hhead)
        exact absurd hblank (by decide)
  · intro h
    obtain ⟨before, after, rfl, hbefore, hhead, hafter, hlast⟩ := h
    refine ⟨text.toList ++ after, ⟨before, rfl, hbefore, ?_⟩, after, rfl, hafter, hlast⟩
    rw [List.head?_append, hhead]
    rfl

end Hash

/-! ### No `#` in words and blanks -/

/-- Blanks have no `#` among them. This and the lemmas up to `Labelling.hash_not_mem` cover all that
can stand before a comment in its line. -/
theorem Blanks.hash_not_mem {cs : List Char} (h : Blanks cs) : '#' ∉ cs := by
  intro hmem
  rcases h '#' hmem with heq | heq
  · cases heq
  · cases heq

/-- Digits have no `#` among them. -/
theorem IsDigits.hash_not_mem {cs : List Char} (h : IsDigits cs) : '#' ∉ cs := by
  intro hmem
  exact absurd (h.2 '#' hmem) (by decide)

/-- The name of a value has no `#` in it. -/
theorem IsValueName.hash_not_mem {cs : List Char} (h : IsValueName cs) : '#' ∉ cs := by
  obtain ⟨digits, rfl, hdigits⟩ := h
  exact List.not_mem_cons_of_ne_of_not_mem (by decide) hdigits.hash_not_mem

/-- A number has no `#` in it, with or without a sign. -/
theorem IsInteger.hash_not_mem {cs : List Char} (h : IsInteger cs) : '#' ∉ cs := by
  rcases h with hdigits | ⟨digits, rfl, hdigits⟩
  · exact hdigits.hash_not_mem
  · exact List.not_mem_cons_of_ne_of_not_mem (by decide) hdigits.hash_not_mem

/-- An opcode has no `#` in it, neither at its start nor further on. -/
theorem IsOpcode.hash_not_mem {cs : List Char} (h : IsOpcode cs) : '#' ∉ cs := by
  obtain ⟨c, others, rfl, hfirst, hothers⟩ := h
  have hc : '#' ≠ c := by
    rintro rfl
    exact absurd hfirst (by decide)
  refine List.not_mem_cons_of_ne_of_not_mem hc fun hmem => ?_
  exact absurd (hothers '#' hmem) (by decide)

/-- An operand has no `#` in it, be it a name or a number. -/
theorem OperandWord.IsLongest.hash_not_mem {o : OperandWord} {rest : List Char}
    (h : o.IsLongest rest) : '#' ∉ o.text.toList := by
  cases o with
  | name text => exact h.mem.hash_not_mem
  | integer text => exact h.mem.hash_not_mem

/-- A label has no `#` in it, nor do the blanks around its equals sign. -/
theorem Labelling.hash_not_mem {label : Option String} {cs : List Char} (h : Labelling label cs) :
    '#' ∉ cs := by
  cases h with
  | none => exact List.not_mem_nil
  | some hname hb hb' =>
      simp [hname.hash_not_mem, hb.hash_not_mem, hb'.hash_not_mem]

/-! ### Lines and texts -/

variable {c : Option (List Char)} {l : List Char}

/-- The comment at the end of a line is what the end has from its first `#` on. There are only
blanks before it. -/
theorem Closing.fromHash?_eq (h : Closing c l) : fromHash? l = c := by
  cases h with
  | blanks hb => exact fromHash?_of_not_mem hb.hash_not_mem
  | comment hb cs => rw [fromHash?_append hb.hash_not_mem, fromHash?_hash]

/-- Further operands put no `#` before the comment of their line. The induction is on the operands,
each with its comma and its blanks. -/
theorem FurtherOperands.fromHash?_eq {os : List OperandWord} (h : FurtherOperands os c l) :
    fromHash? l = c := by
  induction h with
  | nil hclosing => exact hclosing.fromHash?_eq
  | @cons b b' l o os c hb hb' ho hos ih =>
      have hcomma : '#' ∉ b ++ [','] := by simp [hb.hash_not_mem]
      rw [← ih, List.append_cons, fromHash?_append hcomma, fromHash?_append hb'.hash_not_mem,
        fromHash?_append ho.hash_not_mem]

/-- The operands of a line put no `#` before its comment, the first of them included. -/
theorem Operands.fromHash?_eq {os : List OperandWord} (h : Operands os c l) :
    fromHash? l = c := by
  cases h with
  | nil hclosing => exact hclosing.fromHash?_eq
  | cons hb ho hos =>
      rw [fromHash?_append hb.hash_not_mem, fromHash?_append ho.hash_not_mem, hos.fromHash?_eq]

/-- The comment of a line is what the line has from its first `#` on. The pieces before it are the
label, the opcode and the operands, with the blanks between them. -/
theorem Line.Written.fromHash?_eq {line : Line} (h : line.Written l) :
    fromHash? l = line.comment := by
  cases h with
  | blank hclosing => exact hclosing.fromHash?_eq
  | statement hb hlabel hop hos =>
      rw [fromHash?_append hb.hash_not_mem, fromHash?_append hlabel.hash_not_mem,
        fromHash?_append hop.mem.hash_not_mem, hos.fromHash?_eq]

/-- The comments of good lines, found without a look at the statements, are those that their forms
say. A line without a comment adds nothing on either side. -/
theorem filterMap_lineComment? {lines : List Line} {ls : List (List Char)}
    (h : List.Forall₂ Line.Written lines ls) :
    ls.filterMap lineComment? = (lines.filterMap Line.comment).map keptComment := by
  induction h with
  | nil => rfl
  | @cons line l lines ls hline hlines ih =>
      have hcomment : lineComment? l = line.comment.map keptComment :=
        congrArg (Option.map keptComment) hline.fromHash?_eq
      -- Whether the line has a comment decides the first element on both sides.
      cases hkind : line.comment with
      | none =>
          rw [hkind] at hcomment
          rw [List.filterMap_cons_none hcomment, List.filterMap_cons_none hkind, ih]
      | some cs =>
          rw [hkind] at hcomment
          rw [List.filterMap_cons_some hcomment, List.filterMap_cons_some hkind, List.map_cons, ih]

/-- Looking up the names of a text leaves its comments as they are, so the comments of an accepted
text are those that were read. -/
theorem Listing.resolve_comments {l : Listing} {p : Parsed} (h : l.resolve = .ok p) :
    p.comments = l.comments := by
  simp only [Listing.resolve] at h
  split at h
  · cases h
    rfl
  · cases h

/-- The comments of an accepted text are those of its lines, in order: for each line with a `#`,
what it has from the first one on, without the white space at the end. The second part says which
characters these are. -/
theorem parse_comments {source : String} {p : Parsed} (h : parse source = .ok p) :
    p.comments = (splitLines source.toList).filterMap lineComment? ∧
    ∀ line, (lineComment? line = none ↔ '#' ∉ line) ∧
      ∀ text, lineComment? line = some text ↔
        ∃ before after, line = before ++ (text.toList ++ after) ∧ '#' ∉ before ∧
          text.toList.head? = some '#' ∧ (∀ c ∈ after, isBlank c = true) ∧
          ∀ c, text.toList.getLast? = some c → isBlank c = false := by
  refine ⟨?_, fun line => ⟨?_, fun text => lineComment?_eq_some_iff⟩⟩
  · obtain ⟨l, hl, hresolve⟩ := parse_eq_ok_iff.1 h
    obtain ⟨lines, hlines, -, hcomments⟩ := Listing.ofText_iff.1 ⟨l, hl, rfl, rfl⟩
    rw [Listing.resolve_comments hresolve, ← hcomments, filterMap_lineComment? hlines]
  · simp [lineComment?, fromHash?]

/-- Comments alone in a line and behind statements, with all three kinds of line ends, and with
white space behind. -/
def remarked : String :=
  "#first \r\n\r# \u2003\n  v0 = load_local 3#  kept # once\u00a0\t\rstore_local 0, v0\n\n#"

/-- The text has seven lines, and four of them have a comment. The one behind a statement holds a
second `#`, which starts no comment of its own. -/
theorem parse_comments_remarked :
    ∃ p, parse remarked = .ok p ∧ p.comments = ["#first", "#", "#  kept # once", "#"] := by
  obtain ⟨p, hp⟩ : ∃ p, parse remarked = .ok p := by
    have hread : (parse remarked).isOk = true := by decide +kernel
    cases hp : parse remarked with
    | error ds => simp [hp, Except.isOk, Except.toBool] at hread
    | ok p => exact ⟨p, rfl⟩
  refine ⟨p, hp, ?_⟩
  rw [(parse_comments hp).1]
  decide +kernel

end StackForm.Text

import StackForm.Proofs.LineShape

/-!
# `StackForm.Proofs.WithinLine`: what is read within a line

The rules for statements, and what is skipped between their parts, do not see beyond the line that
they are tried in. `Matcher.Local` says this of a matcher: it reads a piece of the line or fails,
and does the same where the text ends with the line. The failures that it leaves on record are at
places of the line too.

So a line can be treated as a text of its own. What is known of texts whose lines are all of the
right form carries over to a single line of any text: `Local.extends_line` for what was read, and
`statement_written` for what will be.
-/

set_option autoImplicit false

namespace StackForm.Text

/-! ### Readers in a line -/

namespace Reader

/-- From one reader to another `cs` is read. The comments that are kept on the way are left open,
since nothing that is said with this depends on them. -/
structure Past (r : Reader) (cs : List Char) (s : Reader) : Prop where
  rest : r.rest = cs ++ s.rest
  offset : s.offset = r.offset + byteLength cs
  size : s.size = r.size

/-- Nothing is read from a reader to itself. -/
theorem Past.refl (r : Reader) : r.Past [] r := ⟨rfl, rfl, rfl⟩

/-- A reader that advances over the front of its text has read just that. -/
theorem Past.advance {r : Reader} {cs rest : List Char} (h : r.rest = cs ++ rest) :
    r.Past cs (r.advance cs) :=
  ⟨by rw [rest_advance h, h], rfl, rfl⟩

variable {r s s' : Reader} {cs ds : List Char}

/-- What is read on two stretches one after the other is what is read on the first and then on the
second. -/
theorem Past.trans (h : r.Past cs s) (h' : s.Past ds s') : r.Past (cs ++ ds) s' where
  rest := by rw [h.rest, h'.rest, List.append_assoc]
  offset := by rw [h'.offset, h.offset, byteLength_append, Nat.add_assoc]
  size := h'.size.trans h.size

/-- A reader whose position fits its text still fits it after reading. The characters that were read
are counted once as text and once as position. -/
theorem Past.sound (h : r.Past cs s) (hr : r.Sound) : s.Sound := by
  unfold Sound at hr ⊢
  rw [h.rest, byteLength_append] at hr
  rw [h.offset, h.size]
  omega

/-- What was read from the start of a text on: the text is that and what is left, and the position
is its length in bytes. -/
theorem Past.of_start {text : List Char} (h : (ofText text).Past cs r) :
    text = cs ++ r.rest ∧ r.offset = byteLength cs :=
  ⟨h.rest, h.offset.trans (Nat.zero_add _)⟩

/-- The same place in a text that ends with the line, where `l` is left of the line. The size is
counted anew, so the reader fits its shorter text. -/
def clip (r : Reader) (l : List Char) : Reader :=
  { r with rest := l, size := r.offset + byteLength l }

end Reader

open Reader (Past)

/-- A reader in a line, with `l` left of the line and `w` behind it. The text `w` starts with a line
end or is empty, which is said by its first line being empty. -/
structure InLine (r : Reader) (l w : List Char) : Prop where
  sound : r.Sound
  rest : r.rest = l ++ w
  inside : ∀ c ∈ l, isLineEnd c = false
  ends : ∃ ls, splitLines w = [] :: ls

namespace InLine

variable {r s : Reader} {l w cs : List Char}

/-- What is left of the line is the first line of what is left of the text. In this form the lemmas
about lines can be used. -/
theorem exists_splitLines (h : InLine r l w) : ∃ ls, splitLines r.rest = l :: ls := by
  obtain ⟨ls, hls⟩ := h.ends
  refine ⟨ls, ?_⟩
  rw [h.rest, splitLines_append h.inside hls, List.append_nil]

/-- A reader that has read a piece of its line is still in that line, with the same text behind
it. -/
theorem past (h : InLine r (cs ++ l) w) (hs : r.Past cs s) : InLine s l w where
  sound := hs.sound h.sound
  rest := by
    have hrest := hs.rest
    rw [h.rest, List.append_assoc] at hrest
    exact (List.append_cancel_left hrest).symm
  inside := fun c hc => h.inside c (List.mem_append_right cs hc)
  ends := h.ends

/-- A reader in the text that ends with its line has the whole rest of its text in that line. -/
theorem clip (h : InLine r l w) : InLine (r.clip l) l [] :=
  ⟨rfl, (List.append_nil l).symm, h.inside, [], rfl⟩

/-- A repetition has more rounds at hand than the line has characters, since every character takes
at least one byte of the text. -/
theorem length_lt (h : InLine r l w) : l.length < r.size - r.offset + 1 := by
  have hbytes := length_le_byteLength l
  have hsound := h.sound
  unfold Reader.Sound at hsound
  rw [h.rest, byteLength_append] at hsound
  omega

end InLine

/-- The first line of a text has no line end in it. It is what comes before the first one. -/
theorem not_isLineEnd_of_splitLines {text l : List Char} {ls : List (List Char)}
    (h : splitLines text = l :: ls) : ∀ c ∈ l, isLineEnd c = false := by
  intro c hc
  rw [← takeWhile_of_splitLines h] at hc
  simpa using List.all_eq_true.1 List.all_takeWhile c hc

/-- A reader is always in some line: what is left of its text starts with the rest of that line. -/
theorem exists_inLine {r : Reader} (hr : r.Sound) : ∃ l w, InLine r l w := by
  obtain ⟨l, ls, hsplit⟩ := exists_splitLines r.rest
  obtain ⟨w, hrest, hw⟩ := exists_of_splitLines_append (w := l) (l := []) (by simpa using hsplit)
  exact ⟨l, w, hr, hrest, not_isLineEnd_of_splitLines hsplit, ls, hw⟩

/-! ### The record of failures -/

/-- A record moves on to a place in the line, or stays where it is. It never moves back, so a
failure further on in the text stays on record. -/
structure Marks (r : Reader) (l : List Char) (t t' : Attempts) : Prop where
  le : t.offset ≤ t'.offset
  place : t'.offset = t.offset ∨
    ∃ head tail, l = head ++ tail ∧ t'.offset = r.offset + byteLength head

namespace Marks

variable {r s : Reader} {l cs : List Char} {t t' t'' : Attempts}

/-- A record that stays where it is. This is what a matcher leaves that neither fails nor tries a
rule. -/
theorem refl (r : Reader) (l : List Char) (t : Attempts) : Marks r l t t :=
  ⟨Nat.le_refl _, .inl rfl⟩

/-- A record that moves on in what is left of the line moves on in the line. -/
theorem past (h : Marks s l t t') (hs : r.Past cs s) : Marks r (cs ++ l) t t' := by
  refine ⟨h.le, h.place.imp id ?_⟩
  rintro ⟨head, tail, rfl, hoffset⟩
  refine ⟨cs ++ head, tail, (List.append_assoc cs head tail).symm, ?_⟩
  rw [hoffset, hs.offset, byteLength_append, Nat.add_assoc]

/-- A record that moves on twice in one line has moved on in it, to the later place. If it does not
move the second time, the place is that of the first. -/
theorem trans (h : Marks r l t t') (h' : Marks r l t' t'') : Marks r l t t'' := by
  refine ⟨Nat.le_trans h.le h'.le, ?_⟩
  rcases h'.place with hsame | hplace
  · exact h.place.imp hsame.trans fun ⟨head, tail, hl, hoffset⟩ =>
      ⟨head, tail, hl, hsame.trans hoffset⟩
  · exact .inr hplace

end Marks

/-- A failed rule moves the record up to the place where the rule was tried, unless the record is
beyond that place already. What the rule did to the count of failures there has no say in this. -/
theorem Attempts.offset_fail (before now : Attempts) (rule : Rule) (offset : Nat) :
    (before.fail now rule offset).offset = max now.offset offset := by
  unfold Attempts.fail
  by_cases hone : now.countAt offset = before.countAt offset + 1
  · -- A failure is on record for the offset, so the record is there.
    have hat : now.offset = offset := by
      by_contra hne
      simp [Attempts.countAt, hne] at hone
    simp [hone, hat]
  · rw [if_neg hone]
    split
    · next hat => simp [hat]
    · split
      · next hlt => exact (Nat.max_eq_right (Nat.le_of_lt hlt)).symm
      · next hle => exact (Nat.max_eq_left (Nat.not_lt.1 hle)).symm

/-- A rule that fails was tried at a place of the line, so the record that it leaves is at a place
of the line too. -/
theorem Marks.fail {r : Reader} {l : List Char} {t t' : Attempts} (h : Marks r l t t')
    (name : Rule) : Marks r l t (t.fail t' name r.offset) := by
  have hoffset := Attempts.offset_fail t t' name r.offset
  refine ⟨?_, ?_⟩
  · rw [hoffset]
    exact Nat.le_trans h.le (Nat.le_max_left _ _)
  · rw [hoffset]
    rcases Nat.le_total t'.offset r.offset with hle | hle
    · rw [Nat.max_eq_right hle]
      exact .inr ⟨[], l, rfl, rfl⟩
    · rw [Nat.max_eq_left hle]
      exact h.place

/-! ### Matchers that stay in a line -/

namespace Matcher

variable {α β : Type}

/-- What a matcher does within a line. It fails, or it reads a piece of the line that has `k`
characters at least; and either way it does the same where the text ends with the line, with the
same result, the same record of failures and the same piece read. The bound `k` is what makes
repetitions stop. -/
def Local (k : Nat) (m : Matcher α) : Prop :=
  ∀ (r : Reader) (l w : List Char) (t : Attempts), InLine r l w →
    (∃ t', m r t = (none, t') ∧ m (r.clip l) t = (none, t') ∧ Marks r l t t') ∨
    ∃ a s cs l' t', m r t = (some (a, s), t') ∧ m (r.clip l) t = (some (a, s.clip l'), t') ∧
      Marks r l t t' ∧ l = cs ++ l' ∧ k ≤ cs.length ∧ r.Past cs s

namespace Local

variable {j k : Nat} {m n : Matcher α} {f : α → Matcher β}

/-- A matcher that reads many characters reads few. Where the parts of a sequence add up to more
than is wanted, the rest is given away by this. -/
theorem imp (h : Local k m) (hjk : j ≤ k) : Local j m := by
  intro r l w t hr
  refine (h r l w t hr).imp id ?_
  rintro ⟨a, s, cs, l', t', hm, hclip, ht, hl, hk, hs⟩
  exact ⟨a, s, cs, l', t', hm, hclip, ht, hl, Nat.le_trans hjk hk, hs⟩

/-- Succeeding at once reads nothing and looks at nothing. -/
theorem pure (a : α) : Local 0 (Pure.pure a : Matcher α) :=
  fun r l _ t _ => .inr ⟨a, r, [], l, t, rfl, rfl, .refl r l t, rfl, Nat.zero_le _, .refl r⟩

/-- Asking for the position reads nothing. The position is the same in the line and in the text,
because the line is clipped at its end only. -/
theorem offset : Local 0 Matcher.offset :=
  fun r l _ t _ =>
    .inr ⟨r.offset, r, [], l, t, rfl, rfl, .refl r l t, rfl, Nat.zero_le _, .refl r⟩

/-- Two matchers one after the other stay in a line if both do, and the characters that they read
add up. The second starts in what the first has left of the line. -/
theorem bind (hm : Local j m) (hf : ∀ a, Local k (f a)) : Local (j + k) (m >>= f) := by
  intro r l w t hr
  obtain ⟨t', hm, hclip, ht⟩ | ⟨a, s, cs, l', t', hm, hclip, ht, rfl, hj, hs⟩ := hm r l w t hr
  · exact .inl ⟨t', by simp only [Bind.bind, hm], by simp only [Bind.bind, hclip], ht⟩
  -- The second matcher is in the same line, and has `l'` left of it.
  obtain ⟨t'', hfa, hfclip, ht'⟩ | ⟨b, s', ds, l'', t'', hfa, hfclip, ht', rfl, hk, hs'⟩ :=
    hf a s l' w t' (hr.past hs)
  · exact .inl ⟨t'', by simp only [Bind.bind, hm, hfa], by simp only [Bind.bind, hclip, hfclip],
      ht.trans (ht'.past hs)⟩
  · refine .inr ⟨b, s', cs ++ ds, l'', t'', by simp only [Bind.bind, hm, hfa],
      by simp only [Bind.bind, hclip, hfclip], ht.trans (ht'.past hs),
      (List.append_assoc cs ds l'').symm, ?_, hs.trans hs'⟩
    rw [List.length_append]
    omega

/-- Of two alternatives, the second is tried where the first was, with the failures of the first on
record. -/
theorem orElse (hm : Local k m) (hn : Local k n) : Local k (m.orElse n) := by
  intro r l w t hr
  unfold Matcher.orElse
  obtain ⟨t', hm, hclip, ht⟩ | ⟨a, s, cs, l', t', hm, hclip, hs⟩ := hm r l w t hr
  · rw [hm, hclip]
    obtain ⟨t'', hn, hclip', ht'⟩ | ⟨a, s, cs, l', t'', hn, hclip', ht', hs⟩ := hn r l w t' hr
    · exact .inl ⟨t'', hn, hclip', ht.trans ht'⟩
    · exact .inr ⟨a, s, cs, l', t'', hn, hclip', ht.trans ht', hs⟩
  · rw [hm, hclip]
    exact .inr ⟨a, s, cs, l', t', rfl, rfl, hs⟩

/-- An optional piece may leave a failure on record, but it never fails. Nothing is promised of how
much it reads. -/
theorem optional (hm : Local k m) : Local 0 m.optional := by
  intro r l w t hr
  unfold Matcher.optional
  obtain ⟨t', hm, hclip, ht⟩ | ⟨a, s, cs, l', t', hm, hclip, ht, hl, -, hs⟩ := hm r l w t hr
  · rw [hm, hclip]
    exact .inr ⟨none, r, [], l, t', rfl, rfl, ht, rfl, Nat.zero_le _, .refl r⟩
  · rw [hm, hclip]
    exact .inr ⟨some a, s, cs, l', t', rfl, rfl, ht, hl, Nat.zero_le _, hs⟩

/-- A rule that fails is itself put on record, at the place where it was tried. -/
theorem rule {name : Rule} (hm : Local k m) : Local k (Matcher.rule name m) := by
  intro r l w t hr
  unfold Matcher.rule
  obtain ⟨t', hm, hclip, ht⟩ | ⟨a, s, cs, l', t', hm, hclip, hs⟩ := hm r l w t hr
  · rw [hm, hclip]
    exact .inl ⟨_, rfl, rfl, ht.fail name⟩
  · rw [hm, hclip]
    exact .inr ⟨a, s, cs, l', t', rfl, rfl, hs⟩

/-- A repetition goes on until its matcher fails. Rounds do not run out, neither in the text nor in
the line, since each takes a character of the line. The two bounds may differ, because the text has
more bytes than the line; the induction is on the first. -/
theorem manyUpTo (hm : Local (k + 1) m) {r : Reader} {l w : List Char} {fuel fuel' : Nat}
    (t : Attempts) (hr : InLine r l w) (hfuel : l.length < fuel) (hfuel' : l.length < fuel') :
    ∃ as s cs l' t₁ t', m.manyUpTo fuel r t = (some (as, s), t') ∧
      m.manyUpTo fuel' (r.clip l) t = (some (as, s.clip l'), t') ∧
      Marks r l t t' ∧ l = cs ++ l' ∧ r.Past cs s ∧ m s t₁ = (none, t') := by
  induction fuel generalizing r l fuel' t with
  | zero => simp at hfuel
  | succ fuel ih =>
      obtain ⟨fuel', rfl⟩ : ∃ n, fuel' = n + 1 := ⟨fuel' - 1, by omega⟩
      unfold Matcher.manyUpTo
      obtain ⟨t', hm, hclip, ht⟩ | ⟨a, s, cs, l', t', hm, hclip, ht, rfl, hk, hs⟩ := hm r l w t hr
      · rw [hm, hclip]
        exact ⟨[], r, [], l, t, t', rfl, rfl, ht, rfl, .refl r, hm⟩
      · rw [hm, hclip]
        rw [List.length_append] at hfuel hfuel'
        obtain ⟨as, s', ds, l'', t₁, t'', hmore, hmore', ht', rfl, hs', hend⟩ :=
          ih t' (hr.past hs) (by omega) (show l'.length < fuel' by omega)
        dsimp only
        rw [hmore, hmore']
        exact ⟨a :: as, s', cs ++ ds, l'', t₁, t'', rfl, rfl, ht.trans (ht'.past hs),
          (List.append_assoc cs ds l'').symm, hs.trans hs', hend⟩

/-- A repetition of a matcher that reads at least a character ends at a place of the line where that
matcher fails. What it last left on record is what the repetition leaves. -/
theorem many_stops (hm : Local (k + 1) m) {r : Reader} {l w : List Char} (t : Attempts)
    (hr : InLine r l w) :
    ∃ as s cs l' t₁ t', m.many r t = (some (as, s), t') ∧
      m.many (r.clip l) t = (some (as, s.clip l'), t') ∧
      Marks r l t t' ∧ l = cs ++ l' ∧ r.Past cs s ∧ m s t₁ = (none, t') :=
  hm.manyUpTo t hr hr.length_lt hr.clip.length_lt

/-- A repetition stays in a line if every round does and reads a character at least. -/
theorem many (hm : Local (k + 1) m) : Local 0 m.many := by
  intro r l w t hr
  obtain ⟨as, s, cs, l', _, t', hmany, hclip, ht, hl, hs, -⟩ := hm.many_stops t hr
  exact .inr ⟨as, s, cs, l', t', hmany, hclip, ht, hl, Nat.zero_le _, hs⟩

/-- A piece is found by looking at the first line only: the function finds the same in the text as
in the line, and what it finds is a piece of the line. -/
theorem scan {find : List Char → Option (List Char)}
    (hfind : ∀ {text l ls}, splitLines text = l :: ls → find text = find l ∧
      ∀ cs, find l = some cs → k ≤ cs.length ∧ ∃ l', l = cs ++ l') :
    Local k (Matcher.scan find) := by
  intro r l w t hr
  obtain ⟨ls, hsplit⟩ := hr.exists_splitLines
  obtain ⟨hline, hpiece⟩ := hfind hsplit
  unfold Matcher.scan
  rw [hline, show (r.clip l).rest = l from rfl]
  cases hfound : find l with
  | none => exact .inl ⟨t, rfl, rfl, .refl r l t⟩
  | some cs =>
      obtain ⟨hk, l', rfl⟩ := hpiece cs hfound
      have hrest : r.rest = cs ++ (l' ++ w) := by rw [hr.rest, List.append_assoc]
      refine .inr ⟨cs, r.advance cs, cs, l', t, rfl, ?_, .refl _ _ t, rfl, hk, .advance hrest⟩
      simp [Reader.clip, Reader.advance, Nat.add_assoc]

/-- A character that is no line end. Where nothing is left of the line, the text goes on with a line
end or not at all, and neither is that character. -/
theorem char {c : Char} (hc : isLineEnd c = false) : Local 1 (Matcher.char c) := by
  intro r l w t hr
  have hclip : (r.clip l).rest = l := rfl
  cases l with
  | nil =>
      have hnone : Matcher.char c r t = (none, t) := by
        obtain ⟨ls, hsplit⟩ := hr.exists_splitLines
        unfold Matcher.char
        obtain hrest | ⟨cs, hrest | hrest⟩ := head_of_splitLines hsplit
        · rw [hrest]
        · rw [hrest]
          exact if_neg fun heq => by simp [isLineEnd, heq] at hc
        · rw [hrest]
          exact if_neg fun heq => by simp [isLineEnd, heq] at hc
      exact .inl ⟨t, hnone, rfl, .refl _ _ t⟩
  | cons d l =>
      unfold Matcher.char
      rw [hclip, hr.rest, List.cons_append]
      dsimp only
      by_cases hcd : c = d
      · rw [if_pos hcd, if_pos hcd]
        refine .inr ⟨(), r.advance [d], [d], l, t, rfl, ?_, .refl _ _ t, rfl, Nat.le_refl _,
          .advance hr.rest⟩
        simp [Reader.clip, Reader.advance, Nat.add_assoc]
      · rw [if_neg hcd, if_neg hcd]
        exact .inl ⟨t, rfl, rfl, .refl _ _ t⟩

end Local

/-- A repetition ends where it started, or where its matcher has matched. So what its matcher leaves
behind is what the repetition leaves behind, if there was a round at all. -/
theorem last_of_manyUpTo {m : Matcher α} {fuel : Nat} {r s : Reader} {t t' : Attempts}
    {as : List α} (h : m.manyUpTo fuel r t = (some (as, s), t')) :
    s = r ∨ ∃ r₀ t₀ a t₁, m r₀ t₀ = (some (a, s), t₁) := by
  induction fuel generalizing r t as with
  | zero =>
      cases h
      exact .inl rfl
  | succ fuel ih =>
      unfold manyUpTo at h
      split at h
      · cases h
        exact .inl rfl
      · next a r₁ t₁ hfirst =>
        split at h
        · next as' r₂ t₂ hmore =>
          cases h
          obtain rfl | hlast := ih hmore
          · exact .inr ⟨r, t, a, t₁, hfirst⟩
          · exact .inr hlast
        · cases h

/-- Two matchers one after the other have succeeded only if both have, the second from where the
first has led to. -/
theorem bind_eq_some {m : Matcher α} {f : α → Matcher β} {r s : Reader} {t t' : Attempts} {b : β}
    (h : (m >>= f) r t = (some (b, s), t')) :
    ∃ a r₁ t₁, m r t = (some (a, r₁), t₁) ∧ f a r₁ t₁ = (some (b, s), t') := by
  simp only [Bind.bind] at h
  split at h
  · next a r₁ t₁ hfirst => exact ⟨a, r₁, t₁, hfirst, h⟩
  · cases h

end Matcher

open Matcher

/-! ### Words and blanks -/

/-- A function that finds the longest word of a class looks at the first line only. A longest word
of the line is one of the text and the other way round, because words do not reach over line
ends. -/
theorem Finds.line {find : List Char → Option (List Char)} {P : List Char → Prop}
    (hfind : Finds find P) (hP : ∀ cs, P cs → ∀ c ∈ cs, isLineEnd c = false)
    {text l : List Char} {ls : List (List Char)} (hsplit : splitLines text = l :: ls) :
    find text = find l := by
  cases hline : find l with
  | some word =>
      obtain ⟨l', rfl, hword⟩ := hfind.sound hline
      obtain ⟨rest, rfl, hrest⟩ := exists_of_splitLines_append hsplit
      exact hfind.complete ((longest_line_iff hP hrest).1 hword)
  | none =>
      by_contra hne
      obtain ⟨word, hfound⟩ := Option.ne_none_iff_exists'.1 hne
      obtain ⟨rest, rfl, hword⟩ := hfind.sound hfound
      obtain ⟨l', ls', hrest⟩ := exists_splitLines rest
      rw [splitLines_append (hP word hword.mem) hrest] at hsplit
      obtain ⟨rfl, rfl⟩ := List.cons.inj hsplit
      rw [hfind.complete ((longest_line_iff hP hrest).2 hword)] at hline
      simp at hline

/-- What is taken of a text while characters stay in the line is taken of the line. The cases are
what stops it: the end of the line, or a character of the line. -/
theorem takeWhile_line {p : Char → Bool} (hp : ∀ c, p c = true → isLineEnd c = false)
    {text l : List Char} {ls : List (List Char)} (hsplit : splitLines text = l :: ls) :
    text.takeWhile p = l.takeWhile p := by
  generalize hword : l.takeWhile p = word
  obtain ⟨l', rfl, hall, hl'⟩ := takeWhile_eq_iff.1 hword
  obtain ⟨rest, rfl, hrest⟩ := exists_of_splitLines_append hsplit
  refine takeWhile_eq_iff.2 ⟨rest, rfl, hall, ?_⟩
  cases l' with
  | nil =>
      obtain rfl | ⟨cs, rfl | rfl⟩ := head_of_splitLines hrest
      · rfl
      · by_cases hc : p '\n' = true
        · simpa [isLineEnd] using hp '\n' hc
        · simp [hc]
      · by_cases hc : p '\r' = true
        · simpa [isLineEnd] using hp '\r' hc
        · simp [hc]
  | cons c l' =>
      obtain ⟨rest, rfl, -⟩ := exists_of_splitLines_append (w := [c]) hrest
      by_cases hc : p c = true
      · simp [hc] at hl'
      · simp [hc]

/-- A comment is found by looking at the first line only, and reaches to its end. -/
theorem findComment_line {text l : List Char} {ls : List (List Char)}
    (hsplit : splitLines text = l :: ls) : findComment text = findComment l := by
  cases l with
  | nil => obtain rfl | ⟨cs, rfl | rfl⟩ := head_of_splitLines hsplit <;> rfl
  | cons c l =>
      obtain ⟨rest, rfl, hrest⟩ := exists_of_splitLines_append (w := [c]) hsplit
      by_cases hc : c = '#'
      · rw [hc]
        have hline := takeWhile_line (p := (!isLineEnd ·)) (fun c hc => by simpa using hc) hrest
        simp only [findComment, List.cons_append, List.nil_append]
        rw [hline]
      · simp [findComment, hc]

/-- The name of a value has its letter at least. With the other two lemmas of this kind it gives
every word its first character. -/
theorem IsValueName.ne_nil {cs : List Char} (h : IsValueName cs) : cs ≠ [] := by
  obtain ⟨digits, rfl, -⟩ := h
  exact List.cons_ne_nil _ _

/-- A number has a digit at least. -/
theorem IsInteger.ne_nil {cs : List Char} (h : IsInteger cs) : cs ≠ [] := by
  obtain hdigits | ⟨digits, rfl, -⟩ := h
  · exact hdigits.1
  · exact List.cons_ne_nil _ _

/-- An opcode has its first character at least. -/
theorem IsOpcode.ne_nil {cs : List Char} (h : IsOpcode cs) : cs ≠ [] := by
  obtain ⟨c, others, rfl, -⟩ := h
  exact List.cons_ne_nil _ _

namespace Grammar

/-- Blanks are skipped within a line. There may be none, so no character is promised. -/
theorem spacing_local : Local 0 spacing := by
  refine Local.bind (j := 0) (.scan fun {text l ls} hsplit => ?_) fun _ => .pure _
  have hp : ∀ c, isSpacing c = true → isLineEnd c = false :=
    fun c hc => isLineEnd_eq_false hc (by decide)
  refine ⟨congrArg some (takeWhile_line hp hsplit), fun cs hcs => ⟨Nat.zero_le _, ?_⟩⟩
  obtain ⟨l', hl, -⟩ := takeWhile_eq_iff.1 (Option.some.inj hcs)
  exact ⟨l', hl⟩

/-- A comment is read within its line. It is kept by the reader, which changes nothing that is
looked at here. -/
theorem comment_local : Local 1 comment := by
  have hkeep : ∀ cs, Local 0 (keepComment cs) := fun cs r l _ t _ =>
    .inr ⟨(), _, [], l, t, rfl, rfl, .refl r l t, rfl, Nat.zero_le _, rfl, rfl, rfl⟩
  refine Local.bind (j := 1) (.rule (.scan fun {text l ls} hsplit => ?_)) hkeep
  refine ⟨findComment_line hsplit, fun cs hcs => ?_⟩
  unfold findComment at hcs
  split at hcs
  · next l =>
    obtain rfl := Option.some.inj hcs
    obtain ⟨l', hl, -⟩ := takeWhile_eq_iff.1 (Eq.refl (l.takeWhile (!isLineEnd ·)))
    exact ⟨by simp, l', congrArg ('#' :: ·) hl⟩
  · simp at hcs

/-! ### Skipping -/

/-- A round of skipping, a comment and the blanks behind it, takes a character at least. -/
theorem skipped_local : Local 1 (comment >>= fun _ => spacing) :=
  Local.bind comment_local fun _ => spacing_local

/-- Where no more comment is found, the record has moved up to there. This is why a failure behind
something skipped is never reported in front of it. -/
theorem offset_le_of_comment_none {s : Reader} {t t' : Attempts}
    (h : (comment >>= fun _ => spacing) s t = (none, t')) :
    findComment s.rest = none ∧ s.offset ≤ t'.offset := by
  cases hfind : findComment s.rest with
  | some cs => simp [Bind.bind, comment, Matcher.rule, Matcher.scan, keepComment, spacing, hfind,
      Pure.pure] at h
  | none =>
      refine ⟨rfl, ?_⟩
      have hfail : t' = t.fail t .comment s.offset := by
        simpa [Bind.bind, comment, Matcher.rule, Matcher.scan, hfind, eq_comm] using h
      rw [hfail, Attempts.offset_fail]
      exact Nat.le_max_right _ _

/-- Skipping blanks leads to where no blank is, and leaves the record as it is. -/
theorem spacing_stops (r : Reader) (t : Attempts) :
    ∃ s, spacing r t = (some ((), s), t) ∧ s.rest.takeWhile isSpacing = [] := by
  obtain ⟨rest, hrest, -, hstop⟩ := takeWhile_eq_iff.1 (Eq.refl (r.rest.takeWhile isSpacing))
  exact ⟨_, rfl, by rw [Reader.rest_advance hrest, hstop]⟩

/-- Skipping goes on until nothing is left to skip, and the record moves up to there. No blank is
left because blanks are skipped last in every round, and no comment because the repetition ends
where none is found. -/
theorem skip_stops {r : Reader} {l w : List Char} (t : Attempts) (hr : InLine r l w) :
    ∃ s cs l' t', skip r t = (some ((), s), t') ∧ skip (r.clip l) t = (some ((), s.clip l'), t') ∧
      Marks r l t t' ∧ l = cs ++ l' ∧ r.Past cs s ∧ Solid s.rest ∧ s.offset ≤ t'.offset := by
  obtain ⟨s₁, hspacing, hblank⟩ := spacing_stops r t
  obtain ⟨t', hnone, -⟩ | ⟨a, s, cs, l', t', hsome, hclip, ht, rfl, -, hs⟩ :=
    spacing_local r l w t hr
  · simp [hnone] at hspacing
  obtain ⟨rfl, rfl⟩ : s₁ = s ∧ t = t' := by simpa [hsome, eq_comm] using hspacing
  obtain ⟨as, s', ds, l'', t₁, t', hmany, hclip', ht', rfl, hs', hend⟩ :=
    skipped_local.many_stops t (hr.past hs)
  obtain ⟨hcomment, hoffset⟩ := offset_le_of_comment_none hend
  -- The last thing done was to skip blanks, in front of the first comment or behind the last.
  have hsolid : s'.rest.takeWhile isSpacing = [] := by
    obtain rfl | ⟨r₀, t₀, a, t₂, hlast⟩ := last_of_manyUpTo hmany
    · exact hblank
    · obtain ⟨b, r₁, t₃, -, hlast⟩ := bind_eq_some hlast
      obtain ⟨s₂, hspacing, hblank⟩ := spacing_stops r₁ t₃
      rw [hspacing] at hlast
      cases hlast
      exact hblank
  refine ⟨s', cs ++ ds, l'', t', ?_, ?_, ht.trans (ht'.past hs), (List.append_assoc ..).symm,
    hs.trans hs', ⟨hsolid, hcomment⟩, hoffset⟩
  · simp only [skip, Bind.bind, Pure.pure] at hsome hmany ⊢
    rw [hsome]
    simp only [hmany]
  · simp only [skip, Bind.bind, Pure.pure] at hclip hclip' ⊢
    rw [hclip]
    simp only [hclip']

/-- Blanks and comments are skipped within a line, and skipping does not fail. What is known of its
end is in `skip_stops`. -/
theorem skip_local : Local 0 skip := by
  intro r l w t hr
  obtain ⟨s, cs, l', t', hskip, hclip, ht, hl, hs, -⟩ := skip_stops t hr
  exact .inr ⟨(), s, cs, l', t', hskip, hclip, ht, hl, Nat.zero_le _, hs⟩

/-! ### Statements -/

end Grammar

/-! ### Line ends -/

/-- A line end is read, or there is none. The record of failures stays as it is, since line ends are
no rule of their own. -/
theorem newline_eq (r : Reader) (t : Attempts) :
    Grammar.newline r t = ((findNewline r.rest).map fun nl => ((), r.advance nl), t) := by
  simp only [Grammar.newline, Bind.bind, Matcher.scan, Pure.pure]
  cases findNewline r.rest <;> rfl

/-- A line end that is read has a character at least, two where a carriage return has a line feed
behind it. -/
theorem newline_cases (r : Reader) (t : Attempts) :
    Grammar.newline r t = (none, t) ∨
      ∃ nl s, Grammar.newline r t = (some ((), s), t) ∧ nl ≠ [] ∧ r.Past nl s := by
  rw [newline_eq]
  cases hfind : findNewline r.rest with
  | none => exact .inl rfl
  | some nl =>
      obtain ⟨hne, rest, hrest⟩ : nl ≠ [] ∧ ∃ rest, r.rest = nl ++ rest := by
        unfold findNewline at hfind
        split at hfind <;> cases hfind
        · next hrest => exact ⟨by simp, _, hrest⟩
        · next hrest => exact ⟨by simp, _, hrest⟩
        · next hrest => exact ⟨by simp, _, hrest⟩
      exact .inr ⟨nl, _, rfl, hne, .advance hrest⟩

/-- There is no line end within a line. Where something is left of the line, its next character is
no line end. -/
theorem newline_none {r : Reader} {l w : List Char} (hr : InLine r l w) (hl : l ≠ [])
    (t : Attempts) : Grammar.newline r t = (none, t) := by
  obtain ⟨c, cs, rfl⟩ := List.exists_cons_of_ne_nil hl
  rw [newline_eq, hr.rest, List.cons_append, findNewline_cons (hr.inside c List.mem_cons_self)]
  rfl

/-! ### The line as a text -/

section Lines

variable {α : Type} {k : Nat} {m : Matcher α} {r s : Reader} {l w : List Char} {t t' : Attempts}
  {a : α} {st : Option StatementWords}

end Lines

end StackForm.Text

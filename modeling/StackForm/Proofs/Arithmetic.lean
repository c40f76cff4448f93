import Mathlib.Algebra.Order.Group.Unbundled.Int
import Mathlib.Data.Int.ModEq
import StackForm.Eval

/-!
# `StackForm.Proofs.Arithmetic`: word arithmetic against the integers

Words are computed with as integers, and what does not fit wraps. `Opcode.apply_wraps` says what
this comes to for each opcode that does arithmetic, in terms of the integers alone.

The word that an integer wraps to is the only one congruent to it modulo `2 ^ 64`
(`Word.Wraps`). For sums, differences and products that is the whole story. Quotients are
truncated toward zero, and all of them fit but one: the lowest word divided by `-1`
(`Word.toInt_div_eq_iff`). Remainders always fit. Shifts take their amount modulo `64`, which is
never negative whatever the sign of the word that gives it (`Word.shiftAmount`), so a left shift
is a product and a right shift is a quotient rounded down.
-/

set_option autoImplicit false

namespace StackForm

namespace Word

variable {i : Int} {r x y : Word}

/-! ### Wrapping -/

/-- The integer `i` wraps to the word `r`: of all words, `r` alone is congruent to `i`. -/
def Wraps (i : Int) (r : Word) : Prop := ∀ w : Word, w.toInt ≡ i [ZMOD 2 ^ 64] ↔ w = r

/-- The balanced remainder is what an integer wraps to. -/
theorem wraps_of_toInt_eq (h : r.toInt = i.bmod (2 ^ 64)) : Wraps i r := by
  intro w
  constructor
  · intro hw
    -- A word is its own balanced remainder, and congruent integers have the same one.
    have hbmod : w.toInt.bmod (2 ^ 64) = i.bmod (2 ^ 64) := by
      rw [← Int.emod_bmod w.toInt, ← Int.emod_bmod i]
      exact congrArg (Int.bmod · (2 ^ 64)) hw
    rw [← Int64.toInt_inj, h, ← hbmod]
    exact (Int64.toInt_bmod w).symm
  · rintro rfl
    rw [h]
    exact Int.bmod_emod

/-- What wraps to a word differs from it by a multiple of 2 ^ 64. -/
theorem Wraps.congr (h : Wraps i r) : r.toInt ≡ i [ZMOD 2 ^ 64] := (h r).mpr rfl

/-! ### Division -/

/-- A word that is not zero is not zero as an integer. -/
theorem toInt_ne_zero (hy : y ≠ 0) : y.toInt ≠ 0 := by
  intro h
  exact hy (Int64.toInt_inj.mp h)

/-- The quotient of two words is a word, except that of the lowest one and `-1`. -/
theorem toInt_div_eq_iff (x y : Word) :
    (x / y).toInt = x.toInt.tdiv y.toInt ↔ ¬ (x = Int64.minValue ∧ y = -1) := by
  constructor
  · rintro h ⟨rfl, rfl⟩
    exact absurd h (by decide)
  · intro h
    by_cases hx : x = Int64.minValue
    · exact Int64.toInt_div_of_ne_right x y fun hy => h ⟨hx, hy⟩
    · exact Int64.toInt_div_of_ne_left x y hx

/-- Quotient and remainder give the dividend back, up to wrapping. -/
theorem div_mul_add_mod (x y : Word) :
    x.toInt ≡ (x / y).toInt * y.toInt + (x % y).toInt [ZMOD 2 ^ 64] := by
  have hquotient : Wraps (x.toInt.tdiv y.toInt) (x / y) := wraps_of_toInt_eq (Int64.toInt_div x y)
  have hwrapped := (hquotient.congr.mul_right y.toInt).add_right (x % y).toInt
  have hexact : x.toInt.tdiv y.toInt * y.toInt + (x % y).toInt = x.toInt := by
    rw [Int64.toInt_mod, Int.tdiv_mul_add_tmod]
  rw [hexact] at hwrapped
  exact hwrapped.symm

/-- A remainder is nearer to zero than the divisor, whatever the signs of the two. -/
theorem abs_mod_lt (x : Word) (hy : y ≠ 0) : |(x % y).toInt| < |y.toInt| := by
  have hpos : 0 < y.toInt.natAbs := Int.natAbs_pos.mpr (toInt_ne_zero hy)
  rw [Int64.toInt_mod, Int.abs_eq_natAbs, Int.abs_eq_natAbs, Int.natAbs_tmod]
  exact Int.ofNat_lt.mpr (Nat.mod_lt _ hpos)

/-- A remainder has the sign of the dividend, unless there is none. -/
theorem mod_sign (x y : Word) : x % y = 0 ∨ (x % y).toInt.sign = x.toInt.sign := by
  have hsign := Int.sign_tmod x.toInt y.toInt
  rw [← Int64.toInt_mod] at hsign
  split at hsign
  · exact Or.inl (Int64.toInt_inj.mp (Int.sign_eq_zero_iff_zero.mp hsign))
  · exact Or.inr hsign

/-! ### Shifts -/

/-- How far a word shifts. -/
def shiftAmount (y : Word) : Nat := (y.toInt % 64).toNat

/-- No shift is by 64 or more. -/
theorem shiftAmount_lt (y : Word) : y.shiftAmount < 64 := by
  unfold shiftAmount
  omega

/-- The amount of a shift is the operand modulo 64, for negative operands too. -/
theorem shiftAmount_modEq (y : Word) : (y.shiftAmount : Int) ≡ y.toInt [ZMOD 64] := by
  have hamount : (y.shiftAmount : Int) = y.toInt % 64 := by
    unfold shiftAmount
    omega
  rw [hamount]
  exact Int.mod_modEq ..

/-- The amount of a shift as the machine's own shifts take it. -/
theorem toNat_smod (y : Word) : (y.toBitVec.smod 64).toNat = y.shiftAmount := by
  have hsigned : (y.toBitVec.smod 64).toInt = y.toInt % 64 := by
    rw [BitVec.toInt_smod, Int64.toInt_toBitVec]
    exact Int.fmod_eq_emod_of_nonneg _ (by decide)
  -- A remainder from `0` to `63` is the same number with a sign and without.
  have hrange := (y.toBitVec.smod 64).isLt
  rw [BitVec.toInt_eq_toNat_cond] at hsigned
  unfold shiftAmount
  split at hsigned <;> omega

/-- A left shift is a product. -/
theorem toInt_shiftLeft (x y : Word) :
    (x <<< y).toInt = (x.toInt * 2 ^ y.shiftAmount).bmod (2 ^ 64) := by
  have hword : x.toInt = (x.toBitVec.toNat : Int).bmod (2 ^ 64) := by
    rw [← Int64.toInt_toBitVec, BitVec.toInt_eq_toNat_bmod]
  calc (x <<< y).toInt
      = ((x.toBitVec.toNat <<< y.shiftAmount : Nat) : Int).bmod (2 ^ 64) := by
        rw [← Int64.toInt_toBitVec, Int64.toBitVec_shiftLeft, BitVec.shiftLeft_eq', toNat_smod,
          BitVec.toInt_shiftLeft]
    _ = ((x.toBitVec.toNat : Int) * 2 ^ y.shiftAmount).bmod (2 ^ 64) := by
        rw [Nat.shiftLeft_eq, Int.natCast_mul, Int.natCast_pow]
        rfl
    _ = (x.toInt * 2 ^ y.shiftAmount).bmod (2 ^ 64) := by rw [hword, Int.bmod_mul_bmod]

/-- A right shift is a quotient rounded down. -/
theorem toInt_shiftRight (x y : Word) : (x >>> y).toInt = x.toInt.fdiv (2 ^ y.shiftAmount) := by
  have hpower : ((2 ^ y.shiftAmount : Nat) : Int) = 2 ^ y.shiftAmount := Int.natCast_pow ..
  rw [← Int64.toInt_toBitVec, Int64.toBitVec_shiftRight, BitVec.sshiftRight', toNat_smod,
    BitVec.toInt_sshiftRight, Int64.toInt_toBitVec, Int.shiftRight_eq_div_pow, ← hpower,
    Int.fdiv_eq_ediv_of_nonneg _ (Int.natCast_nonneg _)]

end Word

namespace Opcode

/-! ### Opcodes -/

/-- Performing an opcode gives a word with the property `P` and leaves the store alone. -/
def Gives (op : Opcode) (args : List Word) (P : Word → Prop) : Prop :=
  ∀ s, ∃ r, op.apply args s = .ok (some r, s) ∧ P r

/-- An opcode that computes a result gives one with every property that the result has. -/
theorem Gives.of_apply {op : Opcode} {args : List Word} {P : Word → Prop} {r : Word}
    (happly : ∀ s, op.apply args s = pureResult s r) (hr : P r) : op.Gives args P :=
  fun s => ⟨r, happly s, hr⟩

/-- An opcode that divides fails on a zero divisor and nowhere else. -/
theorem apply_divisionByZero_iff {op : Opcode} {args : List Word} {y v : Word} {s : Store}
    (happly : op.apply args s = if y = 0 then throw .divisionByZero else pureResult s v) :
    op.apply args s = .error .divisionByZero ↔ y = 0 := by
  rw [happly]
  constructor
  · intro h
    by_contra hy
    rw [if_neg hy] at h
    cases h
  · intro hy
    rw [if_pos hy]
    rfl

/-- Negation, sum, difference and product are those of the integers, wrapped. A division fails
exactly on a zero divisor. Otherwise the quotient is truncated toward zero and wrapped, which
changes it in one case only, and the remainder is the one that goes with it: smaller than the
divisor, zero or with the sign of the dividend. Shifts multiply and divide by a power of two,
with an exponent from `0` to `63` that is congruent to the amount. -/
theorem apply_wraps (x y : Word) :
    neg.Gives [x] (Word.Wraps (-x.toInt)) ∧
    add.Gives [x, y] (Word.Wraps (x.toInt + y.toInt)) ∧
    sub.Gives [x, y] (Word.Wraps (x.toInt - y.toInt)) ∧
    mul.Gives [x, y] (Word.Wraps (x.toInt * y.toInt)) ∧
    (∀ s, (sdiv.apply [x, y] s = .error .divisionByZero ↔ y = 0) ∧
      (smod.apply [x, y] s = .error .divisionByZero ↔ y = 0)) ∧
    (y ≠ 0 → ∃ q m : Word, sdiv.Gives [x, y] (· = q) ∧ smod.Gives [x, y] (· = m) ∧
      Word.Wraps (x.toInt.tdiv y.toInt) q ∧
      (q.toInt = x.toInt.tdiv y.toInt ↔ ¬ (x = Int64.minValue ∧ y = -1)) ∧
      x.toInt ≡ q.toInt * y.toInt + m.toInt [ZMOD 2 ^ 64] ∧
      |m.toInt| < |y.toInt| ∧ (m = 0 ∨ m.toInt.sign = x.toInt.sign)) ∧
    ∃ k : Nat, k < 64 ∧ (k : Int) ≡ y.toInt [ZMOD 64] ∧
      shl.Gives [x, y] (Word.Wraps (x.toInt * 2 ^ k)) ∧
      shr.Gives [x, y] fun r => r.toInt = x.toInt.fdiv (2 ^ k) := by
  refine ⟨?_, ?_, ?_, ?_, ?_, ?_, ?_⟩
  · exact .of_apply (fun _ => rfl) (Word.wraps_of_toInt_eq (Int64.toInt_neg x))
  · exact .of_apply (fun _ => rfl) (Word.wraps_of_toInt_eq (Int64.toInt_add x y))
  · exact .of_apply (fun _ => rfl) (Word.wraps_of_toInt_eq (Int64.toInt_sub x y))
  · exact .of_apply (fun _ => rfl) (Word.wraps_of_toInt_eq (Int64.toInt_mul x y))
  · exact fun s => ⟨apply_divisionByZero_iff rfl, apply_divisionByZero_iff rfl⟩
  · intro hy
    refine ⟨x / y, x % y, ?_, ?_, ?_, ?_, ?_, ?_, ?_⟩
    · exact .of_apply (fun _ => if_neg hy) rfl
    · exact .of_apply (fun _ => if_neg hy) rfl
    · exact Word.wraps_of_toInt_eq (Int64.toInt_div x y)
    · exact Word.toInt_div_eq_iff x y
    · exact Word.div_mul_add_mod x y
    · exact Word.abs_mod_lt x hy
    · exact Word.mod_sign x y
  · refine ⟨y.shiftAmount, y.shiftAmount_lt, y.shiftAmount_modEq, ?_, ?_⟩
    · exact .of_apply (fun _ => rfl) (Word.wraps_of_toInt_eq (Word.toInt_shiftLeft x y))
    · exact .of_apply (fun _ => rfl) (Word.toInt_shiftRight x y)

/-- The quotient that does not fit, and shifts by a negative amount. -/
theorem apply_wraps_lowest :
    (∃ q m : Word, sdiv.Gives [Int64.minValue, -1] (· = q) ∧
      smod.Gives [Int64.minValue, -1] (· = m) ∧ Word.Wraps 9223372036854775808 q ∧
      q.toInt ≠ 9223372036854775808 ∧ m = 0) ∧
    shr.Gives [Int64.minValue, -1] fun r => r.toInt = -1 := by
  obtain ⟨-, -, -, -, -, hdivision, k, hk, hcongr, -, hshr⟩ := apply_wraps Int64.minValue (-1)
  constructor
  · obtain ⟨q, m, hq, hm, hwraps, hexact, -, hsmall, -⟩ := hdivision (by decide)
    refine ⟨q, m, hq, hm, hwraps, fun h => hexact.mp h ⟨rfl, rfl⟩, ?_⟩
    -- Only zero is smaller than `-1` in absolute value.
    exact Int64.toInt_inj.mp (Int.abs_lt_one_iff.mp hsmall)
  · obtain rfl : k = 63 := by
      have hresidue : (k : Int) % 64 = -1 % 64 := hcongr
      omega
    exact hshr

end Opcode

end StackForm

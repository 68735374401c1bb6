import EagerLambda.Operator.Apply
import Mathlib.Algebra.Order.Ring.Int
import Mathlib.Algebra.Ring.Parity

/-!
# Exponentiation

A power is computed exactly. The powers of the three bases that stay in range are known from the
parity of the exponent, and every other base has left the range by its 64th power. The exponent has
to be below a bound of its own: from there on the answer is the one for negative exponents, whatever
the power is.

## Main definitions

- `Integer.PowerAnswered` — what is said of the power of two integers

## Main statements

- `Integer.ofInt?_eq_some_iff` — the integers that fit
- `Integer.pow?_eq` — a power is computed exactly
- `BinaryOp.pow_exact_iff` — the operator answers as is said exactly below the bound
-/

namespace EagerLambda

namespace Integer

variable {z : Int} {n base exponent : Integer}

theorem fits_toInt (n : Integer) : Fits n.toInt := by
  have hlow := Int64.le_toInt n
  have hhigh := Int64.toInt_lt n
  constructor <;> omega

/-- A whole number has a 64-bit integer of its value exactly if it is in range. -/
theorem ofInt?_eq_some_iff : ofInt? z = some n ↔ n.toInt = z := by
  constructor
  · intro h
    rw [ofInt?] at h
    split at h
    · next hfits =>
      cases h
      exact Int64.toInt_ofInt_of_le hfits.1 hfits.2
    · cases h
  · rintro rfl
    rw [ofInt?, if_pos (fits_toInt n), Int64.ofInt_toInt]

theorem ofInt?_eq_none_iff : ofInt? z = none ↔ ¬ Fits z := by
  rw [ofInt?]
  split
  · next hfits => exact iff_of_false (fun h => by cases h) (not_not_intro hfits)
  · next hfits => exact iff_of_true rfl hfits

/-- A base other than -1, 0 and 1 has left the range by its 64th power. -/
theorem not_fits_pow {exponent : Nat} (h₀ : z ≠ 0) (h₁ : z ≠ 1) (hneg : z ≠ -1)
    (hexponent : 64 ≤ exponent) : ¬ Fits (z ^ exponent) := by
  intro ⟨hlow, hhigh⟩
  have hbase : 2 ≤ z.natAbs := by omega
  have hlarge : 2 ^ 64 ≤ (z ^ exponent).natAbs := by
    rw [Int.natAbs_pow]
    calc 2 ^ 64 ≤ 2 ^ exponent := Nat.pow_le_pow_right (by decide) hexponent
      _ ≤ z.natAbs ^ exponent := Nat.pow_le_pow_left hbase exponent
  omega

/-- A power is computed exactly, or is out of range. -/
theorem pow?_eq (base : Integer) (exponent : Nat) :
    pow? base exponent = ofInt? (base.toInt ^ exponent) := by
  rw [pow?]
  split
  · rfl
  · next hexponent =>
    have hexponent : 64 ≤ exponent := Nat.le_of_not_lt hexponent
    split
    · next hbase =>
      refine (ofInt?_eq_some_iff.2 ?_).symm
      rcases hbase with hbase | hbase
      · rw [hbase, zero_pow (by omega)]
      · rw [hbase, one_pow]
    · next hbase =>
      obtain ⟨h₀, h₁⟩ := not_or.1 hbase
      split
      · next hneg =>
        refine (ofInt?_eq_some_iff.2 ?_).symm
        rw [hneg]
        split
        · next heven => rw [(Nat.even_iff.2 heven).neg_one_pow]; rfl
        · next hmod =>
          have hodd : Odd exponent := Nat.not_even_iff_odd.1 fun h => hmod (Nat.even_iff.1 h)
          rw [hodd.neg_one_pow]
          rfl
      · next hneg => exact (ofInt?_eq_none_iff.2 (not_fits_pow h₀ h₁ hneg hexponent)).symm

/-- What is said of raising an integer to another: a negative exponent is a mismatch, and to any
other exponent the answer is the exact power, or an overflow if that is out of range. -/
structure PowerAnswered {Code : Type} (base exponent : Integer)
    (answer : Except Error (Value Code)) : Prop where
  negative : exponent.toInt < 0 →
    answer = .error (.typeMismatch "a non-negative exponent" exponent.text)
  exact : 0 ≤ exponent.toInt → ∀ n : Integer, n.toInt = base.toInt ^ exponent.toInt.toNat →
    answer = .ok (.integer n)
  overflow : 0 ≤ exponent.toInt → ¬ Fits (base.toInt ^ exponent.toInt.toNat) →
    answer = .error (.integerOverflow "exponentiation")

end Integer

open Integer

variable {Code : Type} {base exponent : Integer}

theorem power_of_lt (h₀ : 0 ≤ exponent.toInt) (hlimit : exponent.toInt < exponentLimit) :
    (power base exponent : Except Error (Value Code)) =
      integerResult "exponentiation" (ofInt? (base.toInt ^ exponent.toInt.toNat)) := by
  rw [power, if_pos ⟨h₀, hlimit⟩, pow?_eq]

theorem power_of_limit_le (hlimit : (exponentLimit : Int) ≤ exponent.toInt) :
    (power base exponent : Except Error (Value Code)) =
      .error (.typeMismatch "a non-negative exponent" exponent.text) := by
  rw [power, if_neg fun h => Int.not_le.2 h.2 hlimit]

/-- Below the bound for exponents the answer is as is said. -/
theorem powerAnswered_of_lt (hlimit : exponent.toInt < exponentLimit) :
    PowerAnswered base exponent (power base exponent : Except Error (Value Code)) where
  negative hneg := by rw [power, if_neg fun h => Int.not_le.2 hneg h.1]
  exact h₀ n hn := by rw [power_of_lt h₀ hlimit, ofInt?_eq_some_iff.2 hn]; rfl
  overflow h₀ hfits := by rw [power_of_lt h₀ hlimit, ofInt?_eq_none_iff.2 hfits]; rfl

/-- From the bound for exponents on, every answer is a mismatch, which is not what is said. -/
theorem not_powerAnswered (hlimit : (exponentLimit : Int) ≤ exponent.toInt) :
    ¬ PowerAnswered base exponent (power base exponent : Except Error (Value Code)) := by
  intro h
  have h₀ : 0 ≤ exponent.toInt := Int.le_trans (Int.natCast_nonneg _) hlimit
  by_cases hfits : Fits (base.toInt ^ exponent.toInt.toNat)
  · have hexact := h.exact h₀ _ (Int64.toInt_ofInt_of_le hfits.1 hfits.2)
    rw [power_of_limit_le hlimit] at hexact
    cases hexact
  · have hoverflow := h.overflow h₀ hfits
    rw [power_of_limit_le hlimit] at hoverflow
    cases hoverflow

/-- **Exponentiation is exact.** The power operator refuses negative exponents, and answers the
exact power of any two integers, or that it is out of range, as long as the exponent is below the
bound for exponents. From the bound on it answers like for a negative exponent, also where the power
is in range. -/
theorem BinaryOp.pow_exact_iff (base exponent : Integer) :
    (PowerAnswered base exponent (BinaryOp.pow.apply (.integer base) (.integer exponent) :
        Except Error (Value Code)) ↔ exponent.toInt < exponentLimit) ∧
      (exponentLimit ≤ exponent.toInt →
        (BinaryOp.pow.apply (.integer base) (.integer exponent) : Except Error (Value Code)) =
          .error (.typeMismatch "a non-negative exponent" exponent.text)) := by
  have happly : (BinaryOp.pow.apply (.integer base) (.integer exponent) :
      Except Error (Value Code)) = power base exponent := rfl
  rw [happly]
  refine ⟨⟨fun h => ?_, powerAnswered_of_lt⟩, power_of_limit_le⟩
  exact Int.not_le.1 fun hlimit => not_powerAnswered hlimit h

/-- The powers of 1 are in range, but the operator does not answer them from the bound on. -/
theorem BinaryOp.pow_refused :
    BinaryOp.pow.apply (.integer 1) (.integer 4294967296) =
        (.error (.typeMismatch "a non-negative exponent" "4294967296") : Except Error Value) ∧
      ((1 : Integer).toInt ^ (4294967296 : Integer).toInt.toNat = (1 : Integer).toInt) ∧
      ¬ PowerAnswered 1 4294967296
        (BinaryOp.pow.apply (.integer 1) (.integer 4294967296) : Except Error Value) := by
  refine ⟨by decide, one_pow _, ?_⟩
  exact not_powerAnswered (by decide)

end EagerLambda

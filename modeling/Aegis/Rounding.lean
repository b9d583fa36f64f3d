import Aegis.Scalar
import Mathlib.Algebra.Order.Field.Basic
import Mathlib.Tactic.Linarith

/-!
# Doubles with rounded results

Conversions and quotients that round the exact result, in order and keeping zero
and one. Rounding may be none at all, so what holds here holds of exact
arithmetic as well.
-/

namespace Aegis

structure RoundedArithmetic (F K : Type) [F64 F] [Field K] [LinearOrder K]
    [IsStrictOrderedRing K] where
  val : F → K
  round : K → K
  mono : Monotone round
  round_zero : round 0 = 0
  round_one : round 1 = 1
  ofNat : ∀ n : ℕ, val (F64.ofNat n) = round n
  div : ∀ x {y : F}, val y ≠ 0 → val (x / y) = round (val x / val y)

/-- Counts up to `most` are exact, a quotient of them grows by a factor of at most `1 + u`, and
what is above one by no more than that still rounds to one. -/
structure RoundedArithmetic.Nearest {F K : Type} [F64 F] [Field K] [LinearOrder K]
    [IsStrictOrderedRing K] (R : RoundedArithmetic F K) (u : K) (most : ℕ) : Prop where
  nonneg : 0 ≤ u
  counts : ∀ n ≤ most, R.round n = n
  quotient : ∀ m n : ℕ, m ≤ n → n ≤ most → R.round (m / n : K) ≤ (m / n : K) * (1 + u)
  one : R.round (1 + u) = 1

namespace RoundedArithmetic
variable {F K : Type} [F64 F] [Field K] [LinearOrder K] [IsStrictOrderedRing K]
variable (R : RoundedArithmetic F K)
include R

theorem round_nonneg {a : K} (h : 0 ≤ a) : 0 ≤ R.round a := by
  rw [← R.round_zero]
  exact R.mono h

theorem round_le_one {a : K} (h : a ≤ 1) : R.round a ≤ 1 := by
  rw [← R.round_one]
  exact R.mono h

theorem ofNat_nonneg (n : ℕ) : 0 ≤ R.val (F64.ofNat n) := by
  rw [R.ofNat]
  exact R.round_nonneg (Nat.cast_nonneg n)

theorem ofNat_le {m n : ℕ} (h : m ≤ n) : R.val (F64.ofNat m) ≤ R.val (F64.ofNat n) := by
  rw [R.ofNat, R.ofNat]
  exact R.mono (Nat.cast_le.mpr h)

theorem ofNat_pos {n : ℕ} (h : 0 < n) : 0 < R.val (F64.ofNat n) := by
  have hone : R.val (F64.ofNat 1) = 1 := by rw [R.ofNat, Nat.cast_one, R.round_one]
  have hle : R.val (F64.ofNat 1) ≤ R.val (F64.ofNat n) := R.ofNat_le h
  rw [hone] at hle
  exact one_pos.trans_le hle

theorem fraction {m n : ℕ} (hmn : m ≤ n) (hn : 0 < n) :
    0 ≤ R.val (F64.ofNat m / F64.ofNat n) ∧ R.val (F64.ofNat m / F64.ofNat n) ≤ 1 := by
  have hpos := R.ofNat_pos hn
  rw [R.div _ hpos.ne']
  constructor
  · exact R.round_nonneg (div_nonneg (R.ofNat_nonneg m) hpos.le)
  · exact R.round_le_one (div_le_one_of_le₀ (R.ofNat_le hmn) hpos.le)

/-- Without rounding a quotient of counts is what it is in the field. -/
theorem quotient_of_exact (hexact : ∀ a, R.round a = a) (m : ℕ) {n : ℕ} (hn : 0 < n) :
    R.val (F64.ofNat m / F64.ofNat n) = (m : K) / n := by
  rw [R.div _ (R.ofNat_pos hn).ne', R.ofNat, R.ofNat, hexact, hexact, hexact]

/-- Two parts of a count that make up no more than it still do when both quotients are rounded and
their sum is. -/
theorem Nearest.sum_le_one {u : K} {most : ℕ} (h : R.Nearest u most) {m m' n : ℕ}
    (hle : m + m' ≤ n) (hpos : 0 < n) (hmost : n ≤ most) :
    R.round (R.val (F64.ofNat m / F64.ofNat n) + R.val (F64.ofNat m' / F64.ofNat n)) ≤ 1 := by
  have hn := (R.ofNat_pos hpos).ne'
  have hpart : ∀ k ≤ n, R.val (F64.ofNat k / F64.ofNat n) ≤ (k / n : K) * (1 + u) := by
    intro k hk
    rw [R.div _ hn, R.ofNat, R.ofNat, h.counts k (hk.trans hmost), h.counts n hmost]
    exact h.quotient k n hk hmost
  have hwhole : (m / n : K) + m' / n ≤ 1 := by
    rw [← add_div]
    exact div_le_one_of_le₀ (by exact_mod_cast hle) (Nat.cast_nonneg n)
  have hone : (0 : K) ≤ 1 + u := by linarith [h.nonneg]
  have hsum : R.val (F64.ofNat m / F64.ofNat n) + R.val (F64.ofNat m' / F64.ofNat n) ≤ 1 + u := by
    calc R.val (F64.ofNat m / F64.ofNat n) + R.val (F64.ofNat m' / F64.ofNat n)
      _ ≤ (m / n : K) * (1 + u) + (m' / n : K) * (1 + u) :=
        add_le_add (hpart m (by omega)) (hpart m' (by omega))
      _ = ((m / n : K) + m' / n) * (1 + u) := (add_mul _ _ _).symm
      _ ≤ 1 * (1 + u) := mul_le_mul_of_nonneg_right hwhole hone
      _ = 1 + u := one_mul _
  exact (R.mono hsum).trans h.one.le

end RoundedArithmetic

/-- The rationals round nothing. -/
def ratRounded : RoundedArithmetic ℚ ℚ where
  val := id
  round := id
  mono := monotone_id
  round_zero := rfl
  round_one := rfl
  ofNat _ := rfl
  div _ _ _ := rfl

theorem ratRounded_nearest (most : ℕ) : ratRounded.Nearest 0 most where
  nonneg := le_rfl
  counts _ _ := rfl
  quotient _ _ _ _ := by simp [ratRounded]
  one := by simp [ratRounded]

end Aegis

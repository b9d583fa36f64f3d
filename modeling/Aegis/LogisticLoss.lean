import Mathlib.Algebra.BigOperators.Expect
import Mathlib.Algebra.Order.BigOperators.Expect
import Mathlib.Algebra.Order.Chebyshev
import Mathlib.Analysis.Calculus.Deriv.MeanValue
import Mathlib.Analysis.SpecialFunctions.Log.Deriv
import Mathlib.Analysis.SpecialFunctions.Sigmoid

/-!
# Gradient descent on the logistic loss

The cross-entropy of the sigmoid of a logit is a smooth function of the logit of
curvature at most a quarter. So a step of gradient descent on its mean over
samples with a square penalty lowers it by a part of the squared gradient, if the
step is small next to the spread of the samples. Standardized columns are
centered, and have a small spread where they form few uncorrelated groups; values
filled in by a mean are uncorrelated with the indicator of what was missing.
-/

namespace Aegis.Logistic
open BigOperators

/-- The cross-entropy of a probability to a label. -/
noncomputable def crossEntropy (p : ℝ) (y : Bool) : ℝ := -Real.log (if y then p else 1 - p)

def label (y : Bool) : ℝ := if y then 1 else 0

noncomputable def loss (z : ℝ) (y : Bool) : ℝ := Real.log (1 + Real.exp z) - label y * z

theorem one_add_exp_pos (z : ℝ) : 0 < 1 + Real.exp z := by positivity

theorem crossEntropy_sigmoid (z : ℝ) (y : Bool) : crossEntropy (Real.sigmoid z) y = loss z y := by
  have hone : 1 - Real.sigmoid z = (1 + Real.exp z)⁻¹ := by
    rw [← Real.sigmoid_neg, Real.sigmoid_def, neg_neg]
  have hquotient : Real.sigmoid z = Real.exp z * (1 + Real.exp z)⁻¹ := by
    rw [← hone, ← Real.sigmoid_neg, ← Real.sigmoid_mul_rexp_neg, mul_left_comm, ← Real.exp_add,
      add_neg_cancel, Real.exp_zero, mul_one]
  cases y with
  | false =>
      rw [crossEntropy, loss, label, if_neg Bool.false_ne_true, if_neg Bool.false_ne_true, hone,
        Real.log_inv]
      ring
  | true =>
      rw [crossEntropy, loss, label, if_pos rfl, if_pos rfl, hquotient,
        Real.log_mul (Real.exp_ne_zero z) (inv_ne_zero (one_add_exp_pos z).ne'), Real.log_inv,
        Real.log_exp]
      ring

theorem loss_zero (y : Bool) : loss 0 y = Real.log 2 := by
  rw [loss, Real.exp_zero, mul_zero, sub_zero, one_add_one_eq_two]

theorem hasDerivAt_loss (z : ℝ) (y : Bool) :
    HasDerivAt (fun z => loss z y) (Real.sigmoid z - label y) z := by
  have hlog := ((Real.hasDerivAt_exp z).const_add 1).log (one_add_exp_pos z).ne'
  have hquotient : Real.exp z / (1 + Real.exp z) = Real.sigmoid z := by
    rw [Real.sigmoid_def, Real.exp_neg]
    have hexp := (Real.exp_pos z).ne'
    have hone := (one_add_exp_pos z).ne'
    field_simp
    ring
  have hline := (hasDerivAt_id z).const_mul (label y)
  rw [mul_one] at hline
  rw [hquotient] at hlog
  exact hlog.sub hline

theorem loss_not (z : ℝ) (y : Bool) : loss (-z) (!y) = loss z y := by
  have hsum : 1 + Real.exp (-z) = (1 + Real.exp z) * Real.exp (-z) := by
    rw [add_mul, one_mul, ← Real.exp_add, add_neg_cancel, Real.exp_zero, add_comm]
  rw [loss, loss, hsum, Real.log_mul (one_add_exp_pos z).ne' (Real.exp_ne_zero _), Real.log_exp]
  cases y with
  | false =>
      simp only [label, Bool.not_false, if_true, Bool.false_eq_true, if_false]
      ring
  | true =>
      simp only [label, Bool.not_true, Bool.false_eq_true, if_false, if_true]
      ring

theorem sigmoid_add_le {z h : ℝ} (hh : 0 ≤ h) :
    Real.sigmoid (z + h) ≤ Real.sigmoid z + h / 4 := by
  have hderiv : ∀ t, HasDerivAt (fun t => t / 4 - Real.sigmoid t)
      (1 / 4 - Real.sigmoid t * (1 - Real.sigmoid t)) t := fun t =>
    ((hasDerivAt_id t).div_const 4).sub (Real.hasDerivAt_sigmoid t)
  have hmono : Monotone fun t => t / 4 - Real.sigmoid t := by
    apply monotone_of_deriv_nonneg fun t => (hderiv t).differentiableAt
    intro t
    rw [(hderiv t).deriv]
    nlinarith [sq_nonneg (Real.sigmoid t - 1 / 2)]
  have hle := hmono (le_add_of_nonneg_right hh : z ≤ z + h)
  dsimp only at hle
  linarith

theorem loss_add_le_of_nonneg (z : ℝ) {h : ℝ} (hh : 0 ≤ h) (y : Bool) :
    loss (z + h) y ≤ loss z y + (Real.sigmoid z - label y) * h + h ^ 2 / 8 := by
  have hderiv : ∀ t, HasDerivAt
      (fun t => (Real.sigmoid z - label y) * t + t ^ 2 / 8 - loss (z + t) y)
      (Real.sigmoid z + t / 4 - Real.sigmoid (z + t)) t := by
    intro t
    have hline := (hasDerivAt_id t).const_mul (Real.sigmoid z - label y)
    have hsquare := (hasDerivAt_pow 2 t).div_const 8
    have hmoved := (hasDerivAt_loss (z + t) y).comp_const_add z t
    have hslope : (Real.sigmoid z - label y) * 1 + ((2 : ℕ) : ℝ) * t ^ (2 - 1) / 8 -
        (Real.sigmoid (z + t) - label y) = Real.sigmoid z + t / 4 - Real.sigmoid (z + t) := by
      norm_num
      ring
    rw [← hslope]
    exact (hline.add hsquare).sub hmoved
  have hmono : MonotoneOn
      (fun t => (Real.sigmoid z - label y) * t + t ^ 2 / 8 - loss (z + t) y) (Set.Ici 0) := by
    apply monotoneOn_of_deriv_nonneg (convex_Ici 0)
    · exact fun t _ => (hderiv t).continuousAt.continuousWithinAt
    · exact fun t _ => (hderiv t).differentiableAt.differentiableWithinAt
    · intro t ht
      rw [interior_Ici] at ht
      rw [(hderiv t).deriv]
      linarith [sigmoid_add_le (z := z) (le_of_lt ht)]
  have hle := hmono Set.self_mem_Ici hh hh
  simp only [mul_zero, add_zero, zero_pow two_ne_zero, zero_div, zero_sub] at hle
  linarith

/-- The loss is below its tangent parabola of curvature a quarter. -/
theorem loss_add_le (z h : ℝ) (y : Bool) :
    loss (z + h) y ≤ loss z y + (Real.sigmoid z - label y) * h + h ^ 2 / 8 := by
  rcases le_total 0 h with hh | hh
  · exact loss_add_le_of_nonneg z hh y
  · have hle := loss_add_le_of_nonneg (-z) (neg_nonneg.mpr hh) (!y)
    have hlabel : label (!y) = 1 - label y := by
      cases y <;> norm_num [label]
    rw [← neg_add, loss_not, loss_not, Real.sigmoid_neg, hlabel, neg_sq] at hle
    linarith

section Samples
variable {ι κ : Type*} [Fintype ι] [Fintype κ]

/-- The logit of a row of values. -/
def logit (weights : κ → ℝ) (bias : ℝ) (row : κ → ℝ) : ℝ := ∑ j, row j * weights j + bias

variable (rows : ι → κ → ℝ) (ys : ι → Bool) (l2 : ℝ)

noncomputable def penalty (weights : κ → ℝ) : ℝ := l2 / (2 : ℕ) * ∑ j, weights j ^ 2

/-- The mean cross-entropy with a square penalty on the weights. -/
noncomputable def objective (weights : κ → ℝ) (bias : ℝ) : ℝ :=
  𝔼 i, loss (logit weights bias (rows i)) (ys i) + penalty l2 weights

omit [Fintype ι] in
theorem penalty_eq (weights : κ → ℝ) : penalty l2 weights = l2 / 2 * ∑ j, weights j ^ 2 := by
  rw [penalty, Nat.cast_ofNat]

noncomputable def residual (weights : κ → ℝ) (bias : ℝ) (i : ι) : ℝ :=
  Real.sigmoid (logit weights bias (rows i)) - label (ys i)

noncomputable def gradWeights (weights : κ → ℝ) (bias : ℝ) (j : κ) : ℝ :=
  𝔼 i, residual rows ys weights bias i * rows i j + l2 * weights j

noncomputable def gradBias (weights : κ → ℝ) (bias : ℝ) : ℝ := 𝔼 i, residual rows ys weights bias i

/-- The squared length of the gradient. -/
noncomputable def steepness (weights : κ → ℝ) (bias : ℝ) : ℝ :=
  ∑ j, gradWeights rows ys l2 weights bias j ^ 2 + gradBias rows ys weights bias ^ 2

theorem logit_add (weights step : κ → ℝ) (bias bstep : ℝ) (row : κ → ℝ) :
    logit (weights + step) (bias + bstep) row =
      logit weights bias row + logit step bstep row := by
  simp only [logit, Pi.add_apply, mul_add, Finset.sum_add_distrib]
  ring

/-- The change of the loss to first order is the gradient. -/
theorem expect_residual (weights step : κ → ℝ) (bias bstep : ℝ) :
    𝔼 i, residual rows ys weights bias i * logit step bstep (rows i) +
        l2 * ∑ j, weights j * step j =
      ∑ j, gradWeights rows ys l2 weights bias j * step j +
        gradBias rows ys weights bias * bstep := by
  simp only [logit, gradWeights, gradBias, mul_add, Finset.mul_sum, add_mul,
    Finset.sum_add_distrib, Finset.expect_add_distrib, Finset.expect_sum_comm, Finset.expect_mul,
    mul_assoc]
  ring

/-- A step changes the objective by its first-order part and at most half the curvature. -/
theorem objective_add_le (weights step : κ → ℝ) (bias bstep : ℝ) :
    objective rows ys l2 (weights + step) (bias + bstep) ≤ objective rows ys l2 weights bias +
      (∑ j, gradWeights rows ys l2 weights bias j * step j +
        gradBias rows ys weights bias * bstep) +
      ((𝔼 i, logit step bstep (rows i) ^ 2) / 8 + l2 / 2 * ∑ j, step j ^ 2) := by
  have hloss : 𝔼 i, loss (logit (weights + step) (bias + bstep) (rows i)) (ys i) ≤
      𝔼 i, (loss (logit weights bias (rows i)) (ys i) +
        residual rows ys weights bias i * logit step bstep (rows i) +
        logit step bstep (rows i) ^ 2 / 8) := by
    apply Finset.expect_le_expect
    intro i _
    rw [logit_add]
    exact loss_add_le _ _ _
  have hpenalty : ∑ j, (weights + step) j ^ 2 =
      ∑ j, weights j ^ 2 + 2 * ∑ j, weights j * step j + ∑ j, step j ^ 2 := by
    rw [Finset.mul_sum, ← Finset.sum_add_distrib, ← Finset.sum_add_distrib]
    apply Finset.sum_congr rfl
    intro j _
    rw [Pi.add_apply]
    ring
  have hfirst := expect_residual rows ys l2 weights step bias bstep
  rw [Finset.expect_add_distrib, Finset.expect_add_distrib, ← Finset.expect_div] at hloss
  rw [objective, objective, penalty_eq, penalty_eq, hpenalty]
  linarith

theorem hasDerivAt_loss_line (z h : ℝ) (y : Bool) :
    HasDerivAt (fun t => loss (z + t * h) y) ((Real.sigmoid z - label y) * h) 0 := by
  have hline : HasDerivAt (fun t : ℝ => z + t * h) h 0 := (hasDerivAt_mul_const h).const_add z
  have houter := hasDerivAt_loss (z + 0 * h) y
  have hcomp := HasDerivAt.comp (0 : ℝ) houter hline
  rwa [zero_mul, add_zero] at hcomp

theorem hasDerivAt_square_line (w d : ℝ) :
    HasDerivAt (fun t => (w + t * d) ^ 2) (2 * (w * d)) 0 := by
  have hline : HasDerivAt (fun t : ℝ => w + t * d) d 0 := (hasDerivAt_mul_const d).const_add w
  have hpow := hline.fun_pow 2
  norm_num at hpow
  rwa [mul_assoc] at hpow

theorem hasDerivAt_objective (weights step : κ → ℝ) (bias bstep : ℝ) :
    HasDerivAt (fun t => objective rows ys l2 (fun j => weights j + t * step j) (bias + t * bstep))
      (∑ j, gradWeights rows ys l2 weights bias j * step j +
        gradBias rows ys weights bias * bstep) 0 := by
  have hlogit : ∀ t i, logit (fun j => weights j + t * step j) (bias + t * bstep) (rows i) =
      logit weights bias (rows i) + t * logit step bstep (rows i) := by
    intro t i
    have hsum : ∀ j, rows i j * (weights j + t * step j) =
        rows i j * weights j + t * (rows i j * step j) := fun j => by ring
    simp only [logit, hsum, Finset.sum_add_distrib, ← Finset.mul_sum]
    ring
  have hloss : HasDerivAt
      (fun t => 𝔼 i, loss (logit weights bias (rows i) + t * logit step bstep (rows i)) (ys i))
      (𝔼 i, residual rows ys weights bias i * logit step bstep (rows i)) 0 := by
    simp only [Fintype.expect_eq_sum_div_card]
    exact (HasDerivAt.fun_sum fun i _ => hasDerivAt_loss_line _ _ (ys i)).div_const _
  have hpenalty : HasDerivAt (fun t => l2 / 2 * ∑ j, (weights j + t * step j) ^ 2)
      (l2 / 2 * ∑ j, 2 * (weights j * step j)) 0 :=
    (HasDerivAt.fun_sum fun j _ => hasDerivAt_square_line (weights j) (step j)).const_mul _
  have hrate : l2 / 2 * ∑ j, 2 * (weights j * step j) = l2 * ∑ j, weights j * step j := by
    rw [← Finset.mul_sum]
    ring
  rw [hrate] at hpenalty
  rw [← expect_residual]
  simp only [objective, penalty_eq, hlogit]
  exact hloss.add hpenalty

theorem hasDerivAt_objective_weight [DecidableEq κ] (weights : κ → ℝ) (bias : ℝ) (j : κ) :
    HasDerivAt (fun a => objective rows ys l2 (Function.update weights j a) bias)
      (gradWeights rows ys l2 weights bias j) (weights j) := by
  have hline := hasDerivAt_objective rows ys l2 weights (Pi.single j 1) bias 0
  have hslope : ∑ k, gradWeights rows ys l2 weights bias k * (Pi.single j 1 : κ → ℝ) k +
      gradBias rows ys weights bias * 0 = gradWeights rows ys l2 weights bias j := by
    rw [Finset.sum_eq_single_of_mem j (Finset.mem_univ j) fun k _ hk => by
      rw [Pi.single_eq_of_ne hk, mul_zero], Pi.single_eq_same, mul_one, mul_zero, add_zero]
  have hupdate : ∀ a, (fun k => weights k + (a - weights j) * (Pi.single j 1 : κ → ℝ) k) =
      Function.update weights j a := by
    intro a
    funext k
    by_cases hk : k = j
    · subst hk
      rw [Pi.single_eq_same, Function.update_self]
      ring
    · rw [Pi.single_eq_of_ne hk, Function.update_of_ne hk, mul_zero, add_zero]
  rw [hslope, ← sub_self (weights j)] at hline
  have hmoved := hline.comp_sub_const (weights j) (weights j)
  simpa only [hupdate, sub_self, mul_zero, add_zero] using hmoved

theorem hasDerivAt_objective_bias (weights : κ → ℝ) (bias : ℝ) :
    HasDerivAt (fun a => objective rows ys l2 weights a) (gradBias rows ys weights bias) bias := by
  have hline := hasDerivAt_objective rows ys l2 weights 0 bias 1
  rw [← sub_self bias] at hline
  have hmoved := hline.comp_sub_const bias bias
  simp only [Pi.zero_apply, mul_zero, add_zero, mul_one, add_sub_cancel, Finset.sum_const_zero,
    zero_add] at hmoved
  exact hmoved

/-- The samples are centered, and their spread in every direction is bounded. -/
structure Spread (bound : ℝ) : Prop where
  centered : ∀ j, 𝔼 i, rows i j = 0
  bounded : ∀ d : κ → ℝ, 𝔼 i, (∑ j, rows i j * d j) ^ 2 ≤ bound * ∑ j, d j ^ 2

variable {rows}

theorem Spread.logit_le {bound : ℝ} (h : Spread rows bound) (hbound : 1 ≤ bound) (step : κ → ℝ)
    (bstep : ℝ) : 𝔼 i, logit step bstep (rows i) ^ 2 ≤ bound * (∑ j, step j ^ 2 + bstep ^ 2) := by
  have hmean : 𝔼 i, ∑ j, rows i j * step j = 0 := by
    rw [Finset.expect_sum_comm]
    apply Finset.sum_eq_zero
    intro j _
    rw [← Finset.expect_mul, h.centered, zero_mul]
  have hconst : (𝔼 _i : ι, bstep ^ 2) ≤ bstep ^ 2 := by
    rcases isEmpty_or_nonempty ι with hempty | hne
    · rw [Finset.univ_eq_empty, Finset.expect_empty]
      exact sq_nonneg bstep
    · exact (Fintype.expect_const _).le
  have hsquare : ∀ i, logit step bstep (rows i) ^ 2 = (∑ j, rows i j * step j) ^ 2 +
      (∑ j, rows i j * step j) * (2 * bstep) + bstep ^ 2 := by
    intro i
    rw [logit]
    ring
  simp only [hsquare, Finset.expect_add_distrib, ← Finset.expect_mul, hmean, zero_mul, add_zero]
  have hspread := h.bounded step
  have hbias : bstep ^ 2 ≤ bound * bstep ^ 2 := le_mul_of_one_le_left (sq_nonneg _) hbound
  linarith

/-- A step of gradient descent lowers the objective by a part of the squared gradient. -/
theorem Spread.objective_step_le {bound : ℝ} (h : Spread rows bound) (hbound : 1 ≤ bound)
    (weights : κ → ℝ) (bias lr : ℝ) (hl2 : 0 ≤ l2) :
    objective rows ys l2 (fun j => weights j - lr * gradWeights rows ys l2 weights bias j)
        (bias - lr * gradBias rows ys weights bias) +
      lr * (1 - lr * (bound / 4 + l2) / 2) * steepness rows ys l2 weights bias ≤
        objective rows ys l2 weights bias := by
  obtain ⟨g, hg⟩ : ∃ g, g = gradWeights rows ys l2 weights bias := ⟨_, rfl⟩
  obtain ⟨gb, hgb⟩ : ∃ gb, gb = gradBias rows ys weights bias := ⟨_, rfl⟩
  have hle := objective_add_le rows ys l2 weights (fun j => -(lr * g j)) bias (-(lr * gb))
  have hspread := h.logit_le hbound (fun j => -(lr * g j)) (-(lr * gb))
  have hfirst : ∑ j, g j * -(lr * g j) = -(lr * ∑ j, g j ^ 2) := by
    rw [Finset.mul_sum, ← Finset.sum_neg_distrib]
    exact Finset.sum_congr rfl fun j _ => by ring
  have hsquares : ∑ j, (-(lr * g j)) ^ 2 = lr ^ 2 * ∑ j, g j ^ 2 := by
    rw [Finset.mul_sum]
    exact Finset.sum_congr rfl fun j _ => by ring
  have hmoved : weights + (fun j => -(lr * g j)) = fun j => weights j - lr * g j := by
    funext j
    rw [Pi.add_apply, sub_eq_add_neg]
  rw [← hg, ← hgb, hfirst, hsquares, hmoved, ← sub_eq_add_neg] at hle
  rw [hsquares] at hspread
  rw [steepness, ← hg, ← hgb]
  have hbias : 0 ≤ l2 * (lr * gb) ^ 2 := mul_nonneg hl2 (sq_nonneg _)
  nlinarith

variable (rows)

/-- Weights and bias after some steps from zero. -/
noncomputable def descend (lr : ℝ) : ℕ → (κ → ℝ) × ℝ
  | 0 => (fun _ => 0, 0)
  | t + 1 =>
      let (weights, bias) := descend lr t
      (fun j => weights j - lr * gradWeights rows ys l2 weights bias j,
        bias - lr * gradBias rows ys weights bias)

theorem objective_zero_le : objective rows ys l2 (fun _ => 0) 0 ≤ Real.log 2 := by
  have hlogit : ∀ i, logit (fun _ => 0) 0 (rows i) = 0 := by
    intro i
    simp only [logit, mul_zero, Finset.sum_const_zero, add_zero]
  simp only [objective, penalty_eq, hlogit, loss_zero, zero_pow two_ne_zero,
    Finset.sum_const_zero, mul_zero, add_zero]
  rcases isEmpty_or_nonempty ι with hempty | hne
  · rw [Finset.univ_eq_empty, Finset.expect_empty]
    exact Real.log_nonneg one_le_two
  · exact (Fintype.expect_const _).le

variable {rows}

/-- The squared gradients of a descent add up to no more than the first loss allows. -/
theorem Spread.sum_steepness_le {bound : ℝ} (h : Spread rows bound) (hbound : 1 ≤ bound) (lr : ℝ)
    (hl2 : 0 ≤ l2) (t : ℕ) :
    objective rows ys l2 (descend rows ys l2 lr t).1 (descend rows ys l2 lr t).2 +
      lr * (1 - lr * (bound / 4 + l2) / 2) * ∑ s ∈ Finset.range t,
        steepness rows ys l2 (descend rows ys l2 lr s).1 (descend rows ys l2 lr s).2 ≤
      Real.log 2 := by
  induction t with
  | zero =>
      rw [Finset.range_zero, Finset.sum_empty, mul_zero, add_zero]
      exact objective_zero_le rows ys l2
  | succ t ih =>
      have hstep := h.objective_step_le ys l2 hbound (descend rows ys l2 lr t).1
        (descend rows ys l2 lr t).2 lr hl2
      rw [Finset.sum_range_succ, mul_add]
      rw [descend]
      linarith

end Samples
end Aegis.Logistic

namespace Aegis.Column
open BigOperators
variable {ι : Type*} [Fintype ι]

/-- The mean square of the distance from the mean. -/
noncomputable def variance (x : ι → ℝ) : ℝ := 𝔼 i, (x i - 𝔼 i, x i) ^ 2

/-- In units of the deviation from the mean, or zero where the deviation is tiny. -/
noncomputable def standardize (tiny : ℝ) (x : ι → ℝ) (i : ι) : ℝ :=
  if Real.sqrt (variance x) ≤ tiny then 0 else (x i - 𝔼 i, x i) / Real.sqrt (variance x)

theorem expect_centered (x : ι → ℝ) : 𝔼 i, (x i - 𝔼 i, x i) = 0 := by
  rcases isEmpty_or_nonempty ι with hempty | hne
  · rw [Finset.univ_eq_empty, Finset.expect_empty]
  · rw [Finset.expect_sub_distrib, Fintype.expect_const, sub_self]

theorem expect_standardize (tiny : ℝ) (x : ι → ℝ) : 𝔼 i, standardize tiny x i = 0 := by
  simp only [standardize]
  split_ifs
  · exact Finset.expect_const_zero _
  · rw [← Finset.expect_div, expect_centered, zero_div]

theorem variance_nonneg (x : ι → ℝ) : 0 ≤ variance x :=
  Finset.expect_nonneg fun _ _ => sq_nonneg _

theorem expect_standardize_sq {tiny : ℝ} (htiny : 0 ≤ tiny) (x : ι → ℝ) :
    𝔼 i, standardize tiny x i ^ 2 ≤ 1 := by
  simp only [standardize]
  split_ifs with hflat
  · rw [zero_pow two_ne_zero, Finset.expect_const_zero]
    exact zero_le_one
  · have hpos : 0 < variance x := by
      by_contra hnot
      rw [le_antisymm (not_lt.mp hnot) (variance_nonneg x), Real.sqrt_zero] at hflat
      exact hflat htiny
    simp only [div_pow, Real.sq_sqrt hpos.le]
    rw [← Finset.expect_div]
    exact (div_self hpos.ne').le

theorem expect_standardize_mul (tiny : ℝ) {x y : ι → ℝ}
    (h : 𝔼 i, (x i - 𝔼 i, x i) * (y i - 𝔼 i, y i) = 0) :
    𝔼 i, standardize tiny x i * standardize tiny y i = 0 := by
  simp only [standardize]
  split_ifs
  · simp only [mul_zero, Finset.expect_const_zero]
  · simp only [zero_mul, Finset.expect_const_zero]
  · simp only [mul_zero, Finset.expect_const_zero]
  · simp only [div_mul_div_comm]
    rw [← Finset.expect_div, h, zero_div]

section Imputed
variable (known : ι → Bool) (x : ι → ℝ)

def fill (m : ℝ) (i : ι) : ℝ := if known i then x i else m

def missing (i : ι) : ℝ := if known i then 0 else 1

/-- The mean of the known values, or zero without any. -/
noncomputable def knownMean : ℝ :=
  if (Finset.univ.filter fun i => known i).card = 0 then 0 else
    (∑ i with known i, x i) / (Finset.univ.filter fun i => known i).card

theorem sum_fill_sub : ∑ i, (fill known x (knownMean known x) i - knownMean known x) = 0 := by
  have hfill : ∀ i, fill known x (knownMean known x) i - knownMean known x =
      if known i then x i - knownMean known x else 0 := by
    intro i
    rw [fill]
    split_ifs
    · rfl
    · exact sub_self _
  simp only [hfill]
  rw [← Finset.sum_filter, Finset.sum_sub_distrib, Finset.sum_const, nsmul_eq_mul, knownMean]
  split_ifs with hnone
  · rw [Finset.card_eq_zero.mp hnone, Finset.sum_empty, Finset.card_empty]
    norm_num
  · rw [mul_div_cancel₀ _ (Nat.cast_ne_zero.mpr hnone), sub_self]

theorem expect_fill [Nonempty ι] : 𝔼 i, fill known x (knownMean known x) i = knownMean known x := by
  have hzero := sum_fill_sub known x
  have hmean : 𝔼 i, (fill known x (knownMean known x) i - knownMean known x) = 0 := by
    rw [Fintype.expect_eq_sum_div_card, hzero, zero_div]
  rwa [Finset.expect_sub_distrib, Fintype.expect_const, sub_eq_zero] at hmean

/-- What is filled in says nothing of what was missing. -/
theorem fill_uncorrelated :
    𝔼 i, (fill known x (knownMean known x) i - 𝔼 i, fill known x (knownMean known x) i) *
      (missing known i - 𝔼 i, missing known i) = 0 := by
  rcases isEmpty_or_nonempty ι with hempty | hne
  · rw [Finset.univ_eq_empty, Finset.expect_empty]
  · have hproduct : ∀ i, (fill known x (knownMean known x) i - knownMean known x) *
        (missing known i - 𝔼 i, missing known i) =
        (fill known x (knownMean known x) i - knownMean known x) * -𝔼 i, missing known i := by
      intro i
      rw [fill, missing]
      split_ifs
      · rw [zero_sub]
      · rw [sub_self, zero_mul, zero_mul]
    rw [expect_fill]
    simp only [hproduct]
    rw [← Finset.expect_mul, Fintype.expect_eq_sum_div_card, sum_fill_sub, zero_div, zero_mul]

end Imputed

section Groups
variable {κ γ : Type*} [Fintype κ] [Fintype γ] [DecidableEq γ]
variable {rows : ι → κ → ℝ}

omit [Fintype κ] in
/-- Uncorrelated columns of unit spread have unit spread together. -/
theorem expect_sum_sq_le {s : Finset κ} (hsquare : ∀ j, 𝔼 i, rows i j ^ 2 ≤ 1)
    (hpairs : ∀ j ∈ s, ∀ k ∈ s, j ≠ k → 𝔼 i, rows i j * rows i k = 0) (d : κ → ℝ) :
    𝔼 i, (∑ j ∈ s, rows i j * d j) ^ 2 ≤ ∑ j ∈ s, d j ^ 2 := by
  have hdiagonal : ∀ j ∈ s, ∑ k ∈ s, 𝔼 i, rows i j * d j * (rows i k * d k) =
      (𝔼 i, rows i j ^ 2) * d j ^ 2 := by
    intro j hj
    rw [Finset.sum_eq_single_of_mem j hj]
    · rw [Finset.expect_mul]
      exact Finset.expect_congr rfl fun i _ => by ring
    · intro k hk hne
      have hterm : ∀ i, rows i j * d j * (rows i k * d k) = rows i j * rows i k * (d j * d k) :=
        fun i => by ring
      simp only [hterm]
      rw [← Finset.expect_mul, hpairs j hj k hk hne.symm, zero_mul]
  calc 𝔼 i, (∑ j ∈ s, rows i j * d j) ^ 2
    _ = ∑ j ∈ s, ∑ k ∈ s, 𝔼 i, rows i j * d j * (rows i k * d k) := by
        simp only [sq, Finset.sum_mul_sum, Finset.expect_sum_comm]
    _ = ∑ j ∈ s, (𝔼 i, rows i j ^ 2) * d j ^ 2 := Finset.sum_congr rfl hdiagonal
    _ ≤ ∑ j ∈ s, d j ^ 2 :=
        Finset.sum_le_sum fun j _ => mul_le_of_le_one_left (sq_nonneg _) (hsquare j)

/-- Groups of uncorrelated columns spread no more than there are groups. -/
theorem spread_of_groups (group : κ → γ) (hcentered : ∀ j, 𝔼 i, rows i j = 0)
    (hsquare : ∀ j, 𝔼 i, rows i j ^ 2 ≤ 1)
    (hpairs : ∀ j k, j ≠ k → group j = group k → 𝔼 i, rows i j * rows i k = 0) :
    Logistic.Spread rows (Fintype.card γ) where
  centered := hcentered
  bounded := by
    intro d
    have hgroups : ∀ i, (∑ j, rows i j * d j) ^ 2 ≤
        Fintype.card γ * ∑ c, (∑ j with group j = c, rows i j * d j) ^ 2 := by
      intro i
      rw [← Finset.sum_fiberwise Finset.univ group, ← Finset.card_univ]
      exact sq_sum_le_card_mul_sum_sq
    have hgroup : ∀ c, 𝔼 i, (∑ j with group j = c, rows i j * d j) ^ 2 ≤
        ∑ j with group j = c, d j ^ 2 := by
      intro c
      apply expect_sum_sq_le hsquare
      intro j hj k hk hne
      exact hpairs j k hne
        ((Finset.mem_filter.mp hj).2.trans (Finset.mem_filter.mp hk).2.symm)
    calc 𝔼 i, (∑ j, rows i j * d j) ^ 2
      _ ≤ 𝔼 i, Fintype.card γ * ∑ c, (∑ j with group j = c, rows i j * d j) ^ 2 :=
          Finset.expect_le_expect fun i _ => hgroups i
      _ = Fintype.card γ * ∑ c, 𝔼 i, (∑ j with group j = c, rows i j * d j) ^ 2 := by
          rw [← Finset.mul_expect, Finset.expect_sum_comm]
      _ ≤ Fintype.card γ * ∑ c, ∑ j with group j = c, d j ^ 2 :=
          mul_le_mul_of_nonneg_left (Finset.sum_le_sum fun c _ => hgroup c) (Nat.cast_nonneg _)
      _ = Fintype.card γ * ∑ j, d j ^ 2 := by rw [Finset.sum_fiberwise]

end Groups
end Aegis.Column

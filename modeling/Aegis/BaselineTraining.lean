import Aegis.Baseline
import Aegis.LogisticLoss
import Aegis.ModelEvidence
import Aegis.RealArithmetic

/-!
# Training the baseline

Over the reals, training is gradient descent on the penalised cross-entropy that
the fitted model has on its training set. An imputed column is uncorrelated with
its indicator, so the sixteen standardized columns form twelve uncorrelated
groups, and steps of the configured size always descend.
-/

namespace Aegis
open BigOperators
variable {F : Type} [F64 F]

namespace ExactStatistics
variable (E : ExactStatistics F ℝ)

/-- The number that a value is. -/
noncomputable def value (x : F) : ℝ := Function.invFun E.num x

def vec {n : ℕ} (x : Fin n → ℝ) : Vector F n := Vector.ofFn fun j => E.num (x j)

@[simp] theorem value_num (a : ℝ) : E.value (E.num a) = a :=
  Function.leftInverse_invFun E.num_injective a

theorem num_value {x : F} (h : JsonFloat.finite x = true) : E.num (E.value x) = x := by
  obtain ⟨a, rfl⟩ := E.number h
  rw [value_num]

@[simp] theorem get_vec {n : ℕ} (x : Fin n → ℝ) (j : Fin n) : (E.vec x).get j = E.num (x j) :=
  Vector.getElem_ofFn j.isLt

theorem eq_vec {n : ℕ} {x : Fin n → ℝ} {v : Vector F n} (h : ∀ j, v.get j = E.num (x j)) :
    v = E.vec x := by
  apply Vector.ext
  intro j hj
  exact (h ⟨j, hj⟩).trans (E.get_vec x ⟨j, hj⟩).symm

theorem zipWith_vec {n : ℕ} {f : F → F → F} {g : ℝ → ℝ → ℝ}
    (h : ∀ a b, f (E.num a) (E.num b) = E.num (g a b)) (x y : Fin n → ℝ) :
    Vector.zipWith f (E.vec x) (E.vec y) = E.vec fun j => g (x j) (y j) := by
  apply E.eq_vec
  intro j
  calc (Vector.zipWith f (E.vec x) (E.vec y)).get j
    _ = f ((E.vec x).get j) ((E.vec y).get j) := Vector.getElem_zipWith j.isLt
    _ = E.num (g (x j) (y j)) := by rw [get_vec, get_vec, h]

theorem vec_append {m n : ℕ} (x : Fin m → ℝ) (y : Fin n → ℝ) :
    E.vec x ++ E.vec y = E.vec (Fin.append x y) := by
  apply E.eq_vec
  intro j
  induction j using Fin.addCases with
  | left j =>
      rw [Fin.append_left, ← get_vec]
      exact Vector.getElem_append_left j.isLt
  | right j =>
      rw [Fin.append_right, ← get_vec]
      refine (Vector.getElem_append_right (Nat.add_lt_add_left j.isLt m)
        (Nat.le_add_right m j)).trans ?_
      simp only [Nat.add_sub_cancel_left]
      rfl

theorem sum_vec {n : ℕ} (x : Fin n → ℝ) : F64.sum (E.vec x).toList = E.num (∑ j, x j) := by
  have hlist : (E.vec x).toList = (List.ofFn x).map E.num := by
    rw [vec, Vector.toList_ofFn, List.map_ofFn]
    rfl
  rw [hlist, E.sum_num, List.sum_ofFn]

theorem replicate_vec (n : ℕ) : Vector.replicate n (F64.lit 0 : F) = E.vec fun _ => 0 := by
  apply E.eq_vec
  intro j
  rw [← E.zero]
  exact Vector.getElem_replicate j.isLt

theorem linear_vec (row weights : Fin designDim → ℝ) (bias : ℝ) :
    linear (E.vec row) (E.vec weights) (E.num bias) =
      E.num (Logistic.logit weights bias row) := by
  rw [linear, E.zipWith_vec E.mul, E.sum_vec, E.add, Logistic.logit]

section Design
variable (data : List (FeatureVector F × Bool))

def cell (j : Fin nFeatures) (i : Fin data.length) : F := (featureRow data[i].1).get j

def known (j : Fin nFeatures) (i : Fin data.length) : Bool := JsonFloat.finite (cell data j i)

noncomputable def cellValue (j : Fin nFeatures) (i : Fin data.length) : ℝ :=
  E.value (cell data j i)

noncomputable def cellMean (j : Fin nFeatures) : ℝ :=
  Column.knownMean (known data j) (E.cellValue data j)

/-- The filled columns and the indicators. -/
noncomputable def design (i : Fin data.length) : Fin designDim → ℝ :=
  Fin.append
    (fun j => Column.fill (known data j) (E.cellValue data j) (E.cellMean data j) i)
    fun k => Column.missing (known data (imputableIndices.get k)) i

noncomputable def tiny : ℝ := ((1 / 1000000000000 : ℚ) : ℝ)

/-- The standardized columns. -/
noncomputable def standardized (i : Fin data.length) (j : Fin designDim) : ℝ :=
  Column.standardize tiny (fun i => E.design data i j) i

def labels (i : Fin data.length) : Bool := data[i].2

omit [F64 F] in
theorem map_eq_ofFn {α β : Type} (l : List α) (f : α → β) :
    l.map f = List.ofFn fun i : Fin l.length => f l[i] := by
  have hofFn : (List.ofFn fun i : Fin l.length => l[i]) = l := List.ofFn_getElem
  exact (congrArg (List.map f) hofFn.symm).trans List.map_ofFn

theorem foldl_finite (rows : List (RawRow F)) (j : Fin nFeatures) (s : ℝ) (c : ℕ) :
    rows.foldl (fun (acc : F × ℕ) row =>
        if JsonFloat.finite (row.get j) then (acc.1 + row.get j, acc.2 + 1) else acc)
        (E.num s, c) =
      (E.num (s + (rows.map fun row =>
          if JsonFloat.finite (row.get j) then E.value (row.get j) else 0).sum),
        c + (rows.map fun row => if JsonFloat.finite (row.get j) then 1 else 0).sum) := by
  induction rows generalizing s c with
  | nil => simp
  | cons row rows ih =>
      rw [List.foldl_cons, List.map_cons, List.map_cons, List.sum_cons, List.sum_cons]
      cases hfinite : JsonFloat.finite (row.get j) with
      | false => simpa using ih s c
      | true =>
          obtain ⟨a, ha⟩ := E.number hfinite
          simp only [if_true, ha, E.add, value_num]
          rw [ih, add_assoc, add_assoc]

theorem columnImputationMeans_vec :
    columnImputationMeans (data.map fun sample => featureRow sample.1) =
      E.vec (E.cellMean data) := by
  apply E.eq_vec
  intro j
  refine (Vector.getElem_ofFn j.isLt).trans ?_
  have hsum : ((data.map fun sample => featureRow sample.1).map fun row =>
      if JsonFloat.finite (row.get j) then E.value (row.get j) else 0).sum =
      ∑ i with known data j i, E.cellValue data j i := by
    rw [List.map_map, map_eq_ofFn, List.sum_ofFn, Finset.sum_filter]
    rfl
  have hcount : ((data.map fun sample => featureRow sample.1).map fun row =>
      if JsonFloat.finite (row.get j) then 1 else 0).sum =
      (Finset.univ.filter fun i => known data j i).card := by
    rw [List.map_map, map_eq_ofFn, List.sum_ofFn, Finset.card_filter]
    rfl
  dsimp only
  rw [E.zero, E.foldl_finite, hsum, hcount, zero_add, zero_add, cellMean, Column.knownMean]
  by_cases hnone : (Finset.univ.filter fun i => known data j i).card = 0
  · rw [if_pos hnone, if_neg (by omega)]
  · rw [if_neg hnone, if_pos (Nat.pos_of_ne_zero hnone), E.ofNat,
      E.div _ (Nat.cast_ne_zero.mpr hnone)]

theorem imputeAndIndicate_vec (i : Fin data.length) :
    imputeAndIndicate (featureRow data[i].1) (E.vec (E.cellMean data)) =
      E.vec (E.design data i) := by
  rw [imputeAndIndicate, design, ← vec_append]
  congr 1
  · apply E.eq_vec
    intro j
    refine (Vector.getElem_zipWith j.isLt).trans ?_
    have hmean : (E.vec (E.cellMean data))[j.1] = E.num (E.cellMean data j) :=
      E.get_vec (E.cellMean data) j
    rw [hmean, Column.fill]
    cases hknown : known data j i with
    | false => exact if_neg (Bool.eq_false_iff.mp hknown)
    | true => exact (if_pos hknown).trans (E.num_value hknown).symm
  · apply E.eq_vec
    intro k
    refine (Vector.getElem_map _ k.isLt).trans ?_
    rw [Column.missing, E.zero, E.one]
    exact (apply_ite E.num _ 0 1).symm

theorem meanStd_ofFn (hsqrt : E.sqrt = Real.sqrt) {n : ℕ} (y : Fin n → ℝ) :
    meanStd (List.ofFn fun i => E.num (y i)) =
      (E.num (𝔼 i, y i), E.num (Real.sqrt (Column.variance y))) := by
  have hlist : (List.ofFn fun i => E.num (y i)) = (List.ofFn y).map E.num := List.map_ofFn.symm
  rcases Nat.eq_zero_or_pos n with rfl | hn
  · rw [meanStd, List.ofFn_zero, Column.variance, Finset.univ_eq_empty, Finset.expect_empty,
      Finset.expect_empty, Real.sqrt_zero, E.zero]
    rfl
  · have hne : List.ofFn y ≠ [] := by
      rw [ne_eq, List.ofFn_eq_nil_iff]
      exact hn.ne'
    have hlength : (0 : ℝ) < n := Nat.cast_pos.mpr hn
    have hmean : (List.ofFn y).sum / ((List.ofFn y).length : ℝ) = 𝔼 i, y i := by
      rw [List.sum_ofFn, List.length_ofFn, Fintype.expect_eq_sum_div_card, Fintype.card_fin]
    have hsquares : Sample.squares ((List.ofFn y).map fun a => a - 𝔼 i, y i) / (n : ℝ) =
        Column.variance y := by
      have hvariance : Column.variance y = (∑ i, (y i - 𝔼 i, y i) ^ 2) / (n : ℝ) := by
        rw [Column.variance, Fintype.expect_eq_sum_div_card fun i => (y i - 𝔼 i, y i) ^ 2,
          Fintype.card_fin]
      rw [hvariance, Sample.squares, List.map_map, List.map_ofFn, List.sum_ofFn]
      simp only [Function.comp_apply, sq]
    rw [meanStd, hlist, if_neg (by simpa using hne)]
    dsimp only
    rw [E.mean_num hne, hmean, E.deviations_num, List.length_map, List.length_ofFn, E.ofNat,
      E.div _ hlength.ne', hsquares, E.sqrt_num (Column.variance_nonneg y), hsqrt]

theorem fit_vec (hsqrt : E.sqrt = Real.sqrt) {n : ℕ} (rows : Fin n → Fin designDim → ℝ) :
    Standardizer.fit (List.ofFn fun i => E.vec (rows i)) =
      ⟨E.vec fun j => 𝔼 i, rows i j,
        E.vec fun j => Real.sqrt (Column.variance fun i => rows i j)⟩ := by
  have hcolumn : ∀ j, meanStd ((List.ofFn fun i => E.vec (rows i)).map fun row => row.get j) =
      (E.num (𝔼 i, rows i j), E.num (Real.sqrt (Column.variance fun i => rows i j))) := by
    intro j
    rw [List.map_ofFn, ← E.meanStd_ofFn hsqrt]
    congr 2
    funext i
    exact E.get_vec (rows i) j
  rw [Standardizer.fit, Standardizer.mk.injEq]
  constructor
  · apply E.eq_vec
    intro j
    refine (Vector.getElem_map _ j.isLt).trans ?_
    rw [Vector.getElem_ofFn, hcolumn]
  · apply E.eq_vec
    intro j
    refine (Vector.getElem_map _ j.isLt).trans ?_
    rw [Vector.getElem_ofFn, hcolumn]

theorem transform_vec (mean std row : Fin designDim → ℝ) :
    (Standardizer.mk (E.vec mean) (E.vec std)).transform (E.vec row) =
      E.vec fun j => if std j ≤ tiny then 0 else (row j - mean j) / std j := by
  apply E.eq_vec
  intro j
  refine (Vector.getElem_ofFn j.isLt).trans ?_
  dsimp only
  rw [get_vec, get_vec, get_vec, E.lit, ← tiny]
  by_cases hflat : std j ≤ tiny
  · rw [if_pos ((E.le _ _).mpr hflat), if_pos hflat, E.zero]
  · have hpos : 0 < std j := by
      refine lt_of_lt_of_le ?_ (not_le.mp hflat).le
      rw [tiny]
      norm_num
    rw [if_neg (fun h => hflat ((E.le _ _).mp h)), if_neg hflat, E.sub, E.div _ hpos.ne']

theorem design_left (j : Fin nFeatures) (i : Fin data.length) :
    E.design data i (Fin.castAdd 4 j) =
      Column.fill (known data j) (E.cellValue data j) (E.cellMean data j) i :=
  Fin.append_left _ _ j

theorem design_right (k : Fin 4) (i : Fin data.length) :
    E.design data i (Fin.natAdd nFeatures k) =
      Column.missing (known data (imputableIndices.get k)) i :=
  Fin.append_right _ _ k

theorem imputableIndices_injective : Function.Injective imputableIndices.get := by
  decide

/-- A filled column and its indicator are a group of uncorrelated columns. -/
theorem standardized_spread :
    Logistic.Spread (E.standardized data) (Fintype.card (Fin nFeatures)) := by
  have htiny : (0 : ℝ) ≤ tiny := by
    rw [tiny]
    norm_num
  apply Column.spread_of_groups (Fin.append id imputableIndices.get)
  · exact fun j => Column.expect_standardize tiny _
  · exact fun j => Column.expect_standardize_sq htiny _
  · intro j k hne hgroup
    apply Column.expect_standardize_mul
    induction j using Fin.addCases with
    | left j =>
        induction k using Fin.addCases with
        | left k =>
            rw [Fin.append_left, Fin.append_left] at hgroup
            exact absurd (congrArg (Fin.castAdd 4) hgroup) hne
        | right k =>
            rw [Fin.append_left, Fin.append_right] at hgroup
            simp only [E.design_left, E.design_right]
            rw [← hgroup]
            exact Column.fill_uncorrelated _ _
    | right j =>
        induction k using Fin.addCases with
        | left k =>
            rw [Fin.append_left, Fin.append_right] at hgroup
            simp only [E.design_left, E.design_right, mul_comm]
            rw [hgroup]
            exact Column.fill_uncorrelated _ _
        | right k =>
            rw [Fin.append_right, Fin.append_right] at hgroup
            exact absurd (congrArg (Fin.natAdd nFeatures) (imputableIndices_injective hgroup)) hne

end Design

section Training
theorem sigmoid_real (hexp : E.exp = Real.exp) (a : ℝ) :
    sigmoid (E.num a) = E.num (Real.sigmoid a) := by
  rw [E.sigmoid_num, ExactModel.logistic, hexp, Real.sigmoid_def, one_div]

theorem gradients_vec (hexp : E.exp = Real.exp) (samples : List ((Fin designDim → ℝ) × Bool))
    (weights : Fin designDim → ℝ) (bias : ℝ) :
    LogisticRegression.gradients
        (samples.map fun s => (E.vec s.1, E.num (Logistic.label s.2))) (E.vec weights)
        (E.num bias) =
      (E.vec fun j => (samples.map fun s => (Real.sigmoid (Logistic.logit weights bias s.1) -
          Logistic.label s.2) * s.1 j).sum,
        E.num (samples.map fun s =>
          Real.sigmoid (Logistic.logit weights bias s.1) - Logistic.label s.2).sum) := by
  have hfold : ∀ (samples : List ((Fin designDim → ℝ) × Bool)) (g : Fin designDim → ℝ) (gb : ℝ),
      (samples.map fun s => (E.vec s.1, E.num (Logistic.label s.2))).foldl (fun grad sample =>
        (Vector.zipWith (fun g x => g + (sigmoid (linear sample.1 (E.vec weights) (E.num bias)) -
          sample.2) * x) grad.1 sample.1,
          grad.2 + (sigmoid (linear sample.1 (E.vec weights) (E.num bias)) - sample.2)))
        (E.vec g, E.num gb) =
      (E.vec fun j => g j + (samples.map fun s =>
          (Real.sigmoid (Logistic.logit weights bias s.1) - Logistic.label s.2) * s.1 j).sum,
        E.num (gb + (samples.map fun s =>
          Real.sigmoid (Logistic.logit weights bias s.1) - Logistic.label s.2).sum)) := by
    intro samples
    induction samples with
    | nil => simp
    | cons s samples ih =>
        intro g gb
        have hstep := E.zipWith_vec (f := fun g x => g + (E.num (Real.sigmoid
          (Logistic.logit weights bias s.1) - Logistic.label s.2)) * x)
          (fun a b => by rw [E.mul, E.add]) g s.1
        rw [List.map_cons, List.foldl_cons]
        dsimp only
        rw [E.linear_vec, E.sigmoid_real hexp, E.sub, hstep, E.add, ih]
        simp only [List.map_cons, List.sum_cons, add_assoc]
  have hstart := hfold samples (fun _ => 0) 0
  simp only [zero_add] at hstart
  rw [LogisticRegression.gradients, E.replicate_vec, E.zero]
  exact hstart

theorem epoch_vec (hexp : E.exp = Real.exp) {n : ℕ} (hn : 0 < n) (rows : Fin n → Fin designDim → ℝ)
    (ys : Fin n → Bool) (epochs : ℕ) (lr l2 : ℝ) (weights : Fin designDim → ℝ) (bias : ℝ) :
    LogisticRegression.epoch ⟨epochs, E.num lr, E.num l2⟩
        (List.ofFn fun i => (E.vec (rows i), E.num (Logistic.label (ys i))))
        (E.vec weights, E.num bias) =
      (E.vec fun j => weights j - lr * Logistic.gradWeights rows ys l2 weights bias j,
        E.num (bias - lr * Logistic.gradBias rows ys weights bias)) := by
  have hlength : (n : ℝ) ≠ 0 := Nat.cast_ne_zero.mpr hn.ne'
  have hsamples : (List.ofFn fun i => (E.vec (rows i), E.num (Logistic.label (ys i)))) =
      (List.ofFn fun i => (rows i, ys i)).map
        fun s => (E.vec s.1, E.num (Logistic.label s.2)) := by
    rw [List.map_ofFn]
    rfl
  have hweights : ∀ j, Logistic.gradWeights rows ys l2 weights bias j =
      ((List.ofFn fun i => (rows i, ys i)).map fun s => (Real.sigmoid
        (Logistic.logit weights bias s.1) - Logistic.label s.2) * s.1 j).sum * (1 / n) +
        l2 * weights j := by
    intro j
    rw [List.map_ofFn, List.sum_ofFn, Logistic.gradWeights, Fintype.expect_eq_sum_div_card,
      Fintype.card_fin, mul_one_div]
    rfl
  have hbias : Logistic.gradBias rows ys weights bias =
      ((List.ofFn fun i => (rows i, ys i)).map fun s => Real.sigmoid
        (Logistic.logit weights bias s.1) - Logistic.label s.2).sum * (1 / n) := by
    rw [List.map_ofFn, List.sum_ofFn, Logistic.gradBias, Fintype.expect_eq_sum_div_card,
      Fintype.card_fin, mul_one_div]
    rfl
  rw [LogisticRegression.epoch]
  dsimp only
  rw [List.length_ofFn, hsamples, E.gradients_vec hexp, E.one, E.ofNat, E.div _ hlength]
  dsimp only
  rw [E.zipWith_vec (g := fun g w => g * (1 / n) + l2 * w)
      (fun a b => by rw [E.mul, E.mul, E.add]),
    E.zipWith_vec (g := fun w g => w - lr * g) (fun a b => by rw [E.mul, E.sub]), E.mul, E.mul,
    E.sub]
  simp only [hweights, hbias]

omit E in
theorem descend_isEmpty {ι κ : Type} [Fintype ι] [IsEmpty ι] [Fintype κ] (rows : ι → κ → ℝ)
    (ys : ι → Bool) (l2 lr : ℝ) (t : ℕ) :
    Logistic.descend rows ys l2 lr t = (fun _ => 0, 0) := by
  induction t with
  | zero => rfl
  | succ t ih =>
      rw [Logistic.descend, ih]
      simp only [Logistic.gradWeights, Logistic.gradBias, Finset.univ_eq_empty,
        Finset.expect_empty, mul_zero, add_zero, sub_zero]

/-- The scaling and the imputation of a training set, with given weights. -/
def fitted (data : List (FeatureVector F × Bool)) (weights : Fin designDim → ℝ) (bias : ℝ) :
    LogisticRegression F :=
  let imputeMeans := columnImputationMeans (data.map fun sample => featureRow sample.1)
  { weights := E.vec weights
    bias := E.num bias
    scaler := Standardizer.fit (data.map fun sample =>
      imputeAndIndicate (featureRow sample.1) imputeMeans)
    imputeMeans := imputeMeans }

theorem designRows_vec (data : List (FeatureVector F × Bool)) :
    (data.map fun sample => imputeAndIndicate (featureRow sample.1)
        (columnImputationMeans (data.map fun sample => featureRow sample.1))) =
      List.ofFn fun i => E.vec (E.design data i) := by
  rw [E.columnImputationMeans_vec, map_eq_ofFn]
  exact congrArg List.ofFn (funext fun i => E.imputeAndIndicate_vec data i)

theorem designRow_vec (hsqrt : E.sqrt = Real.sqrt) (data : List (FeatureVector F × Bool))
    (weights : Fin designDim → ℝ) (bias : ℝ) (i : Fin data.length) :
    (E.fitted data weights bias).designRow data[i].1 = E.vec (E.standardized data i) := by
  rw [LogisticRegression.designRow, fitted]
  dsimp only
  rw [E.designRows_vec, E.columnImputationMeans_vec, E.imputeAndIndicate_vec, E.fit_vec hsqrt,
    E.transform_vec]
  rfl

theorem train_eq (hexp : E.exp = Real.exp) (hsqrt : E.sqrt = Real.sqrt)
    (data : List (FeatureVector F × Bool)) (epochs : ℕ) (lr l2 : ℝ) :
    LogisticRegression.train data ⟨epochs, E.num lr, E.num l2⟩ = E.fitted data
      (Logistic.descend (E.standardized data) (labels data) l2 lr epochs).1
      (Logistic.descend (E.standardized data) (labels data) l2 lr epochs).2 := by
  obtain ⟨scaler, hscaler⟩ : ∃ scaler, scaler = Standardizer.fit (data.map fun sample =>
      imputeAndIndicate (featureRow sample.1)
        (columnImputationMeans (data.map fun sample => featureRow sample.1))) := ⟨_, rfl⟩
  have hsamples : ((data.map fun sample => imputeAndIndicate (featureRow sample.1)
        (columnImputationMeans (data.map fun sample => featureRow sample.1))).map
          scaler.transform).zip
        (data.map fun sample => if sample.2 then F64.lit 1 else F64.lit 0) =
      List.ofFn fun i =>
        (E.vec (E.standardized data i), E.num (Logistic.label (labels data i))) := by
    rw [List.map_map, List.zip_map', map_eq_ofFn]
    refine congrArg List.ofFn (funext fun i => ?_)
    have hrow := E.designRow_vec hsqrt data (fun _ => 0) 0 i
    rw [LogisticRegression.designRow, fitted] at hrow
    rw [Prod.mk.injEq]
    constructor
    · rw [← hrow, hscaler]
      rfl
    · rw [E.zero, E.one, Logistic.label, labels]
      exact (apply_ite E.num _ 1 0).symm
  have hiterate : ∀ t, 0 < data.length →
      (LogisticRegression.epoch ⟨epochs, E.num lr, E.num l2⟩ (List.ofFn fun i =>
        (E.vec (E.standardized data i), E.num (Logistic.label (labels data i)))))^[t]
        (Vector.replicate designDim (F64.lit 0), F64.lit 0) =
      (E.vec (Logistic.descend (E.standardized data) (labels data) l2 lr t).1,
        E.num (Logistic.descend (E.standardized data) (labels data) l2 lr t).2) := by
    intro t hdata
    induction t with
    | zero => rw [Function.iterate_zero, id_eq, E.replicate_vec, E.zero, Logistic.descend]
    | succ t ih =>
        rw [Function.iterate_succ_apply', ih, E.epoch_vec hexp hdata, Logistic.descend]
  have hdesign : ((data.map fun sample => featureRow sample.1).map fun raw =>
      imputeAndIndicate raw (columnImputationMeans (data.map fun sample => featureRow sample.1))) =
      data.map fun sample => imputeAndIndicate (featureRow sample.1)
        (columnImputationMeans (data.map fun sample => featureRow sample.1)) := by
    rw [List.map_map]
    rfl
  rw [LogisticRegression.train]
  dsimp only
  rw [hdesign, ← hscaler, hsamples, List.length_map, List.length_map]
  by_cases hdata : 0 < data.length
  · rw [if_pos hdata, hiterate epochs hdata, fitted, ← hscaler]
  · have hempty : IsEmpty (Fin data.length) := by
      rw [Nat.eq_zero_of_not_pos hdata]
      infer_instance
    rw [if_neg hdata, descend_isEmpty, fitted, ← hscaler, E.replicate_vec, E.zero]

end Training

/-- The penalised mean cross-entropy of the predictions of a model. -/
noncomputable def penalized (data : List (FeatureVector F × Bool)) (l2 : ℝ)
    (m : LogisticRegression F) : ℝ :=
  (data.map fun sample =>
    Logistic.crossEntropy (E.value (m.predictProba sample.1)) sample.2).sum / data.length +
    Logistic.penalty l2 fun j => E.value (m.weights.get j)

/-- The partial derivatives of the penalised cross-entropy by the weights and the bias. -/
structure IsGradient (data : List (FeatureVector F × Bool)) (l2 : ℝ) (m : LogisticRegression F)
    (g : Fin designDim → ℝ) (gb : ℝ) : Prop where
  weights : ∀ j : Fin designDim, HasDerivAt
    (fun a => E.penalized data l2 { m with weights := m.weights.set j (E.num a) }) (g j)
    (E.value (m.weights.get j))
  bias : HasDerivAt (fun a => E.penalized data l2 { m with bias := E.num a }) gb (E.value m.bias)

theorem penalized_fitted (hexp : E.exp = Real.exp) (hsqrt : E.sqrt = Real.sqrt)
    (data : List (FeatureVector F × Bool)) (l2 : ℝ) (weights : Fin designDim → ℝ) (bias : ℝ) :
    E.penalized data l2 (E.fitted data weights bias) =
      Logistic.objective (E.standardized data) (labels data) l2 weights bias := by
  have hprediction : ∀ i : Fin data.length,
      Logistic.crossEntropy (E.value ((E.fitted data weights bias).predictProba data[i].1))
        data[i].2 =
      Logistic.loss (Logistic.logit weights bias (E.standardized data i)) (labels data i) := by
    intro i
    have hlinear : linear (E.vec (E.standardized data i)) (E.fitted data weights bias).weights
        (E.fitted data weights bias).bias =
        E.num (Logistic.logit weights bias (E.standardized data i)) := E.linear_vec _ weights bias
    rw [LogisticRegression.predictProba, E.designRow_vec hsqrt, hlinear, E.sigmoid_real hexp,
      value_num, Logistic.crossEntropy_sigmoid]
    rfl
  have hpenalty : ∀ j, E.value ((E.fitted data weights bias).weights.get j) = weights j := by
    intro j
    rw [fitted, get_vec, value_num]
  rw [penalized, Logistic.objective, map_eq_ofFn, List.sum_ofFn, Fintype.expect_eq_sum_div_card,
    Fintype.card_fin]
  simp only [hprediction, hpenalty]

theorem set_vec {n : ℕ} (x : Fin n → ℝ) (j : Fin n) (a : ℝ) :
    (E.vec x).set j (E.num a) = E.vec (Function.update x j a) := by
  apply E.eq_vec
  intro k
  refine (Vector.getElem_set j.isLt k.isLt).trans ?_
  by_cases hk : k = j
  · subst hk
    rw [if_pos rfl, Function.update_self]
  · rw [if_neg fun h => hk (Fin.ext h.symm), Function.update_of_ne hk]
    exact E.get_vec x k

theorem fitted_gradient (hexp : E.exp = Real.exp) (hsqrt : E.sqrt = Real.sqrt)
    (data : List (FeatureVector F × Bool)) (l2 : ℝ) (weights : Fin designDim → ℝ) (bias : ℝ) :
    E.IsGradient data l2 (E.fitted data weights bias)
      (Logistic.gradWeights (E.standardized data) (labels data) l2 weights bias)
      (Logistic.gradBias (E.standardized data) (labels data) weights bias) := by
  constructor
  · intro j
    have hset : ∀ a, { E.fitted data weights bias with
        weights := (E.fitted data weights bias).weights.set j (E.num a) } =
        E.fitted data (Function.update weights j a) bias := by
      intro a
      rw [fitted, fitted]
      dsimp only
      rw [E.set_vec]
    have hvalue : E.value ((E.fitted data weights bias).weights.get j) = weights j := by
      rw [fitted, get_vec, value_num]
    simp only [hset, hvalue, E.penalized_fitted hexp hsqrt]
    exact Logistic.hasDerivAt_objective_weight _ _ l2 weights bias j
  · have hset : ∀ a, { E.fitted data weights bias with bias := E.num a } =
        E.fitted data weights a := fun _ => rfl
    have hvalue : E.value (E.fitted data weights bias).bias = bias := E.value_num bias
    simp only [hset, hvalue, E.penalized_fitted hexp hsqrt]
    exact Logistic.hasDerivAt_objective_bias _ _ l2 weights bias

theorem exists_vec {n : ℕ} {v : Vector F n} (h : ∀ j, ∃ a, v.get j = E.num a) :
    ∃ x, v = E.vec x := by
  choose x hx using h
  exact ⟨x, E.eq_vec hx⟩

theorem exists_imputed (f : FeatureVector F) (means : Fin nFeatures → ℝ) :
    ∃ x, imputeAndIndicate (featureRow f) (E.vec means) = E.vec x := by
  have hfilled : ∀ j, ∃ a, (Vector.zipWith (fun x m => if JsonFloat.finite x then x else m)
      (featureRow f) (E.vec means)).get j = E.num a := by
    intro j
    cases hfinite : JsonFloat.finite ((featureRow f).get j) with
    | false =>
        refine ⟨means j, (Vector.getElem_zipWith j.isLt).trans ?_⟩
        exact (if_neg (Bool.eq_false_iff.mp hfinite)).trans (E.get_vec means j)
    | true =>
        obtain ⟨a, ha⟩ := E.number hfinite
        refine ⟨a, (Vector.getElem_zipWith j.isLt).trans ?_⟩
        exact (if_pos hfinite).trans ha
  have hindicated : ∀ k, ∃ a, (imputableIndices.map fun idx =>
      if JsonFloat.finite ((featureRow f).get idx) then (F64.lit 0 : F) else F64.lit 1).get k =
      E.num a := by
    intro k
    refine ⟨if JsonFloat.finite ((featureRow f).get (imputableIndices.get k)) then 0 else 1,
      (Vector.getElem_map _ k.isLt).trans ?_⟩
    rw [apply_ite E.num, ← E.zero, ← E.one]
    rfl
  obtain ⟨x, hx⟩ := E.exists_vec hfilled
  obtain ⟨y, hy⟩ := E.exists_vec hindicated
  exact ⟨Fin.append x y, by rw [imputeAndIndicate, hx, hy, E.vec_append]⟩

/-- Whatever is missing, a prediction is a probability between zero and one. -/
theorem predictProba_number (hexp : E.exp = Real.exp) (hsqrt : E.sqrt = Real.sqrt)
    (data : List (FeatureVector F × Bool)) (weights : Fin designDim → ℝ) (bias : ℝ)
    (f : FeatureVector F) :
    ∃ p, (E.fitted data weights bias).predictProba f = E.num p ∧ 0 < p ∧ p < 1 := by
  obtain ⟨x, hx⟩ := E.exists_imputed f (E.cellMean data)
  obtain ⟨z, hz⟩ : ∃ z, (E.fitted data weights bias).designRow f = E.vec z := by
    rw [LogisticRegression.designRow, fitted]
    dsimp only
    rw [E.designRows_vec, E.columnImputationMeans_vec, hx, E.fit_vec hsqrt, E.transform_vec]
    exact ⟨_, rfl⟩
  refine ⟨Real.sigmoid (Logistic.logit weights bias z), ?_, Real.sigmoid_pos _,
    Real.sigmoid_lt_one _⟩
  rw [LogisticRegression.predictProba, hz]
  exact (congrArg sigmoid (E.linear_vec z weights bias)).trans (E.sigmoid_real hexp _)

/-- Over the reals every epoch of training steps along the gradient of the penalised
cross-entropy that the model has on its training set, and lowers it by a fixed part of the
squared gradient; so over all epochs these parts add up to no more than the logarithm of two.
What is predicted is a probability, also for a vector with missing values. -/
theorem training_descends (hexp : E.exp = Real.exp) (hsqrt : E.sqrt = Real.sqrt)
    (data : List (FeatureVector F × Bool)) (lr : ℝ) {l2 : ℝ} (hl2 : 0 ≤ l2) :
    ∃ (g : ℕ → Fin designDim → ℝ) (gb : ℕ → ℝ), ∀ epochs,
      let m := LogisticRegression.train data ⟨epochs, E.num lr, E.num l2⟩
      let next := LogisticRegression.train data ⟨epochs + 1, E.num lr, E.num l2⟩
      E.IsGradient data l2 m (g epochs) (gb epochs) ∧
      next.weights = E.vec (fun j => E.value (m.weights.get j) - lr * g epochs j) ∧
      next.bias = E.num (E.value m.bias - lr * gb epochs) ∧
      E.penalized data l2 next + lr * (1 - lr * (3 + l2) / 2) *
        (∑ j, g epochs j ^ 2 + gb epochs ^ 2) ≤ E.penalized data l2 m ∧
      E.penalized data l2 m + lr * (1 - lr * (3 + l2) / 2) *
        ∑ t ∈ Finset.range epochs, (∑ j, g t j ^ 2 + gb t ^ 2) ≤ Real.log 2 ∧
      ∀ f, ∃ p, m.predictProba f = E.num p ∧ 0 < p ∧ p < 1 := by
  have hgroups : (Fintype.card (Fin nFeatures) : ℝ) / 4 + l2 = 3 + l2 := by
    rw [Fintype.card_fin]
    norm_num
  have hbound : (1 : ℝ) ≤ Fintype.card (Fin nFeatures) := by
    rw [Fintype.card_fin]
    norm_num
  obtain ⟨θ, hθ⟩ : ∃ θ, θ = Logistic.descend (E.standardized data) (labels data) l2 lr := ⟨_, rfl⟩
  refine ⟨fun t => Logistic.gradWeights (E.standardized data) (labels data) l2 (θ t).1 (θ t).2,
    fun t => Logistic.gradBias (E.standardized data) (labels data) (θ t).1 (θ t).2, ?_⟩
  intro epochs
  have hspread := E.standardized_spread data
  have hstep := hspread.objective_step_le (labels data) l2 hbound (θ epochs).1 (θ epochs).2 lr hl2
  have hsum := hspread.sum_steepness_le (labels data) l2 hbound lr hl2 epochs
  have hnext : θ (epochs + 1) = (fun j => (θ epochs).1 j - lr * Logistic.gradWeights
        (E.standardized data) (labels data) l2 (θ epochs).1 (θ epochs).2 j,
      (θ epochs).2 - lr * Logistic.gradBias (E.standardized data) (labels data) (θ epochs).1
        (θ epochs).2) := by
    rw [hθ, Logistic.descend]
  rw [← hθ] at hsum
  rw [hgroups] at hstep hsum
  rw [E.train_eq hexp hsqrt, E.train_eq hexp hsqrt, ← hθ, hnext]
  have hweights : ∀ j, E.value ((E.fitted data (θ epochs).1 (θ epochs).2).weights.get j) =
      (θ epochs).1 j := by
    intro j
    rw [fitted, get_vec, value_num]
  refine ⟨E.fitted_gradient hexp hsqrt data l2 _ _, ?_, ?_, ?_, ?_,
    E.predictProba_number hexp hsqrt data _ _⟩
  · simp only [hweights]
    rfl
  · rw [fitted, fitted, value_num]
  · rw [E.penalized_fitted hexp hsqrt, E.penalized_fitted hexp hsqrt]
    exact hstep
  · rw [E.penalized_fitted hexp hsqrt]
    exact hsum

end ExactStatistics

/-- A quick session without its temporal features, and a slow one with them. -/
noncomputable def twoSessions : List (FeatureVector RealOrMissing × Bool) :=
  [(⟨F64.lit 0, F64.lit 1, F64.lit 40, F64.lit 0, F64.lit 5, F64.lit 1, F64.nan, F64.nan, F64.nan,
      F64.lit 1, F64.lit 1, F64.nan⟩, true),
    (⟨F64.lit 1, F64.lit 0, F64.lit 4000, F64.lit (1 / 5), F64.lit 3, F64.lit 0, F64.lit (1 / 2),
      F64.lit 4, F64.lit (-1 / 2), F64.lit 0, F64.lit 0, F64.lit 1⟩, false)]

theorem training_descends_default :
    RealOrMissing.statistics.penalized twoSessions ((1 / 1000 : ℚ) : ℝ)
        (LogisticRegression.train twoSessions { TrainConfig.default with epochs := 601 }) ≤
      RealOrMissing.statistics.penalized twoSessions ((1 / 1000 : ℚ) : ℝ)
        (LogisticRegression.train twoSessions TrainConfig.default) := by
  have hl2 : (0 : ℝ) ≤ ((1 / 1000 : ℚ) : ℝ) := by norm_num
  obtain ⟨g, gb, hrun⟩ := RealOrMissing.statistics.training_descends rfl rfl twoSessions
    ((1 / 2 : ℚ) : ℝ) hl2
  obtain ⟨-, -, -, hstep, -, -⟩ := hrun 600
  have hpart : 0 ≤ ((1 / 2 : ℚ) : ℝ) * (1 - ((1 / 2 : ℚ) : ℝ) * (3 + ((1 / 1000 : ℚ) : ℝ)) / 2) *
      (∑ j, g 600 j ^ 2 + gb 600 ^ 2) := by
    apply mul_nonneg
    · norm_num
    · exact add_nonneg (Finset.sum_nonneg fun j _ => sq_nonneg _) (sq_nonneg _)
  exact (le_add_of_nonneg_right hpart).trans hstep

end Aegis

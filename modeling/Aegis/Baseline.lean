import Aegis.DetectionModel

/-!
# The learned baseline

`baseline.rs`: a logistic regression on the features, with missing values
replaced by the means of the training set and indicated, columns standardized,
and weights fit by full-batch gradient descent from zero.
-/

namespace Aegis
variable {F : Type}

abbrev nFeatures : ℕ := 12

/-- The features that can be missing below the robust gate. -/
def imputableIndices : Vector (Fin nFeatures) 4 := #v[6, 7, 8, 11]

abbrev designDim : ℕ := nFeatures + 4

abbrev RawRow (F : Type) : Type := Vector F nFeatures

abbrev DesignRow (F : Type) : Type := Vector F designDim

def featureRow (f : FeatureVector F) : RawRow F :=
  #v[f.keystrokeCv, f.pasteRatio, f.meanInterCommandMs, f.backspaceRatio, f.entropyMean,
    f.cadenceRegularity, f.gapAutocorr, f.thinkTailRatio, f.throughputDecay,
    f.reactionFloorHits, f.wholeLinePasteRatio, f.keystrokeBurstCv]

structure Standardizer (F : Type) where
  mean : DesignRow F
  std : DesignRow F

structure TrainConfig (F : Type) where
  epochs : ℕ
  lr : F
  l2 : F

structure LogisticRegression (F : Type) where
  weights : DesignRow F
  bias : F
  scaler : Standardizer F
  imputeMeans : RawRow F

variable [F64 F]

def TrainConfig.default : TrainConfig F where
  epochs := 600
  lr := F64.lit (1 / 2)
  l2 := F64.lit (1 / 1000)

/-- The means of the finite cells of each column. -/
def columnImputationMeans (rawRows : List (RawRow F)) : RawRow F :=
  Vector.ofFn fun j =>
    let total := rawRows.foldl (fun (acc : F × ℕ) row =>
      if JsonFloat.finite (row.get j) then (acc.1 + row.get j, acc.2 + 1) else acc) (F64.lit 0, 0)
    if 0 < total.2 then total.1 / F64.ofNat total.2 else F64.lit 0

def imputeAndIndicate (raw imputeMeans : RawRow F) : DesignRow F :=
  let imputed := Vector.zipWith (fun x m => if JsonFloat.finite x then x else m) raw imputeMeans
  let indicators : Vector F 4 := imputableIndices.map fun idx =>
    if JsonFloat.finite (raw.get idx) then F64.lit 0 else F64.lit 1
  imputed ++ indicators

def Standardizer.fit (rows : List (DesignRow F)) : Standardizer F :=
  let columns : Vector (F × F) designDim :=
    Vector.ofFn fun j => meanStd (rows.map fun row => row.get j)
  ⟨columns.map Prod.fst, columns.map Prod.snd⟩

def Standardizer.transform (scaler : Standardizer F) (row : DesignRow F) : DesignRow F :=
  Vector.ofFn fun j =>
    if F64.le (scaler.std.get j) (F64.lit (1 / 1000000000000)) then F64.lit 0
    else (row.get j - scaler.mean.get j) / scaler.std.get j

def linear (row weights : DesignRow F) (bias : F) : F :=
  F64.sum (Vector.zipWith (· * ·) row weights).toList + bias

namespace LogisticRegression

def designRow (m : LogisticRegression F) (f : FeatureVector F) : DesignRow F :=
  m.scaler.transform (imputeAndIndicate (featureRow f) m.imputeMeans)

def predictProba (m : LogisticRegression F) (f : FeatureVector F) : F :=
  sigmoid (linear (m.designRow f) m.weights m.bias)

/-- The residuals of all samples, summed up in order for each weight and for the bias. -/
def gradients (samples : List (DesignRow F × F)) (weights : DesignRow F) (bias : F) :
    DesignRow F × F :=
  samples.foldl (fun grad sample =>
    let resid := sigmoid (linear sample.1 weights bias) - sample.2
    (Vector.zipWith (fun g x => g + resid * x) grad.1 sample.1, grad.2 + resid))
    (Vector.replicate designDim (F64.lit 0), F64.lit 0)

def epoch (cfg : TrainConfig F) (samples : List (DesignRow F × F))
    (fitted : DesignRow F × F) : DesignRow F × F :=
  let invN := F64.lit 1 / F64.ofNat samples.length
  let grad := gradients samples fitted.1 fitted.2
  let gradW := Vector.zipWith (fun g w => g * invN + cfg.l2 * w) grad.1 fitted.1
  let gradB := grad.2 * invN
  (Vector.zipWith (fun w g => w - cfg.lr * g) fitted.1 gradW, fitted.2 - cfg.lr * gradB)

def train (data : List (FeatureVector F × Bool)) (cfg : TrainConfig F) : LogisticRegression F :=
  let rawRows := data.map fun sample => featureRow sample.1
  let labels : List F := data.map fun sample => if sample.2 then F64.lit 1 else F64.lit 0
  let imputeMeans := columnImputationMeans rawRows
  let designRows := rawRows.map fun raw => imputeAndIndicate raw imputeMeans
  let scaler := Standardizer.fit designRows
  let x := designRows.map scaler.transform
  let zero : DesignRow F × F := (Vector.replicate designDim (F64.lit 0), F64.lit 0)
  let fitted := if 0 < x.length then (epoch cfg (x.zip labels))^[cfg.epochs] zero else zero
  ⟨fitted.1, fitted.2, scaler, imputeMeans⟩

end LogisticRegression
end Aegis

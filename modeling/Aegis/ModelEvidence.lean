import Aegis.DetectionModel
import Aegis.ExactArithmetic
import Aegis.WeightedMean

/-!
# The evidence of the detection model

In exact arithmetic each term of the model reads a number in the unit interval
off its feature, rising or falling with it, and drops out exactly where the
feature is missing. The average is a weighted mean of what is left.
-/

namespace Aegis
variable {F K : Type} [F64 F] [Field K] [LinearOrder K] [IsStrictOrderedRing K]

namespace ExactModel
variable (E : ExactModel F K)

def logistic (a : K) : K := 1 / (1 + E.exp (-a))

theorem divisor_pos (a : K) : 0 < 1 + E.exp (-a) := by
  have hexp := E.exp_pos (-a)
  linarith

theorem logistic_pos (a : K) : 0 < E.logistic a := one_div_pos.mpr (E.divisor_pos a)

theorem logistic_lt_one (a : K) : E.logistic a < 1 := by
  rw [logistic, div_lt_one (E.divisor_pos a)]
  have hexp := E.exp_pos (-a)
  linarith

theorem logistic_mono : StrictMono E.logistic := by
  intro a b h
  have hexp := E.exp_strictMono (neg_lt_neg h)
  exact one_div_lt_one_div_of_lt (E.divisor_pos b) (by linarith)

theorem sigmoid_num (a : K) : sigmoid (E.num a) = E.num (E.logistic a) := by
  simp only [sigmoid, E.lit, E.neg, E.exp_num, E.add, Rat.cast_one]
  exact E.div 1 (E.divisor_pos a).ne'

include E in
theorem sigmoid_missing {x : F} (h : JsonFloat.finite x = false) :
    JsonFloat.finite (sigmoid x) = false :=
  (E.op_missing (Or.inr (E.op_missing (Or.inr (E.exp_missing (E.neg_missing h)))).1)).2.2.2

/-- What is read off a feature: a number in the unit interval that rises with the feature, or
falls, and is missing where the feature is. -/
structure Reading (up : Bool) where
  evidence : F → F
  value : K → K
  evidence_num : ∀ a, evidence (E.num a) = E.num (value a)
  missing : ∀ {x}, JsonFloat.finite x = false → JsonFloat.finite (evidence x) = false
  bounds : ∀ a, 0 ≤ value a ∧ value a ≤ 1
  toward : ∀ {a b}, (if up then a ≤ b else b ≤ a) → value a ≤ value b

namespace Reading
variable {E}

def share : E.Reading true where
  evidence := Model.unit
  value a := max 0 (min a 1)
  evidence_num a := by
    rw [Model.unit, E.clamp_num a (by norm_num), Rat.cast_zero, Rat.cast_one]
  missing h := E.clamp_missing h _ _
  bounds a := ⟨le_max_left _ _, max_le zero_le_one (min_le_right _ _)⟩
  toward h := max_le_max le_rfl (min_le_min (by simpa using h) le_rfl)

/-- The logistic function of something that moves with the feature. -/
def logisticOf {up : Bool} (line : F → F) (value : K → K)
    (hnum : ∀ a, line (E.num a) = E.num (value a))
    (hmissing : ∀ {x}, JsonFloat.finite x = false → JsonFloat.finite (line x) = false)
    (htoward : ∀ {a b}, (if up then a ≤ b else b ≤ a) → value a ≤ value b) : E.Reading up where
  evidence x := sigmoid (line x)
  value a := E.logistic (value a)
  evidence_num a := by rw [hnum, E.sigmoid_num]
  missing h := E.sigmoid_missing (hmissing h)
  bounds a := ⟨(E.logistic_pos _).le, (E.logistic_lt_one _).le⟩
  toward h := E.logistic_mono.monotone (htoward h)

/-- Falls with the feature, from one half at the center. -/
def falling (slope center : ℚ) (h : 0 ≤ slope) : E.Reading false :=
  logisticOf (fun x => F64.lit slope * (F64.lit center - x)) (fun a => slope * (center - a))
    (fun a => by simp only [E.lit, E.sub, E.mul])
    (fun hx => (E.op_missing (Or.inr (E.op_missing (Or.inr hx)).2.1)).2.2.1)
    fun {a b} hab => mul_le_mul_of_nonneg_left (sub_le_sub_left (by simpa using hab) _)
      (Rat.cast_nonneg.mpr h)

/-- Rises with the feature, from one half at the center. -/
def rising (slope center : ℚ) (h : 0 ≤ slope) : E.Reading true :=
  logisticOf (fun x => F64.lit slope * (x - F64.lit center)) (fun a => slope * (a - center))
    (fun a => by simp only [E.lit, E.sub, E.mul])
    (fun hx => (E.op_missing (Or.inr (E.op_missing (Or.inl hx)).2.1)).2.2.1)
    fun {a b} hab => mul_le_mul_of_nonneg_left (sub_le_sub_right (by simpa using hab) _)
      (Rat.cast_nonneg.mpr h)

/-- Rises with the feature, from one half at the negated offset. -/
def risingFrom (slope offset : ℚ) (h : 0 ≤ slope) : E.Reading true :=
  logisticOf (fun x => F64.lit slope * (x + F64.lit offset)) (fun a => slope * (a + offset))
    (fun a => by simp only [E.lit, E.add, E.mul])
    (fun hx => (E.op_missing (Or.inr (E.op_missing (Or.inl hx)).1)).2.2.1)
    fun {a b} hab => mul_le_mul_of_nonneg_left (add_le_add_left (by simpa using hab) _)
      (Rat.cast_nonneg.mpr h)

def nanOr {up : Bool} (r : E.Reading up) : E.Reading up where
  evidence x := Model.nanOr x r.evidence
  value := r.value
  evidence_num a := by rw [Model.nanOr, if_pos (E.finite_num a), r.evidence_num]
  missing h := by rw [Model.nanOr, h]; exact E.nan_missing
  bounds := r.bounds
  toward := r.toward

end Reading

/-- A term of the model before it sees a feature vector. -/
structure Signal where
  name : String
  weight : ℚ
  weight_pos : 0 < weight
  feature : FeatureVector F → F
  up : Bool
  reading : E.Reading up

def Signal.term {E : ExactModel F K} (s : E.Signal) (f : FeatureVector F) : Term F :=
  ⟨s.name, F64.lit s.weight, s.reading.evidence (s.feature f)⟩

def signals : List E.Signal :=
  [⟨"metronomic-typing", 6 / 100, by norm_num, FeatureVector.keystrokeCv, false,
      .falling 8 (45 / 100) (by norm_num)⟩,
    ⟨"paste-injection", 4 / 100, by norm_num, FeatureVector.pasteRatio, true, .share⟩,
    ⟨"instant-reaction", 10 / 100, by norm_num, FeatureVector.meanInterCommandMs, false,
      .falling (4 / 1000) 1000 (by norm_num)⟩,
    ⟨"errorless-input", 4 / 100, by norm_num, FeatureVector.backspaceRatio, false,
      .falling 40 (6 / 100) (by norm_num)⟩,
    ⟨"dense-commands", 2 / 100, by norm_num, FeatureVector.entropyMean, true,
      .rising 3 (42 / 10) (by norm_num)⟩,
    ⟨"regular-cadence", 4 / 100, by norm_num, FeatureVector.cadenceRegularity, true, .share⟩,
    ⟨"gap-non-autocorrelation", 22 / 100, by norm_num, FeatureVector.gapAutocorr, false,
      (.falling 6 (18 / 100) (by norm_num) : E.Reading false).nanOr⟩,
    ⟨"constant-think-time", 12 / 100, by norm_num, FeatureVector.thinkTailRatio, false,
      (.falling (22 / 10) 2 (by norm_num) : E.Reading false).nanOr⟩,
    ⟨"no-throughput-decay", 14 / 100, by norm_num, FeatureVector.throughputDecay, true,
      (.risingFrom 4 (5 / 100) (by norm_num) : E.Reading true).nanOr⟩,
    ⟨"whole-line-injection", 12 / 100, by norm_num, FeatureVector.wholeLinePasteRatio, true,
      .share⟩,
    ⟨"burst-metronome", 6 / 100, by norm_num, FeatureVector.keystrokeBurstCv, false,
      (.falling 8 (30 / 100) (by norm_num) : E.Reading false).nanOr⟩]

theorem terms_eq (f : FeatureVector F) : Model.terms f = E.signals.map (Signal.term · f) := rfl

/-- The term has this weight and this evidence. -/
structure Shows (t : Term F) (x : Weighted K) : Prop where
  weight : t.weight = E.num x.weight
  evidence : t.evidence = E.num x.value

/-- The feature of the signal moves toward the agent from `f` to `g`, or is missing in both. -/
def Signal.Toward {E : ExactModel F K} (s : E.Signal) (f g : FeatureVector F) : Prop :=
  if s.up then E.AtMost (s.feature f) (s.feature g) else E.AtMost (s.feature g) (s.feature f)

variable {E}

theorem Signal.toward_refl (s : E.Signal) (f : FeatureVector F) : s.Toward f f := by
  unfold Toward
  split_ifs
  · exact AtMost.refl _
  · exact AtMost.refl _

/-- Either both terms drop out, or both remain and the second has no less evidence. -/
theorem Signal.term_toward {s : E.Signal} {f g : FeatureVector F} (h : s.Toward f g) :
    (JsonFloat.finite (s.term f).evidence = false ∧
      JsonFloat.finite (s.term g).evidence = false) ∨
    ∃ x y : Weighted K, E.Shows (s.term f) x ∧ E.Shows (s.term g) y ∧ x.AtMost y ∧
      0 < x.weight ∧ (0 ≤ x.value ∧ x.value ≤ 1) := by
  have hnumbers : (JsonFloat.finite (s.feature f) = false ∧
      JsonFloat.finite (s.feature g) = false) ∨ ∃ a b, s.feature f = E.num a ∧
        s.feature g = E.num b ∧ if s.up then a ≤ b else b ≤ a := by
    unfold Toward at h
    split_ifs at h with hup
    · exact h.imp_right fun ⟨a, b, hf, hg, hab⟩ => ⟨a, b, hf, hg, by simpa [hup] using hab⟩
    · rcases h with ⟨hg, hf⟩ | ⟨b, a, hg, hf, hba⟩
      · exact Or.inl ⟨hf, hg⟩
      · exact Or.inr ⟨a, b, hf, hg, by simpa [hup] using hba⟩
  rcases hnumbers with ⟨hf, hg⟩ | ⟨a, b, hf, hg, hab⟩
  · exact Or.inl ⟨s.reading.missing hf, s.reading.missing hg⟩
  · refine Or.inr ⟨⟨s.weight, s.reading.value a⟩, ⟨s.weight, s.reading.value b⟩, ⟨E.lit _, ?_⟩,
      ⟨E.lit _, ?_⟩, ⟨rfl, s.reading.toward hab⟩, Rat.cast_pos.mpr s.weight_pos,
      s.reading.bounds a⟩
    · rw [term, hf, s.reading.evidence_num]
    · rw [term, hg, s.reading.evidence_num]

/-- The terms that remain show weights and evidence of the same signals, in order. -/
theorem surviving_toward {f g : FeatureVector F} (h : ∀ s ∈ E.signals, s.Toward f g) :
    ∃ l l' : List (Weighted K), List.Forall₂ E.Shows (Model.surviving f) l ∧
      List.Forall₂ E.Shows (Model.surviving g) l' ∧ List.Forall₂ Weighted.AtMost l l' ∧
      ∀ x ∈ l, 0 < x.weight ∧ (0 ≤ x.value ∧ x.value ≤ 1) := by
  unfold Model.surviving
  rw [E.terms_eq f, E.terms_eq g]
  revert h
  generalize E.signals = ss
  intro h
  induction ss with
  | nil => exact ⟨[], [], .nil, .nil, .nil, by simp⟩
  | cons s ss ih =>
      obtain ⟨l, l', hl, hl', hle, hall⟩ := ih fun s' hs' => h s' (List.mem_cons_of_mem _ hs')
      simp only [List.map_cons, List.filter_cons]
      rcases Signal.term_toward (h s List.mem_cons_self) with
        ⟨hf, hg⟩ | ⟨x, y, hx, hy, hxy, hbounds⟩
      · rw [hf, hg]
        exact ⟨l, l', hl, hl', hle, hall⟩
      · rw [hx.evidence, hy.evidence, E.finite_num, E.finite_num, if_pos rfl, if_pos rfl]
        exact ⟨x :: l, y :: l', .cons hx hl, .cons hy hl', .cons hxy hle,
          List.forall_mem_cons.mpr ⟨hbounds, hall⟩⟩

theorem weights_num {ts : List (Term F)} {l : List (Weighted K)}
    (h : List.Forall₂ E.Shows ts l) :
    ts.map Term.weight = (l.map Weighted.weight).map E.num := by
  induction h with
  | nil => rfl
  | cons hx _ ih => simp only [List.map_cons, ih, hx.weight]

theorem products_num {ts : List (Term F)} {l : List (Weighted K)}
    (h : List.Forall₂ E.Shows ts l) :
    (ts.map fun t => t.weight * t.evidence) =
      (l.map fun x => x.weight * x.value).map E.num := by
  induction h with
  | nil => rfl
  | cons hx _ ih => simp only [List.map_cons, ih, hx.weight, hx.evidence, E.mul]

/-- The average is the weighted mean of what is left, neutral if nothing is. -/
theorem average_num {ts : List (Term F)} {l : List (Weighted K)}
    (h : List.Forall₂ E.Shows ts l) : Model.average ts = E.num (weightedMean (1 / 2) l) := by
  simp only [Model.average, weights_num h, products_num h, E.sum_num, E.lit, E.lt, Rat.cast_zero,
    weightedMean]
  change (if 0 < totalWeight l then E.num (weightedSum l) / E.num (totalWeight l) else _) = _
  split_ifs with hpos
  · exact E.div _ hpos.ne'
  · norm_num

end ExactModel
end Aegis

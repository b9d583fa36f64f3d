import Aegis.ModelMonotone

/-!
# Bounds and consistency of an assessment

The probability and the confidence are numbers in the unit interval, for every
pattern of missing features. The verdict is what the thresholds make of the
probability, and a rule is given as a reason only where it fired.
-/

namespace Aegis
variable {F K : Type} [F64 F] [Field K] [LinearOrder K] [IsStrictOrderedRing K]

/-- The rules that may raise the average. -/
inductive HardRule where
  | physiologicalFloorPaste
  | reactionTimeFloor
  | uncorrelatedFlatThroughput
  deriving DecidableEq, Repr

namespace HardRule

def reason : HardRule → String
  | .physiologicalFloorPaste => "physiological-floor+paste"
  | .reactionTimeFloor => "reaction-time-floor"
  | .uncorrelatedFlatThroughput => "uncorrelated-flat-throughput"

theorem reason_injective : Function.Injective reason := by
  intro r r' h
  cases r <;> cases r' <;> first | rfl | exact absurd h (by decide)

def fires : HardRule → FeatureVector F → Bool
  | .physiologicalFloorPaste => Model.floorAndPaste
  | .reactionTimeFloor => Model.sustainedFloor
  | .uncorrelatedFlatThroughput => Model.uncorrelatedFlat

end HardRule

namespace ExactModel
variable (E : ExactModel F K)

def AtLeast (c : ℚ) (x : F) : Prop := ∃ a, x = E.num a ∧ (c : K) ≤ a

def Above (c : ℚ) (x : F) : Prop := ∃ a, x = E.num a ∧ (c : K) < a

def Below (c : ℚ) (x : F) : Prop := ∃ a, x = E.num a ∧ a < (c : K)

def InUnit (x : F) : Prop := ∃ a, x = E.num a ∧ 0 ≤ a ∧ a ≤ 1

def Nonzero (x : F) : Prop := ∃ a, x = E.num a ∧ a ≠ 0

/-- The condition of a rule on the features. -/
def Holds (f : FeatureVector F) : HardRule → Prop
  | .physiologicalFloorPaste =>
      E.AtLeast (25 / 100) f.reactionFloorHits ∧ E.AtLeast (1 / 2) f.wholeLinePasteRatio
  | .reactionTimeFloor => E.AtLeast (25 / 100) f.reactionFloorHits
  | .uncorrelatedFlatThroughput =>
      E.Below (5 / 100) f.gapAutocorr ∧ E.Above (-(5 / 100)) f.throughputDecay ∧
        E.Below (16 / 10) f.thinkTailRatio

/-- What an assessment promises: numbers within bounds from divisions by numbers other than
zero, rules that only raise, and a verdict and reasons that go with the probability and the
features. -/
structure Consistent (m : Model F) (f : FeatureVector F) : Prop where
  pAgent : E.InUnit (m.assess f).pAgent
  confidence : E.InUnit (m.assess f).confidence
  logisticDivisor : ∀ x : F, JsonFloat.finite x = true →
    E.Nonzero (F64.lit 1 + F64.exp (-x))
  weightDivisor : (Model.surviving f = [] ∧
      F64.lt (F64.lit 0) (F64.sum ((Model.surviving f).map Term.weight)) = false) ∨
    E.Nonzero (F64.sum ((Model.surviving f).map Term.weight))
  raised : F64.le (Model.average (Model.surviving f)) (m.assess f).pAgent = true
  agent : (m.assess f).verdict = .agent ↔ F64.le m.agentThreshold (m.assess f).pAgent = true
  human : (m.assess f).verdict = .human ↔
    F64.le m.agentThreshold (m.assess f).pAgent = false ∧
      F64.le (m.assess f).pAgent m.humanThreshold = true
  reasons : ∀ r : HardRule, r.reason ∈ (m.assess f).reasons →
    E.Holds f r ∧ (m.assess f).verdict ≠ .human

section Tested
include E

theorem atLeast_of_le {c : ℚ} {x : F} (h : F64.le (F64.lit c) x = true) : E.AtLeast c x := by
  obtain ⟨b, a, hb, rfl, hba⟩ := E.numbers_of_le h
  rw [E.lit] at hb
  exact ⟨a, rfl, E.num_injective hb ▸ hba⟩

theorem above_of_lt {c : ℚ} {x : F} (h : F64.lt (-F64.lit c) x = true) : E.Above (-c) x := by
  obtain ⟨b, a, hb, rfl, hba⟩ := E.numbers_of_lt h
  rw [E.lit, E.neg, ← Rat.cast_neg] at hb
  exact ⟨a, rfl, E.num_injective hb ▸ hba⟩

theorem below_of_lt {c : ℚ} {x : F} (h : F64.lt x (F64.lit c) = true) : E.Below c x := by
  obtain ⟨a, b, rfl, hb, hab⟩ := E.numbers_of_lt h
  rw [E.lit] at hb
  exact ⟨a, rfl, E.num_injective hb ▸ hab⟩

theorem holds_of_fires {f : FeatureVector F} {r : HardRule} (h : r.fires f = true) :
    E.Holds f r := by
  cases r with
  | physiologicalFloorPaste =>
      simp only [HardRule.fires, Model.floorAndPaste, Bool.and_eq_true] at h
      exact ⟨E.atLeast_of_le h.1, E.atLeast_of_le h.2⟩
  | reactionTimeFloor => exact E.atLeast_of_le h
  | uncorrelatedFlatThroughput =>
      simp only [HardRule.fires, Model.uncorrelatedFlat, Bool.and_eq_true] at h
      obtain ⟨⟨⟨-, hgap⟩, hdecay⟩, htail⟩ := h
      exact ⟨E.below_of_lt hgap, E.above_of_lt hdecay, E.below_of_lt htail⟩

end Tested

theorem fires_of_mem_hardRules {f : FeatureVector F} {p : F} {r : HardRule}
    (h : r.reason ∈ (Model.hardRules f p).2) : r.fires f = true := by
  rcases Model.mem_ratchet h with ⟨hfires, hname⟩ | h
  · obtain rfl : r = .uncorrelatedFlatThroughput := HardRule.reason_injective hname
    exact hfires
  rcases Model.mem_ratchet h with ⟨hfires, hname⟩ | h
  · obtain rfl : r = .reactionTimeFloor := HardRule.reason_injective hname
    exact hfires
  rcases Model.mem_ratchet h with ⟨hfires, hname⟩ | h
  · obtain rfl : r = .physiologicalFloorPaste := HardRule.reason_injective hname
    exact hfires
  · cases h

omit [Field K] [LinearOrder K] [IsStrictOrderedRing K] in
theorem verdictOf_eq_agent (m : Model F) (p : F) :
    m.verdictOf p = .agent ↔ F64.le m.agentThreshold p = true := by
  unfold Model.verdictOf
  split_ifs with hagent hhuman
  · simp [hagent]
  · simp [hagent]
  · simp [hagent]

omit [Field K] [LinearOrder K] [IsStrictOrderedRing K] in
theorem verdictOf_eq_human (m : Model F) (p : F) :
    m.verdictOf p = .human ↔
      F64.le m.agentThreshold p = false ∧ F64.le p m.humanThreshold = true := by
  unfold Model.verdictOf
  split_ifs with hagent hhuman
  · simp [hagent]
  · simp [hagent, hhuman]
  · simp [hhuman]

/-- No term has the name of a rule. -/
theorem reason_not_mem_surviving (f : FeatureVector F) (r : HardRule) :
    r.reason ∉ (Model.surviving f).map Term.name := by
  intro h
  have hterms : r.reason ∈ (Model.terms f).map Term.name :=
    (List.filter_sublist.map Term.name).subset h
  have hnone : ∀ r : HardRule, r.reason ∉ ["metronomic-typing", "paste-injection",
      "instant-reaction", "errorless-input", "dense-commands", "regular-cadence",
      "gap-non-autocorrelation", "constant-think-time", "no-throughput-decay",
      "whole-line-injection", "burst-metronome"] := by
    intro r
    cases r <;> decide
  exact hnone r hterms

variable {E}

omit [F64 F] [Field K] [IsStrictOrderedRing K] in
theorem raised_le {fires : Bool} {floor p hi : K} (hfloor : floor ≤ hi) (hp : p ≤ hi) :
    Model.raised fires floor p ≤ hi := by
  unfold Model.raised
  split_ifs
  · exact max_le hp hfloor
  · exact hp

theorem ruled_bounds (f : FeatureVector F) {p : K} (hlo : 0 ≤ p) (hhi : p ≤ 1) :
    0 ≤ Model.ruled f p ∧ p ≤ Model.ruled f p ∧ Model.ruled f p ≤ 1 := by
  have hraised : p ≤ Model.ruled f p :=
    (Model.le_raised _ _ _).trans ((Model.le_raised _ _ _).trans (Model.le_raised _ _ _))
  have hone : Model.ruled f p ≤ 1 :=
    raised_le (by norm_num) (raised_le (by norm_num) (raised_le (by norm_num) hhi))
  exact ⟨hlo.trans hraised, hraised, hone⟩

theorem confidence_unit (verdict : Verdict) {p : K} (hlo : 0 ≤ p) (hhi : p ≤ 1) :
    E.InUnit (Model.confidenceOf verdict (E.num p)) := by
  cases verdict with
  | agent => exact ⟨p, rfl, hlo, hhi⟩
  | human =>
      refine ⟨1 - p, ?_, by linarith, by linarith⟩
      simp only [Model.confidenceOf, E.lit, E.sub, Rat.cast_one]
  | uncertain =>
      have habs : |p - 1 / 2| ≤ 1 / 2 := abs_le.mpr ⟨by linarith, by linarith⟩
      have hnonneg := abs_nonneg (p - 1 / 2)
      refine ⟨1 - |p - 1 / 2| * 2, ?_, by linarith, by linarith⟩
      simp only [Model.confidenceOf, E.lit, E.sub, E.abs_num, E.mul]
      norm_num

variable (E) in
/-- Every assessment is consistent, whatever is missing and whatever the thresholds. -/
theorem assess_consistent (m : Model F) (f : FeatureVector F) : E.Consistent m f := by
  obtain ⟨l, -, hl, -, -, hall⟩ := surviving_toward fun s _ => Signal.toward_refl (E := E) s f
  have hmean : 0 ≤ weightedMean (1 / 2) l ∧ weightedMean (1 / 2) l ≤ 1 :=
    weightedMean_bounds ⟨by norm_num, by norm_num⟩ (fun x hx => (hall x hx).1)
      fun x hx => (hall x hx).2
  obtain ⟨hlo, hhi⟩ := hmean
  obtain ⟨hnonneg, hraised, hone⟩ := ruled_bounds f hlo hhi
  have hp := E.pAgent_num m hl
  have htotal : F64.sum ((Model.surviving f).map Term.weight) = E.num (totalWeight l) := by
    rw [weights_num hl, E.sum_num]
    rfl
  constructor
  case pAgent => exact ⟨_, hp, hnonneg, hone⟩
  case confidence =>
    have hconfidence := confidence_unit (E := E) (m.assess f).verdict hnonneg hone
    rw [← hp] at hconfidence
    exact hconfidence
  case logisticDivisor =>
    intro x hx
    obtain ⟨a, rfl⟩ := E.number hx
    refine ⟨1 + E.exp (-a), ?_, (E.divisor_pos a).ne'⟩
    simp only [E.neg, E.exp_num, E.lit, E.add, Rat.cast_one]
  case weightDivisor =>
    by_cases hnil : l = []
    · subst hnil
      refine Or.inl ⟨List.forall₂_nil_right_iff.mp hl, ?_⟩
      rw [htotal, E.lit, ← Bool.not_eq_true, E.lt]
      simp [totalWeight]
    · exact Or.inr ⟨_, htotal, (totalWeight_pos (fun x hx => (hall x hx).1) hnil).ne'⟩
  case raised =>
    rw [hp, average_num hl, E.le]
    exact hraised
  case agent => exact verdictOf_eq_agent m _
  case human => exact verdictOf_eq_human m _
  case reasons =>
    intro r hr
    rcases List.mem_append.mp (Model.assess_reasons m f ▸ hr) with hrule | hcontribution
    · by_cases hverdict : (m.assess f).verdict = .human
      · rw [if_pos hverdict] at hrule
        cases hrule
      · rw [if_neg hverdict] at hrule
        exact ⟨E.holds_of_fires (fires_of_mem_hardRules hrule), hverdict⟩
    · exact absurd (Model.mem_contributions hcontribution) (reason_not_mem_surviving f r)

/-- Prompt pasted lines, from too little typing to know the rest. -/
def pastedLines : FeatureVector Exact where
  keystrokeCv := F64.nan
  pasteRatio := .ofRat (9 / 10)
  meanInterCommandMs := .ofRat 60
  backspaceRatio := .ofRat 0
  entropyMean := .ofRat (48 / 10)
  cadenceRegularity := F64.nan
  gapAutocorr := F64.nan
  thinkTailRatio := F64.nan
  throughputDecay := F64.nan
  reactionFloorHits := .ofRat (3 / 10)
  wholeLinePasteRatio := .ofRat (7 / 10)
  keystrokeBurstCv := F64.nan

theorem assess_consistent_pastedLines :
    HardRule.physiologicalFloorPaste.fires pastedLines = true ∧
      HardRule.reactionTimeFloor.fires pastedLines = true ∧
      HardRule.uncorrelatedFlatThroughput.fires pastedLines = false ∧
      exactModel.Consistent .default pastedLines :=
  ⟨by decide +kernel, by decide +kernel, by decide +kernel,
    assess_consistent exactModel .default pastedLines⟩

end ExactModel
end Aegis

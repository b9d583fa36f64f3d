import Aegis.ModelEvidence

/-!
# More agent-like features

Features that move toward the agent raise the average, fire no fewer rules and
take the verdict no further toward the human.
-/

namespace Aegis
variable {F K : Type} [F64 F] [Field K] [LinearOrder K] [IsStrictOrderedRing K]

/-- Human, uncertain, agent. -/
def Verdict.rank : Verdict → ℕ
  | .human => 0
  | .uncertain => 1
  | .agent => 2

namespace Model

def floorAndPaste (f : FeatureVector F) : Bool :=
  F64.le (F64.lit (25 / 100)) f.reactionFloorHits &&
    F64.le (F64.lit (1 / 2)) f.wholeLinePasteRatio

def sustainedFloor (f : FeatureVector F) : Bool :=
  F64.le (F64.lit (25 / 100)) f.reactionFloorHits

def uncorrelatedFlat (f : FeatureVector F) : Bool :=
  JsonFloat.finite f.gapAutocorr && JsonFloat.finite f.throughputDecay &&
    JsonFloat.finite f.thinkTailRatio && F64.lt f.gapAutocorr (F64.lit (5 / 100)) &&
    F64.lt (-F64.lit (5 / 100)) f.throughputDecay && F64.lt f.thinkTailRatio (F64.lit (16 / 10))

/-- A rule raises a probability to its floor. -/
def raised (fires : Bool) (floor p : K) : K := if fires then max p floor else p

/-- What the rules make of the average. -/
def ruled (f : FeatureVector F) (p : K) : K :=
  raised (uncorrelatedFlat f) ((72 / 100 : ℚ) : K)
    (raised (sustainedFloor f) ((80 / 100 : ℚ) : K)
      (raised (floorAndPaste f) ((92 / 100 : ℚ) : K) p))

omit [F64 F] [Field K] [IsStrictOrderedRing K] in
theorem le_raised (fires : Bool) (floor p : K) : p ≤ raised fires floor p := by
  unfold raised
  split_ifs
  · exact le_max_left _ _
  · exact le_rfl

omit [F64 F] [Field K] [IsStrictOrderedRing K] in
theorem raised_mono {fires fires' : Bool} (h : fires = true → fires' = true) (floor : K) {p q : K}
    (hpq : p ≤ q) : raised fires floor p ≤ raised fires' floor q := by
  unfold raised
  split_ifs with hf hf'
  · exact max_le_max hpq le_rfl
  · exact absurd (h hf) hf'
  · exact hpq.trans (le_max_left _ _)
  · exact hpq

end Model

namespace ExactModel
variable (E : ExactModel F K)
include E

theorem ratchet_num (fires : Bool) (floor : ℚ) (reason : String) (p : K) (reasons : List String) :
    Model.ratchet fires (F64.lit floor) reason (E.num p, reasons) =
      (E.num (Model.raised fires floor p), if fires then reasons ++ [reason] else reasons) := by
  cases fires with
  | false => rfl
  | true =>
      simp only [Model.ratchet, Model.raised, if_true, E.lit, E.lt]
      split_ifs with h
      · rw [max_eq_right h.le]
      · rw [max_eq_left (not_lt.mp h)]

theorem hardRules_num (f : FeatureVector F) (p : K) :
    (Model.hardRules f (E.num p)).1 = E.num (Model.ruled f p) := by
  simp only [Model.hardRules, E.ratchet_num]
  rfl

theorem pAgent_num (m : Model F) {f : FeatureVector F} {l : List (Weighted K)}
    (h : List.Forall₂ E.Shows (Model.surviving f) l) :
    (m.assess f).pAgent = E.num (Model.ruled f (weightedMean (1 / 2) l)) := by
  simp only [Model.assess, average_num h]
  exact E.hardRules_num f _

variable {E}

/-- A probability that is not below gets a verdict that is not below, whatever the thresholds. -/
theorem verdict_mono (m : Model F) {x y : F} (h : E.AtMost x y) :
    (m.verdictOf x).rank ≤ (m.verdictOf y).rank := by
  have hagent : F64.le m.agentThreshold x = true → F64.le m.agentThreshold y = true := h.le_of_le
  have hhuman : F64.le y m.humanThreshold = true → F64.le x m.humanThreshold = true := h.le_of_ge
  unfold Model.verdictOf
  by_cases hy : F64.le m.agentThreshold y = true
  · rw [if_pos hy]
    split_ifs <;> decide
  · rw [if_neg hy, if_neg (mt hagent hy)]
    by_cases hlow : F64.le y m.humanThreshold = true
    · rw [if_pos hlow, if_pos (hhuman hlow)]
    · rw [if_neg hlow]
      split_ifs <;> decide

variable (E) in
/-- Feature for feature, `g` is no less like an agent than `f`, or both lack the feature. -/
structure MoreAgentLike (f g : FeatureVector F) : Prop where
  keystrokeCv : E.AtMost g.keystrokeCv f.keystrokeCv
  pasteRatio : E.AtMost f.pasteRatio g.pasteRatio
  meanInterCommandMs : E.AtMost g.meanInterCommandMs f.meanInterCommandMs
  backspaceRatio : E.AtMost g.backspaceRatio f.backspaceRatio
  entropyMean : E.AtMost f.entropyMean g.entropyMean
  cadenceRegularity : E.AtMost f.cadenceRegularity g.cadenceRegularity
  gapAutocorr : E.AtMost g.gapAutocorr f.gapAutocorr
  thinkTailRatio : E.AtMost g.thinkTailRatio f.thinkTailRatio
  throughputDecay : E.AtMost f.throughputDecay g.throughputDecay
  reactionFloorHits : E.AtMost f.reactionFloorHits g.reactionFloorHits
  wholeLinePasteRatio : E.AtMost f.wholeLinePasteRatio g.wholeLinePasteRatio
  keystrokeBurstCv : E.AtMost g.keystrokeBurstCv f.keystrokeBurstCv

variable {f g : FeatureVector F}

theorem MoreAgentLike.signals (h : E.MoreAgentLike f g) : ∀ s ∈ E.signals, s.Toward f g := by
  simp only [ExactModel.signals, List.forall_mem_cons, Signal.Toward, Bool.false_eq_true, if_true,
    if_false]
  exact ⟨h.keystrokeCv, h.pasteRatio, h.meanInterCommandMs, h.backspaceRatio, h.entropyMean,
    h.cadenceRegularity, h.gapAutocorr, h.thinkTailRatio, h.throughputDecay,
    h.wholeLinePasteRatio, h.keystrokeBurstCv, by simp⟩

theorem MoreAgentLike.sustainedFloor (h : E.MoreAgentLike f g)
    (hf : Model.sustainedFloor f = true) : Model.sustainedFloor g = true :=
  h.reactionFloorHits.le_of_le hf

theorem MoreAgentLike.floorAndPaste (h : E.MoreAgentLike f g)
    (hf : Model.floorAndPaste f = true) : Model.floorAndPaste g = true := by
  simp only [Model.floorAndPaste, Bool.and_eq_true] at hf ⊢
  exact ⟨h.reactionFloorHits.le_of_le hf.1, h.wholeLinePasteRatio.le_of_le hf.2⟩

theorem MoreAgentLike.uncorrelatedFlat (h : E.MoreAgentLike f g)
    (hf : Model.uncorrelatedFlat f = true) : Model.uncorrelatedFlat g = true := by
  simp only [Model.uncorrelatedFlat, Bool.and_eq_true] at hf ⊢
  obtain ⟨⟨⟨⟨⟨hgap, hdecay⟩, htail⟩, hgaplt⟩, hdecaylt⟩, htaillt⟩ := hf
  exact ⟨⟨⟨⟨⟨h.gapAutocorr.finite_eq.trans hgap, h.throughputDecay.finite_eq.symm.trans hdecay⟩,
    h.thinkTailRatio.finite_eq.trans htail⟩, h.gapAutocorr.lt_of_gt hgaplt⟩,
    h.throughputDecay.lt_of_lt hdecaylt⟩, h.thinkTailRatio.lt_of_gt htaillt⟩

theorem MoreAgentLike.ruled_le (h : E.MoreAgentLike f g) {p q : K} (hpq : p ≤ q) :
    Model.ruled f p ≤ Model.ruled g q :=
  Model.raised_mono h.uncorrelatedFlat _ (Model.raised_mono h.sustainedFloor _
    (Model.raised_mono h.floorAndPaste _ hpq))

variable (E) in
/-- The model is monotone: features no less like an agent get a probability and a verdict that
are not below. -/
theorem assess_mono (m : Model F) (h : E.MoreAgentLike f g) :
    F64.le (m.assess f).pAgent (m.assess g).pAgent = true ∧
      (m.assess f).verdict.rank ≤ (m.assess g).verdict.rank := by
  obtain ⟨l, l', hl, hl', hle, hbounds⟩ := surviving_toward h.signals
  have hmean := weightedMean_mono (1 / 2 : K) hle fun x hx => (hbounds x hx).1
  have hpAgent : E.AtMost (m.assess f).pAgent (m.assess g).pAgent :=
    Or.inr ⟨_, _, E.pAgent_num m hl, E.pAgent_num m hl', h.ruled_le hmean⟩
  constructor
  · rw [E.pAgent_num m hl, E.pAgent_num m hl', E.le]
    exact h.ruled_le hmean
  · exact verdict_mono m hpAgent

omit E

/-- A person at work, without enough bursts to measure. -/
def humanLike : FeatureVector Exact where
  keystrokeCv := .ofRat (9 / 10)
  pasteRatio := .ofRat 0
  meanInterCommandMs := .ofRat 4000
  backspaceRatio := .ofRat (2 / 10)
  entropyMean := .ofRat (35 / 10)
  cadenceRegularity := .ofRat (2 / 10)
  gapAutocorr := .ofRat (35 / 100)
  thinkTailRatio := .ofRat 5
  throughputDecay := .ofRat (-3 / 10)
  reactionFloorHits := .ofRat 0
  wholeLinePasteRatio := .ofRat 0
  keystrokeBurstCv := F64.nan

def agentLike : FeatureVector Exact where
  keystrokeCv := .ofRat (8 / 100)
  pasteRatio := .ofRat (7 / 10)
  meanInterCommandMs := .ofRat 40
  backspaceRatio := .ofRat 0
  entropyMean := .ofRat (48 / 10)
  cadenceRegularity := .ofRat (95 / 100)
  gapAutocorr := .ofRat 0
  thinkTailRatio := .ofRat (105 / 100)
  throughputDecay := .ofRat (1 / 10)
  reactionFloorHits := .ofRat (4 / 10)
  wholeLinePasteRatio := .ofRat (7 / 10)
  keystrokeBurstCv := F64.nan

theorem ofRat_atMost {a b : ℚ} (h : a ≤ b) : exactModel.AtMost (.ofRat a) (.ofRat b) :=
  Or.inr ⟨a, b, rfl, rfl, h⟩

theorem assess_mono_default :
    F64.le ((Model.default : Model Exact).assess humanLike).pAgent
        ((Model.default : Model Exact).assess agentLike).pAgent = true ∧
      ((Model.default : Model Exact).assess humanLike).verdict.rank ≤
        ((Model.default : Model Exact).assess agentLike).verdict.rank :=
  assess_mono exactModel .default
    { keystrokeCv := ofRat_atMost (by norm_num)
      pasteRatio := ofRat_atMost (by norm_num)
      meanInterCommandMs := ofRat_atMost (by norm_num)
      backspaceRatio := ofRat_atMost (by norm_num)
      entropyMean := ofRat_atMost (by norm_num)
      cadenceRegularity := ofRat_atMost (by norm_num)
      gapAutocorr := ofRat_atMost (by norm_num)
      thinkTailRatio := ofRat_atMost (by norm_num)
      throughputDecay := ofRat_atMost (by norm_num)
      reactionFloorHits := ofRat_atMost (by norm_num)
      wholeLinePasteRatio := ofRat_atMost (by norm_num)
      keystrokeBurstCv := Or.inl ⟨rfl, rfl⟩ }

end ExactModel
end Aegis

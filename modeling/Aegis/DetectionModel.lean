import Aegis.Event
import Aegis.SessionFeatures

/-!
# The additive detection model

`model.rs`: each feature becomes evidence in the unit interval, the evidence is
averaged by weight over the features that are present, and a few rules may raise
the average. The verdict comes with the names of what drove it.
-/

namespace Aegis
variable {F : Type} [F64 F]

def sigmoid (x : F) : F := F64.lit 1 / (F64.lit 1 + F64.exp (-x))

/-- One feature's contribution; missing evidence drops the term. -/
structure Term (F : Type) where
  name : String
  weight : F
  evidence : F

structure Assessment (F : Type) where
  pAgent : F
  verdict : Verdict
  confidence : F
  reasons : List String

structure Model (F : Type) where
  agentThreshold : F
  humanThreshold : F

namespace Model

def default : Model F := ⟨F64.lit (62 / 100), F64.lit (35 / 100)⟩

def nanOr (x : F) (f : F → F) : F := if JsonFloat.finite x then f x else F64.nan

def unit (x : F) : F := F64.clamp x (F64.lit 0) (F64.lit 1)

def terms (f : FeatureVector F) : List (Term F) :=
  [⟨"metronomic-typing", F64.lit (6 / 100),
      sigmoid (F64.lit 8 * (F64.lit (45 / 100) - f.keystrokeCv))⟩,
    ⟨"paste-injection", F64.lit (4 / 100), unit f.pasteRatio⟩,
    ⟨"instant-reaction", F64.lit (10 / 100),
      sigmoid (F64.lit (4 / 1000) * (F64.lit 1000 - f.meanInterCommandMs))⟩,
    ⟨"errorless-input", F64.lit (4 / 100),
      sigmoid (F64.lit 40 * (F64.lit (6 / 100) - f.backspaceRatio))⟩,
    ⟨"dense-commands", F64.lit (2 / 100),
      sigmoid (F64.lit 3 * (f.entropyMean - F64.lit (42 / 10)))⟩,
    ⟨"regular-cadence", F64.lit (4 / 100), unit f.cadenceRegularity⟩,
    ⟨"gap-non-autocorrelation", F64.lit (22 / 100),
      nanOr f.gapAutocorr fun x => sigmoid (F64.lit 6 * (F64.lit (18 / 100) - x))⟩,
    ⟨"constant-think-time", F64.lit (12 / 100),
      nanOr f.thinkTailRatio fun x => sigmoid (F64.lit (22 / 10) * (F64.lit 2 - x))⟩,
    ⟨"no-throughput-decay", F64.lit (14 / 100),
      nanOr f.throughputDecay fun x => sigmoid (F64.lit 4 * (x + F64.lit (5 / 100)))⟩,
    ⟨"whole-line-injection", F64.lit (12 / 100), unit f.wholeLinePasteRatio⟩,
    ⟨"burst-metronome", F64.lit (6 / 100),
      nanOr f.keystrokeBurstCv fun x => sigmoid (F64.lit 8 * (F64.lit (30 / 100) - x))⟩]

def surviving (f : FeatureVector F) : List (Term F) :=
  (terms f).filter fun t => JsonFloat.finite t.evidence

/-- The weighted average, neutral when every term dropped out. -/
def average (ts : List (Term F)) : F :=
  let totalW := F64.sum (ts.map Term.weight)
  if F64.lt (F64.lit 0) totalW then F64.sum (ts.map fun t => t.weight * t.evidence) / totalW
  else F64.lit (1 / 2)

/-- Raises a probability to a floor and names the rule, where the rule fires. -/
def ratchet (fires : Bool) (floor : F) (reason : String) (p : F × List String) :
    F × List String :=
  if fires then (if F64.lt p.1 floor then floor else p.1, p.2 ++ [reason]) else p

def hardRules (f : FeatureVector F) (pAgent : F) : F × List String :=
  let sustained := F64.le (F64.lit (25 / 100)) f.reactionFloorHits
  let present := JsonFloat.finite f.gapAutocorr && JsonFloat.finite f.throughputDecay &&
    JsonFloat.finite f.thinkTailRatio
  ratchet (present && F64.lt f.gapAutocorr (F64.lit (5 / 100)) &&
      F64.lt (-F64.lit (5 / 100)) f.throughputDecay &&
      F64.lt f.thinkTailRatio (F64.lit (16 / 10)))
    (F64.lit (72 / 100)) "uncorrelated-flat-throughput"
    (ratchet sustained (F64.lit (80 / 100)) "reaction-time-floor"
      (ratchet (sustained && F64.le (F64.lit (1 / 2)) f.wholeLinePasteRatio)
        (F64.lit (92 / 100)) "physiological-floor+paste" (pAgent, [])))

def verdictOf (m : Model F) (pAgent : F) : Verdict :=
  if F64.le m.agentThreshold pAgent then .agent
  else if F64.le pAgent m.humanThreshold then .human
  else .uncertain

def confidenceOf (verdict : Verdict) (pAgent : F) : F :=
  match verdict with
  | .agent => pAgent
  | .human => F64.lit 1 - pAgent
  | .uncertain => F64.lit 1 - F64.abs (pAgent - F64.lit (1 / 2)) * F64.lit 2

/-- The names of the three strongest positive contributions toward the verdict. -/
def contributions (verdict : Verdict) (ts : List (Term F)) : List String :=
  let signed := ts.map fun t =>
    (t.name, if verdict = .human then t.weight * (F64.lit 1 - t.evidence)
      else t.weight * t.evidence)
  let sorted := signed.mergeSort fun a b => !F64.lt a.2 b.2
  ((sorted.take 3).filter fun c => F64.lt (F64.lit 0) c.2).map Prod.fst

theorem mem_ratchet {fires : Bool} {floor : F} {reason name : String} {p : F × List String}
    (h : name ∈ (ratchet fires floor reason p).2) :
    (fires = true ∧ name = reason) ∨ name ∈ p.2 := by
  cases fires with
  | false => exact Or.inr h
  | true =>
      rcases List.mem_append.mp h with hold | hnew
      · exact Or.inr hold
      · exact Or.inl ⟨rfl, List.mem_singleton.mp hnew⟩

theorem mem_contributions {verdict : Verdict} {ts : List (Term F)} {name : String}
    (h : name ∈ contributions verdict ts) : name ∈ ts.map Term.name := by
  obtain ⟨c, hc, rfl⟩ := List.mem_map.mp h
  have hsorted := List.mem_of_mem_take (List.mem_of_mem_filter hc)
  obtain ⟨t, ht, rfl⟩ := List.mem_map.mp (List.mem_mergeSort.mp hsorted)
  exact List.mem_map_of_mem ht

def assess (m : Model F) (f : FeatureVector F) : Assessment F :=
  let ts := surviving f
  let (pAgent, ruleReasons) := hardRules f (average ts)
  let verdict := m.verdictOf pAgent
  { pAgent := pAgent
    verdict := verdict
    confidence := confidenceOf verdict pAgent
    reasons := (if verdict = .human then [] else ruleReasons) ++ contributions verdict ts }

theorem assess_reasons (m : Model F) (f : FeatureVector F) :
    (m.assess f).reasons =
      (if (m.assess f).verdict = .human then [] else (hardRules f (average (surviving f))).2) ++
        contributions (m.assess f).verdict (surviving f) :=
  rfl

/-- The log-odds of an assessment. -/
def logLikelihoodRatio (a : Assessment F) : F :=
  let p := F64.clamp a.pAgent (F64.lit (1 / 10000)) (F64.lit 1 - F64.lit (1 / 10000))
  F64.ln (p / (F64.lit 1 - p))

end Model
end Aegis

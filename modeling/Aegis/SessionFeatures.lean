import Aegis.OrderedTable
import Aegis.Scalar

/-!
# Behavioral features of a session

`features.rs` of the detector: bounded samples and counters of one session, and
the vector of timing and structure statistics computed from them.
-/

namespace Aegis
variable {F : Type}

def minKeystrokes : ℕ := 12

def minCommands : ℕ := 3

def minCommandsRobust : ℕ := 16

def sampleCap : ℕ := 2048

/-- The most recent samples; the oldest makes room at the cap. -/
def pushCapped (buf : List F) (v : F) : List F :=
  (if sampleCap ≤ buf.length then buf.drop 1 else buf) ++ [v]

structure FeatureVector (F : Type) where
  keystrokeCv : F
  pasteRatio : F
  meanInterCommandMs : F
  backspaceRatio : F
  entropyMean : F
  cadenceRegularity : F
  gapAutocorr : F
  thinkTailRatio : F
  throughputDecay : F
  reactionFloorHits : F
  wholeLinePasteRatio : F
  keystrokeBurstCv : F

/-- The features by name, without missing values. -/
def FeatureVector.toMap [F64 F] (f : FeatureVector F) : OrderedTable String F :=
  .ofList ([("keystroke_cv", f.keystrokeCv), ("paste_ratio", f.pasteRatio),
    ("mean_inter_command_ms", f.meanInterCommandMs), ("backspace_ratio", f.backspaceRatio),
    ("entropy_mean", f.entropyMean), ("cadence_regularity", f.cadenceRegularity),
    ("gap_autocorr", f.gapAutocorr), ("think_tail_ratio", f.thinkTailRatio),
    ("throughput_decay", f.throughputDecay), ("reaction_floor_hits", f.reactionFloorHits),
    ("whole_line_paste_ratio", f.wholeLinePasteRatio),
    ("keystroke_burst_cv", f.keystrokeBurstCv)].filter fun r => JsonFloat.finite r.2)

section Statistics
variable [F64 F]

def ratio (num den : ℕ) : F :=
  if den = 0 then F64.lit 0 else F64.ofNat num / F64.ofNat den

def mean (xs : List F) : F := F64.sum xs / F64.ofNat xs.length

/-- Population mean and standard deviation. -/
def meanStd (xs : List F) : F × F :=
  if xs.isEmpty then (F64.lit 0, F64.lit 0) else
    let m := mean xs
    let var := F64.sum (xs.map fun x => (x - m) * (x - m)) / F64.ofNat xs.length
    (m, F64.sqrt var)

/-- Lag-1 autocorrelation; zero without variance. -/
def lag1Autocorr (xs : List F) : F :=
  if xs.length < 4 then F64.lit 0 else
    let m := mean xs
    let denom := F64.sum (xs.map fun x => (x - m) * (x - m))
    if F64.le denom (F64.lit 0) then F64.lit 0 else
      F64.sum ((xs.zip xs.tail).map fun w => (w.1 - m) * (w.2 - m)) / denom

/-- The quantile by sorted linear interpolation. -/
def percentile (xs : List F) (q : F) : F :=
  match F64.sort xs with
  | [] => F64.lit 0
  | [x] => x
  | v =>
      let pos := F64.clamp q (F64.lit 0) (F64.lit 1) * F64.ofNat (v.length - 1)
      let lo := F64.floor pos
      let hi := F64.ceil pos
      if lo = hi then v.getD lo (F64.lit 0) else
        let frac := pos - F64.ofNat lo
        v.getD lo (F64.lit 0) * (F64.lit 1 - frac) + v.getD hi (F64.lit 0) * frac

/-- The change of rate from the first to the second half, squashed. -/
def decaySlope (gaps : List F) : F :=
  if gaps.length < 6 then F64.lit 0 else
    let total := F64.sum gaps
    if F64.le total (F64.lit 0) then F64.lit 0 else
      let mid := gaps.length / 2
      let firstTime := F64.sum (gaps.take mid)
      let secondTime := total - firstTime
      if F64.le firstTime (F64.lit 0) || F64.le secondTime (F64.lit 0) then F64.lit 0 else
        let rateFirst := F64.ofNat mid / firstTime
        let rateSecond := F64.ofNat (gaps.length - mid) / secondTime
        if F64.le rateFirst (F64.lit 0) then F64.lit 0 else
          F64.tanh ((rateSecond - rateFirst) / rateFirst * F64.lit (3 / 2))

end Statistics

/-- Raw observations of one session. -/
structure SessionAccumulator (F : Type) where
  interArrivalsMs : List F := []
  interCommandsMs : List F := []
  entropies : List F := []
  keystrokes : ℕ := 0
  pastes : ℕ := 0
  commands : ℕ := 0
  backspaceCommands : ℕ := 0
  pendingCommandIsPaste : Bool := false
  wholeLinePastes : ℕ := 0
  subFloorNonpasteGaps : ℕ := 0

namespace SessionAccumulator
variable [F64 F]

def reactionFloorMs : F := F64.lit 150

def inOpenInterval (x lo hi : F) : Bool := F64.lt lo x && F64.lt x hi

def recordKeystroke (acc : SessionAccumulator F) (interArrivalNs : UInt64) (isPaste : Bool)
    (burstLen : UInt32) : SessionAccumulator F :=
  let ms := F64.ofNat interArrivalNs.toNat / F64.lit 1000000
  { acc with
    keystrokes := acc.keystrokes + max burstLen.toNat 1
    pastes := if isPaste then acc.pastes + 1 else acc.pastes
    pendingCommandIsPaste := isPaste
    interArrivalsMs := if inOpenInterval ms (F64.lit 0) (F64.lit 60000) then
      pushCapped acc.interArrivalsMs ms else acc.interArrivalsMs }

def recordCommand (acc : SessionAccumulator F) (interCommandNs : UInt64) (hadBackspace : Bool)
    (entropy : F) : SessionAccumulator F :=
  let wasPaste := acc.pendingCommandIsPaste
  let ms := F64.ofNat interCommandNs.toNat / F64.lit 1000000
  { acc with
    commands := acc.commands + 1
    backspaceCommands := if hadBackspace then acc.backspaceCommands + 1
      else acc.backspaceCommands
    entropies := pushCapped acc.entropies entropy
    wholeLinePastes := if wasPaste then acc.wholeLinePastes + 1 else acc.wholeLinePastes
    pendingCommandIsPaste := false
    subFloorNonpasteGaps :=
      if inOpenInterval ms (F64.lit 0) reactionFloorMs && !wasPaste then
        acc.subFloorNonpasteGaps + 1 else acc.subFloorNonpasteGaps
    interCommandsMs := if inOpenInterval ms (F64.lit 0) (F64.lit 3600000) then
      pushCapped acc.interCommandsMs ms else acc.interCommandsMs }

def enoughEvidence (acc : SessionAccumulator F) : Bool :=
  decide (minKeystrokes ≤ acc.keystrokes) && decide (minCommands ≤ acc.commands)

/-- Variability within typing bursts; missing with fewer than four short gaps. -/
def keystrokeBurstCv (arrivals : List F) : F :=
  let burstGaps := arrivals.filter fun g => F64.lt g (F64.lit 300)
  let (m, s) := meanStd burstGaps
  if decide (4 ≤ burstGaps.length) && F64.lt (F64.lit 0) m then s / m else F64.nan

def thinkTailRatio (commands : List F) : F :=
  let p50 := percentile commands (F64.lit (1 / 2))
  let p90 := percentile commands (F64.lit (9 / 10))
  if F64.lt (F64.lit 0) p50 then p90 / p50 else F64.nan

/-- The coefficient of variation from a mean and a deviation. -/
def coefficient (m s : F) : F := if F64.lt (F64.lit 0) m then s / m else F64.lit 0

/-- The vector, once there is enough evidence; the temporal features are missing
below the robust number of commands. -/
def features (acc : SessionAccumulator F) : Option (FeatureVector F) :=
  if !acc.enoughEvidence then none else
    let (kaMean, kaStd) := meanStd acc.interArrivalsMs
    let (icMean, icStd) := meanStd acc.interCommandsMs
    let perCommand := max acc.commands 1
    let robust := decide (minCommandsRobust ≤ acc.commands)
    some
      { keystrokeCv := coefficient kaMean kaStd
        pasteRatio := ratio acc.pastes perCommand
        meanInterCommandMs := icMean
        backspaceRatio := ratio acc.backspaceCommands perCommand
        entropyMean := if acc.entropies.isEmpty then F64.lit 0 else mean acc.entropies
        cadenceRegularity := F64.lit 1 - F64.min (coefficient icMean icStd) (F64.lit 1)
        gapAutocorr := if robust then lag1Autocorr acc.interCommandsMs else F64.nan
        thinkTailRatio := if robust then thinkTailRatio acc.interCommandsMs else F64.nan
        throughputDecay := if robust then decaySlope acc.interCommandsMs else F64.nan
        reactionFloorHits := ratio acc.subFloorNonpasteGaps perCommand
        wholeLinePasteRatio := ratio acc.wholeLinePastes perCommand
        keystrokeBurstCv := keystrokeBurstCv acc.interArrivalsMs }

end SessionAccumulator
end Aegis

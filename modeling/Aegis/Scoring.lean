import Aegis.Event
import Aegis.Scalar

/-!
# Risk scoring

`plugin-scoring`: a decaying score for each subject, raised by detections and
process executions and dropped at the end of a session. A handler returns the
payloads it emits; the host builds and routes the events.
-/

namespace Aegis
variable {F : Type}

structure ScoringConfig (F : Type) where
  agentDetectionWeight : F
  processWeight : F
  decay : F
  alertThreshold : F
  uncertainDetectionWeight : F
  uncertainMinConfidence : F

namespace ScoringConfig

def default [F64 F] : ScoringConfig F where
  agentDetectionWeight := F64.lit 60
  processWeight := F64.lit 5
  decay := F64.lit (98 / 100)
  alertThreshold := F64.lit 75
  uncertainDetectionWeight := F64.lit 6
  uncertainMinConfidence := F64.lit (1 / 2)

/-- The check of `init`. -/
def valid [F64 F] (c : ScoringConfig F) : Bool :=
  F64.lt (F64.lit 0) c.decay && F64.le c.decay (F64.lit 1)

end ScoringConfig

/-- Accumulated risk by subject. -/
abbrev RiskState (F : Type) : Type := OrderedTable String F

namespace RiskState
variable [F64 F]

/-- At or below this a score is forgotten. -/
def negligibleScore : F := F64.lit (1 / 100)

def get (s : RiskState F) (subject : String) : F := (s.get? subject).getD (F64.lit 0)

/-- Keeps a score unless it is negligible. -/
def settle (s : RiskState F) (subject : String) (newScore : F) : RiskState F :=
  if F64.le newScore negligibleScore then s.erase subject else s.insert subject newScore

/-- Decays, adds and clamps a subject's score. -/
def bump (s : RiskState F) (subject : String) (delta decay : F) : F × RiskState F :=
  let newScore := F64.clamp (get s subject * decay + delta) (F64.lit 0) (F64.lit 100)
  (newScore, settle s subject newScore)

def remove (s : RiskState F) (subject : String) : RiskState F := s.erase subject

theorem get?_settle (s : RiskState F) (subject : String) (newScore : F) (other : String) :
    (settle s subject newScore).get? other =
      if other = subject then (if F64.le newScore negligibleScore then none else some newScore)
      else s.get? other := by
  unfold settle
  by_cases hle : F64.le newScore negligibleScore = true
  · rw [if_pos hle, if_pos hle, OrderedTable.get?_erase]
  · rw [if_neg hle, if_neg hle, OrderedTable.get?_insert]

theorem settle_restrict_of_pos (s : RiskState F) (p : String → Bool) {subject : String}
    (h : p subject = true) (newScore : F) :
    settle (s.restrict p) subject newScore = (settle s subject newScore).restrict p := by
  unfold settle
  split_ifs
  · exact OrderedTable.restrict_restrict_comm s p _
  · exact (OrderedTable.restrict_insert_of_pos s p newScore h).symm

theorem settle_restrict_of_neg (s : RiskState F) (p : String → Bool) {subject : String}
    (h : p subject = false) (newScore : F) :
    (settle s subject newScore).restrict p = s.restrict p := by
  unfold settle
  split_ifs
  · exact OrderedTable.restrict_erase_of_neg s p h
  · exact OrderedTable.restrict_insert_of_neg s p newScore h

theorem bump_restrict_of_pos (s : RiskState F) (p : String → Bool) {subject : String}
    (h : p subject = true) (delta decay : F) :
    bump (s.restrict p) subject delta decay =
      ((bump s subject delta decay).1, (bump s subject delta decay).2.restrict p) := by
  have hget : get (s.restrict p) subject = get s subject := by
    simp only [get, OrderedTable.get?_restrict, if_pos h]
  simp only [bump, hget, settle_restrict_of_pos s p h]

end RiskState

namespace Scoring
variable [F64 F]

def severityFor (score : F) : Severity :=
  if F64.le (F64.lit 90) score then .critical
  else if F64.le (F64.lit 75) score then .high
  else .medium

def watchlist : List String :=
  ["nc", "ncat", "socat", "nmap", "tcpdump", "scp", "rsync", "curl", "wget", "base64", "openssl",
    "gpg"]

/-- The part of a path after the last slash. -/
def baseName (exe : String) : String :=
  String.ofList (exe.toList.reverse.takeWhile fun ch => ch ≠ '/').reverse

def isSuspiciousExe (exe : String) : Bool := watchlist.contains (baseName exe)

/-- The subject of an interactive user's processes. -/
def uidSubject (uid : UInt32) : String := "uid:" ++ toString uid.toNat

/-- What raises a score: the subject, the amount, and for a detection its
confidence and how agent-like its verdict is. -/
structure Evidence (F : Type) where
  subject : String
  delta : F
  source : Option (F × F)

def evidence (config : ScoringConfig F) : EventPayload F → Option (Evidence F)
  | .detection subject .agent confidence _ _ _ =>
      some ⟨subject, config.agentDetectionWeight * confidence, some (confidence, F64.lit 1)⟩
  | .detection subject .uncertain confidence _ _ _ =>
      if F64.le config.uncertainMinConfidence confidence then
        some ⟨subject, config.uncertainDetectionWeight * confidence,
          some (confidence, F64.lit (1 / 2))⟩
      else none
  | .processExec _ _ uid exe _ _ =>
      some ⟨uidSubject uid, if isSuspiciousExe exe then config.processWeight * F64.lit 3
        else config.processWeight, none⟩
  | _ => none

/-- How a score came about. -/
def explanation (config : ScoringConfig F) (ev : Evidence F) (newScore : F) :
    OrderedTable String F :=
  .ofList ([("risk_score", newScore), ("delta", ev.delta), ("decay", config.decay)] ++
    ev.source.elim [] fun s => [("source_confidence", s.1), ("verdict_agentness", s.2)])

/-- The score, and the alert where it reaches the threshold. -/
def reports (config : ScoringConfig F) (ev : Evidence F) (newScore : F) :
    List (EventPayload F) :=
  .score ev.subject "risk-aggregator/v1" newScore (explanation config ev newScore) ::
    if F64.le config.alertThreshold newScore then
      [.alert (severityFor newScore) "Elevated insider-threat risk"
        ("subject " ++ ev.subject ++ " reached risk score " ++ F64.fixed1 newScore)
        (some ev.subject)]
    else []

/-- `ScoringPlugin::handle`. -/
def handle (config : ScoringConfig F) (state : RiskState F) (payload : EventPayload F) :
    RiskState F × List (EventPayload F) :=
  match payload with
  | .sessionEnd sessionId => (RiskState.remove state sessionId, [])
  | payload => match evidence config payload with
    | none => (state, [])
    | some ev =>
        let (newScore, state') := RiskState.bump state ev.subject ev.delta config.decay
        (state', reports config ev newScore)

def subscriptions : List String := ["detection", "process.exec", "session.end"]

end Scoring
end Aegis

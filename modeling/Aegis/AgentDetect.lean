import Aegis.DetectionModel

/-!
# The agent-versus-human detector

`plugin-agent-detect`: an accumulator for each session, assessed after every few
events and at the end of the session, with an average of the log-odds that may
escalate an undecided session once. A handler runs alone and returns the
payloads it emits.
-/

namespace Aegis
variable {F : Type}

structure DetectConfig (F : Type) where
  assessEvery : ℕ
  assessOnSessionEnd : Bool
  ewmaAlpha : F
  escalateLogit : F
  sessionTtlS : UInt64
  assessOnMissingSession : Bool

namespace DetectConfig
variable [F64 F]

def default : DetectConfig F where
  assessEvery := 10
  assessOnSessionEnd := true
  ewmaAlpha := F64.lit (3 / 10)
  escalateLogit := F64.lit (25 / 100)
  sessionTtlS := 3600
  assessOnMissingSession := false

/-- The check of `init`. -/
def valid (c : DetectConfig F) : Bool :=
  F64.lt (F64.lit 0) c.ewmaAlpha && F64.le c.ewmaAlpha (F64.lit 1)

/-- The idle time in nanoseconds, by a saturating product. -/
def ttlNs (c : DetectConfig F) : ℕ := min (c.sessionTtlS.toNat * 1000000000) (UInt64.size - 1)

end DetectConfig

structure SessionState (F : Type) where
  acc : SessionAccumulator F
  sinceLastAssess : ℕ
  ewmaLogit : F
  ewmaInited : Bool
  escalated : Bool
  lastActivityNs : UInt64

def SessionState.default [F64 F] : SessionState F := ⟨{}, 0, F64.lit 0, false, false, 0⟩

/-- An event recorded at a clock reading. -/
def SessionState.noted (state : SessionState F) (now : UInt64)
    (record : SessionAccumulator F → SessionAccumulator F) : SessionState F :=
  { state with
    acc := record state.acc
    sinceLastAssess := state.sinceLastAssess + 1
    lastActivityNs := now }

/-- The sessions the detector tracks. -/
abbrev Detector (F : Type) : Type := OrderedTable String (SessionState F)

namespace AgentDetect

/-- Drops sessions idle for longer than the limit; a limit of zero keeps all. -/
def evictIdle (sessions : Detector F) (now : UInt64) (ttlNs : ℕ) : Detector F :=
  if ttlNs = 0 then sessions else
    ⟨sessions.rows.filter fun r => now.toNat - r.2.lastActivityNs.toNat ≤ ttlNs,
      sessions.sorted.filter _⟩

variable [F64 F] (model : Model F) (config : DetectConfig F)

/-- The average of the log-odds with a new assessment folded in. -/
def foldLogit (state : SessionState F) (llr : F) : F :=
  if state.ewmaInited then
    config.ewmaAlpha * llr + (F64.lit 1 - config.ewmaAlpha) * state.ewmaLogit
  else llr

/-- What an assessment emits, and whether it escalates. -/
def detection (sessionId : String) (features : FeatureVector F) (a : Assessment F) (ewma : F)
    (escalated : Bool) : EventPayload F × Bool :=
  if F64.le config.escalateLogit ewma && decide (a.verdict = .uncertain) && !escalated then
    (.detection sessionId .agent (F64.max (sigmoid ewma) a.confidence) "transparent-additive/v1"
      ("sequential-escalation" :: a.reasons) features.toMap, true)
  else
    (.detection sessionId a.verdict a.confidence "transparent-additive/v1" a.reasons
      features.toMap, escalated)

/-- `maybe_emit` on the state of a tracked session. -/
def assessSession (sessionId : String) (force : Bool) (state : SessionState F) :
    SessionState F × List (EventPayload F) :=
  if !force && decide (state.sinceLastAssess < config.assessEvery) then (state, []) else
    let state := { state with sinceLastAssess := 0 }
    match state.acc.features with
    | none => (state, [])
    | some features =>
        let a := model.assess features
        let ewma := foldLogit config state (Model.logLikelihoodRatio a)
        let (payload, escalated) := detection config sessionId features a ewma state.escalated
        ({ state with ewmaLogit := ewma, ewmaInited := true, escalated := escalated }, [payload])

def maybeEmit (sessions : Detector F) (sessionId : String) (force : Bool) :
    Detector F × List (EventPayload F) :=
  match sessions.get? sessionId with
  | none => (sessions, [])
  | some state =>
      let (state', emitted) := assessSession model config sessionId force state
      (sessions.insert sessionId state', emitted)

/-- The state in which an event of a session is recorded: of a known session, or of any
session where so configured. -/
def tracked (sessions : Detector F) (sessionId : String) : Option (SessionState F) :=
  match sessions.get? sessionId with
  | some state => some state
  | none => if config.assessOnMissingSession then some .default else none

/-- Records a keystroke or a command. -/
def observe (sessions : Detector F) (sessionId : String) (now : UInt64)
    (record : SessionAccumulator F → SessionAccumulator F) :
    Detector F × List (EventPayload F) :=
  let sessions := evictIdle sessions now config.ttlNs
  match tracked config sessions sessionId with
  | none => (sessions, [])
  | some state =>
      maybeEmit model config (sessions.insert sessionId (state.noted now record)) sessionId false

/-- `AgentDetectPlugin::handle` at a clock reading. -/
def handle (sessions : Detector F) (now : UInt64) (payload : EventPayload F) :
    Detector F × List (EventPayload F) :=
  match payload with
  | .sessionStart sessionId _ _ _ =>
      let sessions := evictIdle sessions now config.ttlNs
      let state := (sessions.get? sessionId).getD .default
      (sessions.insert sessionId { state with lastActivityNs := now }, [])
  | .keystroke sessionId interArrivalNs isPaste burstLen =>
      observe model config sessions sessionId now fun acc =>
        acc.recordKeystroke interArrivalNs isPaste burstLen
  | .commandObserved sessionId _ _ shannonEntropy hadBackspace _ interCommandNs _ =>
      observe model config sessions sessionId now fun acc =>
        acc.recordCommand interCommandNs hadBackspace shannonEntropy
  | .sessionEnd sessionId =>
      let (sessions, emitted) := if config.assessOnSessionEnd then
        maybeEmit model config sessions sessionId true else (sessions, [])
      (sessions.erase sessionId, emitted)
  | _ => (sessions, [])

def subscriptions : List String :=
  ["input.keystroke", "command.observed", "session.start", "session.end"]

theorem observe_eq (sessions : Detector F) (sessionId : String) (now : UInt64)
    (record : SessionAccumulator F → SessionAccumulator F) :
    observe model config sessions sessionId now record =
      match tracked config (evictIdle sessions now config.ttlNs) sessionId with
      | none => (evictIdle sessions now config.ttlNs, [])
      | some state => maybeEmit model config ((evictIdle sessions now config.ttlNs).insert sessionId
          (state.noted now record)) sessionId false := by
  -- the limit is a product too large for the kernel to compute, so it stays behind a name
  obtain ⟨f, hf⟩ : ∃ f, f = @observe F _ := ⟨_, rfl⟩
  rw [← hf]
  delta observe at hf
  rw [hf]

end AgentDetect
end Aegis

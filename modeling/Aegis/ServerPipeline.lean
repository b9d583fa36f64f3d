import Aegis.AgentDetect
import Aegis.Bus
import Aegis.Ingest
import Aegis.Scoring

/-!
# The server pipeline

The ingest loops, the bus of the host, the two central processors and the store
sink. The bus is one ingress queue and a queue for each plugin; a plugin handles
one event at a time and publishes what its handler emitted one by one. Which
queues are full when an event comes to them is left open, so that they may have
any depth: an event of a critical kind waits for its slot, any other is dropped.
Every queued event is traced to the agent whose telemetry it comes from, which
no step reads.
-/

namespace Aegis
variable {F : Type}

/-- A row of a table of derived records. -/
inductive DerivedRow (F : Type) where
  | detection (row : DetectionRow F)
  | score (row : ScoreRow F)
  | alert (row : AlertRow)

namespace DerivedRow

def agentId : DerivedRow F → AgentId
  | .detection row => row.agentId
  | .score row => row.agentId
  | .alert row => row.agentId

/-- The row that an event of a derived kind stands for. -/
def fromEvent (alertId : Uuid) (ev : Event F) : Option (DerivedRow F) :=
  if ev.kind = "detection" then (DetectionRow.fromEvent ev).map .detection
  else if ev.kind = "score" then (ScoreRow.fromEvent ev).map .score
  else if ev.kind = "alert" then (AlertRow.fromEvent alertId ev).map .alert
  else none

def put (s : Store F) (alertId : Uuid) : DerivedRow F → Store F
  | .detection row => s.upsertDetection row
  | .score row => s.upsertScore row
  | .alert row => s.appendAlert alertId row

theorem fromEvent_agentId {alertId : Uuid} {ev : Event F} {row : DerivedRow F}
    (h : fromEvent alertId ev = some row) : row.agentId = ev.agentId := by
  unfold fromEvent at h
  split_ifs at h
  · obtain ⟨r, hr, rfl⟩ := Option.map_eq_some_iff.mp h
    exact DetectionRow.fromEvent_agentId hr
  · obtain ⟨r, hr, rfl⟩ := Option.map_eq_some_iff.mp h
    exact ScoreRow.fromEvent_agentId hr
  · obtain ⟨r, hr, rfl⟩ := Option.map_eq_some_iff.mp h
    exact AlertRow.fromEvent_agentId hr

end DerivedRow

namespace StoreSink

def subscriptions : List String := ["score", "detection", "alert", "heartbeat"]

/-- What becomes of an event at the sink. -/
inductive Outcome (F : Type) where
  | lost
  | logged (store : Store F)
  | touched (store : Store F)
  | wrote (store : Store F) (row : DerivedRow F)

/-- The audit log, then the write of the kind; `logged` and `committed` say whether
the two transactions commit. -/
def outcome [JsonFloat F] (store : Store F) (alertId : Uuid) (logged committed : Bool)
    (ev : Event F) : Outcome F :=
  match if logged then store.writeEvent ev else none with
  | none => .lost
  | some store =>
      if !committed then .logged store
      else if ev.kind = "heartbeat" then .touched (store.touchAgent ev.agentId ev.tsNs)
      else match DerivedRow.fromEvent alertId ev with
        | some row => .wrote (row.put store alertId) row
        | none => .logged store

/-- `StoreSink::handle`: the store behind it, and the derived row it wrote. -/
def handle [JsonFloat F] (store : Store F) (alertId : Uuid) (logged committed : Bool)
    (ev : Event F) : Store F × Option (DerivedRow F) :=
  match outcome store alertId logged committed ev with
  | .lost => (store, none)
  | .logged store => (store, none)
  | .touched store => (store, none)
  | .wrote store row => (store, some row)

/-- What an outcome can be, with the transactions that it takes. -/
theorem outcome_cases [JsonFloat F] (store : Store F) (alertId : Uuid) (logged committed : Bool)
    (ev : Event F) :
    (outcome store alertId logged committed ev = .lost ∧
      (logged = true → store.writeEvent ev = none)) ∨
    ∃ next, logged = true ∧ store.writeEvent ev = some next ∧
      ((outcome store alertId logged committed ev = .logged next ∧
          (committed = true → ev.kind ≠ "heartbeat" ∧ DerivedRow.fromEvent alertId ev = none)) ∨
        (outcome store alertId logged committed ev =
            .touched (next.touchAgent ev.agentId ev.tsNs) ∧
          committed = true ∧ ev.kind = "heartbeat") ∨
        ∃ row, outcome store alertId logged committed ev = .wrote (row.put next alertId) row ∧
          committed = true ∧ ev.kind ≠ "heartbeat" ∧
          DerivedRow.fromEvent alertId ev = some row) := by
  unfold outcome
  cases logged with
  | false => exact Or.inl ⟨rfl, fun h => absurd h Bool.false_ne_true⟩
  | true =>
      cases hwrite : store.writeEvent ev with
      | none => exact Or.inl ⟨rfl, fun _ => rfl⟩
      | some next =>
          refine Or.inr ⟨next, rfl, rfl, ?_⟩
          cases committed with
          | false => exact Or.inl ⟨rfl, fun h => absurd h Bool.false_ne_true⟩
          | true =>
              by_cases hkind : ev.kind = "heartbeat"
              · exact Or.inr (Or.inl ⟨by simp [hkind], rfl, hkind⟩)
              · cases hrow : DerivedRow.fromEvent alertId ev with
                | none => exact Or.inl ⟨by simp [hkind], fun _ => ⟨hkind, rfl⟩⟩
                | some row =>
                    exact Or.inr (Or.inr ⟨row, by simp [hkind], rfl, hkind, rfl⟩)

end StoreSink

/-- An event with the agent it comes from, and whether it came off the wire. -/
structure Traced (F : Type) where
  origin : AgentId
  wire : Bool
  event : Event F

/-- A derived row with the event it was written for. -/
structure Written (F : Type) where
  source : Traced F
  row : DerivedRow F

structure ServerConfig (F : Type) where
  hostId : AgentId
  model : Model F
  detect : DetectConfig F
  scoring : ScoringConfig F

def ServerConfig.default [F64 F] : ServerConfig F := ⟨"aegisd", .default, .default, .default⟩

structure Server (F : Type) where
  ingest : Ingest F
  ingress : List (Traced F)
  detectQueue : List (Traced F)
  scoreQueue : List (Traced F)
  sinkQueue : List (Traced F)
  detector : Detector F
  risk : RiskState F
  detectOutbox : List (AgentId × EventPayload F)
  scoreOutbox : List (AgentId × EventPayload F)
  published : List (Traced F)
  written : List (Written F)

/-- `ScopedEmitter::emit`: the host asserts the source and the agent. -/
def scopedEmit (hostId : AgentId) (source : String) (event : Event F) : Event F :=
  { event with source := source, agentId := hostId }

namespace Server

/-- The plugins' queues that have no room for an event. -/
structure Full where
  detect : Bool := false
  score : Bool := false
  sink : Bool := false
deriving DecidableEq

inductive Act (F : Type) where
  | ingest (a : Ingest.Act F) (full : Bool := false)
  | dispatch (full : Full := {})
  | detect (now : UInt64)
  | publishDetection (id : Uuid) (now : UInt64)
  | score
  | publishScore (id : Uuid) (now : UInt64)
  | sink (alertId : Uuid) (logged committed : Bool)

def start (store : Store F) : Server F where
  ingest := .start store
  ingress := []
  detectQueue := []
  scoreQueue := []
  sinkQueue := []
  detector := .empty
  risk := .empty
  detectOutbox := []
  scoreOutbox := []
  published := []
  written := []

/-- Whether an event of the kind is dropped at a queue. -/
def drops (full : Bool) (kind : String) : Bool := full && !isCriticalKind kind

/-- What an ingest step emits. -/
def arrivals (before after : Ingest F) : List (Traced F) :=
  (after.emitted.drop before.emitted.length).map fun e => ⟨e.agentId, true, e⟩

/-- The events that the ingress queue takes. -/
def boarding (full : Bool) (ts : List (Traced F)) : List (Traced F) :=
  ts.filter fun t => !drops full t.event.kind

def enqueue (subscriptions : List String) (full : Bool) (queue : List (Traced F)) (t : Traced F) :
    List (Traced F) :=
  if subscriptions.contains t.event.kind && !drops full t.event.kind then queue ++ [t] else queue

/-- A payload from a plugin's outbox as an event on the bus. -/
def publication (cfg : ServerConfig F) (plugin : String) (id : Uuid) (now : UInt64)
    (x : AgentId × EventPayload F) : Traced F :=
  ⟨x.1, false, scopedEmit cfg.hostId plugin (.new id now cfg.hostId plugin x.2)⟩

variable [F64 F] (cfg : ServerConfig F)

def step (s : Server F) : Act F → Option (Server F)
  | .ingest a full => (s.ingest.step a).map fun i =>
      { s with ingest := i, ingress := s.ingress ++ boarding full (arrivals s.ingest i) }
  | .dispatch full => match s.ingress with
    | [] => none
    | t :: rest => some
        { s with
          ingress := rest
          detectQueue := enqueue AgentDetect.subscriptions full.detect s.detectQueue t
          scoreQueue := enqueue Scoring.subscriptions full.score s.scoreQueue t
          sinkQueue := enqueue StoreSink.subscriptions full.sink s.sinkQueue t }
  | .detect now => match s.detectOutbox, s.detectQueue with
    | [], t :: rest =>
        let (detector, emitted) :=
          AgentDetect.handle cfg.model cfg.detect s.detector now t.event.payload
        some { s with
          detectQueue := rest
          detector := detector
          detectOutbox := emitted.map fun p => (t.origin, p) }
    | _, _ => none
  | .publishDetection id now => match s.detectOutbox with
    | [] => none
    | x :: rest =>
        let t := publication cfg "plugin-agent-detect" id now x
        some { s with
          detectOutbox := rest
          ingress := s.ingress ++ [t]
          published := s.published ++ [t] }
  | .score => match s.scoreOutbox, s.scoreQueue with
    | [], t :: rest =>
        let (risk, emitted) := Scoring.handle cfg.scoring s.risk t.event.payload
        some { s with
          scoreQueue := rest
          risk := risk
          scoreOutbox := emitted.map fun p => (t.origin, p) }
    | _, _ => none
  | .publishScore id now => match s.scoreOutbox with
    | [] => none
    | x :: rest =>
        let t := publication cfg "plugin-scoring" id now x
        some { s with
          scoreOutbox := rest
          ingress := s.ingress ++ [t]
          published := s.published ++ [t] }
  | .sink alertId logged committed => match s.sinkQueue with
    | [] => none
    | t :: rest =>
        let (store, row) := StoreSink.handle s.ingest.store alertId logged committed t.event
        some { s with
          sinkQueue := rest
          ingest := { s.ingest with store := store }
          written := s.written ++ (row.map fun r => ⟨t, r⟩).toList }

end Server
end Aegis

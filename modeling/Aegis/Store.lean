import Aegis.EventCodec
import Mathlib.Data.Prod.Lex

/-!
# The server's store

The tables of `store.rs` that telemetry reaches. A row is kept as the structure
it encodes, and each write is one transaction: it happens whole or not at all.
-/

namespace Aegis
variable {F : Type}

/-- Big-endian time before the id: keys compare by time first. -/
abbrev CompositeKey : Type := ℕ ×ₗ Uuid

def compositeKey (tsNs : UInt64) (id : Uuid) : CompositeKey := toLex (tsNs.toNat, id)

def subjectKey (agentId subject : String) : String := agentId ++ ":" ++ subject

/-- The keys kept in one agent's index. -/
def agentEventIndexLimit : ℕ := 10000

structure EventRow (F : Type) where
  id : Uuid
  tsNs : UInt64
  agentId : String
  source : String
  kind : String
  payloadJson : Json F

structure DetectionRow (F : Type) where
  agentId : String
  subject : String
  verdict : String
  confidence : F
  model : String
  reasons : List String
  tsNs : UInt64

structure ScoreRow (F : Type) where
  agentId : String
  subject : String
  model : String
  score : F
  tsNs : UInt64

structure AlertRow where
  id : String
  agentId : String
  severity : String
  title : String
  detail : String
  subject : Option String
  tsNs : UInt64
  acknowledged : Bool
deriving DecidableEq, Repr

structure AgentRow where
  agentId : String
  hostname : String
  os : String
  pubkey : List UInt8
  enrolledAtNs : UInt64
  lastSeenNs : UInt64
deriving DecidableEq, Repr

/-- `DetectionRow::from_event`. -/
def DetectionRow.fromEvent (ev : Event F) : Option (DetectionRow F) :=
  match ev.payload with
  | .detection subject verdict confidence model reasons _ => some
      { agentId := ev.agentId, subject := subject, verdict := verdict.display,
        confidence := confidence, model := model, reasons := reasons, tsNs := ev.tsNs }
  | _ => none

/-- `ScoreRow::from_event`. -/
def ScoreRow.fromEvent (ev : Event F) : Option (ScoreRow F) :=
  match ev.payload with
  | .score subject model score _ => some
      { agentId := ev.agentId, subject := subject, model := model, score := score,
        tsNs := ev.tsNs }
  | _ => none

/-- `AlertRow::from_event`, under a fresh id. -/
def AlertRow.fromEvent (id : Uuid) (ev : Event F) : Option AlertRow :=
  match ev.payload with
  | .alert severity title detail subject => some
      { id := id.text, agentId := ev.agentId, severity := severity.name, title := title,
        detail := detail, subject := subject, tsNs := ev.tsNs, acknowledged := false }
  | _ => none

theorem DetectionRow.fromEvent_agentId {ev : Event F} {row : DetectionRow F}
    (h : fromEvent ev = some row) : row.agentId = ev.agentId := by
  unfold fromEvent at h
  split at h
  · cases h
    rfl
  · cases h

theorem ScoreRow.fromEvent_agentId {ev : Event F} {row : ScoreRow F}
    (h : fromEvent ev = some row) : row.agentId = ev.agentId := by
  unfold fromEvent at h
  split at h
  · cases h
    rfl
  · cases h

theorem AlertRow.fromEvent_agentId {id : Uuid} {ev : Event F} {row : AlertRow}
    (h : fromEvent id ev = some row) : row.agentId = ev.agentId := by
  unfold fromEvent at h
  split at h
  · cases h
    rfl
  · cases h

theorem compositeKey_id {ts ts' : UInt64} {id id' : Uuid}
    (h : compositeKey ts id = compositeKey ts' id') : id = id' :=
  congrArg (fun k : CompositeKey => (ofLex k).2) h

/-- The tables; an event row is under the key of its own time and id. -/
structure Store (F : Type) where
  events : OrderedTable CompositeKey (EventRow F)
  eventsByAgent : OrderedTable String (List CompositeKey)
  detections : OrderedTable String (DetectionRow F)
  scores : OrderedTable String (ScoreRow F)
  alerts : OrderedTable CompositeKey AlertRow
  agents : OrderedTable String AgentRow
  keyed : ∀ r ∈ events.rows, r.1 = compositeKey r.2.tsNs r.2.id

/-- What `touch_agent` does to its table: nothing for an agent that is not enrolled. -/
def touchRow (agents : OrderedTable String AgentRow) (agentId : String) (tsNs : UInt64) :
    OrderedTable String AgentRow :=
  match agents.get? agentId with
  | some row => agents.insert agentId { row with lastSeenNs := tsNs }
  | none => agents

namespace Store

def empty : Store F := ⟨.empty, .empty, .empty, .empty, .empty, .empty, nofun⟩

def eventRow (ev : Event F) (payloadJson : Json F) : EventRow F where
  id := ev.id
  tsNs := ev.tsNs
  agentId := ev.agentId
  source := ev.source
  kind := ev.kind
  payloadJson := payloadJson

/-- The raw audit log and the agent's index, in one transaction; nothing when
the payload does not serialize. -/
def writeEvent [JsonFloat F] (s : Store F) (ev : Event F) : Option (Store F) :=
  ev.payload.serialize.map fun payloadJson =>
    let key := compositeKey ev.tsNs ev.id
    let keys := (s.eventsByAgent.get? ev.agentId).getD [] ++ [key]
    { s with
      events := s.events.insert key (eventRow ev payloadJson)
      eventsByAgent := s.eventsByAgent.insert ev.agentId
        (keys.drop (keys.length - agentEventIndexLimit))
      keyed := fun r hr => by
        rcases OrderedTable.mem_insert_rows hr with rfl | hr
        · rfl
        · exact s.keyed r hr }

def upsertDetection (s : Store F) (row : DetectionRow F) : Store F :=
  { s with detections := s.detections.insert (subjectKey row.agentId row.subject) row }

def upsertScore (s : Store F) (row : ScoreRow F) : Store F :=
  { s with scores := s.scores.insert (subjectKey row.agentId row.subject) row }

/-- An id that is no UUID is stored under the fresh one. -/
def appendAlert (s : Store F) (fresh : Uuid) (row : AlertRow) : Store F :=
  let id := (Uuid.parseStr row.id).getD fresh
  { s with alerts := s.alerts.insert (compositeKey row.tsNs id) row }

def touchAgent (s : Store F) (agentId : String) (tsNs : UInt64) : Store F :=
  { s with agents := touchRow s.agents agentId tsNs }

/-- A call of `touch_agent` whose caller ignores that it fails. -/
def touchAgentIf (s : Store F) (committed : Bool) (agentId : String) (tsNs : UInt64) : Store F :=
  if committed then s.touchAgent agentId tsNs else s

def scoresForAgent (s : Store F) (agentId : String) : List (ScoreRow F) :=
  (s.scores.rows.map Prod.snd).filter fun r => r.agentId = agentId

def detectionsForAgent (s : Store F) (agentId : String) : List (DetectionRow F) :=
  (s.detections.rows.map Prod.snd).filter fun r => r.agentId = agentId

/-- One page of an agent's events, newest first, read through its index. -/
def eventsForAgent (s : Store F) (agentId : String) (page pageSize : ℕ) : List (EventRow F) :=
  let keys := (s.eventsByAgent.get? agentId).getD []
  let total := keys.length
  let skip := page * pageSize
  if total ≤ skip then [] else
    let finish := total - skip
    let start := finish - pageSize
    ((keys.take finish).drop start).reverse.filterMap s.events.get?

/-- The most recent alerts, newest first. -/
def alertsRecent (s : Store F) (limit : ℕ) : List AlertRow :=
  (s.alerts.rows.map Prod.snd).reverse.take limit

/-- A row of the audit log has this id. -/
def Logged (s : Store F) (id : Uuid) : Prop := ∃ r ∈ s.events.rows, r.2.id = id

instance (s : Store F) (id : Uuid) : Decidable (s.Logged id) :=
  inferInstanceAs (Decidable (∃ r ∈ s.events.rows, r.2.id = id))

theorem touchAgent_eq (s : Store F) (agentId : String) (tsNs : UInt64) :
    s.touchAgent agentId tsNs = { s with agents := (s.touchAgent agentId tsNs).agents } :=
  rfl

theorem touchAgentIf_eq (s : Store F) (committed : Bool) (agentId : String) (tsNs : UInt64) :
    s.touchAgentIf committed agentId tsNs =
      { s with agents := (s.touchAgentIf committed agentId tsNs).agents } := by
  cases committed
  · rfl
  · exact touchAgent_eq s agentId tsNs

section Touched
variable (s : Store F) (committed : Bool) (agentId : String) (tsNs : UInt64)

@[simp] theorem touchAgent_events : (s.touchAgent agentId tsNs).events = s.events := by
  rw [touchAgent_eq]

@[simp] theorem touchAgentIf_events :
    (s.touchAgentIf committed agentId tsNs).events = s.events := by
  rw [touchAgentIf_eq]

@[simp] theorem touchAgent_eventsByAgent :
    (s.touchAgent agentId tsNs).eventsByAgent = s.eventsByAgent := by
  rw [touchAgent_eq]

@[simp] theorem touchAgentIf_eventsByAgent :
    (s.touchAgentIf committed agentId tsNs).eventsByAgent = s.eventsByAgent := by
  rw [touchAgentIf_eq]

@[simp] theorem touchAgent_detections : (s.touchAgent agentId tsNs).detections = s.detections := by
  rw [touchAgent_eq]

@[simp] theorem touchAgentIf_detections :
    (s.touchAgentIf committed agentId tsNs).detections = s.detections := by
  rw [touchAgentIf_eq]

@[simp] theorem touchAgent_scores : (s.touchAgent agentId tsNs).scores = s.scores := by
  rw [touchAgent_eq]

@[simp] theorem touchAgentIf_scores :
    (s.touchAgentIf committed agentId tsNs).scores = s.scores := by
  rw [touchAgentIf_eq]

@[simp] theorem touchAgent_alerts : (s.touchAgent agentId tsNs).alerts = s.alerts := by
  rw [touchAgent_eq]

@[simp] theorem touchAgentIf_alerts :
    (s.touchAgentIf committed agentId tsNs).alerts = s.alerts := by
  rw [touchAgentIf_eq]

end Touched

theorem writeEvent_logged [JsonFloat F] {s s' : Store F} {ev : Event F}
    (h : s.writeEvent ev = some s') (id : Uuid) : s'.Logged id ↔ id = ev.id ∨ s.Logged id := by
  obtain ⟨payloadJson, -, rfl⟩ := Option.map_eq_some_iff.mp h
  constructor
  · rintro ⟨r, hr, rfl⟩
    rcases OrderedTable.mem_insert_rows hr with rfl | hr
    · exact Or.inl rfl
    · exact Or.inr ⟨r, hr, rfl⟩
  · rintro (rfl | ⟨r, hr, rfl⟩)
    · exact ⟨_, OrderedTable.insertRow_mem _ _ _, rfl⟩
    · by_cases hkey : r.1 = compositeKey ev.tsNs ev.id
      · refine ⟨_, OrderedTable.insertRow_mem _ _ _, ?_⟩
        exact compositeKey_id (hkey.symm.trans (s.keyed r hr))
      · exact ⟨r, OrderedTable.mem_insertRow_of_ne hr hkey, rfl⟩

end Store
end Aegis

import Aegis.DedupWindow
import Aegis.GuardedRun
import Aegis.Store

/-!
# The ingest read loops

`read_loop` of `ingest.rs`, one per authenticated session, over one store and
one shared window of event ids. Sessions run in parallel, so a step is what one
of them does between two points where another may act: the two window checks,
the write, the emission and the ack of a batch. `acked`, `turnedAway` and
`failed` record the past and no step reads them.
-/

namespace Aegis
variable {F : Type}

def dedupCapacity : ℕ := 65536

def globalDedupCapacity : ℕ := 262144

/-- One hour. -/
def maxTsSkewNs : ℕ := 60 * 60 * 1000000000

def maxSourceLen : ℕ := 128

def maxLabels : ℕ := 32

def maxLabelKvLen : ℕ := 256

/-- The raw telemetry kinds an agent may push. -/
def ingestibleKinds : List String :=
  ["input.keystroke", "command.observed", "session.start", "session.end", "process.exec",
    "heartbeat"]

def isIngestible (kind : String) : Bool := ingestibleKinds.contains kind

/-- The longest run of leading characters within a budget of bytes. -/
def takeBytes : ℕ → List Char → List Char
  | _, [] => []
  | max, ch :: rest => if ch.utf8Size ≤ max then ch :: takeBytes (max - ch.utf8Size) rest else []

def truncateTo (s : String) (max : ℕ) : String :=
  if s.utf8ByteSize ≤ max then s else String.ofList (takeBytes max s.toList)

def sanitizeLabels (labels : OrderedTable String String) : OrderedTable String String :=
  if maxLabels < labels.rows.length ∨
      ∃ r ∈ labels.rows, maxLabelKvLen < r.1.utf8ByteSize ∨ maxLabelKvLen < r.2.utf8ByteSize then
    .ofList ((labels.rows.take maxLabels).map fun r =>
      (truncateTo r.1 maxLabelKvLen, truncateTo r.2 maxLabelKvLen))
  else labels

/-- A time outside the window around the server's clock becomes that clock. -/
def clampTs (now ts : UInt64) : UInt64 :=
  let lo := now.toNat - maxTsSkewNs
  let hi := min (now.toNat + maxTsSkewNs) (UInt64.size - 1)
  if ts.toNat < lo ∨ hi < ts.toNat then now else ts

/-- Clamps the fields an agent supplies besides its identity and the kind. -/
def sanitizeIngestFields (now : UInt64) (event : Event F) : Event F :=
  { event with
    tsNs := clampTs now event.tsNs
    source := truncateTo event.source maxSourceLen
    labels := sanitizeLabels event.labels }

/-- What an admitted event looks like in the store and on the bus. -/
def admitted (agentId : AgentId) (now : UInt64) (event : Event F) : Event F :=
  sanitizeIngestFields now { event with agentId := agentId }

@[simp] theorem admitted_id (agentId : AgentId) (now : UInt64) (event : Event F) :
    (admitted agentId now event).id = event.id := by
  cases event
  rfl

@[simp] theorem admitted_agentId (agentId : AgentId) (now : UInt64) (event : Event F) :
    (admitted agentId now event).agentId = agentId := by
  cases event
  rfl

@[simp] theorem admitted_kind (agentId : AgentId) (now : UInt64) (event : Event F) :
    (admitted agentId now event).kind = event.kind := by
  cases event
  rfl

@[simp] theorem admitted_payload (agentId : AgentId) (now : UInt64) (event : Event F) :
    (admitted agentId now event).payload = event.payload := by
  cases event
  rfl

/-- The event a loop is working on: none, past the windows, or written. -/
inductive Holding (F : Type) where
  | nothing
  | checked (event : Event F)
  | written (event : Event F)

/-- A batch being read, with the events still to be looked at. -/
structure Reading (F : Type) where
  batchId : Uuid
  events : List (Event F)
  todo : List (Event F)
  holding : Holding F
  accepted : ℕ

structure Session (F : Type) where
  agentId : AgentId
  seen : DedupWindow Uuid
  reading : Option (Reading F)

/-- The event that is past the windows and not yet written. -/
def Session.checked (ses : Session F) : Option (Event F) :=
  match ses.reading with
  | some r => match r.holding with
    | .checked e => some e
    | _ => none
  | none => none

/-- A batch that was acknowledged. -/
structure AckedBatch (F : Type) where
  agentId : AgentId
  batchId : Uuid
  events : List (Event F)
  accepted : ℕ

structure Ingest (F : Type) where
  sessions : OrderedTable ℕ (Session F)
  globalDedup : DedupWindow Uuid
  store : Store F
  emitted : List (Event F)
  acked : List (AckedBatch F)
  turnedAway : List (Event F)
  failed : List (Event F)

namespace Ingest

/-- `committed` and `touched` say whether the store's transaction commits, `sent` whether the
ack could be written to the connection. -/
inductive Act (F : Type) where
  | accept (conn : ℕ) (agentId : AgentId)
  | recv (conn : ℕ) (batchId : Uuid) (events : List (Event F))
  | check (conn : ℕ)
  | write (conn : ℕ) (now : UInt64) (committed : Bool)
  | emit (conn : ℕ)
  | ack (conn : ℕ) (now : UInt64) (sent : Bool) (touched : Bool := true)
  | close (conn : ℕ)

def start (store : Store F) : Ingest F where
  sessions := .empty
  globalDedup := .new globalDedupCapacity
  store := store
  emitted := []
  acked := []
  turnedAway := []
  failed := []

def put (s : Ingest F) (conn : ℕ) (ses : Session F) : Ingest F :=
  { s with sessions := s.sessions.insert conn ses }

/-- The two window checks of the next event. -/
def check (s : Ingest F) (conn : ℕ) (ses : Session F) (r : Reading F) (e : Event F)
    (rest : List (Event F)) : Ingest F :=
  let (fresh, seen) := ses.seen.insert e.id
  if !fresh then s.put conn { ses with reading := some { r with todo := rest } } else
    let (fresh, globalDedup) := s.globalDedup.insert e.id
    if !fresh then
      s.put conn { ses with seen := seen, reading := some { r with todo := rest } }
    else
      { s.put conn { ses with
          seen := seen
          reading := some { r with todo := rest, holding := .checked e } } with
        globalDedup := globalDedup }

/-- The allow-list and the write to the audit log. -/
def write [JsonFloat F] (s : Ingest F) (conn : ℕ) (ses : Session F) (r : Reading F) (e : Event F)
    (now : UInt64) (committed : Bool) : Ingest F :=
  let s' := s.put conn { ses with reading := some { r with holding := .nothing } }
  if !isIngestible e.kind then { s' with turnedAway := s.turnedAway ++ [e] } else
    let e' := admitted ses.agentId now e
    match if committed then s.store.writeEvent e' else none with
    | none => { s' with failed := s.failed ++ [e'] }
    | some store =>
        { s.put conn { ses with reading := some { r with holding := .written e' } } with
          store := store }

def step [JsonFloat F] (s : Ingest F) : Act F → Option (Ingest F)
  | .accept conn agentId =>
      match s.sessions.get? conn with
      | some _ => none
      | none => some (s.put conn ⟨agentId, .new dedupCapacity, none⟩)
  | .recv conn batchId events => do
      let ses ← s.sessions.get? conn
      match ses.reading with
      | some _ => none
      | none =>
          some (s.put conn { ses with reading := some ⟨batchId, events, events, .nothing, 0⟩ })
  | .check conn => do
      let ses ← s.sessions.get? conn
      let r ← ses.reading
      match r.holding, r.todo with
      | .nothing, e :: rest => some (s.check conn ses r e rest)
      | _, _ => none
  | .write conn now committed => do
      let ses ← s.sessions.get? conn
      let r ← ses.reading
      match r.holding with
      | .checked e => some (s.write conn ses r e now committed)
      | _ => none
  | .emit conn => do
      let ses ← s.sessions.get? conn
      let r ← ses.reading
      match r.holding with
      | .written e =>
          some { s.put conn { ses with
              reading := some { r with holding := .nothing, accepted := r.accepted + 1 } } with
            emitted := s.emitted ++ [e] }
      | _ => none
  | .ack conn now sent touched => do
      let ses ← s.sessions.get? conn
      let r ← ses.reading
      match r.holding, r.todo with
      | .nothing, [] =>
          let s' := { s with store := s.store.touchAgentIf touched ses.agentId now }
          if sent then
            some { s'.put conn { ses with reading := none } with
              acked := s.acked ++ [⟨ses.agentId, r.batchId, r.events, r.accepted⟩] }
          else some { s' with sessions := s.sessions.erase conn }
      | _, _ => none
  | .close conn => do
      let ses ← s.sessions.get? conn
      match ses.checked with
      | some _ => none
      | none => some { s with sessions := s.sessions.erase conn }

/-- The event that a session would check next. -/
def next (s : Ingest F) (conn : ℕ) : Option (Event F) := do
  let ses ← s.sessions.get? conn
  let r ← ses.reading
  match r.holding with
  | .nothing => r.todo.head?
  | _ => none

/-- The event that a session would write next. -/
def checked (s : Ingest F) (conn : ℕ) : Option (Event F) :=
  (s.sessions.get? conn).bind Session.checked

/-- The changes a step may be. -/
inductive Move [JsonFloat F] (s : Ingest F) : Act F → Ingest F → Prop
  | accept {conn : ℕ} (agentId : AgentId) : s.sessions.get? conn = none →
      Move s (.accept conn agentId) (s.put conn ⟨agentId, .new dedupCapacity, none⟩)
  | recv {conn : ℕ} {ses : Session F} (batchId : Uuid) (events : List (Event F)) :
      s.sessions.get? conn = some ses → ses.reading = none →
      Move s (.recv conn batchId events)
        (s.put conn { ses with reading := some ⟨batchId, events, events, .nothing, 0⟩ })
  | skip {conn : ℕ} {ses : Session F} {r : Reading F} {e : Event F} {rest : List (Event F)} :
      s.sessions.get? conn = some ses → ses.reading = some r → r.holding = .nothing →
      r.todo = e :: rest → e.id ∈ ses.seen ∨ e.id ∈ s.globalDedup →
      Move s (.check conn) (s.put conn
        { ses with seen := (ses.seen.insert e.id).2, reading := some { r with todo := rest } })
  | allow {conn : ℕ} {ses : Session F} {r : Reading F} {e : Event F} {rest : List (Event F)} :
      s.sessions.get? conn = some ses → ses.reading = some r → r.holding = .nothing →
      r.todo = e :: rest → e.id ∉ ses.seen → e.id ∉ s.globalDedup →
      Move s (.check conn)
        { s.put conn { ses with
            seen := (ses.seen.insert e.id).2
            reading := some { r with todo := rest, holding := .checked e } } with
          globalDedup := (s.globalDedup.insert e.id).2 }
  | turnAway {conn : ℕ} {ses : Session F} {r : Reading F} {e : Event F} (now : UInt64)
      (committed : Bool) : s.sessions.get? conn = some ses → ses.reading = some r →
      r.holding = .checked e → isIngestible e.kind = false →
      Move s (.write conn now committed)
        { s.put conn { ses with reading := some { r with holding := .nothing } } with
          turnedAway := s.turnedAway ++ [e] }
  | fail {conn : ℕ} {ses : Session F} {r : Reading F} {e : Event F} {now : UInt64}
      {committed : Bool} : s.sessions.get? conn = some ses → ses.reading = some r →
      r.holding = .checked e → isIngestible e.kind = true →
      (committed = true → s.store.writeEvent (admitted ses.agentId now e) = none) →
      Move s (.write conn now committed)
        { s.put conn { ses with reading := some { r with holding := .nothing } } with
          failed := s.failed ++ [admitted ses.agentId now e] }
  | store {conn : ℕ} {ses : Session F} {r : Reading F} {e : Event F} {now : UInt64}
      {store : Store F} : s.sessions.get? conn = some ses → ses.reading = some r →
      r.holding = .checked e → isIngestible e.kind = true →
      s.store.writeEvent (admitted ses.agentId now e) = some store →
      Move s (.write conn now true)
        { s.put conn { ses with
            reading := some { r with holding := .written (admitted ses.agentId now e) } } with
          store := store }
  | emit {conn : ℕ} {ses : Session F} {r : Reading F} {e : Event F} :
      s.sessions.get? conn = some ses → ses.reading = some r → r.holding = .written e →
      Move s (.emit conn)
        { s.put conn { ses with
            reading := some { r with holding := .nothing, accepted := r.accepted + 1 } } with
          emitted := s.emitted ++ [e] }
  | ack {conn : ℕ} {ses : Session F} {r : Reading F} (now : UInt64) (touched : Bool) :
      s.sessions.get? conn = some ses → ses.reading = some r → r.holding = .nothing →
      r.todo = [] →
      Move s (.ack conn now true touched)
        { s.put conn { ses with reading := none } with
          store := s.store.touchAgentIf touched ses.agentId now
          acked := s.acked ++ [⟨ses.agentId, r.batchId, r.events, r.accepted⟩] }
  | unsent {conn : ℕ} {ses : Session F} (now : UInt64) (touched : Bool) :
      s.sessions.get? conn = some ses → ses.checked = none →
      Move s (.ack conn now false touched)
        { s with
          sessions := s.sessions.erase conn
          store := s.store.touchAgentIf touched ses.agentId now }
  | close {conn : ℕ} {ses : Session F} : s.sessions.get? conn = some ses → ses.checked = none →
      Move s (.close conn) { s with sessions := s.sessions.erase conn }

theorem step_move [JsonFloat F] {s u : Ingest F} {a : Act F} (h : s.step a = some u) :
    Move s a u := by
  cases a with
  | accept conn agentId =>
      simp only [step] at h
      split at h
      · cases h
      · cases h
        apply Move.accept
        assumption
  | recv conn batchId events =>
      simp only [step, Option.bind_eq_bind, Option.bind_eq_some_iff] at h
      obtain ⟨ses, hses, h⟩ := h
      split at h
      · cases h
      · cases h
        apply Move.recv batchId events hses
        assumption
  | check conn =>
      simp only [step, Option.bind_eq_bind, Option.bind_eq_some_iff] at h
      obtain ⟨ses, hses, r, hr, h⟩ := h
      split at h
      · rename_i e rest hholding htodo
        cases h
        by_cases hseen : e.id ∈ ses.seen
        · have hskip := Move.skip hses hr hholding htodo (Or.inl hseen)
          simpa [check, hseen] using hskip
        · by_cases hglobal : e.id ∈ s.globalDedup
          · have hskip := Move.skip hses hr hholding htodo (Or.inr hglobal)
            simpa [check, hseen, hglobal] using hskip
          · have hadmit := Move.allow hses hr hholding htodo hseen hglobal
            simpa [check, hseen, hglobal] using hadmit
      · cases h
  | write conn now committed =>
      simp only [step, Option.bind_eq_bind, Option.bind_eq_some_iff] at h
      obtain ⟨ses, hses, r, hr, h⟩ := h
      split at h
      · rename_i e hholding
        cases h
        by_cases hkind : isIngestible e.kind
        · simp only [write, hkind, Bool.not_true, Bool.false_eq_true, if_false]
          split
          · rename_i hnone
            apply Move.fail hses hr hholding hkind
            intro hcommitted
            rwa [if_pos hcommitted] at hnone
          · rename_i store hsome
            split_ifs at hsome with hcommitted
            rw [hcommitted]
            exact Move.store hses hr hholding hkind hsome
        · have haway := Move.turnAway now committed hses hr hholding (by simpa using hkind)
          simpa [write, hkind] using haway
      · cases h
  | emit conn =>
      simp only [step, Option.bind_eq_bind, Option.bind_eq_some_iff] at h
      obtain ⟨ses, hses, r, hr, h⟩ := h
      split at h
      · cases h
        apply Move.emit hses hr
        assumption
      · cases h
  | ack conn now sent touched =>
      simp only [step, Option.bind_eq_bind, Option.bind_eq_some_iff] at h
      obtain ⟨ses, hses, r, hr, h⟩ := h
      split at h
      · rename_i hholding htodo
        cases sent with
        | true =>
            cases h
            exact Move.ack now touched hses hr hholding htodo
        | false =>
            cases h
            exact Move.unsent now touched hses (by simp [Session.checked, hr, hholding])
      · cases h
  | close conn =>
      simp only [step, Option.bind_eq_bind, Option.bind_eq_some_iff] at h
      obtain ⟨ses, hses, h⟩ := h
      split at h
      · cases h
      · cases h
        apply Move.close hses
        assumption

end Ingest
end Aegis

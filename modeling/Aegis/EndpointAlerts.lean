import Aegis.EventRoundTrip
import Aegis.Forwarder
import Aegis.Attribution

/-!
# From an endpoint's bus to the alert log

One agent and the server in one state: the agent's bus, its forwarder, the
batches and acks in transit by connection, and the server pipeline, which other
agents use as well. The transport plugin subscribes to everything, so an alert
of a local plugin is forwarded like any other event.
-/

namespace Aegis
variable {F : Type}

structure EndToEnd (F : Type) where
  agentBus : List (Event F)
  forwarder : Forwarder (Event F) (Json F) Uuid
  conns : List ℕ
  batches : List (ℕ × Uuid × List (Event F))
  acks : List (ℕ × Uuid × ℕ)
  server : Server F

/-- What the composition runs on: the id in the agent's host configuration, the
id the server enrolled the agent under, and the two configurations. -/
structure Deployment (F : Type) where
  localId : AgentId
  agentId : AgentId
  transport : TransportConfig
  server : ServerConfig F

namespace EndToEnd

/-- `emit` is an emission of a local plugin; `handle` hands the next event of
the bus to the transport plugin; `connect` is a handshake that both sides accept. -/
inductive Act (F : Type) where
  | emit (plugin : String) (id : Uuid) (now : UInt64) (payload : EventPayload F)
  | handle
  | connect (conn : ℕ)
  | transport (a : Forwarder.Act (Event F) Uuid)
  | receive (conn : ℕ)
  | server (a : Server.Act F)
  | ackArrives (conn : ℕ)

variable [F64 F] (d : Deployment F)

def start (table : OrderedTable ℕ (Json F)) (store : Store F) : EndToEnd F where
  agentBus := []
  forwarder := .start (eventCodec F) d.transport table
  conns := []
  batches := []
  acks := []
  server := .start store

/-- The steps of the server that another party takes part in. -/
def guided (s : EndToEnd F) : Server.Act F → Bool
  | .ingest (.accept conn _) _ | .ingest (.recv conn _ _) _ => conn ∈ s.conns
  | _ => false

/-- The acks that a step of the server wrote to a connection of the agent. -/
def newAcks (s : EndToEnd F) (a : Server.Act F) (after : Server F) : List (ℕ × Uuid × ℕ) :=
  match a with
  | .ingest (.ack conn _ true _) _ =>
      if conn ∈ s.conns then
        (after.ingest.acked.drop s.server.ingest.acked.length).map fun b =>
          (conn, b.batchId, b.accepted)
      else []
  | _ => []

def step (s : EndToEnd F) : Act F → Option (EndToEnd F)
  | .emit plugin id now payload => some
      { s with
        agentBus := s.agentBus ++
          [scopedEmit d.localId plugin (.new id now d.localId plugin payload)] }
  | .handle => match s.agentBus with
    | [] => none
    | e :: rest => (s.forwarder.step (eventCodec F) d.transport (.offer e)).map fun f =>
        { s with agentBus := rest, forwarder := f }
  | .connect conn =>
      if conn ∈ s.conns then none else do
        let f ← s.forwarder.step (eventCodec F) d.transport .connect
        let server ← s.server.step d.server (.ingest (.accept conn d.agentId))
        some { s with forwarder := f, conns := conn :: s.conns, server := server }
  | .transport a => match a with
    | .offer _ | .ack _ _ | .connect => none
    | a => (s.forwarder.step (eventCodec F) d.transport a).map fun f =>
        { s with
          forwarder := f
          batches := s.batches ++
            (f.wire.drop s.forwarder.wire.length).map fun b => (s.conns.headD 0, b) }
  | .receive conn => do
      let b ← s.batches.find? fun b => b.1 = conn
      let server ← s.server.step d.server (.ingest (.recv conn b.2.1 b.2.2))
      some { s with batches := s.batches.eraseP fun b => b.1 = conn, server := server }
  | .server a =>
      if s.guided a then none else (s.server.step d.server a).map fun server =>
        { s with server := server, acks := s.acks ++ s.newAcks a server }
  | .ackArrives conn =>
      if s.conns.head? = some conn then do
        let b ← s.acks.find? fun b => b.1 = conn
        let f ← s.forwarder.step (eventCodec F) d.transport (.ack b.2.1 b.2.2)
        some { s with forwarder := f, acks := s.acks.eraseP fun b => b.1 = conn }
      else none

variable {d}

theorem step_server {s u : EndToEnd F} {a : Act F} (h : step d s a = some u) :
    u.server = s.server ∨ ∃ b, s.server.step d.server b = some u.server := by
  cases a with
  | emit plugin id now payload =>
      cases h
      exact Or.inl rfl
  | handle =>
      simp only [step] at h
      split at h
      · cases h
      · obtain ⟨f, -, rfl⟩ := Option.map_eq_some_iff.mp h
        exact Or.inl rfl
  | connect conn =>
      simp only [step] at h
      split_ifs at h
      simp only [Option.bind_eq_bind, Option.bind_eq_some_iff] at h
      obtain ⟨f, -, server, hserver, h⟩ := h
      cases h
      exact Or.inr ⟨_, hserver⟩
  | transport a =>
      left
      simp only [step] at h
      split at h
      · cases h
      · cases h
      · cases h
      · obtain ⟨f, -, rfl⟩ := Option.map_eq_some_iff.mp h
        rfl
  | receive conn =>
      simp only [step, Option.bind_eq_bind, Option.bind_eq_some_iff] at h
      obtain ⟨b, -, server, hserver, h⟩ := h
      cases h
      exact Or.inr ⟨_, hserver⟩
  | server a =>
      simp only [step] at h
      split_ifs at h
      obtain ⟨server, hserver, rfl⟩ := Option.map_eq_some_iff.mp h
      exact Or.inr ⟨a, hserver⟩
  | ackArrives conn =>
      left
      simp only [step] at h
      split_ifs at h
      simp only [Option.bind_eq_bind, Option.bind_eq_some_iff] at h
      obtain ⟨b, -, f, -, h⟩ := h
      cases h
      rfl

theorem run_server {table : OrderedTable ℕ (Json F)} {store : Store F} {l : List (Act F)}
    {s : EndToEnd F} (h : FreeRun (step d) (start d table store) l s) :
    ∃ m, FreeRun (Server.step d.server) (.start store) m s.server := by
  apply h.invariant fun s => ∃ m, FreeRun (Server.step d.server) (.start store) m s.server
  · rintro s a u ⟨m, hrun⟩ - hstep
    rcases step_server hstep with heq | ⟨b, hb⟩
    · rw [heq]
      exact ⟨m, hrun⟩
    · exact ⟨m ++ [b], hrun.snoc trivial hb⟩
  · exact ⟨[], .nil _⟩

end EndToEnd

namespace Store

theorem writeEvent_alerts [JsonFloat F] {s s' : Store F} {ev : Event F}
    (h : s.writeEvent ev = some s') : s'.alerts = s.alerts := by
  obtain ⟨payloadJson, -, rfl⟩ := Option.map_eq_some_iff.mp h
  rfl

end Store

theorem Ingest.Move.alerts [JsonFloat F] {s u : Ingest F} {a : Ingest.Act F}
    (h : Ingest.Move s a u) : u.store.alerts = s.store.alerts := by
  cases h with
  | store hses hr hholding hkind hwrite => exact Store.writeEvent_alerts hwrite
  | ack now touched hses hr hholding htodo => simp
  | unsent now touched hses hnone => simp
  | _ => rfl

theorem StoreSink.handle_alerts [JsonFloat F] {s : Store F} {alertId : Uuid}
    {logged committed : Bool} {ev : Event F} {r : CompositeKey × AlertRow}
    (h : r ∈ (handle s alertId logged committed ev).1.alerts.rows) :
    r ∈ s.alerts.rows ∨ (handle s alertId logged committed ev).2 = some (.alert r.2) := by
  rw [handle] at h ⊢
  rcases outcome_cases s alertId logged committed ev with
    ⟨hout, -⟩ | ⟨next, -, hwrite, ⟨hout, -⟩ | ⟨hout, -⟩ | ⟨row, hout, -⟩⟩ <;> rw [hout] at h ⊢
  · exact Or.inl h
  all_goals
    rw [← Store.writeEvent_alerts hwrite]
  · exact Or.inl h
  · exact Or.inl (by simpa using h)
  · cases row with
    | detection row => exact Or.inl h
    | score row => exact Or.inl h
    | alert row =>
        rcases OrderedTable.mem_insert_rows h with rfl | h
        · exact Or.inr rfl
        · exact Or.inl h

namespace Server
variable {cfg : ServerConfig F}

/-- The alert log holds rows from before the run and rows of published events. -/
structure LogOwned (store : Store F) (s : Server F) : Prop where
  sources : ∀ w ∈ s.written, w.source.wire = false
  rows : ∀ r ∈ s.ingest.store.alerts.rows, r ∈ store.alerts.rows ∨
    ∃ w ∈ s.written, w.row = .alert r.2

variable [F64 F]

theorem LogOwned.step {store : Store F} {s u : Server F} {a : Act F} (h : LogOwned store s)
    (hsourced : Sourced cfg s) (hmove : Move cfg s a u) : LogOwned store u := by
  cases hmove with
  | ingest hi =>
      constructor
      · exact h.sources
      · intro r hr
        exact h.rows r ((Ingest.step_move hi).alerts ▸ hr)
  | @sink t rest alertId logged committed hq =>
      constructor
      · intro w hw
        rcases List.mem_append.mp hw with hw | hw
        · exact h.sources w hw
        · obtain ⟨row, hrow, rfl⟩ := Option.map_eq_some_iff.mp (Option.mem_toList.mp hw)
          have hfrom := StoreSink.handle_row hrow
          change t.wire = false
          by_contra hwire
          have hkind := (hsourced.wired.queued t (by simp [queued, hq]) (by simpa using hwire)).1
          rw [DerivedRow.fromEvent_ingestible hkind] at hfrom
          cases hfrom
      · intro r hr
        rcases StoreSink.handle_alerts hr with hr | hr
        · rcases h.rows r hr with hr | ⟨w, hw, hrow⟩
          · exact Or.inl hr
          · exact Or.inr ⟨w, List.mem_append_left _ hw, hrow⟩
        · right
          use ⟨t, .alert r.2⟩
          exact ⟨List.mem_append_right _ (by simp [hr]), rfl⟩
  | _ => exact ⟨h.sources, h.rows⟩

theorem run_logOwned {store : Store F} {l : List (Act F)} {s : Server F}
    (h : FreeRun (step cfg) (start store) l s) : LogOwned store s := by
  have hkeep : ∀ s a u, Sourced cfg s ∧ LogOwned store s → True → step cfg s a = some u →
      Sourced cfg u ∧ LogOwned store u := by
    rintro s a u ⟨hsourced, howned⟩ - hstep
    have hmove := step_move cfg hstep
    exact ⟨hsourced.step hmove, howned.step hsourced hmove⟩
  have hstart : LogOwned store (start store) :=
    ⟨fun _ hw => absurd hw List.not_mem_nil, fun _ hr => Or.inl hr⟩
  exact (h.invariant _ hkeep ⟨start_sourced store, hstart⟩).2

end Server

namespace EndToEnd

/-- A local plugin's alert. -/
def IsAlert (e : Event F) : Prop := match e.payload with
  | .alert .. => True
  | _ => False

instance (e : Event F) : Decidable (IsAlert e) := by
  unfold IsAlert
  split <;> infer_instance

/-- The rows of the alert log that were written for an event off the wire. -/
def logRows (s : EndToEnd F) (e : Event F) : List (Written F) :=
  s.server.written.filter fun w => w.source.wire ∧ w.source.event.id = e.id

variable [F64 F] {d : Deployment F}

/-- An acknowledged alert is in the alert log once exactly when there is none:
the log grows by rows of events that the server published itself. -/
theorem acked_alerts_logged_iff {table : OrderedTable ℕ (Json F)} {store : Store F}
    {l : List (Act F)} {s : EndToEnd F}
    (h : FreeRun (step d) (start d table store) l s) :
    ((∀ b ∈ s.forwarder.acked, ∀ e ∈ b.2, IsAlert e → (s.logRows e).length = 1) ↔
      ∀ b ∈ s.forwarder.acked, ∀ e ∈ b.2, ¬IsAlert e) ∧
    ∀ r ∈ s.server.ingest.store.alerts.rows, r ∈ store.alerts.rows ∨
      ∃ w ∈ s.server.written, w.row = .alert r.2 ∧ w.source.wire = false := by
  obtain ⟨m, hrun⟩ := run_server h
  have howned := Server.run_logOwned hrun
  have hnone : ∀ e, s.logRows e = [] := by
    intro e
    apply List.filter_eq_nil_iff.mpr
    intro w hw
    simp [howned.sources w hw]
  constructor
  · simp only [hnone, List.length_nil, Nat.zero_ne_one, imp_false]
  · intro r hr
    rcases howned.rows r hr with hr | ⟨w, hw, hrow⟩
    · exact Or.inl hr
    · exact Or.inr ⟨w, hw, hrow, howned.sources w hw⟩

/-- One agent on an empty server. -/
def oneAgent : Deployment ℚ := ⟨"workstation", "agent-1", {}, .default⟩

/-- A tamper alert is emitted, forwarded, received and acknowledged. -/
def tamperRun : List (Act ℚ) :=
  [.emit "plugin-tamper" (.ofDigit 1) 0
      (.alert .critical "Agent integrity drift" "drift detected on 1 path(s)" none),
    .handle, .connect 0, .transport (.flush (.ofDigit 8) true true), .receive 0,
    .server (.ingest (.check 0)), .server (.ingest (.write 0 0 true)),
    .server (.ingest (.ack 0 0 true)), .ackArrives 0]

theorem acked_alerts_logged_iff_tamper :
    ∃ s ∈ execute (step oneAgent) (fun _ _ => True) (start oneAgent .empty .empty) tamperRun,
      ((∀ b ∈ s.forwarder.acked, ∀ e ∈ b.2, IsAlert e → (s.logRows e).length = 1) ↔
        ∀ b ∈ s.forwarder.acked, ∀ e ∈ b.2, ¬IsAlert e) := by
  have hend : ∃ s ∈ execute (step oneAgent) (fun _ _ => True) (start oneAgent .empty .empty)
      tamperRun, s.forwarder.acked.length = 1 := by
    decide +kernel
  obtain ⟨s, hs, -⟩ := hend
  exact ⟨s, hs, (acked_alerts_logged_iff (run_of_execute hs)).1⟩

/-- The agent has the ack of its alert and the server's alert log is empty. -/
theorem tamperRun_unlogged :
    ∃ s ∈ execute (step oneAgent) (fun _ _ => True) (start oneAgent .empty .empty) tamperRun,
      (∃ b ∈ s.forwarder.acked, ∃ e ∈ b.2, IsAlert e) ∧
      s.server.ingest.store.alerts.rows.length = 0 := by
  decide +kernel

end EndToEnd
end Aegis

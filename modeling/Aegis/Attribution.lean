import Aegis.ServerTraffic

/-!
# Whose rows derived records are

A processor builds its events from its own context and the host stamps its own
id on them, so the agent whose telemetry they come from is nowhere in the event
that the sink turns into a row.
-/

namespace Aegis
variable {F : Type}

namespace Store

theorem mem_detectionsForAgent {s : Store F} {agentId : String} {row : DetectionRow F} :
    row ∈ s.detectionsForAgent agentId ↔
      row.agentId = agentId ∧ ∃ key, (key, row) ∈ s.detections.rows := by
  simp [detectionsForAgent, and_comm]

theorem mem_scoresForAgent {s : Store F} {agentId : String} {row : ScoreRow F} :
    row ∈ s.scoresForAgent agentId ↔
      row.agentId = agentId ∧ ∃ key, (key, row) ∈ s.scores.rows := by
  simp [scoresForAgent, and_comm]

theorem writeEvent_detections [JsonFloat F] {s s' : Store F} {ev : Event F}
    (h : s.writeEvent ev = some s') : s'.detections = s.detections ∧ s'.scores = s.scores := by
  obtain ⟨payloadJson, -, rfl⟩ := Option.map_eq_some_iff.mp h
  exact ⟨rfl, rfl⟩

/-- The derived rows kept for an agent were kept before. -/
def NoNewRows (agentId : String) (before after : Store F) : Prop :=
  (∀ row ∈ after.detectionsForAgent agentId, row ∈ before.detectionsForAgent agentId) ∧
  ∀ row ∈ after.scoresForAgent agentId, row ∈ before.scoresForAgent agentId

theorem NoNewRows.refl (agentId : String) (s : Store F) : NoNewRows agentId s s :=
  ⟨fun _ h => h, fun _ h => h⟩

theorem NoNewRows.trans {agentId : String} {s t u : Store F} (h : NoNewRows agentId s t)
    (h' : NoNewRows agentId t u) : NoNewRows agentId s u :=
  ⟨fun row hrow => h.1 row (h'.1 row hrow), fun row hrow => h.2 row (h'.2 row hrow)⟩

theorem noNewRows_of_eq {agentId : String} {s t : Store F} (hd : t.detections = s.detections)
    (hs : t.scores = s.scores) : NoNewRows agentId s t := by
  simp [NoNewRows, mem_detectionsForAgent, mem_scoresForAgent, hd, hs]

theorem noNewRows_put {agentId : String} (s : Store F) (alertId : Uuid) {row : DerivedRow F}
    (h : row.agentId ≠ agentId) : NoNewRows agentId s (row.put s alertId) := by
  cases row with
  | detection row =>
      constructor
      · intro x hx
        obtain ⟨hagent, key, hmem⟩ := mem_detectionsForAgent.mp hx
        rcases OrderedTable.mem_insert_rows hmem with heq | hmem
        · cases heq
          exact (h hagent).elim
        · exact mem_detectionsForAgent.mpr ⟨hagent, key, hmem⟩
      · exact fun _ hx => hx
  | score row =>
      constructor
      · exact fun _ hx => hx
      · intro x hx
        obtain ⟨hagent, key, hmem⟩ := mem_scoresForAgent.mp hx
        rcases OrderedTable.mem_insert_rows hmem with heq | hmem
        · cases heq
          exact (h hagent).elim
        · exact mem_scoresForAgent.mpr ⟨hagent, key, hmem⟩
  | alert row => exact noNewRows_of_eq rfl rfl

end Store

theorem Ingest.Move.noNewRows [JsonFloat F] {s u : Ingest F} {a : Ingest.Act F}
    (h : Ingest.Move s a u) (agentId : String) : Store.NoNewRows agentId s.store u.store := by
  cases h with
  | store hses hr hholding hkind hwrite =>
      have heq := Store.writeEvent_detections hwrite
      exact Store.noNewRows_of_eq heq.1 heq.2
  | ack now touched hses hr hholding htodo => exact Store.noNewRows_of_eq (by simp) (by simp)
  | unsent now touched hses hnone => exact Store.noNewRows_of_eq (by simp) (by simp)
  | _ => exact Store.NoNewRows.refl agentId _

namespace StoreSink
variable [JsonFloat F]

/-- The sink writes no derived row but that of its event. -/
theorem handle_noNewRows (s : Store F) {alertId : Uuid} (logged committed : Bool) {ev : Event F}
    {agentId : String}
    (h : ∀ row, DerivedRow.fromEvent alertId ev = some row → row.agentId ≠ agentId) :
    Store.NoNewRows agentId s (handle s alertId logged committed ev).1 := by
  rw [handle]
  rcases outcome_cases s alertId logged committed ev with
    ⟨hout, -⟩ | ⟨next, -, hwrite, ⟨hout, -⟩ | ⟨hout, -⟩ | ⟨row, hout, -, -, hrow⟩⟩ <;> rw [hout]
  · exact Store.NoNewRows.refl agentId s
  all_goals
    have heq := Store.writeEvent_detections hwrite
    have hlogged : Store.NoNewRows agentId s next := Store.noNewRows_of_eq heq.1 heq.2
  · exact hlogged
  · exact hlogged.trans (Store.noNewRows_of_eq (by simp) (by simp))
  · exact hlogged.trans (Store.noNewRows_put next alertId (h row hrow))

theorem handle_row {s : Store F} {alertId : Uuid} {logged committed : Bool} {ev : Event F}
    {row : DerivedRow F} (h : (handle s alertId logged committed ev).2 = some row) :
    DerivedRow.fromEvent alertId ev = some row := by
  rw [handle] at h
  rcases outcome_cases s alertId logged committed ev with
    ⟨hout, -⟩ | ⟨next, -, -, ⟨hout, -⟩ | ⟨hout, -⟩ | ⟨row', hout, -, -, hrow⟩⟩ <;> rw [hout] at h
  · cases h
  · cases h
  · cases h
  · cases h
    exact hrow

end StoreSink

theorem DerivedRow.fromEvent_ingestible {alertId : Uuid} {ev : Event F}
    (h : isIngestible ev.kind = true) : fromEvent alertId ev = none := by
  have hd : ev.kind ≠ "detection" := by
    rintro hkind
    rw [hkind] at h
    revert h
    decide
  have hs : ev.kind ≠ "score" := by
    rintro hkind
    rw [hkind] at h
    revert h
    decide
  have ha : ev.kind ≠ "alert" := by
    rintro hkind
    rw [hkind] at h
    revert h
    decide
  simp [fromEvent, hd, hs, ha]

namespace Server
variable {cfg : ServerConfig F}

/-- A queued event stands for a row of the host or for none: wire events have no
kind of a derived row. -/
theorem Sourced.derived {s : Server F} (h : Sourced cfg s) {t : Traced F} (ht : t ∈ s.queued)
    {alertId : Uuid} {row : DerivedRow F}
    (hrow : DerivedRow.fromEvent alertId t.event = some row) : row.agentId = cfg.hostId := by
  cases hwire : t.wire with
  | true =>
      rw [DerivedRow.fromEvent_ingestible (h.wired.queued t ht hwire).1] at hrow
      cases hrow
  | false => exact (DerivedRow.fromEvent_agentId hrow).trans (h.own t ht hwire)

/-- Derived rows are the host's, and no other agent got one. -/
structure HostOwned (cfg : ServerConfig F) (store : Store F) (s : Server F) : Prop where
  rows : ∀ w ∈ s.written, w.row.agentId = cfg.hostId
  tables : ∀ agentId, agentId ≠ cfg.hostId → Store.NoNewRows agentId store s.ingest.store

variable [F64 F]

theorem HostOwned.step {store : Store F} {s u : Server F} {a : Act F}
    (h : HostOwned cfg store s) (hsourced : Sourced cfg s) (hmove : Move cfg s a u) :
    HostOwned cfg store u := by
  cases hmove with
  | ingest hi =>
      constructor
      · exact h.rows
      · intro agentId hne
        exact (h.tables agentId hne).trans ((Ingest.step_move hi).noNewRows agentId)
  | @sink t rest alertId logged committed hq =>
      have ht : t ∈ s.queued := by simp [Server.queued, hq]
      constructor
      · intro w hw
        rcases List.mem_append.mp hw with hw | hw
        · exact h.rows w hw
        · obtain ⟨row, hrow, rfl⟩ := Option.map_eq_some_iff.mp (Option.mem_toList.mp hw)
          exact hsourced.derived ht (StoreSink.handle_row hrow)
      · intro agentId hne
        apply (h.tables agentId hne).trans
        apply StoreSink.handle_noNewRows
        intro row hrow
        rw [hsourced.derived ht hrow]
        exact hne.symm
  | _ => exact ⟨h.rows, h.tables⟩

theorem run_hostOwned {store : Store F} {l : List (Act F)} {s : Server F}
    (h : FreeRun (step cfg) (start store) l s) : HostOwned cfg store s := by
  have hkeep : ∀ s a u, Sourced cfg s ∧ HostOwned cfg store s → True → step cfg s a = some u →
      Sourced cfg u ∧ HostOwned cfg store u := by
    rintro s a u ⟨hsourced, howned⟩ - hstep
    have hmove := step_move cfg hstep
    exact ⟨hsourced.step hmove, howned.step hsourced hmove⟩
  have hstart : HostOwned cfg store (start store) :=
    ⟨fun _ hw => absurd hw List.not_mem_nil, fun agentId _ => Store.NoNewRows.refl agentId store⟩
  exact (h.invariant _ hkeep ⟨start_sourced store, hstart⟩).2

/-- A derived row carries the agent its telemetry was ingested under exactly when
that agent is the server's own host, and the tables answer for any other agent
with rows from before the run. -/
theorem attributed_iff_host {store : Store F} {l : List (Act F)} {s : Server F}
    (h : FreeRun (step cfg) (start store) l s) :
    (∀ w ∈ s.written, w.row.agentId = w.source.origin ↔ w.source.origin = cfg.hostId) ∧
    ∀ agentId, agentId ≠ cfg.hostId → Store.NoNewRows agentId store s.ingest.store := by
  have howned := run_hostOwned h
  constructor
  · intro w hw
    rw [howned.rows w hw]
    exact eq_comm
  · exact howned.tables

/-- An execution on an agent's host, scored and stored. -/
def scoredRun : List (Act ℚ) :=
  [.ingest (.accept 0 "agent-1"),
    .ingest (.recv 0 (.ofDigit 8) [.new (.ofDigit 1) 0 "agent-1" "process"
      (.processExec 100 1 1000 "/usr/bin/nmap" [] none)]),
    .ingest (.check 0), .ingest (.write 0 0 true), .ingest (.emit 0), .dispatch, .score,
    .publishScore (.ofDigit 2) 0, .dispatch, .sink (.ofDigit 3) true true]

theorem attributed_iff_host_scored :
    ∃ s ∈ execute (step (.default : ServerConfig ℚ)) (fun _ _ => True) (start .empty) scoredRun,
      ∀ w ∈ s.written, w.row.agentId = w.source.origin ↔ w.source.origin = "aegisd" := by
  have hend : ∃ s ∈ execute (step (.default : ServerConfig ℚ)) (fun _ _ => True) (start .empty)
      scoredRun, s.written.length = 1 := by
    decide +kernel
  obtain ⟨s, hs, -⟩ := hend
  exact ⟨s, hs, (attributed_iff_host (run_of_execute hs)).1⟩

/-- The score of one agent's telemetry is stored as the server's own, and no
score is found under the agent's id. -/
theorem scoredRun_misattributed :
    ∃ s ∈ execute (step (.default : ServerConfig ℚ)) (fun _ _ => True) (start .empty) scoredRun,
      (s.written.map fun w => (w.source.origin, w.row.agentId)) = [("agent-1", "aegisd")] ∧
      (s.ingest.store.scoresForAgent "agent-1").length = 0 ∧
      (s.ingest.store.scoresForAgent "aegisd").length = 1 := by
  decide +kernel

end Server
end Aegis

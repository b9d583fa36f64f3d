import Aegis.ServerTraffic

/-!
# Forged evidence

The allow-list of the ingest loop looks at the kind of an event and the
processors look at its payload. A wire event whose kind is not that of its
payload passes the list and is handled as whatever its payload says.
-/

namespace Aegis
variable {F : Type}

namespace EventPayload

/-- Payloads that only the server's own processors produce. -/
def IsDerived : EventPayload F → Prop
  | .detection .. | .score .. | .alert .. => True
  | _ => False

instance (p : EventPayload F) : Decidable p.IsDerived := by
  cases p <;> unfold IsDerived <;> infer_instance

/-- The payloads that may change a score when they come off the wire. -/
def RaisesRisk : EventPayload F → Prop
  | .processExec .. | .sessionEnd .. => True
  | _ => False

theorem not_derived_of_ingestible {p : EventPayload F} (h : isIngestible p.defaultKind = true) :
    ¬p.IsDerived := by
  intro hderived
  revert h
  cases p with
  | detection => exact Bool.false_ne_true
  | score => exact Bool.false_ne_true
  | alert => exact Bool.false_ne_true
  | _ => exact hderived.elim

end EventPayload

theorem Scoring.handle_keeps [F64 F] (config : ScoringConfig F) (state : RiskState F)
    {p : EventPayload F} (hderived : ¬p.IsDerived) (hraises : ¬p.RaisesRisk) :
    (Scoring.handle config state p).1 = state := by
  cases p with
  | detection => exact (hderived trivial).elim
  | processExec => exact (hraises trivial).elim
  | sessionEnd => exact (hraises trivial).elim
  | _ => rfl

namespace Server

/-- The event has the kind of its payload. -/
def Truthful (e : Event F) : Prop := e.kind = e.payload.defaultKind

/-- An event that a session writes, its kind being admitted, has the kind of its
payload. -/
def WritesTruthful (s : Server F) : Act F → Prop
  | .ingest (.write conn _ true) _ => ∀ e ∈ s.ingest.checked conn,
      isIngestible e.kind = true → Truthful e
  | _ => True

instance (e : Event F) : Decidable (Truthful e) :=
  inferInstanceAs (Decidable (e.kind = e.payload.defaultKind))

instance (s : Server F) (a : Act F) : Decidable (s.WritesTruthful a) :=
  match a with
  | .ingest (.write conn _ true) _ => inferInstanceAs (Decidable
      (∀ e ∈ s.ingest.checked conn, isIngestible e.kind = true → Truthful e))
  | .ingest (.write _ _ false) _ => .isTrue trivial
  | .ingest (.accept _ _) _ => .isTrue trivial
  | .ingest (.recv _ _ _) _ => .isTrue trivial
  | .ingest (.check _) _ => .isTrue trivial
  | .ingest (.emit _) _ => .isTrue trivial
  | .ingest (.ack _ _ _ _) _ => .isTrue trivial
  | .ingest (.close _) _ => .isTrue trivial
  | .dispatch _ => .isTrue trivial
  | .detect _ => .isTrue trivial
  | .publishDetection _ _ => .isTrue trivial
  | .score => .isTrue trivial
  | .publishScore _ _ => .isTrue trivial
  | .sink _ _ _ => .isTrue trivial

variable [F64 F] {cfg : ServerConfig F}

/-- Wire events of an admitted kind have it from their payload. -/
theorem run_truthful {store : Store F} {l : List (Act F)} {s : Server F}
    (h : GuardedRun (step cfg) WritesTruthful (start store) l s) :
    Wired (fun e => isIngestible e.kind = true ∧ Truthful e) s := by
  apply h.invariant (Wired fun e => isIngestible e.kind = true ∧ Truthful e)
  · intro s a u hs hguard hstep
    apply hs.step (step_move cfg hstep)
    rintro conn now full ses e rfl hses hchecked hkind
    have htruthful : Truthful e := hguard e (by simp [Ingest.checked, hses, hchecked]) hkind
    exact ⟨by simpa using hkind, by simpa [Truthful] using htruthful⟩
  · exact start_wired _ store

/-- When the events that pass the allow-list have the kind of their payload, no
derived payload off the wire is on its way to a plugin, and scoring changes its
scores on a wire event for an execution or the end of a session only. -/
theorem evidence_unforged {store : Store F} {l : List (Act F)} {s : Server F}
    (h : GuardedRun (step cfg) WritesTruthful (start store) l s) :
    (∀ e ∈ s.ingest.emitted, Truthful e) ∧
    (∀ t ∈ s.queued, t.wire = true → ¬t.event.payload.IsDerived) ∧
    ∀ t rest u, s.scoreQueue = t :: rest → t.wire = true → step cfg s .score = some u →
      u.risk ≠ s.risk → t.event.payload.RaisesRisk := by
  have hwired := run_truthful h
  have hqueued : ∀ t ∈ s.queued, t.wire = true → ¬t.event.payload.IsDerived := by
    intro t ht hwire
    obtain ⟨hkind, htruthful⟩ := (hwired.queued t ht hwire).1
    rw [htruthful] at hkind
    exact EventPayload.not_derived_of_ingestible hkind
  refine ⟨fun e he => (hwired.emitted e he).2, hqueued, ?_⟩
  intro t rest u hq hwire hstep hchange
  by_contra hraises
  apply hchange
  cases step_move cfg hstep with
  | score hout hq' =>
      rw [hq] at hq'
      cases hq'
      exact Scoring.handle_keeps cfg.scoring s.risk (hqueued t (by simp [Server.queued, hq]) hwire)
        hraises

/-- A heartbeat and an execution reach the processors. -/
def truthfulRun : List (Act ℚ) :=
  [.ingest (.accept 0 "agent-1"),
    .ingest (.recv 0 (.ofDigit 8) [.new (.ofDigit 1) 0 "agent-1" "host" (.heartbeat 60),
      .new (.ofDigit 2) 0 "agent-1" "process" (.processExec 100 1 1000 "/usr/bin/nmap" [] none)]),
    .ingest (.check 0), .ingest (.write 0 0 true), .ingest (.emit 0),
    .ingest (.check 0), .ingest (.write 0 0 true), .ingest (.emit 0), .dispatch, .dispatch]

theorem evidence_unforged_truthful :
    ∃ s ∈ execute (step (.default : ServerConfig ℚ)) WritesTruthful (start .empty) truthfulRun,
      ∀ e ∈ s.ingest.emitted, Truthful e := by
  have hend : ∃ s ∈ execute (step (.default : ServerConfig ℚ)) WritesTruthful (start .empty)
      truthfulRun, s.scoreQueue.length = 1 ∧ s.sinkQueue.length = 1 := by
    decide +kernel
  obtain ⟨s, hs, -⟩ := hend
  exact ⟨s, hs, (evidence_unforged (run_of_execute hs)).1⟩

/-- A detection against another user's session under the kind of a session's
end. -/
def forgedRun : List (Act ℚ) :=
  [.ingest (.accept 0 "agent-1"),
    .ingest (.recv 0 (.ofDigit 8) [(Event.new (.ofDigit 1) 0 "agent-1" "session"
      (.detection "session-9" .agent 1 "transparent-additive/v1" [] .empty)).withKind
        "session.end"]),
    .ingest (.check 0), .ingest (.write 0 0 true), .ingest (.emit 0), .dispatch, .score]

/-- The forged detection is emitted and raises the risk of the session to 60. -/
theorem forgedRun_raises_risk :
    ∃ s ∈ execute (step (.default : ServerConfig ℚ)) (fun _ _ => True) (start .empty) forgedRun,
      (s.ingest.emitted.map fun e => (e.kind, e.payload.defaultKind)) =
        [("session.end", "detection")] ∧
      s.risk.rows = [("session-9", 60)] := by
  decide +kernel

end Server
end Aegis

import Aegis.ServerTraffic
import Aegis.SubjectKeys
import Aegis.SessionTracking
import Mathlib.Data.List.DropRight

/-!
# The risk of a session that has ended

Scoring forgets a session when it handles its end. The detector handles the same
event, and the detection it is forced to make comes onto the bus behind it. The
queue keeps the order of the bus, so when the bus is drained scoring holds of the
session what the evidence that its queue took behind the end makes of nothing;
where the queue had no room for the end, the evidence before counts as well.
-/

namespace Aegis
variable {F : Type}

namespace Scoring
variable [F64 F] (config : ScoringConfig F)

/-- What a payload is evidence of about a subject. -/
def about (subject : String) (payload : EventPayload F) : Option (Evidence F) :=
  (evidence config payload).filter fun ev => ev.subject = subject

end Scoring

namespace Server
variable [F64 F] (cfg : ServerConfig F)

/-- The event for scoring that a step takes off the bus, and whether there is room for it. -/
def handed (s : Server F) : Act F → Option (Traced F × Bool)
  | .dispatch full =>
      (s.ingress.head?.filter fun t => Scoring.subscriptions.contains t.event.kind).map fun t =>
        (t, !drops full.score t.event.kind)
  | _ => none

/-- Those of the events handed on for which there was room. -/
def taken (ds : List (Traced F × Bool)) : List (Traced F) :=
  ds.filterMap fun d => if d.2 then some d.1 else none

/-- Scoring after it handled some events. -/
def scored (config : ScoringConfig F) (ts : List (Traced F)) : RiskState F :=
  ts.foldl (fun risk t => (Scoring.handle config risk t.event.payload).1) .empty

/-- Scoring handled a first part of what its queue took, and the rest is in the queue. -/
def InQueueOrder (ds : List (Traced F × Bool)) (s : Server F) : Prop :=
  ∃ done, taken ds = done ++ s.scoreQueue ∧ s.risk = scored cfg.scoring done

/-- Nothing is on its way to a processor or from one. -/
def Drained (s : Server F) : Prop :=
  s.ingress = [] ∧ s.detectQueue = [] ∧ s.scoreQueue = [] ∧ s.detectOutbox = [] ∧
    s.scoreOutbox = []

instance (s : Server F) : Decidable s.Drained :=
  inferInstanceAs (Decidable (s.ingress = [] ∧ s.detectQueue = [] ∧ s.scoreQueue = [] ∧
    s.detectOutbox = [] ∧ s.scoreOutbox = []))

variable {cfg}

omit [F64 F] in
theorem taken_append (ds ds' : List (Traced F × Bool)) :
    taken (ds ++ ds') = taken ds ++ taken ds' :=
  List.filterMap_append

omit [F64 F] in
theorem enqueue_handed {s : Server F} {t : Traced F} {rest : List (Traced F)}
    (hin : s.ingress = t :: rest) (full : Full) (queue : List (Traced F)) :
    enqueue Scoring.subscriptions full.score queue t =
      queue ++ taken (handed s (.dispatch full)).toList := by
  simp only [enqueue, handed, hin, List.head?_cons, Option.filter]
  by_cases hkind : t.event.kind ∈ Scoring.subscriptions
  · cases hdrop : drops full.score t.event.kind <;> simp [taken, hkind, hdrop]
  · simp [taken, hkind]

theorem InQueueOrder.step {ds : List (Traced F × Bool)} {s u : Server F} {a : Act F}
    (h : InQueueOrder cfg ds s) (hstep : step cfg s a = some u) :
    InQueueOrder cfg (ds ++ (handed s a).toList) u := by
  obtain ⟨done, htaken, hscored⟩ := h
  cases step_move cfg hstep with
  | dispatch full hin =>
      refine ⟨done, ?_, hscored⟩
      rw [taken_append, htaken, List.append_assoc, enqueue_handed hin]
  | @score t rest hout hq =>
      refine ⟨done ++ [t], ?_, ?_⟩
      · simp only [handed, Option.toList_none, List.append_nil, htaken, hq, List.append_assoc,
          List.singleton_append]
      · rw [scored, List.foldl_append, ← scored, ← hscored]
        rfl
  | _ => exact ⟨done, by simpa [handed] using htaken, hscored⟩

/-- A session that types a line and gives three commands of an agent's regularity. -/
def agentLike : List (Event ℚ) :=
  [.new (.ofDigit 0) 0 "agent-1" "session" (.sessionStart "s1" none "alice" none),
    .new (.ofDigit 1) 0 "agent-1" "session" (.keystroke "s1" 20000000 false 12),
    .new (.ofDigit 2) 0 "agent-1" "session" (.commandObserved "s1" 12 2 4 false 0 1000000000 "a"),
    .new (.ofDigit 3) 0 "agent-1" "session" (.commandObserved "s1" 12 2 4 false 0 1000000000 "b"),
    .new (.ofDigit 4) 0 "agent-1" "session" (.commandObserved "s1" 12 2 4 false 0 1000000000 "c")]

end Server
end Aegis

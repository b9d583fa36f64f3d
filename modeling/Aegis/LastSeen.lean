import Aegis.ServerTraffic

/-!
# When an agent was last seen

Three parts of the server write the field: the handshake and the ack of a batch
with a reading of the server's clock, and the sink with the time a heartbeat
carries. The world here is the server with its clock, where a reading may be
older than the write it is taken for.
-/

namespace Aegis
variable {F : Type}

namespace Store

@[simp] theorem get?_touchAgent (s : Store F) (agentId b : AgentId) (tsNs : UInt64) :
    (s.touchAgent b tsNs).agents.get? agentId =
      if b = agentId then (s.agents.get? agentId).map fun row => { row with lastSeenNs := tsNs }
      else s.agents.get? agentId := by
  simp only [touchAgent, touchRow]
  by_cases hb : b = agentId
  · subst hb
    rw [if_pos rfl]
    cases hrow : s.agents.get? b with
    | none => simp [hrow]
    | some row => simp [OrderedTable.get?_insert_self]
  · rw [if_neg hb]
    cases s.agents.get? b with
    | none => rfl
    | some row => exact OrderedTable.get?_insert_ne _ _ (Ne.symm hb)

@[simp] theorem get?_touchAgentIf (s : Store F) (committed : Bool) (agentId b : AgentId)
    (tsNs : UInt64) : (s.touchAgentIf committed b tsNs).agents.get? agentId =
      if committed ∧ b = agentId then
        (s.agents.get? agentId).map fun row => { row with lastSeenNs := tsNs }
      else s.agents.get? agentId := by
  cases committed <;> simp [touchAgentIf]

theorem writeEvent_agents [JsonFloat F] {s s' : Store F} {ev : Event F}
    (h : s.writeEvent ev = some s') : s'.agents = s.agents := by
  obtain ⟨payloadJson, -, rfl⟩ := Option.map_eq_some_iff.mp h
  rfl

end Store

theorem DerivedRow.put_agents (s : Store F) (alertId : Uuid) (row : DerivedRow F) :
    (row.put s alertId).agents = s.agents := by
  cases row <;> rfl

/-- A heartbeat of the agent gets to the write of its time. -/
def StoreSink.touches [JsonFloat F] (agentId : AgentId) (store : Store F)
    (logged committed : Bool) (ev : Event F) : Bool :=
  logged && (store.writeEvent ev).isSome && committed && ev.kind = "heartbeat" &&
    ev.agentId = agentId

theorem StoreSink.get?_handle [JsonFloat F] (agentId : AgentId) (store : Store F) (alertId : Uuid)
    (logged committed : Bool) (ev : Event F) :
    (handle store alertId logged committed ev).1.agents.get? agentId =
      if touches agentId store logged committed ev then
        (store.agents.get? agentId).map fun row => { row with lastSeenNs := ev.tsNs }
      else store.agents.get? agentId := by
  rw [handle, touches]
  rcases outcome_cases store alertId logged committed ev with
    ⟨hout, hlost⟩ | ⟨next, rfl, hwrite, ⟨hout, hnone⟩ | ⟨hout, rfl, hkind⟩ |
      ⟨row, hout, -, hkind, -⟩⟩ <;> rw [hout]
  · cases logged with
    | false => simp
    | true => simp [hlost rfl]
  all_goals
    rw [← Store.writeEvent_agents hwrite, hwrite]
  · have hquiet : (committed && decide (ev.kind = "heartbeat")) = false := by
      cases committed with
      | false => rfl
      | true => simp [(hnone rfl).1]
    simp [hquiet]
  · simp [hkind]
  · simp [hkind, DerivedRow.put_agents]

namespace Server

/-- The reading of the clock with which the ack of a batch touches the agent. -/
def ackReading (agentId : AgentId) (s : Server F) : Act F → Option UInt64
  | .ingest (.ack conn now _ touched) _ =>
      if touched ∧ (s.ingest.sessions.get? conn).map Session.agentId = some agentId then some now
      else none
  | _ => none

/-- The time of the heartbeat with which the sink touches the agent. -/
def heartbeat [JsonFloat F] (agentId : AgentId) (s : Server F) : Act F → Option UInt64
  | .sink _ logged committed => match s.sinkQueue with
    | t :: _ =>
        if StoreSink.touches agentId s.ingest.store logged committed t.event then
          some t.event.tsNs
        else none
    | [] => none
  | _ => none

theorem get?_step [F64 F] {cfg : ServerConfig F} {s u : Server F} {a : Act F}
    (h : step cfg s a = some u) (agentId : AgentId) :
    u.ingest.store.agents.get? agentId =
      match s.ackReading agentId a <|> s.heartbeat agentId a with
      | some ts => (s.ingest.store.agents.get? agentId).map fun row =>
          { row with lastSeenNs := ts }
      | none => s.ingest.store.agents.get? agentId := by
  cases step_move cfg h with
  | ingest hi =>
      cases Ingest.step_move hi with
      | store hses hr hholding hkind hwrite =>
          exact congrArg (·.get? agentId) (Store.writeEvent_agents hwrite)
      | ack now touched hses hr hholding htodo =>
          simp only [ackReading, hses, Store.get?_touchAgentIf, Option.map_some,
            Option.some.injEq]
          split <;> rfl
      | unsent now touched hses hnone =>
          simp only [ackReading, hses, Store.get?_touchAgentIf, Option.map_some,
            Option.some.injEq]
          split <;> rfl
      | accept | recv | skip | allow | turnAway | fail | emit | close => rfl
  | sink alertId logged committed hqueue =>
      simp only [ackReading, heartbeat, hqueue, StoreSink.get?_handle]
      split <;> rfl
  | dispatch | detect | publishDetection | score | publishScore => rfl

/-- The readings of the clock that a step uses. -/
def Act.readings : Act F → List UInt64
  | .ingest (.write _ now _) _ => [now]
  | .ingest (.ack _ now _ _) _ => [now]
  | .detect now => [now]
  | .publishDetection _ now => [now]
  | .publishScore _ now => [now]
  | _ => []

end Server

/-- The server and its clock. -/
structure Watched (F : Type) where
  server : Server F
  clock : UInt64

namespace Watched

/-- `touched` says whether the handshake's touch of the agent commits. -/
inductive Act (F : Type) where
  | tick (now : UInt64)
  | handshake (agentId : AgentId) (now : UInt64) (touched : Bool := true)
  | serve (a : Server.Act F)

def store (w : Watched F) : Store F := w.server.ingest.store

def lastSeen (agentId : AgentId) (w : Watched F) : UInt64 :=
  ((w.store.agents.get? agentId).map AgentRow.lastSeenNs).getD 0

def Enrolled (agentId : AgentId) (w : Watched F) : Prop := (w.store.agents.get? agentId).isSome

instance (agentId : AgentId) (w : Watched F) : Decidable (Enrolled agentId w) :=
  inferInstanceAs (Decidable ((w.store.agents.get? agentId).isSome = true))

variable [F64 F] (cfg : ServerConfig F)

/-- The clock does not run back; a reading that a step uses was taken earlier or now. -/
def step (w : Watched F) : Act F → Option (Watched F)
  | .tick now => if w.clock ≤ now then some { w with clock := now } else none
  | .handshake agentId now touched =>
      if now ≤ w.clock then
        some { w with server := { w.server with
          ingest := { w.server.ingest with store := w.store.touchAgentIf touched agentId now } } }
      else none
  | .serve a =>
      if a.readings.all fun now => now ≤ w.clock then
        (w.server.step cfg a).map fun s => { w with server := s }
      else none

/-- The reading of the clock with which a handshake or an ack touches the agent. -/
def reading (agentId : AgentId) (w : Watched F) : Act F → Option UInt64
  | .tick _ => none
  | .handshake b now touched => if touched ∧ b = agentId then some now else none
  | .serve a => w.server.ackReading agentId a

def heartbeat (agentId : AgentId) (w : Watched F) : Act F → Option UInt64
  | .serve a => w.server.heartbeat agentId a
  | _ => none

/-- No other write overtakes a reading of the clock, and a heartbeat brings a time that is
neither behind the row nor ahead of the clock. -/
def InTime (agentId : AgentId) (w : Watched F) (a : Act F) : Prop :=
  (∀ now ∈ w.reading agentId a, w.lastSeen agentId ≤ now) ∧
  ∀ ts ∈ w.heartbeat agentId a, w.lastSeen agentId ≤ ts ∧ ts ≤ w.clock

/-- The order of the states that the field should follow. -/
def NotBefore (agentId : AgentId) (w v : Watched F) : Prop :=
  w.lastSeen agentId ≤ v.lastSeen agentId

variable {cfg} {agentId : AgentId} {w v : Watched F} {a : Act F}

theorem step_clock (h : step cfg w a = some v) : w.clock ≤ v.clock := by
  cases a with
  | tick now =>
      simp only [step] at h
      split_ifs at h with hle
      cases h
      exact hle
  | handshake b now touched =>
      simp only [step] at h
      split_ifs at h
      cases h
      exact UInt64.le_refl _
  | serve a =>
      simp only [step] at h
      split_ifs at h
      obtain ⟨s, -, rfl⟩ := Option.map_eq_some_iff.mp h
      exact UInt64.le_refl _

/-- What a step writes to the agent's row. -/
def touch (agentId : AgentId) (w : Watched F) (a : Act F) : Option UInt64 :=
  w.reading agentId a <|> w.heartbeat agentId a

theorem get?_step (h : step cfg w a = some v) :
    v.store.agents.get? agentId =
      match w.touch agentId a with
      | some ts => (w.store.agents.get? agentId).map fun row => { row with lastSeenNs := ts }
      | none => w.store.agents.get? agentId := by
  cases a with
  | tick now =>
      simp only [step] at h
      split_ifs at h
      cases h
      rfl
  | handshake b now touched =>
      simp only [step] at h
      split_ifs at h
      cases h
      simp only [touch, reading, heartbeat, store, Store.get?_touchAgentIf]
      split <;> rfl
  | serve a =>
      simp only [step] at h
      split_ifs at h
      obtain ⟨s, hs, rfl⟩ := Option.map_eq_some_iff.mp h
      exact Server.get?_step hs agentId

theorem enrolled_step (h : step cfg w a = some v) (hw : Enrolled agentId w) :
    Enrolled agentId v := by
  unfold Enrolled
  rw [get?_step h]
  split
  · rwa [Option.isSome_map]
  · exact hw

theorem lastSeen_step (h : step cfg w a = some v) (hw : Enrolled agentId w) :
    v.lastSeen agentId = (w.touch agentId a).getD (w.lastSeen agentId) := by
  obtain ⟨row, hrow⟩ := Option.isSome_iff_exists.mp hw
  unfold lastSeen
  rw [get?_step h]
  cases w.touch agentId a with
  | none => rfl
  | some ts => simp [hrow]

theorem clock_of_touch (h : step cfg w a = some v) {ts : UInt64}
    (hts : w.touch agentId a = some ts) : v.clock = w.clock := by
  cases a with
  | tick now => cases hts
  | handshake b now touched =>
      simp only [step] at h
      split_ifs at h
      cases h
      rfl
  | serve a =>
      simp only [step] at h
      split_ifs at h
      obtain ⟨s, -, rfl⟩ := Option.map_eq_some_iff.mp h
      rfl

theorem reading_le_clock (h : step cfg w a = some v) {now : UInt64}
    (hnow : w.reading agentId a = some now) : now ≤ w.clock := by
  cases a with
  | tick now => cases hnow
  | handshake b now touched =>
      simp only [step, reading] at h hnow
      split_ifs at h hnow with hle
      cases hnow
      exact hle
  | serve a =>
      simp only [step] at h
      split_ifs at h with hle
      simp only [reading, Server.ackReading] at hnow
      split at hnow
      · split_ifs at hnow
        cases hnow
        exact of_decide_eq_true (List.all_eq_true.mp hle now List.mem_cons_self)
      · cases hnow

/-- No step is both a use of the clock and a heartbeat. -/
theorem heartbeat_of_reading {now : UInt64} (h : w.reading agentId a = some now) :
    w.heartbeat agentId a = none := by
  cases a with
  | tick | handshake => rfl
  | serve a =>
      simp only [reading, Server.ackReading] at h
      split at h
      · rfl
      · cases h

theorem inTime_iff (h : step cfg w a = some v) (hw : Enrolled agentId w)
    (hclock : w.lastSeen agentId ≤ w.clock) :
    NotBefore agentId w v ∧ v.lastSeen agentId ≤ v.clock ↔ InTime agentId w a := by
  have hseen := lastSeen_step h hw
  unfold NotBefore InTime
  cases hreading : w.reading agentId a with
  | some now =>
      have htouch : w.touch agentId a = some now := by simp [touch, hreading]
      rw [htouch, Option.getD_some] at hseen
      rw [hseen, clock_of_touch h htouch, heartbeat_of_reading hreading]
      simp [reading_le_clock h hreading]
  | none =>
      cases hbeat : w.heartbeat agentId a with
      | some ts =>
          have htouch : w.touch agentId a = some ts := by simp [touch, hreading, hbeat]
          rw [htouch, Option.getD_some] at hseen
          rw [hseen, clock_of_touch h htouch]
          simp
      | none =>
          have htouch : w.touch agentId a = none := by simp [touch, hreading, hbeat]
          rw [htouch, Option.getD_none] at hseen
          have hle := UInt64.le_trans hclock (step_clock h)
          simp [hseen, hle]

instance (agentId : AgentId) : IsTrans (Watched F) (NotBefore agentId) :=
  ⟨fun _ _ _ h h' => UInt64.le_trans h h'⟩

/-- Through every run the field of an enrolled agent runs forward and stays behind the clock
exactly if no write of the run brings a time behind the field or ahead of the clock. -/
theorem last_seen_steady_iff {acts : List (Act F)} (hrun : FreeRun (step cfg) w acts v)
    (hw : Enrolled agentId w) (hclock : w.lastSeen agentId ≤ w.clock) :
    ((visited (step cfg) w acts).Pairwise (NotBefore agentId) ∧
        ∀ u ∈ visited (step cfg) w acts, u.lastSeen agentId ≤ u.clock) ↔
      GuardedRun (step cfg) (InTime agentId) w acts v :=
  GuardedRun.visited_iff (I := Enrolled agentId) (P := fun u => u.lastSeen agentId ≤ u.clock)
    (fun _ _ _ henrolled h => enrolled_step h henrolled)
    (fun _ _ _ henrolled hbehind h => inTime_iff h henrolled hbehind) hrun hw hclock

/-- One enrolled agent, at the time 1000. -/
def enrolledAgent : Watched ℚ where
  server := .start { Store.empty with
    agents := OrderedTable.empty.insert "agent-1" ⟨"agent-1", "host", "linux", [], 100, 100⟩ }
  clock := 1000

/-- The agent connects and sends a heartbeat with a time of its own; the sink handles it before
the batch is acknowledged. -/
def heartbeatRun (ts : UInt64) : List (Act ℚ) :=
  [.handshake "agent-1" 1000, .serve (.ingest (.accept 0 "agent-1")),
    .serve (.ingest (.recv 0 (.ofDigit 8)
      [.new (.ofDigit 1) ts "agent-1" "plugin-heartbeat" (.heartbeat 5)])),
    .serve (.ingest (.check 0)), .serve (.ingest (.write 0 1000 true)),
    .serve (.ingest (.emit 0)), .serve .dispatch, .serve (.sink (.ofDigit 9) true true),
    .tick 1200, .serve (.ingest (.ack 0 1200 true))]

theorem last_seen_steady_iff_heartbeat :
    ∃ v ∈ execute (step .default) (fun _ _ => True) enrolledAgent (heartbeatRun 1000),
      ((visited (step .default) enrolledAgent (heartbeatRun 1000)).Pairwise
          (NotBefore "agent-1") ∧
        ∀ u ∈ visited (step .default) enrolledAgent (heartbeatRun 1000),
          u.lastSeen "agent-1" ≤ u.clock) ↔
        GuardedRun (step .default) (InTime "agent-1") enrolledAgent (heartbeatRun 1000) v := by
  have hend : ∃ v ∈ execute (step .default) (fun _ _ => True) enrolledAgent (heartbeatRun 1000),
      v.lastSeen "agent-1" = 1200 := by
    decide +kernel
  obtain ⟨v, hv, -⟩ := hend
  exact ⟨v, hv, last_seen_steady_iff (run_of_execute hv) (by decide +kernel) (by decide +kernel)⟩

/-- A heartbeat ahead of the clock takes the field with it. -/
theorem heartbeat_ahead_of_clock :
    ¬ ∀ (agentId : AgentId) (w v : Watched ℚ) (acts : List (Act ℚ)),
      FreeRun (step .default) w acts v → Enrolled agentId w →
      w.lastSeen agentId ≤ w.clock →
      (visited (step .default) w acts).Pairwise (NotBefore agentId) ∧
        ∀ u ∈ visited (step .default) w acts, u.lastSeen agentId ≤ u.clock := by
  intro h
  have hend : ∃ v ∈ execute (step .default) (fun _ _ => True) enrolledAgent (heartbeatRun 1500),
      v.lastSeen "agent-1" = 1200 := by
    decide +kernel
  obtain ⟨v, hv, -⟩ := hend
  have hall := (h "agent-1" _ v _ (run_of_execute hv) (by decide +kernel) (by decide +kernel)).2
  have hahead : ∃ u ∈ visited (step .default) enrolledAgent (heartbeatRun 1500),
      u.clock < u.lastSeen "agent-1" := by
    decide +kernel
  obtain ⟨u, hu, hlt⟩ := hahead
  exact absurd (hall u hu) (UInt64.not_le.mpr hlt)

end Watched
end Aegis

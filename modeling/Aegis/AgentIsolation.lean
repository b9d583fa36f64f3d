import Aegis.ServerTraffic
import Aegis.SubjectKeys

/-!
# One agent's detections and scores beside other agents

The processors keep one map for all agents, by session id and by user. What they
derive from one agent's telemetry is what they would derive without the others as
long as no other agent's event that comes onto the bus has a key of its own: then
every queue and map splits into the agent's part and the rest, a step about the
agent changes its part as it does in any other run, and no other step changes it.
-/

namespace Aegis
variable {F : Type}

namespace Ingest

/-- The connection that a step is about. -/
def Act.conn : Act F → ℕ
  | .accept conn _ => conn
  | .recv conn _ _ => conn
  | .check conn => conn
  | .write conn _ _ => conn
  | .emit conn => conn
  | .ack conn _ _ _ => conn
  | .close conn => conn

/-- The agent that a step is about. -/
def agentAt (s : Ingest F) : Act F → Option AgentId
  | .accept _ agentId => some agentId
  | a => (s.sessions.get? a.conn).map Session.agentId

/-- Whether the shared window, and not the session's own, knows the event that a step looks at. -/
def known (s : Ingest F) : Act F → Bool
  | .check conn => (s.sessions.get? conn).any fun ses =>
      (s.next conn).any fun e => decide (e.id ∉ ses.seen ∧ e.id ∈ s.globalDedup)
  | _ => false

/-- An agent's sessions, by connection. -/
def sessionsOf (agentId : AgentId) (s : Ingest F) (conn : ℕ) : Option (Session F) :=
  (s.sessions.get? conn).filter fun ses => ses.agentId = agentId

/-- The event that a session holds for the bus carries the session's agent. -/
def Stamped (s : Ingest F) : Prop :=
  ∀ conn ses, s.sessions.get? conn = some ses → ∀ e ∈ ses.unsent, e.agentId = ses.agentId

theorem about_insert {sessions : OrderedTable ℕ (Session F)} {conn : ℕ} {ses ses' : Session F}
    (hses : sessions.get? conn = some ses) (hagent : ses'.agentId = ses.agentId) :
    (∀ c, c ≠ conn → (sessions.insert conn ses').get? c = sessions.get? c) ∧
    ∀ x, (sessions.insert conn ses').get? conn = some x →
      (sessions.get? conn).map Session.agentId = some x.agentId := by
  refine ⟨fun c hc => OrderedTable.get?_insert_ne _ _ hc, ?_⟩
  intro x hx
  rw [OrderedTable.get?_insert_self, Option.some.injEq] at hx
  rw [hses, Option.map_some, ← hx, hagent]

theorem about_erase (sessions : OrderedTable ℕ (Session F)) (conn : ℕ) :
    (∀ c, c ≠ conn → (sessions.erase conn).get? c = sessions.get? c) ∧
      (sessions.erase conn).get? conn = none :=
  ⟨fun _ hc => OrderedTable.get?_erase_ne _ hc, OrderedTable.get?_erase_self _ _⟩

variable [JsonFloat F]

/-- A step leaves the sessions of other connections alone and no session changes its agent. -/
theorem Move.about {s u : Ingest F} {a : Act F} (h : Move s a u) :
    (∀ conn, conn ≠ a.conn → u.sessions.get? conn = s.sessions.get? conn) ∧
    ∀ ses, u.sessions.get? a.conn = some ses → s.agentAt a = some ses.agentId := by
  cases h with
  | @accept conn agentId hnew =>
      refine ⟨fun c hc => OrderedTable.get?_insert_ne _ _ hc, ?_⟩
      intro ses hses
      cases hses.symm.trans (OrderedTable.get?_insert_self s.sessions conn _)
      rfl
  | recv batchId events hses hidle => exact about_insert hses rfl
  | skip hses hr hholding htodo hknown => exact about_insert hses rfl
  | allow hses hr hholding htodo hseen hglobal => exact about_insert hses rfl
  | turnAway now committed hses hr hholding hkind => exact about_insert hses rfl
  | fail hses hr hholding hkind hfail => exact about_insert hses rfl
  | store hses hr hholding hkind hwrite => exact about_insert hses rfl
  | emit hses hr hholding => exact about_insert hses rfl
  | ack now touched hses hr hholding htodo => exact about_insert hses rfl
  | @unsent conn ses now hses hnone =>
      obtain ⟨hothers, hgone⟩ := about_erase s.sessions conn
      exact ⟨hothers, fun x hx => by cases hgone.symm.trans hx⟩
  | @close conn ses hses hnone =>
      obtain ⟨hothers, hgone⟩ := about_erase s.sessions conn
      exact ⟨hothers, fun x hx => by cases hgone.symm.trans hx⟩

omit [JsonFloat F] in
theorem known_check {s : Ingest F} {conn : ℕ} {ses : Session F} {r : Reading F} {e : Event F}
    {rest : List (Event F)} (hses : s.sessions.get? conn = some ses) (hr : ses.reading = some r)
    (hholding : r.holding = .nothing) (htodo : r.todo = e :: rest) :
    s.known (.check conn) = decide (e.id ∉ ses.seen ∧ e.id ∈ s.globalDedup) := by
  simp [known, next, hses, hr, hholding, htodo]

theorem writeEvent_isSome (store : Store F) (e : Event F) :
    (store.writeEvent e).isSome = e.payload.serialize.isSome := by
  rw [Store.writeEvent, Option.isSome_map]

/-- What a step leaves of its session, by the session before it and by whether the shared window
alone knows the event it looks at. -/
def sessionAfter (known : Bool) (before : Option (Session F)) : Act F → Option (Session F)
  | .accept _ agentId => some ⟨agentId, .new dedupCapacity, none⟩
  | .recv _ batchId events => before.map fun ses =>
      { ses with reading := some ⟨batchId, events, events, .nothing, 0⟩ }
  | .check _ => do
      let ses ← before
      let r ← ses.reading
      let e ← r.todo.head?
      some { ses with
        seen := (ses.seen.insert e.id).2
        reading := some { r with
          todo := r.todo.tail
          holding := if e.id ∈ ses.seen || known then .nothing else .checked e } }
  | .write _ now committed => do
      let ses ← before
      let r ← ses.reading
      let e ← ses.checked
      let e' := admitted ses.agentId now e
      some { ses with reading := some { r with
        holding := if isIngestible e.kind && committed && e'.payload.serialize.isSome
          then .written e' else .nothing } }
  | .emit _ => do
      let ses ← before
      let r ← ses.reading
      some { ses with
        reading := some { r with holding := .nothing, accepted := r.accepted + 1 } }
  | .ack _ _ sent _ => if sent then before.map fun ses => { ses with reading := none } else none
  | .close _ => none

/-- Nothing else of the state decides what becomes of the session. -/
theorem Move.session_after {s u : Ingest F} {a : Act F} (h : Move s a u) :
    u.sessions.get? a.conn =
      sessionAfter (s.known a) (s.sessions.get? a.conn) a := by
  have hput : ∀ (conn : ℕ) (ses : Session F), (s.put conn ses).sessions.get? conn = some ses :=
    fun conn ses => OrderedTable.get?_insert_self _ _ _
  cases h with
  | accept agentId hnew => exact hput _ _
  | recv batchId events hses hidle =>
      rw [sessionAfter, Act.conn, hses]
      exact hput _ _
  | @skip conn ses r e rest hses hr hholding htodo hseen =>
      have hknown : (decide (e.id ∈ ses.seen) || s.known (.check conn)) = true := by
        rw [known_check hses hr hholding htodo]
        by_cases hown : e.id ∈ ses.seen
        · simp [hown]
        · simp [hown, hseen.resolve_left hown]
      simp only [sessionAfter, Act.conn, hses, hr, htodo, Option.bind_eq_bind, Option.bind_some,
        List.head?_cons, List.tail_cons, hknown, if_true]
      rw [hput, ← hholding]
  | @allow conn ses r e rest hses hr hholding htodo hseen hglobal =>
      have hknown : (decide (e.id ∈ ses.seen) || s.known (.check conn)) = false := by
        rw [known_check hses hr hholding htodo]
        simp [hseen, hglobal]
      simp only [sessionAfter, Act.conn, hses, hr, htodo, Option.bind_eq_bind, Option.bind_some,
        List.head?_cons, List.tail_cons, hknown, Bool.false_eq_true, if_false]
      exact hput _ _
  | turnAway now committed hses hr hholding hkind =>
      simp only [sessionAfter, Act.conn, hses, hr, Session.checked, hholding, hkind,
        Option.bind_eq_bind, Option.bind_some, Bool.false_and, Bool.false_eq_true, if_false]
      exact hput _ _
  | @fail conn ses r e now committed hses hr hholding hkind hfail =>
      have hlost :
          (committed && (admitted ses.agentId now e).payload.serialize.isSome) = false := by
        cases committed with
        | false => rfl
        | true => rw [← writeEvent_isSome s.store, hfail rfl, Bool.true_and, Option.isSome_none]
      simp only [sessionAfter, Act.conn, hses, hr, Session.checked, hholding, Bool.and_assoc, hlost,
        Option.bind_eq_bind, Option.bind_some, Bool.and_false, Bool.false_eq_true, if_false]
      exact hput _ _
  | @store conn ses r e now store hses hr hholding hkind hwrite =>
      have hkept : (admitted ses.agentId now e).payload.serialize.isSome = true := by
        rw [← writeEvent_isSome s.store, hwrite, Option.isSome_some]
      simp only [sessionAfter, Act.conn, hses, hr, Session.checked, hholding, hkind, hkept,
        Option.bind_eq_bind, Option.bind_some, Bool.and_self, if_true]
      exact hput _ _
  | emit hses hr hholding =>
      simp only [sessionAfter, Act.conn, hses, hr, Option.bind_eq_bind, Option.bind_some]
      exact hput _ _
  | ack now touched hses hr hholding htodo =>
      simp only [sessionAfter, Act.conn, hses, if_true, Option.map_some]
      exact hput _ _
  | unsent now touched hses hnone => exact (about_erase _ _).2
  | close hses hnone => exact (about_erase _ _).2

theorem Move.same_agent {s u : Ingest F} {a : Act F} (h : Move s a u) {conn : ℕ}
    {ses ses' : Session F} (hses : s.sessions.get? conn = some ses)
    (hses' : u.sessions.get? conn = some ses') : ses'.agentId = ses.agentId := by
  obtain ⟨hothers, habout⟩ := h.about
  by_cases hconn : conn = a.conn
  · subst hconn
    have hagent := habout ses' hses'
    cases h with
    | accept agentId hnew => cases hnew.symm.trans hses
    | _ =>
        rw [agentAt, hses] at hagent
        · exact (Option.some.inj hagent).symm
        · nofun
  · rw [hothers conn hconn, hses] at hses'
    rw [Option.some.inj hses']

/-- What a step hands to the bus. -/
def handsOver (s : Ingest F) : Act F → Option (Event F)
  | .emit conn => s.unsent conn
  | _ => none

theorem Move.arrivals {s u : Ingest F} {a : Act F} (h : Move s a u) :
    Server.arrivals s u = ((s.handsOver a).map fun e => ⟨e.agentId, true, e⟩).toList := by
  cases h with
  | @emit conn ses r e hses hr hholding =>
      have hunsent : s.handsOver (.emit conn) = some e := by
        simp [handsOver, Ingest.unsent, hses, Session.unsent, hr, hholding]
      rw [hunsent]
      exact Server.arrivals_singleton rfl
  | _ => exact Server.arrivals_nil rfl

theorem Stamped.step {s u : Ingest F} {a : Act F} (hs : s.Stamped) (h : Move s a u) :
    u.Stamped := by
  intro conn ses' hses' e he
  have hunsent : u.unsent conn = some e := by
    rw [Ingest.unsent, hses']
    exact he
  rcases h.unsent_from hunsent with hbefore | ⟨now, ses, e₀, -, hses, -, -, rfl, -⟩
  · obtain ⟨ses, hses, he⟩ := Option.bind_eq_some_iff.mp hbefore
    rw [h.same_agent hses hses']
    exact hs conn ses hses e he
  · rw [h.same_agent hses hses', admitted_agentId]

omit [JsonFloat F] in
theorem Stamped.handsOver {s : Ingest F} (hs : s.Stamped) {a : Act F} {e : Event F}
    (he : s.handsOver a = some e) : s.agentAt a = some e.agentId := by
  cases a with
  | emit conn =>
      obtain ⟨ses, hses, he⟩ := Option.bind_eq_some_iff.mp he
      rw [hs conn ses hses e he]
      simp [agentAt, Act.conn, hses]
  | _ => cases he

omit [JsonFloat F] in
theorem sessionsOf_eq_some {agentId : AgentId} {s : Ingest F} {conn : ℕ} {ses : Session F} :
    s.sessionsOf agentId conn = some ses ↔
      s.sessions.get? conn = some ses ∧ ses.agentId = agentId := by
  rw [sessionsOf, Option.filter_eq_some_iff, decide_eq_true_eq]

omit [JsonFloat F] in
theorem sessionsOf_eq_none {agentId : AgentId} {s : Ingest F} {conn : ℕ}
    (h : ∀ ses, s.sessions.get? conn = some ses → ses.agentId ≠ agentId) :
    s.sessionsOf agentId conn = none := by
  rw [Option.eq_none_iff_forall_ne_some]
  intro ses hses
  obtain ⟨hget, hagent⟩ := sessionsOf_eq_some.mp hses
  exact h ses hget hagent

/-- A step is about the agent of its session, unless it opens one. -/
theorem Move.opens_or_at {s u : Ingest F} {a : Act F} (h : Move s a u) :
    (∃ agentId, a = .accept a.conn agentId ∧ s.sessions.get? a.conn = none) ∨
      s.agentAt a = (s.sessions.get? a.conn).map Session.agentId := by
  cases h with
  | accept agentId hnew => exact Or.inl ⟨agentId, rfl, hnew⟩
  | _ => exact Or.inr rfl

/-- A step of another agent leaves an agent's sessions alone. -/
theorem Move.sessionsOf_other {s u : Ingest F} {a : Act F} (h : Move s a u) {agentId : AgentId}
    (ha : s.agentAt a ≠ some agentId) : u.sessionsOf agentId = s.sessionsOf agentId := by
  obtain ⟨hothers, habout⟩ := h.about
  funext conn
  by_cases hconn : conn = a.conn
  · subst hconn
    rw [sessionsOf_eq_none, sessionsOf_eq_none]
    · intro ses hses hagent
      rcases h.opens_or_at with ⟨-, -, hnew⟩ | hat
      · rw [hnew] at hses
        cases hses
      · rw [hat, hses, Option.map_some, hagent] at ha
        exact ha rfl
    · intro ses hses hagent
      rw [habout ses hses, hagent] at ha
      exact ha rfl
  · rw [sessionsOf, sessionsOf, hothers conn hconn]

theorem agree_own {s s' u u' : Ingest F} {a : Act F} (h : Move s a u) (h' : Move s' a u')
    {agentId : AgentId} (ha : s.agentAt a = some agentId)
    (hsame : s.sessionsOf agentId = s'.sessionsOf agentId) :
    s.sessions.get? a.conn = s'.sessions.get? a.conn := by
  rcases h.opens_or_at with ⟨opened, haccept, hnew⟩ | hat
  · rw [haccept] at h'
    cases h' with
    | accept _ hnew' => rw [hnew, hnew']
  · obtain ⟨ses, hses, hagent⟩ := Option.map_eq_some_iff.mp (hat.symm.trans ha)
    have hown := sessionsOf_eq_some.mpr ⟨hses, hagent⟩
    rw [hsame] at hown
    rw [hses, (sessionsOf_eq_some.mp hown).1]

theorem sessionsOf_own {s s' u u' : Ingest F} {a : Act F} (h : Move s a u) (h' : Move s' a u')
    {agentId : AgentId} (ha : s.agentAt a = some agentId)
    (hsame : s.sessionsOf agentId = s'.sessionsOf agentId) (hknown : s.known a = s'.known a) :
    u.sessionsOf agentId = u'.sessionsOf agentId := by
  have hagree := agree_own h h' ha hsame
  funext conn
  by_cases hconn : conn = a.conn
  · rw [hconn, sessionsOf, sessionsOf, h.session_after, h'.session_after, hagree, hknown]
  · have hbefore := congrFun hsame conn
    rw [sessionsOf, sessionsOf] at hbefore ⊢
    rw [h.about.1 conn hconn, h'.about.1 conn hconn, hbefore]

omit [JsonFloat F] in
theorem handsOver_agree {s s' : Ingest F} {a : Act F}
    (hagree : s.sessions.get? a.conn = s'.sessions.get? a.conn) :
    s.handsOver a = s'.handsOver a := by
  cases a with
  | emit conn =>
      rw [Act.conn] at hagree
      rw [handsOver, handsOver, Ingest.unsent, Ingest.unsent, hagree]
  | _ => rfl

end Ingest

namespace Server

/-- The agent's events among those on the bus: what the bus and the processors read of them. -/
def carried (agentId : AgentId) (ts : List (Traced F)) : List (String × EventPayload F) :=
  (ts.filter fun t => t.origin = agentId).map fun t => (t.event.kind, t.event.payload)

/-- The agent's payloads in an outbox. -/
def waiting (agentId : AgentId) (xs : List (AgentId × EventPayload F)) : List (EventPayload F) :=
  (xs.filter fun x => x.1 = agentId).map Prod.snd

/-- What belongs to an agent: its sessions, its events and payloads in every queue, and the state
of the processors under its keys. -/
structure Part (F : Type) where
  sessions : ℕ → Option (Session F)
  ingress : List (String × EventPayload F)
  detectQueue : List (String × EventPayload F)
  scoreQueue : List (String × EventPayload F)
  detector : Detector F
  risk : RiskState F
  detectOutbox : List (EventPayload F)
  scoreOutbox : List (EventPayload F)
  published : List (String × EventPayload F)

def part (agentId : AgentId) (keys : String → Bool) (s : Server F) : Part F where
  sessions := s.ingest.sessionsOf agentId
  ingress := carried agentId s.ingress
  detectQueue := carried agentId s.detectQueue
  scoreQueue := carried agentId s.scoreQueue
  detector := s.detector.restrict keys
  risk := s.risk.restrict keys
  detectOutbox := waiting agentId s.detectOutbox
  scoreOutbox := waiting agentId s.scoreOutbox
  published := carried agentId s.published

/-- What is read of a step; the ids and times of what the processors publish are not. -/
inductive Shown (F : Type) where
  | ingest (a : Ingest.Act F) (full : Bool)
  | dispatch (full : Full)
  | detect (now : UInt64)
  | publishDetection
  | score
  | publishScore
  | sink

def shown : Act F → Shown F
  | .ingest a full => .ingest a full
  | .dispatch full => .dispatch full
  | .detect now => .detect now
  | .publishDetection _ _ => .publishDetection
  | .score => .score
  | .publishScore _ _ => .publishScore
  | .sink _ _ _ => .sink

/-- Whether a step is about the agent, and if so whether the shared window alone knows the event it
looks at. -/
def concerns (agentId : AgentId) (s : Server F) : Act F → Option Bool
  | .ingest a _ => if s.ingest.agentAt a = some agentId then some (s.ingest.known a) else none
  | .dispatch _ => ofHead (s.ingress.head?.map Traced.origin)
  | .detect _ => ofHead (s.detectQueue.head?.map Traced.origin)
  | .publishDetection _ _ => ofHead (s.detectOutbox.head?.map Prod.fst)
  | .score => ofHead (s.scoreQueue.head?.map Traced.origin)
  | .publishScore _ _ => ofHead (s.scoreOutbox.head?.map Prod.fst)
  | .sink _ _ _ => none
where
  ofHead (head : Option AgentId) : Option Bool := if head = some agentId then some false else none

/-- The steps of a run that are about the agent. -/
def stepOf (agentId : AgentId) (s : Server F) (a : Act F) : Option (Shown F × Bool) :=
  (s.concerns agentId a).map fun known => (shown a, known)

/-- What is the agent's has a key of the agent's, and what is not has not. -/
def OnSide (agentId : AgentId) (keys : String → Bool) (origin : AgentId)
    (payload : EventPayload F) : Prop :=
  ∀ k ∈ payload.subjectKey, keys k = decide (origin = agentId)

instance (agentId : AgentId) (keys : String → Bool) (origin : AgentId)
    (payload : EventPayload F) : Decidable (OnSide agentId keys origin payload) :=
  inferInstanceAs (Decidable (∀ k ∈ payload.subjectKey, keys k = decide (origin = agentId)))

/-- Everything in the processors' queues and outboxes has a key on its side. -/
structure Split (agentId : AgentId) (keys : String → Bool) (s : Server F) : Prop where
  stamped : s.ingest.Stamped
  queued : ∀ t, t ∈ s.ingress ∨ t ∈ s.detectQueue ∨ t ∈ s.scoreQueue →
    OnSide agentId keys t.origin t.event.payload
  outboxes : ∀ x, x ∈ s.detectOutbox ∨ x ∈ s.scoreOutbox → OnSide agentId keys x.1 x.2

theorem start_split (agentId : AgentId) (keys : String → Bool) (store : Store F) :
    Split agentId keys (start store) where
  stamped := nofun
  queued := by
    rintro t (ht | ht | ht) <;> cases ht
  outboxes := by
    rintro x (hx | hx) <;> cases hx

variable [F64 F] (cfg : ServerConfig F)

/-- What comes onto the bus from a session has a key on its side. -/
def KeysApart (agentId : AgentId) (keys : String → Bool) (s : Server F) : Act F → Prop
  | .ingest a _ => ∀ e ∈ s.ingest.handsOver a, OnSide agentId keys e.agentId e.payload
  | _ => True

/-- Handling another agent's event evicts no session of the agent. -/
def NoneIdle (agentId : AgentId) (keys : String → Bool) (s : Server F) : Act F → Prop
  | .detect now => ∀ t ∈ s.detectQueue.head?, t.origin ≠ agentId →
      t.event.payload.sweeps = true → ∀ r ∈ s.detector.rows, keys r.1 = true →
        AgentDetect.Within cfg.detect r.2.lastActivityNs now
  | _ => True

/-- The condition on a step. -/
def Apart (agentId : AgentId) (keys : String → Bool) (s : Server F) (a : Act F) : Prop :=
  KeysApart agentId keys s a ∧ NoneIdle cfg agentId keys s a

instance (agentId : AgentId) (keys : String → Bool) (s : Server F) (a : Act F) :
    Decidable (KeysApart agentId keys s a) :=
  match a with
  | .ingest a _ =>
      inferInstanceAs
        (Decidable (∀ e ∈ s.ingest.handsOver a, OnSide agentId keys e.agentId e.payload))
  | .dispatch _ => .isTrue trivial
  | .detect _ => .isTrue trivial
  | .publishDetection _ _ => .isTrue trivial
  | .score => .isTrue trivial
  | .publishScore _ _ => .isTrue trivial
  | .sink _ _ _ => .isTrue trivial

instance (agentId : AgentId) (keys : String → Bool) (s : Server F) (a : Act F) :
    Decidable (NoneIdle cfg agentId keys s a) :=
  match a with
  | .detect now =>
      inferInstanceAs (Decidable (∀ t ∈ s.detectQueue.head?, t.origin ≠ agentId →
        t.event.payload.sweeps = true → ∀ r ∈ s.detector.rows, keys r.1 = true →
          AgentDetect.Within cfg.detect r.2.lastActivityNs now))
  | .ingest _ _ => .isTrue trivial
  | .dispatch _ => .isTrue trivial
  | .publishDetection _ _ => .isTrue trivial
  | .score => .isTrue trivial
  | .publishScore _ _ => .isTrue trivial
  | .sink _ _ _ => .isTrue trivial

instance (agentId : AgentId) (keys : String → Bool) (s : Server F) (a : Act F) :
    Decidable (Apart cfg agentId keys s a) :=
  inferInstanceAs (Decidable (KeysApart agentId keys s a ∧ NoneIdle cfg agentId keys s a))

variable {cfg} {agentId : AgentId} {keys : String → Bool}

theorem Split.step {s u : Server F} {a : Act F} (h : Split agentId keys s)
    (hapart : Apart cfg agentId keys s a) (hmove : Move cfg s a u) : Split agentId keys u := by
  cases hmove with
  | @ingest a full i hi =>
      have hmove := Ingest.step_move hi
      refine ⟨h.stamped.step hmove, ?_, h.outboxes⟩
      rintro t (ht | ht)
      · rcases List.mem_append.mp ht with ht | ht
        · exact h.queued t (Or.inl ht)
        · have harrived := boarding_subset full _ ht
          rw [hmove.arrivals] at harrived
          obtain ⟨e, he, rfl⟩ := Option.map_eq_some_iff.mp (Option.mem_toList.mp harrived)
          exact hapart.1 e he
      · exact h.queued t (Or.inr ht)
  | @dispatch t₀ rest full hin =>
      have hhead : t₀ ∈ s.ingress := by
        rw [hin]
        exact List.mem_cons_self
      refine ⟨h.stamped, ?_, h.outboxes⟩
      rintro t (ht | ht | ht)
      · apply h.queued t
        rw [hin]
        exact Or.inl (List.mem_cons_of_mem _ ht)
      · rcases mem_enqueue ht with ht | rfl
        · exact h.queued t (Or.inr (Or.inl ht))
        · exact h.queued t (Or.inl hhead)
      · rcases mem_enqueue ht with ht | rfl
        · exact h.queued t (Or.inr (Or.inr ht))
        · exact h.queued t (Or.inl hhead)
  | @detect t₀ rest now hout hq =>
      refine ⟨h.stamped, ?_, ?_⟩
      · rintro t (ht | ht | ht)
        · exact h.queued t (Or.inl ht)
        · apply h.queued t
          rw [hq]
          exact Or.inr (Or.inl (List.mem_cons_of_mem _ ht))
        · exact h.queued t (Or.inr (Or.inr ht))
      · rintro x (hx | hx)
        · obtain ⟨p, hp, rfl⟩ := List.mem_map.mp hx
          have hside := h.queued t₀ (by rw [hq]; exact Or.inr (Or.inl List.mem_cons_self))
          intro k hk
          rw [AgentDetect.handle_subjectKey _ _ _ _ hp] at hk
          exact hside k hk
        · exact h.outboxes x (Or.inr hx)
  | @publishDetection x₀ rest id now hout =>
      refine ⟨h.stamped, ?_, ?_⟩
      · rintro t (ht | ht)
        · rcases List.mem_append.mp ht with ht | ht
          · exact h.queued t (Or.inl ht)
          · rw [List.mem_singleton.mp ht]
            exact h.outboxes x₀ (by rw [hout]; exact Or.inl List.mem_cons_self)
        · exact h.queued t (Or.inr ht)
      · rintro x (hx | hx)
        · exact h.outboxes x (by rw [hout]; exact Or.inl (List.mem_cons_of_mem _ hx))
        · exact h.outboxes x (Or.inr hx)
  | @score t₀ rest hout hq =>
      refine ⟨h.stamped, ?_, ?_⟩
      · rintro t (ht | ht | ht)
        · exact h.queued t (Or.inl ht)
        · exact h.queued t (Or.inr (Or.inl ht))
        · apply h.queued t
          rw [hq]
          exact Or.inr (Or.inr (List.mem_cons_of_mem _ ht))
      · rintro x (hx | hx)
        · exact h.outboxes x (Or.inl hx)
        · obtain ⟨p, hp, rfl⟩ := List.mem_map.mp hx
          intro k hk
          rw [Scoring.handle_subjectKey _ _ hp] at hk
          cases hk
  | @publishScore x₀ rest id now hout =>
      refine ⟨h.stamped, ?_, ?_⟩
      · rintro t (ht | ht)
        · rcases List.mem_append.mp ht with ht | ht
          · exact h.queued t (Or.inl ht)
          · rw [List.mem_singleton.mp ht]
            exact h.outboxes x₀ (by rw [hout]; exact Or.inr List.mem_cons_self)
        · exact h.queued t (Or.inr ht)
      · rintro x (hx | hx)
        · exact h.outboxes x (Or.inl hx)
        · exact h.outboxes x (by rw [hout]; exact Or.inr (List.mem_cons_of_mem _ hx))
  | sink alertId logged committed hq => exact ⟨h.stamped, h.queued, h.outboxes⟩

section Carried
omit [F64 F]

theorem carried_append (ts ts' : List (Traced F)) :
    carried agentId (ts ++ ts') = carried agentId ts ++ carried agentId ts' := by
  rw [carried, List.filter_append, List.map_append, carried, carried]

theorem carried_own {t : Traced F} (ht : t.origin = agentId) (ts : List (Traced F)) :
    carried agentId (t :: ts) = (t.event.kind, t.event.payload) :: carried agentId ts := by
  rw [carried, List.filter_cons_of_pos (by simpa using ht), List.map_cons, carried]

theorem carried_other {t : Traced F} (ht : t.origin ≠ agentId) (ts : List (Traced F)) :
    carried agentId (t :: ts) = carried agentId ts := by
  rw [carried, List.filter_cons_of_neg (by simpa using ht), carried]

theorem carried_none {ts : List (Traced F)} (h : ∀ t ∈ ts, t.origin ≠ agentId) :
    carried agentId ts = [] := by
  rw [carried, List.filter_eq_nil_iff.mpr fun t ht => by simpa using h t ht, List.map_nil]

theorem carried_enqueue_own {t : Traced F} (ht : t.origin = agentId) (subscriptions : List String)
    (full : Bool) (queue : List (Traced F)) :
    carried agentId (enqueue subscriptions full queue t) =
      carried agentId queue ++
        if subscriptions.contains t.event.kind && !drops full t.event.kind then
          [(t.event.kind, t.event.payload)] else [] := by
  unfold enqueue
  split_ifs
  · rw [carried_append, carried_own ht]
    rfl
  · rw [List.append_nil]

theorem carried_enqueue_other {t : Traced F} (ht : t.origin ≠ agentId)
    (subscriptions : List String) (full : Bool) (queue : List (Traced F)) :
    carried agentId (enqueue subscriptions full queue t) = carried agentId queue := by
  unfold enqueue
  split_ifs
  · rw [carried_append, carried_other ht]
    exact List.append_nil _
  · rfl

theorem waiting_own {x : AgentId × EventPayload F} (hx : x.1 = agentId)
    (xs : List (AgentId × EventPayload F)) :
    waiting agentId (x :: xs) = x.2 :: waiting agentId xs := by
  rw [waiting, List.filter_cons_of_pos (by simpa using hx), List.map_cons, waiting]

theorem waiting_other {x : AgentId × EventPayload F} (hx : x.1 ≠ agentId)
    (xs : List (AgentId × EventPayload F)) : waiting agentId (x :: xs) = waiting agentId xs := by
  rw [waiting, List.filter_cons_of_neg (by simpa using hx), waiting]

theorem waiting_emitted (origin : AgentId) (emitted : List (EventPayload F)) :
    waiting agentId (emitted.map fun p => (origin, p)) =
      if origin = agentId then emitted else [] := by
  split_ifs with horigin
  · rw [waiting, List.filter_eq_self.mpr, List.map_map]
    · exact List.map_id _
    · intro x hx
      obtain ⟨p, -, rfl⟩ := List.mem_map.mp hx
      simpa using horigin
  · rw [waiting, List.filter_eq_nil_iff.mpr, List.map_nil]
    intro x hx
    obtain ⟨p, -, rfl⟩ := List.mem_map.mp hx
    simpa using horigin

theorem concerns_head {head : Option AgentId} {known : Bool} :
    concerns.ofHead agentId head = some known ↔ head = some agentId ∧ known = false := by
  unfold concerns.ofHead
  split_ifs with hhead <;> simp [hhead, eq_comm]

theorem concerns_head_none {head : Option AgentId} :
    concerns.ofHead agentId head = none ↔ head ≠ some agentId := by
  unfold concerns.ofHead
  split_ifs with hhead <;> simp [hhead]

theorem head_other {ts rest : List (Traced F)} {t : Traced F} (hts : ts = t :: rest)
    (h : concerns.ofHead agentId (ts.head?.map Traced.origin) = none) : t.origin ≠ agentId := by
  rw [concerns_head_none, hts] at h
  exact fun heq => h (congrArg some heq)

theorem head_waiting_other {xs rest : List (AgentId × EventPayload F)}
    {x : AgentId × EventPayload F} (hxs : xs = x :: rest)
    (h : concerns.ofHead agentId (xs.head?.map Prod.fst) = none) : x.1 ≠ agentId := by
  rw [concerns_head_none, hxs] at h
  exact fun heq => h (congrArg some heq)

theorem carried_heads {ts ts' rest rest' : List (Traced F)} {t t' : Traced F} {known known' : Bool}
    (hts : ts = t :: rest) (hts' : ts' = t' :: rest')
    (h : concerns.ofHead agentId (ts.head?.map Traced.origin) = some known)
    (h' : concerns.ofHead agentId (ts'.head?.map Traced.origin) = some known')
    (hsame : carried agentId ts = carried agentId ts') :
    t.origin = agentId ∧ t'.origin = agentId ∧ t.event.kind = t'.event.kind ∧
      t.event.payload = t'.event.payload ∧ carried agentId rest = carried agentId rest' := by
  subst hts hts'
  have ht : t.origin = agentId := Option.some.inj (concerns_head.mp h).1
  have ht' : t'.origin = agentId := Option.some.inj (concerns_head.mp h').1
  rw [carried_own ht, carried_own ht', List.cons.injEq] at hsame
  obtain ⟨hkind, hpayload⟩ := Prod.mk.inj hsame.1
  exact ⟨ht, ht', hkind, hpayload, hsame.2⟩

theorem waiting_heads {xs xs' rest rest' : List (AgentId × EventPayload F)}
    {x x' : AgentId × EventPayload F} {known known' : Bool}
    (hxs : xs = x :: rest) (hxs' : xs' = x' :: rest')
    (h : concerns.ofHead agentId (xs.head?.map Prod.fst) = some known)
    (h' : concerns.ofHead agentId (xs'.head?.map Prod.fst) = some known')
    (hsame : waiting agentId xs = waiting agentId xs') :
    x.1 = agentId ∧ x'.1 = agentId ∧ x.2 = x'.2 ∧
      waiting agentId rest = waiting agentId rest' := by
  subst hxs hxs'
  have hx : x.1 = agentId := Option.some.inj (concerns_head.mp h).1
  have hx' : x'.1 = agentId := Option.some.inj (concerns_head.mp h').1
  rw [waiting_own hx, waiting_own hx', List.cons.injEq] at hsame
  exact ⟨hx, hx', hsame⟩

end Carried

omit [F64 F] in
theorem restrict_evictIdle {d : Detector F} {config : DetectConfig F} {now : UInt64}
    (h : ∀ r ∈ d.rows, keys r.1 = true → AgentDetect.Within config r.2.lastActivityNs now) :
    (AgentDetect.evictIdle d now config.ttlNs).restrict keys = d.restrict keys := by
  unfold AgentDetect.evictIdle
  split_ifs with hzero
  · rfl
  · apply OrderedTable.ext
    simp only [OrderedTable.restrict_rows, List.filter_filter]
    apply List.filter_congr
    intro r hr
    cases hkey : keys r.1 with
    | false => rfl
    | true => simpa using (h r hr hkey).resolve_left hzero

theorem Split.silent {s u : Server F} {a : Act F} (h : Split agentId keys s)
    (hapart : Apart cfg agentId keys s a) (hmove : Move cfg s a u)
    (hother : s.concerns agentId a = none) : part agentId keys u = part agentId keys s := by
  cases hmove with
  | @ingest a full i hi =>
      have hmove := Ingest.step_move hi
      have hagent : s.ingest.agentAt a ≠ some agentId := by
        intro hagent
        rw [concerns, if_pos hagent] at hother
        cases hother
      have hnone : carried agentId (boarding full (arrivals s.ingest i)) = [] := by
        apply carried_none
        intro t ht
        have harrived := boarding_subset full _ ht
        rw [hmove.arrivals] at harrived
        obtain ⟨e, he, rfl⟩ := Option.map_eq_some_iff.mp (Option.mem_toList.mp harrived)
        rintro rfl
        exact hagent (h.stamped.handsOver he)
      simp only [part, hmove.sessionsOf_other hagent, carried_append, hnone, List.append_nil]
  | @dispatch t rest full hin =>
      have horigin := head_other hin hother
      simp only [part, hin, carried_other horigin, carried_enqueue_other horigin]
  | @detect t rest now hout hq =>
      have horigin := head_other hq hother
      have hkeys : ∀ k, t.event.payload.subjectKey = some k → keys k = false := by
        intro k hk
        rw [h.queued t (by rw [hq]; exact Or.inr (Or.inl List.mem_cons_self)) k hk]
        exact decide_eq_false horigin
      have hidle : t.event.payload.sweeps = true →
          (AgentDetect.evictIdle s.detector now cfg.detect.ttlNs).restrict keys =
            s.detector.restrict keys := by
        intro hsweeps
        apply restrict_evictIdle
        exact hapart.2 t (by rw [hq]; rfl) horigin hsweeps
      simp only [part, hq, hout, carried_other horigin, waiting_emitted, if_neg horigin,
        AgentDetect.handle_restrict_of_neg _ _ _ _ _ hkeys hidle]
      rfl
  | @publishDetection x rest id now hout =>
      have horigin := head_waiting_other hout hother
      have hpublished : carried agentId [publication cfg "plugin-agent-detect" id now x] = [] :=
        carried_other horigin []
      simp only [part, hout, carried_append, hpublished, waiting_other horigin, List.append_nil]
  | @score t rest hout hq =>
      have horigin := head_other hq hother
      have hkeys : ∀ k, t.event.payload.subjectKey = some k → keys k = false := by
        intro k hk
        rw [h.queued t (by rw [hq]; exact Or.inr (Or.inr List.mem_cons_self)) k hk]
        exact decide_eq_false horigin
      simp only [part, hq, hout, carried_other horigin, waiting_emitted, if_neg horigin,
        Scoring.handle_restrict_of_neg _ _ _ hkeys]
      rfl
  | @publishScore x rest id now hout =>
      have horigin := head_waiting_other hout hother
      have hpublished : carried agentId [publication cfg "plugin-scoring" id now x] = [] :=
        carried_other horigin []
      simp only [part, hout, carried_append, hpublished, waiting_other horigin, List.append_nil]
  | sink alertId logged committed hq => rfl

omit [F64 F] in
theorem OnSide.own {origin : AgentId} {payload : EventPayload F}
    (h : OnSide agentId keys origin payload) (horigin : origin = agentId) (k : String)
    (hk : payload.subjectKey = some k) : keys k = true := by
  rw [h k hk]
  exact decide_eq_true horigin

omit [F64 F] in
theorem carried_publication (plugin : String) (id : Uuid) (now : UInt64)
    {x : AgentId × EventPayload F} (hx : x.1 = agentId) :
    carried agentId [publication cfg plugin id now x] = [(x.2.defaultKind, x.2)] :=
  carried_own hx []

/-- A step about the agent changes the agent's part alike wherever the part is the same. -/
theorem Split.consistent {s s' u u' : Server F} {a a' : Act F} {known : Bool}
    (h : Split agentId keys s) (h' : Split agentId keys s') (hmove : Move cfg s a u)
    (hmove' : Move cfg s' a' u') (hpart : part agentId keys s = part agentId keys s')
    (hshown : shown a = shown a') (hown : s.concerns agentId a = some known)
    (hown' : s'.concerns agentId a' = some known) :
    part agentId keys u = part agentId keys u' := by
  have hfields := hpart
  simp only [part, Part.mk.injEq] at hfields
  obtain ⟨hsessions, hingress, hdetects, hscores, hdetector, hrisk, hdetections, hreports,
    hpublished⟩ := hfields
  cases hmove with
  | @ingest a full i hi =>
      cases hmove' with
      | @ingest a' full' i' hi' =>
          cases hshown
          have hm := Ingest.step_move hi
          have hm' := Ingest.step_move hi'
          have hagent : s.ingest.agentAt a = some agentId := by
            rw [concerns] at hown
            split_ifs at hown with hagent
            exact hagent
          have hagent' : s'.ingest.agentAt a = some agentId := by
            rw [concerns] at hown'
            split_ifs at hown' with hagent'
            exact hagent'
          have hknown : s.ingest.known a = s'.ingest.known a := by
            rw [concerns, if_pos hagent] at hown
            rw [concerns, if_pos hagent'] at hown'
            exact Option.some.inj (hown.trans hown'.symm)
          have hgiven : arrivals s.ingest i = arrivals s'.ingest i' := by
            rw [hm.arrivals, hm'.arrivals,
              Ingest.handsOver_agree (Ingest.agree_own hm hm' hagent hsessions)]
          simp only [part, Part.mk.injEq, carried_append, hgiven, hingress]
          exact ⟨Ingest.sessionsOf_own hm hm' hagent hsessions hknown, trivial, hdetects, hscores,
            hdetector, hrisk, hdetections, hreports, hpublished⟩
      | _ => cases hshown
  | @dispatch t rest full hin =>
      cases hmove' with
      | @dispatch t' rest' full' hin' =>
          cases hshown
          obtain ⟨ht, ht', hkind, hpayload, hrest⟩ := carried_heads hin hin' hown hown' hingress
          simp only [part, Part.mk.injEq, carried_enqueue_own ht, carried_enqueue_own ht', hkind,
            hpayload, hdetects, hscores]
          exact ⟨hsessions, hrest, trivial, trivial, hdetector, hrisk, hdetections, hreports,
            hpublished⟩
      | _ => cases hshown
  | @detect t rest now hout hq =>
      cases hmove' with
      | @detect t' rest' now' hout' hq' =>
          cases hshown
          obtain ⟨ht, ht', -, hpayload, hrest⟩ := carried_heads hq hq' hown hown' hdetects
          have hside := h.queued t (by rw [hq]; exact Or.inr (Or.inl List.mem_cons_self))
          have hside' := h'.queued t' (by rw [hq']; exact Or.inr (Or.inl List.mem_cons_self))
          have hrun := AgentDetect.handle_restrict_of_pos cfg.model cfg.detect s.detector keys now
            (hside.own ht)
          have hrun' := AgentDetect.handle_restrict_of_pos cfg.model cfg.detect s'.detector keys now
            (hside'.own ht')
          rw [← hpayload, ← hdetector, hrun, Prod.mk.injEq] at hrun'
          simp only [part, Part.mk.injEq, waiting_emitted, if_pos ht, if_pos ht', ← hpayload]
          exact ⟨hsessions, hingress, hrest, hscores, hrun'.1, hrisk, hrun'.2, hreports, hpublished⟩
      | _ => cases hshown
  | @publishDetection x rest id now hout =>
      cases hmove' with
      | @publishDetection x' rest' id' now' hout' =>
          obtain ⟨hx, hx', hpayload, hrest⟩ := waiting_heads hout hout' hown hown' hdetections
          simp only [part, Part.mk.injEq, carried_append, carried_publication _ _ _ hx,
            carried_publication _ _ _ hx', hpayload, hingress, hpublished]
          exact ⟨hsessions, trivial, hdetects, hscores, hdetector, hrisk, hrest, hreports, trivial⟩
      | _ => cases hshown
  | @score t rest hout hq =>
      cases hmove' with
      | @score t' rest' hout' hq' =>
          obtain ⟨ht, ht', -, hpayload, hrest⟩ := carried_heads hq hq' hown hown' hscores
          have hside := h.queued t (by rw [hq]; exact Or.inr (Or.inr List.mem_cons_self))
          have hside' := h'.queued t' (by rw [hq']; exact Or.inr (Or.inr List.mem_cons_self))
          have hrun := Scoring.handle_restrict_of_pos cfg.scoring s.risk keys (hside.own ht)
          have hrun' := Scoring.handle_restrict_of_pos cfg.scoring s'.risk keys (hside'.own ht')
          rw [← hpayload, ← hrisk, hrun, Prod.mk.injEq] at hrun'
          simp only [part, Part.mk.injEq, waiting_emitted, if_pos ht, if_pos ht', ← hpayload]
          exact ⟨hsessions, hingress, hdetects, hrest, hdetector, hrun'.1, hdetections, hrun'.2,
            hpublished⟩
      | _ => cases hshown
  | @publishScore x rest id now hout =>
      cases hmove' with
      | @publishScore x' rest' id' now' hout' =>
          obtain ⟨hx, hx', hpayload, hrest⟩ := waiting_heads hout hout' hown hown' hreports
          simp only [part, Part.mk.injEq, carried_append, carried_publication _ _ _ hx,
            carried_publication _ _ _ hx', hpayload, hingress, hpublished]
          exact ⟨hsessions, trivial, hdetects, hscores, hdetector, hrisk, hdetections, hrest,
            trivial⟩
      | _ => cases hshown
  | sink alertId logged committed hq => cases hown

/-- Two runs that take the same of an agent, in which no other agent's event on the bus has a key
of its sessions and users and handling them evicts none of its sessions, publish the same for it:
its detections, scores and alerts. -/
theorem isolated_of_apart (cfg : ServerConfig F) (agentId : AgentId) (keys : String → Bool)
    {store store' : Store F} {l l' : List (Act F)} {s s' : Server F}
    (h : GuardedRun (step cfg) (Apart cfg agentId keys) (start store) l s)
    (h' : GuardedRun (step cfg) (Apart cfg agentId keys) (start store') l' s')
    (hsame : observed (step cfg) (stepOf agentId) (start store) l =
      observed (step cfg) (stepOf agentId) (start store') l') :
    carried agentId s.published = carried agentId s'.published := by
  have hpart : part agentId keys s = part agentId keys s' := by
    apply h.unwinding (Split agentId keys) _ (part agentId keys) (stepOf agentId) _ _ h'
      (start_split agentId keys store) (start_split agentId keys store') rfl hsame
    · intro s a u hs hapart hstep
      exact hs.step hapart (step_move cfg hstep)
    · intro s a u hs hapart hstep hnone
      exact hs.silent hapart (step_move cfg hstep) (Option.map_eq_none_iff.mp hnone)
    · intro s s' a a' b u u' hs hs' _ _ hpart hview hview' hstep hstep'
      obtain ⟨known, hknown, rfl⟩ := Option.map_eq_some_iff.mp hview
      obtain ⟨known', hknown', heq⟩ := Option.map_eq_some_iff.mp hview'
      obtain ⟨hshown, rfl⟩ := Prod.mk.inj heq
      exact hs.consistent hs' (step_move cfg hstep) (step_move cfg hstep') hpart hshown.symm
        hknown hknown'
  exact congrArg Part.published hpart

/-- An execution on an agent's host, scored. -/
def execution (conn : ℕ) (agentId : AgentId) (d : Fin 10) (uid : UInt32) : List (Act ℚ) :=
  [.ingest (.accept conn agentId),
    .ingest (.recv conn (.ofDigit 8) [.new (.ofDigit d) 0 agentId "process"
      (.processExec 100 1 uid "/usr/bin/nmap" [] none)]),
    .ingest (.check conn), .ingest (.write conn 0 true), .ingest (.emit conn), .dispatch, .score,
    .publishScore (.ofDigit 9) 0, .dispatch]

/-- The user of the first agent. -/
def firstUser (k : String) : Bool := k == "uid:1000"

/-- The second agent's execution comes first. -/
def besideRun (uid : UInt32) : List (Act ℚ) :=
  execution 1 "agent-2" 2 uid ++ execution 0 "agent-1" 1 1000

/-- In both runs the first agent's steps are the same. -/
theorem besideRun_same (uid : UInt32)
    (hbeside : readings (step (.default : ServerConfig ℚ)) (concerns "agent-1") (start .empty)
      (besideRun uid) = List.replicate 9 none ++ List.replicate 9 (some false)) :
    observed (step (.default : ServerConfig ℚ)) (stepOf "agent-1") (start .empty)
      (execution 0 "agent-1" 1 1000) =
        observed (step .default) (stepOf "agent-1") (start .empty) (besideRun uid) := by
  have halone : readings (step (.default : ServerConfig ℚ)) (concerns "agent-1") (start .empty)
      (execution 0 "agent-1" 1 1000) = List.replicate 9 (some false) := by
    decide +kernel
  unfold stepOf
  rw [observed_eq_readings, observed_eq_readings, halone, hbeside]
  rfl

/-- An execution of another agent's own user changes nothing for the first. -/
theorem isolated_of_apart_beside :
    ∃ s ∈ execute (step (.default : ServerConfig ℚ)) (Apart .default "agent-1" firstUser)
        (start .empty) (execution 0 "agent-1" 1 1000),
      ∃ s' ∈ execute (step (.default : ServerConfig ℚ)) (Apart .default "agent-1" firstUser)
        (start .empty) (besideRun 1001),
      carried "agent-1" s.published = carried "agent-1" s'.published := by
  have hend : ∃ s ∈ execute (step (.default : ServerConfig ℚ)) (Apart .default "agent-1" firstUser)
        (start .empty) (execution 0 "agent-1" 1 1000),
      ∃ s' ∈ execute (step (.default : ServerConfig ℚ)) (Apart .default "agent-1" firstUser)
        (start .empty) (besideRun 1001),
      s.published.length = 1 ∧ s'.published.length = 2 := by
    decide +kernel
  obtain ⟨s, hs, s', hs', -⟩ := hend
  exact ⟨s, hs, s', hs', isolated_of_apart .default "agent-1" firstUser (run_of_execute hs)
    (run_of_execute hs') (besideRun_same 1001 (by decide +kernel))⟩

/-- The events of a received batch. -/
def sent : Act F → List (Event F)
  | .ingest (.recv _ _ events) _ => events
  | _ => []

/-- The score that a payload reports. -/
def reported : EventPayload F → Option F
  | .score _ _ score _ => some score
  | _ => none

/-- An execution of the same user on another agent's host changes the first agent's score. -/
theorem sharedUser_differs :
    ¬∀ (cfg : ServerConfig ℚ) (agentId : AgentId) (l l' : List (Act ℚ)) (s s' : Server ℚ),
      GuardedRun (step cfg) (NoneIdle cfg agentId fun _ => true) (start .empty) l s →
      GuardedRun (step cfg) (NoneIdle cfg agentId fun _ => true) (start .empty) l' s' →
      ((l.flatMap sent).map Event.id).Nodup → ((l'.flatMap sent).map Event.id).Nodup →
      observed (step cfg) (stepOf agentId) (start .empty) l =
        observed (step cfg) (stepOf agentId) (start .empty) l' →
      carried agentId s.published = carried agentId s'.published := by
  intro h
  have hend : ∃ s ∈ execute (step (.default : ServerConfig ℚ))
        (NoneIdle .default "agent-1" fun _ => true) (start .empty) (execution 0 "agent-1" 1 1000),
      ∃ s' ∈ execute (step (.default : ServerConfig ℚ))
        (NoneIdle .default "agent-1" fun _ => true) (start .empty) (besideRun 1000),
      (carried "agent-1" s.published).map (fun x => reported x.2) = [some 15] ∧
        (carried "agent-1" s'.published).map (fun x => reported x.2) = [some (297 / 10)] := by
    decide +kernel
  obtain ⟨s, hs, s', hs', halone, hbeside⟩ := hend
  have hsame := h .default "agent-1" _ _ s s' (run_of_execute hs) (run_of_execute hs')
    (by decide +kernel) (by decide +kernel) (besideRun_same 1000 (by decide +kernel))
  rw [hsame, hbeside] at halone
  revert halone
  decide +kernel

end Server
end Aegis

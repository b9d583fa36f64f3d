import Aegis.AckPersistence
import Aegis.ServerPipeline

/-!
# What travels on the server's bus

Every event in a queue of the server came off the wire or out of the outbox of
one of its two processors. A wire event has an admitted kind and the identity of
its session; a published one has the identity of the host. So a property of all
traffic is checked on the write of the ingest loop and on the publication step.
-/

namespace Aegis
variable {F : Type}

/-- The event that is written and not yet on the bus. -/
def Session.unsent (ses : Session F) : Option (Event F) :=
  match ses.reading with
  | some r => match r.holding with
    | .written e => some e
    | _ => none
  | none => none

namespace Ingest

def unsent (s : Ingest F) (conn : ℕ) : Option (Event F) :=
  (s.sessions.get? conn).bind Session.unsent

theorem get?_put (s : Ingest F) (conn conn' : ℕ) (ses : Session F) :
    (s.put conn ses).sessions.get? conn' =
      if conn' = conn then some ses else s.sessions.get? conn' :=
  OrderedTable.get?_insert _ _ _ _

/-- The session a step installs holds the event it held, or one it just wrote. -/
theorem unsent_put {s : Ingest F} {conn conn' : ℕ} {ses : Session F} {e : Event F}
    (h : ((s.put conn ses).sessions.get? conn').bind Session.unsent = some e) :
    s.unsent conn' = some e ∨ conn' = conn ∧ ses.unsent = some e := by
  rw [get?_put] at h
  split_ifs at h with hconn
  · exact Or.inr ⟨hconn, h⟩
  · exact Or.inl h

variable [JsonFloat F]

theorem Move.unsent_from {s u : Ingest F} {a : Act F} (h : Move s a u) {conn : ℕ} {e : Event F}
    (he : u.unsent conn = some e) : s.unsent conn = some e ∨
      ∃ now ses e₀, a = .write conn now true ∧ s.sessions.get? conn = some ses ∧
        ses.checked = some e₀ ∧ isIngestible e₀.kind = true ∧ e = admitted ses.agentId now e₀ ∧
        s.store.writeEvent e = some u.store := by
  cases h with
  | accept agentId hnew =>
      rcases unsent_put he with he | ⟨-, he⟩
      · exact Or.inl he
      · cases he
  | recv batchId events hses hidle =>
      rcases unsent_put he with he | ⟨-, he⟩
      · exact Or.inl he
      · cases he
  | skip hses hr hholding htodo hknown =>
      rcases unsent_put he with he | ⟨-, he⟩
      · exact Or.inl he
      · simp [Session.unsent, hholding] at he
  | allow hses hr hholding htodo hseen hglobal =>
      rcases unsent_put he with he | ⟨-, he⟩
      · exact Or.inl he
      · cases he
  | turnAway now committed hses hr hholding hkind =>
      rcases unsent_put he with he | ⟨-, he⟩
      · exact Or.inl he
      · cases he
  | fail hses hr hholding hkind hfail =>
      rcases unsent_put he with he | ⟨-, he⟩
      · exact Or.inl he
      · cases he
  | @store conn' ses r e₀ now store hses hr hholding hkind hwrite =>
      rcases unsent_put he with he | ⟨rfl, hwritten⟩
      · exact Or.inl he
      · cases hwritten
        exact Or.inr ⟨now, ses, e₀, rfl, hses, checked_event hr hholding, hkind, rfl, hwrite⟩
  | emit hses hr hholding =>
      rcases unsent_put he with he | ⟨-, he⟩
      · exact Or.inl he
      · cases he
  | ack now touched hses hr hholding htodo =>
      rcases unsent_put he with he | ⟨-, he⟩
      · exact Or.inl he
      · cases he
  | unsent now touched hses hnone =>
      obtain ⟨ses, hget, he⟩ := Option.bind_eq_some_iff.mp he
      exact Or.inl (Option.bind_eq_some_iff.mpr ⟨ses, (OrderedTable.get?_erase_some hget).2, he⟩)
  | close hses hnone =>
      obtain ⟨ses, hget, he⟩ := Option.bind_eq_some_iff.mp he
      exact Or.inl (Option.bind_eq_some_iff.mpr ⟨ses, (OrderedTable.get?_erase_some hget).2, he⟩)

theorem Move.emitted {s u : Ingest F} {a : Act F} (h : Move s a u) :
    u.emitted = s.emitted ∨
      ∃ conn e, a = .emit conn ∧ s.unsent conn = some e ∧ u.emitted = s.emitted ++ [e] := by
  cases h with
  | @emit conn ses r e hses hr hholding =>
      right
      use conn, e
      exact ⟨rfl, by simp [Ingest.unsent, hses, Session.unsent, hr, hholding], rfl⟩
  | _ => exact Or.inl rfl

end Ingest

namespace Server

theorem arrivals_nil {s u : Ingest F} (h : u.emitted = s.emitted) : arrivals s u = [] := by
  simp [arrivals, h]

theorem arrivals_singleton {s u : Ingest F} {e : Event F} (h : u.emitted = s.emitted ++ [e]) :
    arrivals s u = [⟨e.agentId, true, e⟩] := by
  simp [arrivals, h]

/-- All events on their way to a plugin. -/
def queued (s : Server F) : List (Traced F) :=
  s.ingress ++ (s.detectQueue ++ (s.scoreQueue ++ s.sinkQueue))

theorem boarding_subset (full : Bool) (ts : List (Traced F)) : boarding full ts ⊆ ts :=
  List.filter_sublist.subset

@[simp] theorem boarding_nil (full : Bool) : boarding full ([] : List (Traced F)) = [] := rfl

theorem mem_enqueue {subscriptions : List String} {full : Bool} {queue : List (Traced F)}
    {t x : Traced F} (h : x ∈ enqueue subscriptions full queue t) : x ∈ queue ∨ x = t := by
  unfold enqueue at h
  split_ifs at h
  · simpa using h
  · exact Or.inl h

variable [F64 F] (cfg : ServerConfig F)

/-- The changes a step may be. -/
inductive Move (s : Server F) : Act F → Server F → Prop
  | ingest {a : Ingest.Act F} {full : Bool} {i : Ingest F} : s.ingest.step a = some i →
      Move s (.ingest a full)
        { s with ingest := i, ingress := s.ingress ++ boarding full (arrivals s.ingest i) }
  | dispatch {t : Traced F} {rest : List (Traced F)} (full : Full) : s.ingress = t :: rest →
      Move s (.dispatch full)
        { s with
          ingress := rest
          detectQueue := enqueue AgentDetect.subscriptions full.detect s.detectQueue t
          scoreQueue := enqueue Scoring.subscriptions full.score s.scoreQueue t
          sinkQueue := enqueue StoreSink.subscriptions full.sink s.sinkQueue t }
  | detect {t : Traced F} {rest : List (Traced F)} (now : UInt64) : s.detectOutbox = [] →
      s.detectQueue = t :: rest →
      Move s (.detect now)
        { s with
          detectQueue := rest
          detector :=
            (AgentDetect.handle cfg.model cfg.detect s.detector now t.event.payload).1
          detectOutbox :=
            (AgentDetect.handle cfg.model cfg.detect s.detector now t.event.payload).2.map
              fun p => (t.origin, p) }
  | publishDetection {x : AgentId × EventPayload F} {rest : List (AgentId × EventPayload F)}
      (id : Uuid) (now : UInt64) : s.detectOutbox = x :: rest →
      Move s (.publishDetection id now)
        { s with
          detectOutbox := rest
          ingress := s.ingress ++ [publication cfg "plugin-agent-detect" id now x]
          published := s.published ++ [publication cfg "plugin-agent-detect" id now x] }
  | score {t : Traced F} {rest : List (Traced F)} : s.scoreOutbox = [] →
      s.scoreQueue = t :: rest →
      Move s .score
        { s with
          scoreQueue := rest
          risk := (Scoring.handle cfg.scoring s.risk t.event.payload).1
          scoreOutbox := (Scoring.handle cfg.scoring s.risk t.event.payload).2.map
            fun p => (t.origin, p) }
  | publishScore {x : AgentId × EventPayload F} {rest : List (AgentId × EventPayload F)}
      (id : Uuid) (now : UInt64) : s.scoreOutbox = x :: rest →
      Move s (.publishScore id now)
        { s with
          scoreOutbox := rest
          ingress := s.ingress ++ [publication cfg "plugin-scoring" id now x]
          published := s.published ++ [publication cfg "plugin-scoring" id now x] }
  | sink {t : Traced F} {rest : List (Traced F)} (alertId : Uuid) (logged committed : Bool) :
      s.sinkQueue = t :: rest →
      Move s (.sink alertId logged committed)
        { s with
          sinkQueue := rest
          ingest := { s.ingest with
            store := (StoreSink.handle s.ingest.store alertId logged committed t.event).1 }
          written := s.written ++
            ((StoreSink.handle s.ingest.store alertId logged committed t.event).2.map
              fun r => ⟨t, r⟩).toList }

theorem step_move {s u : Server F} {a : Act F} (h : step cfg s a = some u) : Move cfg s a u := by
  cases a with
  | ingest a full =>
      obtain ⟨i, hi, rfl⟩ := Option.map_eq_some_iff.mp h
      exact Move.ingest hi
  | dispatch full =>
      simp only [step] at h
      split at h
      · cases h
      · cases h
        apply Move.dispatch full
        assumption
  | detect now =>
      simp only [step] at h
      split at h
      · cases h
        apply Move.detect now <;> assumption
      · cases h
  | publishDetection id now =>
      simp only [step] at h
      split at h
      · cases h
      · cases h
        apply Move.publishDetection id now
        assumption
  | score =>
      simp only [step] at h
      split at h
      · cases h
        apply Move.score <;> assumption
      · cases h
  | publishScore id now =>
      simp only [step] at h
      split at h
      · cases h
      · cases h
        apply Move.publishScore id now
        assumption
  | sink alertId logged committed =>
      simp only [step] at h
      split at h
      · cases h
      · cases h
        apply Move.sink alertId logged committed
        assumption

variable {cfg}

/-- A queued event was queued before, or it just arrived from a session, or a
processor just published it. -/
theorem Move.queued {s u : Server F} {a : Act F} (h : Move cfg s a u) {t : Traced F}
    (ht : t ∈ u.queued) : t ∈ s.queued ∨
      (∃ conn full e, a = .ingest (.emit conn) full ∧ s.ingest.unsent conn = some e ∧
        t = ⟨e.agentId, true, e⟩) ∨
      ∃ plugin id now x, t = publication cfg plugin id now x := by
  cases h with
  | @ingest a full i hi =>
      simp only [Server.queued, List.append_assoc, List.mem_append] at ht ⊢
      rcases ht with ht | ht | ht
      · exact Or.inl (Or.inl ht)
      · have harrived := boarding_subset full _ ht
        rcases (Ingest.step_move hi).emitted with hsame | ⟨conn, e, rfl, he, hemit⟩
        · simp [arrivals_nil hsame] at harrived
        · rw [arrivals_singleton hemit, List.mem_singleton] at harrived
          exact Or.inr (Or.inl ⟨conn, full, e, rfl, he, harrived⟩)
      · exact Or.inl (Or.inr ht)
  | dispatch full hin =>
      left
      simp only [Server.queued, hin, List.mem_append, List.mem_cons] at ht ⊢
      rcases ht with ht | ht | ht | ht
      · exact Or.inl (Or.inr ht)
      all_goals
        rcases mem_enqueue ht with ht | rfl <;> simp_all
  | detect now hout hq =>
      left
      simp only [Server.queued, hq, List.mem_append, List.mem_cons] at ht ⊢
      tauto
  | @publishDetection x rest id now hout =>
      simp only [Server.queued, List.mem_append, List.mem_singleton] at ht ⊢
      rcases ht with (ht | ht) | ht
      · exact Or.inl (Or.inl ht)
      · exact Or.inr (Or.inr ⟨_, id, now, x, ht⟩)
      · exact Or.inl (Or.inr ht)
  | score hout hq =>
      left
      simp only [Server.queued, hq, List.mem_append, List.mem_cons] at ht ⊢
      tauto
  | @publishScore x rest id now hout =>
      simp only [Server.queued, List.mem_append, List.mem_singleton] at ht ⊢
      rcases ht with (ht | ht) | ht
      · exact Or.inl (Or.inl ht)
      · exact Or.inr (Or.inr ⟨_, id, now, x, ht⟩)
      · exact Or.inl (Or.inr ht)
  | sink alertId logged committed hq =>
      left
      simp only [Server.queued, hq, List.mem_append, List.mem_cons] at ht ⊢
      tauto

theorem Move.ingest_eq {s u : Server F} {a : Act F} (h : Move cfg s a u)
    (ha : ∀ b full, a ≠ .ingest b full) : ∃ store, u.ingest = { s.ingest with store := store } := by
  cases h with
  | ingest hi => exact (ha _ _ rfl).elim
  | sink => exact ⟨_, rfl⟩
  | _ => exact ⟨s.ingest.store, rfl⟩

/-- Every event an ingest loop wrote, emitted or handed to the bus satisfies `P`. -/
structure Wired (P : Event F → Prop) (s : Server F) : Prop where
  unsent : ∀ conn e, s.ingest.unsent conn = some e → P e
  emitted : ∀ e ∈ s.ingest.emitted, P e
  queued : ∀ t ∈ s.queued, t.wire = true → P t.event ∧ t.origin = t.event.agentId

omit [F64 F] in
theorem start_wired (P : Event F → Prop) (store : Store F) : Wired P (start store) :=
  ⟨nofun, nofun, nofun⟩

/-- What holds of each event when it is written holds of all wire traffic. -/
theorem Wired.step {P : Event F → Prop} {s u : Server F} {a : Act F} (h : Wired P s)
    (hmove : Move cfg s a u)
    (hwrite : ∀ conn now full ses e, a = .ingest (.write conn now true) full →
      s.ingest.sessions.get? conn = some ses → ses.checked = some e →
      isIngestible e.kind = true → P (admitted ses.agentId now e)) : Wired P u where
  unsent := by
    intro conn e he
    by_cases ha : ∃ b full, a = .ingest b full
    · obtain ⟨b, full, rfl⟩ := ha
      cases hmove with
      | ingest hi =>
          rcases (Ingest.step_move hi).unsent_from he with he | ⟨now, ses, e₀, rfl, hses, hchecked,
            hkind, rfl, -⟩
          · exact h.unsent conn e he
          · exact hwrite conn now full ses e₀ rfl hses hchecked hkind
    · obtain ⟨store, heq⟩ := hmove.ingest_eq fun b full hb => ha ⟨b, full, hb⟩
      rw [heq] at he
      exact h.unsent conn e he
  emitted := by
    intro e he
    by_cases ha : ∃ b full, a = .ingest b full
    · obtain ⟨b, full, rfl⟩ := ha
      cases hmove with
      | ingest hi =>
          rcases (Ingest.step_move hi).emitted with hsame | ⟨conn, e₀, -, he₀, hemit⟩
          · rw [hsame] at he
            exact h.emitted e he
          · rw [hemit] at he
            rcases List.mem_append.mp he with he | he
            · exact h.emitted e he
            · rw [List.mem_singleton.mp he]
              exact h.unsent conn e₀ he₀
    · obtain ⟨store, heq⟩ := hmove.ingest_eq fun b full hb => ha ⟨b, full, hb⟩
      rw [heq] at he
      exact h.emitted e he
  queued := by
    intro t ht hwire
    rcases hmove.queued ht with ht | ⟨conn, -, e, -, he, rfl⟩ | ⟨plugin, id, now, x, rfl⟩
    · exact h.queued t ht hwire
    · exact ⟨h.unsent conn e he, rfl⟩
    · cases hwire

/-- Wire events have an admitted kind, and published ones the identity of the host. -/
structure Sourced (cfg : ServerConfig F) (s : Server F) : Prop where
  wired : Wired (fun e => isIngestible e.kind = true) s
  own : ∀ t ∈ s.queued, t.wire = false → t.event.agentId = cfg.hostId

omit [F64 F] in
theorem start_sourced (store : Store F) : Sourced cfg (start store) := ⟨start_wired _ store, nofun⟩

theorem Sourced.step {s u : Server F} {a : Act F} (h : Sourced cfg s) (hmove : Move cfg s a u) :
    Sourced cfg u where
  wired := h.wired.step hmove fun _ _ _ _ _ _ _ _ hkind => by simpa using hkind
  own := by
    intro t ht hwire
    rcases hmove.queued ht with ht | ⟨conn, -, e, -, he, rfl⟩ | ⟨plugin, id, now, x, rfl⟩
    · exact h.own t ht hwire
    · cases hwire
    · rfl

end Server
end Aegis

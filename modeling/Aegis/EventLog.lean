import Aegis.EventIndex
import Aegis.ServerTraffic

/-!
# Each accepted event in the index once

Two writers append to the index of an agent: the ingest loop before it emits an
event, and the store sink for what it subscribes to. The two lists of kinds have
heartbeats in common. An id enters the window once, its event is written once by
a loop, and a heartbeat is written again when the sink gets to it.
-/

namespace Aegis
variable {F : Type}

theorem DedupWindow.mem_insert_of_mem {κ : Type} [DecidableEq κ] {w : DedupWindow κ} {id x : κ}
    (hroom : w.order.length < w.capacity) (h : x ∈ w) : x ∈ (w.insert id).2 := by
  by_cases hid : id ∈ w
  · rwa [insert_of_mem hid]
  · have hset : id ∉ w.set := fun hmem => hid (mem_set.mp hmem)
    have hkeep : w.evict.2 = w.order := by
      rw [evict, if_neg (not_le.mpr hroom)]
    simp only [insert, hset, dif_neg, not_false_eq_true]
    apply List.mem_append_left
    rw [hkeep]
    exact h

namespace Ingest

theorem checked_put (s : Ingest F) (conn c : ℕ) (ses : Session F) :
    (s.put conn ses).checked c = if c = conn then ses.checked else s.checked c := by
  rw [checked, get?_put]
  split_ifs <;> rfl

theorem unsent_put_eq (s : Ingest F) (conn c : ℕ) (ses : Session F) :
    (s.put conn ses).unsent c = if c = conn then ses.unsent else s.unsent c := by
  rw [unsent, get?_put]
  split_ifs <;> rfl

/-- A session works on the event with this id: it has to write or to emit it. -/
def Works (s : Ingest F) (conn : ℕ) (id : Uuid) : Prop :=
  (∃ e, s.checked conn = some e ∧ e.id = id) ∨ ∃ e, s.unsent conn = some e ∧ e.id = id

/-- The tables of the audit log are the same. -/
def SameLog (s u : Ingest F) : Prop :=
  u.store.eventsByAgent = s.store.eventsByAgent ∧ u.store.events = s.store.events

/-- Sessions work on what they worked on before, or on less. -/
def WorksLess (s u : Ingest F) : Prop :=
  (∀ c e, u.checked c = some e → s.checked c = some e) ∧
  ∀ c e, u.unsent c = some e → s.unsent c = some e

/-- The other sessions work on what they worked on before, and this one on
nothing but `checked` and `unsent`. -/
def WorksOn (s u : Ingest F) (conn : ℕ) (checked unsent : Option (Event F)) : Prop :=
  (∀ c, u.checked c = if c = conn then checked else s.checked c) ∧
  ∀ c, u.unsent c = if c = conn then unsent else s.unsent c

variable [JsonFloat F]

/-- What a step does to the log, the window, the bus and the work at hand. -/
inductive Effect (s : Ingest F) (a : Act F) (u : Ingest F) : Prop
  | quiet : SameLog s u → u.globalDedup = s.globalDedup → u.emitted = s.emitted →
      WorksLess s u → Effect s a u
  | allow (conn : ℕ) (e : Event F) : a = .check conn → s.next conn = some e →
      e.id ∉ s.globalDedup → SameLog s u → u.globalDedup = (s.globalDedup.insert e.id).2 →
      u.emitted = s.emitted → WorksOn s u conn (some e) none → Effect s a u
  | fail (conn : ℕ) (now : UInt64) (committed : Bool) (e : Event F) (agentId : AgentId) :
      a = .write conn now committed → s.checked conn = some e → isIngestible e.kind = true →
      (committed = true → s.store.writeEvent (admitted agentId now e) = none) → Effect s a u
  | store (conn : ℕ) (now : UInt64) (ses : Session F) (e : Event F) :
      a = .write conn now true → s.sessions.get? conn = some ses → s.checked conn = some e →
      isIngestible e.kind = true →
      s.store.writeEvent (admitted ses.agentId now e) = some u.store →
      u.globalDedup = s.globalDedup → u.emitted = s.emitted →
      WorksOn s u conn none (some (admitted ses.agentId now e)) → Effect s a u
  | emit (conn : ℕ) (e : Event F) : a = .emit conn → s.unsent conn = some e → SameLog s u →
      u.globalDedup = s.globalDedup → u.emitted = s.emitted ++ [e] →
      WorksOn s u conn none none → Effect s a u

omit [JsonFloat F] in
theorem worksOn_put (s : Ingest F) (conn : ℕ) (ses : Session F) :
    WorksOn s (s.put conn ses) conn ses.checked ses.unsent :=
  ⟨fun c => checked_put s conn c ses, fun c => unsent_put_eq s conn c ses⟩

omit [JsonFloat F] in
theorem WorksOn.less {s u : Ingest F} {conn : ℕ} (h : WorksOn s u conn none none) :
    WorksLess s u := by
  constructor
  · intro c e he
    rw [h.1 c] at he
    split_ifs at he
    exact he
  · intro c e he
    rw [h.2 c] at he
    split_ifs at he
    exact he

omit [JsonFloat F] in
theorem worksLess_erase (s : Ingest F) (conn : ℕ) (store : Store F) :
    WorksLess s { s with sessions := s.sessions.erase conn, store := store } := by
  constructor
  · intro c e he
    obtain ⟨ses, hget, he⟩ := Option.bind_eq_some_iff.mp he
    exact Option.bind_eq_some_iff.mpr ⟨ses, (OrderedTable.get?_erase_some hget).2, he⟩
  · intro c e he
    obtain ⟨ses, hget, he⟩ := Option.bind_eq_some_iff.mp he
    exact Option.bind_eq_some_iff.mpr ⟨ses, (OrderedTable.get?_erase_some hget).2, he⟩

theorem Move.effect {s u : Ingest F} {a : Act F} (h : Move s a u) : Effect s a u := by
  cases h with
  | accept agentId hnew => exact .quiet ⟨rfl, rfl⟩ rfl rfl (worksOn_put s _ _).less
  | recv batchId events hses hidle => exact .quiet ⟨rfl, rfl⟩ rfl rfl (worksOn_put s _ _).less
  | @skip conn ses r e rest hses hr hholding htodo hknown =>
      have hon := worksOn_put s conn
        { ses with seen := (ses.seen.insert e.id).2, reading := some { r with todo := rest } }
      have hidle : ∀ ses' : Session F, ses'.reading = some { r with todo := rest } →
          ses'.checked = none ∧ ses'.unsent = none := by
        intro ses' hses'
        simp [Session.checked, Session.unsent, hses', hholding]
      rw [(hidle _ rfl).1, (hidle _ rfl).2] at hon
      exact .quiet ⟨rfl, rfl⟩ rfl rfl hon.less
  | @allow conn ses r e rest hses hr hholding htodo hseen hglobal =>
      have hnext : s.next conn = some e := by simp [next, hses, hr, hholding, htodo]
      exact .allow conn e rfl hnext hglobal ⟨rfl, rfl⟩ rfl rfl (worksOn_put s conn _)
  | turnAway now committed hses hr hholding hkind =>
      exact .quiet ⟨rfl, rfl⟩ rfl rfl (worksOn_put s _ _).less
  | @fail conn ses r e now committed hses hr hholding hkind hfail =>
      have hchecked : s.checked conn = some e := by
        rw [checked, hses, Option.bind_some, checked_event hr hholding]
      exact .fail conn now committed e ses.agentId rfl hchecked hkind hfail
  | @store conn ses r e now store hses hr hholding hkind hwrite =>
      have hchecked : s.checked conn = some e := by
        rw [checked, hses, Option.bind_some, checked_event hr hholding]
      exact .store conn now ses e rfl hses hchecked hkind hwrite rfl rfl (worksOn_put s conn _)
  | @emit conn ses r e hses hr hholding =>
      have hunsent : s.unsent conn = some e := by
        simp [Ingest.unsent, hses, Session.unsent, hr, hholding]
      exact .emit conn e rfl hunsent ⟨rfl, rfl⟩ rfl rfl (worksOn_put s conn _)
  | ack now touched hses hr hholding htodo =>
      exact .quiet ⟨by simp, by simp⟩ rfl rfl (worksOn_put s _ _).less
  | unsent now touched hses hnone =>
      exact .quiet ⟨by simp, by simp⟩ rfl rfl (worksLess_erase s _ _)
  | close hses hnone => exact .quiet ⟨rfl, rfl⟩ rfl rfl (worksLess_erase s _ _)

end Ingest

theorem StoreSink.handle_log [JsonFloat F] {s s' : Store F} {ev : Event F}
    (h : s.writeEvent ev = some s') (alertId : Uuid) (committed : Bool) :
    (handle s alertId true committed ev).1.eventsByAgent = s'.eventsByAgent ∧
      (handle s alertId true committed ev).1.events = s'.events := by
  rw [handle]
  rcases outcome_cases s alertId true committed ev with
    ⟨-, hlost⟩ | ⟨next, -, hwrite, ⟨hout, -⟩ | ⟨hout, -⟩ | ⟨row, hout, -⟩⟩
  · cases h.symm.trans (hlost rfl)
  all_goals
    cases h.symm.trans hwrite
    rw [hout]
  · exact ⟨rfl, rfl⟩
  · simp
  · cases row <;> exact ⟨rfl, rfl⟩

namespace Server

def publishedIds (s : Server F) : List Uuid := s.published.map fun t => t.event.id

/-- The item is a heartbeat off the wire with this id. -/
def IsBeat (id : Uuid) (t : Traced F) : Prop :=
  t.wire = true ∧ t.event.kind = "heartbeat" ∧ t.event.id = id

instance (id : Uuid) (t : Traced F) : Decidable (IsBeat id t) :=
  inferInstanceAs (Decidable (_ ∧ _ ∧ _))

/-- What the sink handles in a step. -/
def sunk (s : Server F) : Act F → Option (Traced F)
  | .sink _ _ _ => s.sinkQueue.head?
  | _ => none

/-- The index of an agent holds fewer keys than its cap. -/
def HasRoom (s : Server F) (agentId : AgentId) : Prop :=
  (s.ingest.store.indexOf agentId).length < agentEventIndexLimit

/-- No write fails, no index is at its cap, the window of ids need not evict, and
the ids that the server draws for its own events are no agent's. -/
def Undisturbed [JsonFloat F] (s : Server F) : Act F → Prop
  | .ingest (.check conn) _ =>
      s.ingest.globalDedup.order.length < s.ingest.globalDedup.capacity ∧
      ∀ e ∈ s.ingest.next conn, e.id ∉ s.publishedIds
  | .ingest (.write conn _ committed) _ => ∀ ses ∈ s.ingest.sessions.get? conn,
      ∀ e ∈ ses.checked, isIngestible e.kind = true →
        committed = true ∧ e.payload.serialize.isSome ∧ s.HasRoom ses.agentId
  | .publishDetection id _ | .publishScore id _ => id ∉ s.ingest.globalDedup
  | .sink _ logged _ => ∀ t ∈ s.sinkQueue.head?,
      logged = true ∧ t.event.payload.serialize.isSome ∧ s.HasRoom t.event.agentId
  | _ => True

instance [JsonFloat F] (s : Server F) (a : Act F) : Decidable (s.Undisturbed a) := by
  unfold Undisturbed HasRoom
  split <;> infer_instance

/-- An id in the window is at one place: turned away, being worked on, or
emitted. Its event has one entry when it is written, and one more for each time
the sink has handled it as a heartbeat. -/
structure Once (handled : List (Traced F)) (s : Server F) : Prop where
  indexed : s.ingest.store.Indexed
  unknown : ∀ id, id ∉ s.ingest.globalDedup → id ∉ s.publishedIds →
    ∀ agentId, s.ingest.store.entries agentId id = 0
  foreign : ∀ id ∈ s.ingest.globalDedup, id ∉ s.publishedIds
  works : ∀ conn id, s.ingest.Works conn id →
    id ∈ s.ingest.globalDedup ∧ ∀ conn', s.ingest.Works conn' id → conn' = conn
  checked : ∀ conn e, s.ingest.checked conn = some e →
    ∀ agentId, s.ingest.store.entries agentId e.id = 0
  unsent : ∀ conn e, s.ingest.unsent conn = some e → s.ingest.store.entries e.agentId e.id = 1
  emitted : ∀ e ∈ s.ingest.emitted, e.id ∈ s.ingest.globalDedup ∧
    (∀ conn, ¬s.ingest.Works conn e.id) ∧
    s.ingest.store.entries e.agentId e.id = 1 + handled.countP fun t => IsBeat e.id t
  distinct : (s.ingest.emitted.map Event.id).Nodup
  wires : ∀ t ∈ s.ingress ++ s.sinkQueue, if t.wire then t.event ∈ s.ingest.emitted
    else t.event.id ∈ s.publishedIds
  beats : ∀ t ∈ s.sinkQueue, t.wire = true → t.event.kind = "heartbeat"
  past : ∀ t ∈ handled, t.wire = true → t.event ∈ s.ingest.emitted

theorem start_once : Once [] (start (.empty : Store F)) where
  indexed := fun _ _ hk => nomatch hk
  unknown := fun _ _ _ _ => rfl
  foreign := fun id hid => (DedupWindow.not_mem_new _ id hid).elim
  works := by
    rintro conn id (⟨e, he, -⟩ | ⟨e, he, -⟩) <;> cases he
  checked := nofun
  unsent := nofun
  emitted := fun _ he => absurd he List.not_mem_nil
  distinct := List.nodup_nil
  wires := fun _ ht => absurd ht List.not_mem_nil
  beats := fun _ ht => absurd ht List.not_mem_nil
  past := fun _ ht => absurd ht List.not_mem_nil

variable {handled : List (Traced F)}

theorem Once.handled_zero {s : Server F} (h : Once handled s) {id : Uuid}
    (hnew : ∀ e ∈ s.ingest.emitted, e.id ≠ id) :
    handled.countP (fun t => IsBeat id t) = 0 := by
  apply List.countP_eq_zero.mpr
  intro t ht hbeat
  obtain ⟨hwire, -, hid⟩ := of_decide_eq_true hbeat
  exact hnew t.event (h.past t ht hwire) hid

/-- Ids in the window that no emitted event has are no queued event's. -/
theorem Once.queued_ne {s : Server F} (h : Once handled s) {id : Uuid}
    (hid : id ∈ s.ingest.globalDedup) (hnew : ∀ e ∈ s.ingest.emitted, e.id ≠ id) {t : Traced F}
    (ht : t ∈ s.ingress ++ s.sinkQueue) : t.event.id ≠ id := by
  have hmem := h.wires t ht
  split_ifs at hmem
  · exact hnew t.event hmem
  · rintro rfl
    exact h.foreign _ hid hmem

theorem Once.worked_new {s : Server F} (h : Once handled s) {conn : ℕ} {id : Uuid}
    (hwork : s.ingest.Works conn id) : ∀ e ∈ s.ingest.emitted, e.id ≠ id := by
  rintro e he rfl
  exact (h.emitted e he).2.1 conn hwork

theorem works_of_less {s u : Ingest F} (h : Ingest.WorksLess s u) {conn : ℕ} {id : Uuid}
    (hwork : u.Works conn id) : s.Works conn id := by
  rcases hwork with ⟨e, he, hid⟩ | ⟨e, he, hid⟩
  · exact Or.inl ⟨e, h.1 conn e he, hid⟩
  · exact Or.inr ⟨e, h.2 conn e he, hid⟩

/-- Work after a step that hands a session an event: that event, or another
session's work from before. -/
theorem works_of_on {s u : Ingest F} {conn : ℕ} {checked unsent : Option (Event F)}
    (h : Ingest.WorksOn s u conn checked unsent) {conn' : ℕ} {id : Uuid}
    (hwork : u.Works conn' id) :
    conn' = conn ∧ (∃ e, (checked = some e ∨ unsent = some e) ∧ e.id = id) ∨
      conn' ≠ conn ∧ s.Works conn' id := by
  rcases hwork with ⟨e, he, hid⟩ | ⟨e, he, hid⟩
  · rw [h.1 conn'] at he
    split_ifs at he with hconn
    · exact Or.inl ⟨hconn, e, Or.inl he, hid⟩
    · exact Or.inr ⟨hconn, Or.inl ⟨e, he, hid⟩⟩
  · rw [h.2 conn'] at he
    split_ifs at he with hconn
    · exact Or.inl ⟨hconn, e, Or.inr he, hid⟩
    · exact Or.inr ⟨hconn, Or.inr ⟨e, he, hid⟩⟩

theorem Once.shed {s : Server F} (h : Once handled s) {ingress : List (Traced F)}
    (hless : ingress ⊆ s.ingress) : Once handled { s with ingress := ingress } := by
  refine { h with wires := fun t ht => h.wires t ?_ }
  rcases List.mem_append.mp ht with ht | ht
  · exact List.mem_append_left _ (hless ht)
  · exact List.mem_append_right _ ht

theorem Once.quiet {s : Server F} (h : Once handled s) {i : Ingest F}
    (hlog : Ingest.SameLog s.ingest i) (hwindow : i.globalDedup = s.ingest.globalDedup)
    (hemitted : i.emitted = s.ingest.emitted) (hless : Ingest.WorksLess s.ingest i) :
    Once handled { s with ingest := i } where
  indexed := h.indexed.congr hlog.1 hlog.2
  unknown := by
    intro id hid hpub agentId
    rw [hwindow] at hid
    rw [Store.entries_congr hlog.1]
    exact h.unknown id hid hpub agentId
  foreign := by
    intro id hid
    rw [hwindow] at hid
    exact h.foreign id hid
  works := by
    intro conn id hwork
    obtain ⟨hid, hsole⟩ := h.works conn id (works_of_less hless hwork)
    rw [← hwindow] at hid
    exact ⟨hid, fun conn' hwork' => hsole conn' (works_of_less hless hwork')⟩
  checked := by
    intro conn e he agentId
    rw [Store.entries_congr hlog.1]
    exact h.checked conn e (hless.1 conn e he) agentId
  unsent := by
    intro conn e he
    rw [Store.entries_congr hlog.1]
    exact h.unsent conn e (hless.2 conn e he)
  emitted := by
    intro e he
    rw [hemitted] at he
    obtain ⟨hid, hidle, hcount⟩ := h.emitted e he
    rw [← hwindow] at hid
    rw [Store.entries_congr hlog.1]
    exact ⟨hid, fun conn hwork => hidle conn (works_of_less hless hwork), hcount⟩
  distinct := by
    rw [hemitted]
    exact h.distinct
  wires := by
    rw [hemitted]
    exact h.wires
  beats := h.beats
  past := by
    rw [hemitted]
    exact h.past

theorem Once.allow {s : Server F} (h : Once handled s) {i : Ingest F} {conn : ℕ} {e : Event F}
    (hroom : s.ingest.globalDedup.order.length < s.ingest.globalDedup.capacity)
    (hforeign : e.id ∉ s.publishedIds) (hnew : e.id ∉ s.ingest.globalDedup)
    (hlog : Ingest.SameLog s.ingest i)
    (hwindow : i.globalDedup = (s.ingest.globalDedup.insert e.id).2)
    (hemitted : i.emitted = s.ingest.emitted)
    (hon : Ingest.WorksOn s.ingest i conn (some e) none) :
    Once handled { s with ingest := i } := by
  have hold : ∀ id ∈ s.ingest.globalDedup, id ∈ i.globalDedup := by
    intro id hid
    rw [hwindow]
    exact DedupWindow.mem_insert_of_mem hroom hid
  have hself : e.id ∈ i.globalDedup := by
    rw [hwindow]
    exact DedupWindow.mem_insert_self _ _
  have hnone : ∀ conn', ¬s.ingest.Works conn' e.id := fun conn' hwork =>
    hnew (h.works conn' e.id hwork).1
  constructor
  · exact h.indexed.congr hlog.1 hlog.2
  · intro id hid hpub agentId
    rw [Store.entries_congr hlog.1]
    exact h.unknown id (fun hmem => hid (hold id hmem)) hpub agentId
  · intro id hid
    rw [hwindow] at hid
    rcases DedupWindow.mem_of_mem_insert hid with rfl | hid
    · exact hforeign
    · exact h.foreign id hid
  · intro conn₁ id hwork
    rcases works_of_on hon hwork with ⟨rfl, x, hx, rfl⟩ | ⟨hne, hwork⟩
    · have hxe : e = x := by simpa using hx
      subst hxe
      constructor
      · exact hself
      · intro conn₂ hwork₂
        rcases works_of_on hon hwork₂ with ⟨hconn, -⟩ | ⟨-, hwork₂⟩
        · exact hconn
        · exact (hnone conn₂ hwork₂).elim
    · constructor
      · exact hold id (h.works conn₁ id hwork).1
      · intro conn₂ hwork₂
        rcases works_of_on hon hwork₂ with ⟨-, x, hx, rfl⟩ | ⟨-, hwork₂⟩
        · have hxe : e = x := by simpa using hx
          exact (hnone conn₁ (hxe ▸ hwork)).elim
        · exact (h.works conn₁ id hwork).2 conn₂ hwork₂
  · intro c x hx agentId
    rw [Store.entries_congr hlog.1]
    rw [hon.1 c] at hx
    split_ifs at hx
    · cases hx
      exact h.unknown e.id hnew hforeign agentId
    · exact h.checked c x hx agentId
  · intro c x hx
    rw [Store.entries_congr hlog.1]
    rw [hon.2 c] at hx
    split_ifs at hx
    exact h.unsent c x hx
  · intro x hx
    rw [hemitted] at hx
    obtain ⟨hid, hidle, hcount⟩ := h.emitted x hx
    rw [Store.entries_congr hlog.1]
    refine ⟨hold x.id hid, ?_, hcount⟩
    intro c hwork
    rcases works_of_on hon hwork with ⟨-, y, hy, hyx⟩ | ⟨-, hwork⟩
    · have hey : e = y := by simpa using hy
      exact hnew (by rw [hey, hyx]; exact hid)
    · exact hidle c hwork
  · rw [hemitted]
    exact h.distinct
  · rw [hemitted]
    exact h.wires
  · exact h.beats
  · rw [hemitted]
    exact h.past

theorem Once.emit {s : Server F} (h : Once handled s) {i : Ingest F} {conn : ℕ} {e : Event F}
    (hunsent : s.ingest.unsent conn = some e) (hlog : Ingest.SameLog s.ingest i)
    (hwindow : i.globalDedup = s.ingest.globalDedup)
    (hemitted : i.emitted = s.ingest.emitted ++ [e])
    (hon : Ingest.WorksOn s.ingest i conn none none) :
    Once handled { s with ingest := i, ingress := s.ingress ++ [⟨e.agentId, true, e⟩] } := by
  have hwork : s.ingest.Works conn e.id := Or.inr ⟨e, hunsent, rfl⟩
  have hnew := h.worked_new hwork
  have hless := hon.less
  have hidle : ∀ c, ¬i.Works c e.id := by
    intro c hc
    rcases works_of_on hon hc with ⟨-, x, hx, -⟩ | ⟨hne, hc⟩
    · simp at hx
    · exact hne ((h.works conn e.id hwork).2 c hc)
  constructor
  · exact h.indexed.congr hlog.1 hlog.2
  · intro id hid hpub agentId
    rw [hwindow] at hid
    rw [Store.entries_congr hlog.1]
    exact h.unknown id hid hpub agentId
  · rw [hwindow]
    exact h.foreign
  · intro c id hc
    rw [hwindow]
    obtain ⟨hid, hsole⟩ := h.works c id (works_of_less hless hc)
    exact ⟨hid, fun c' hc' => hsole c' (works_of_less hless hc')⟩
  · intro c x hx agentId
    rw [Store.entries_congr hlog.1]
    exact h.checked c x (hless.1 c x hx) agentId
  · intro c x hx
    rw [Store.entries_congr hlog.1]
    exact h.unsent c x (hless.2 c x hx)
  · intro x hx
    rw [hemitted] at hx
    rw [hwindow, Store.entries_congr hlog.1]
    rcases List.mem_append.mp hx with hx | hx
    · obtain ⟨hid, hquiet, hcount⟩ := h.emitted x hx
      exact ⟨hid, fun c hc => hquiet c (works_of_less hless hc), hcount⟩
    · rw [List.mem_singleton.mp hx, h.handled_zero hnew, h.unsent conn e hunsent]
      exact ⟨(h.works conn e.id hwork).1, hidle, rfl⟩
  · rw [hemitted, List.map_append]
    apply List.nodup_append.mpr
    refine ⟨h.distinct, by simp, ?_⟩
    intro a ha b hb
    obtain ⟨x, hx, rfl⟩ := List.mem_map.mp ha
    rw [List.map_singleton, List.mem_singleton] at hb
    rw [hb]
    exact hnew x hx
  · intro t ht
    rw [List.append_assoc, List.mem_append, List.mem_append, List.mem_singleton] at ht
    have hkeep : ∀ t ∈ s.ingress ++ s.sinkQueue, if t.wire then t.event ∈ i.emitted
        else t.event.id ∈ s.publishedIds := by
      intro t ht
      have hmem := h.wires t ht
      split_ifs at hmem ⊢
      · rw [hemitted]
        exact List.mem_append_left _ hmem
      · exact hmem
    rcases ht with ht | rfl | ht
    · exact hkeep t (List.mem_append_left _ ht)
    · rw [if_pos rfl, hemitted]
      exact List.mem_append_right _ (by simp)
    · exact hkeep t (List.mem_append_right _ ht)
  · exact h.beats
  · intro t ht hwire
    rw [hemitted]
    exact List.mem_append_left _ (h.past t ht hwire)

theorem Once.dispatch {s : Server F} (h : Once handled s) (hsourced : Wired
    (fun e => isIngestible e.kind = true) s) {t : Traced F} {rest : List (Traced F)}
    (hq : s.ingress = t :: rest) (full : Bool) (detectQueue scoreQueue : List (Traced F)) :
    Once handled { s with
      ingress := rest
      detectQueue := detectQueue
      scoreQueue := scoreQueue
      sinkQueue := enqueue StoreSink.subscriptions full s.sinkQueue t } := by
  refine { h with wires := ?_, beats := ?_ }
  · intro x hx
    apply h.wires x
    rw [hq]
    simp only [List.mem_append, List.cons_append, List.mem_cons] at hx ⊢
    rcases hx with hx | hx
    · exact Or.inr (Or.inl hx)
    · rcases mem_enqueue hx with hx | rfl
      · exact Or.inr (Or.inr hx)
      · exact Or.inl rfl
  · intro x hx hwire
    simp only [enqueue, Bool.and_eq_true] at hx
    split_ifs at hx with hsub
    · rcases List.mem_append.mp hx with hx | hx
      · exact h.beats x hx hwire
      · rw [List.mem_singleton.mp hx] at hwire ⊢
        have hkind := (hsourced.queued t (by simp [queued, hq]) hwire).1
        -- the kinds that both lists have in common
        simp only [StoreSink.subscriptions, List.contains_eq_mem, List.mem_cons, List.not_mem_nil,
          or_false, decide_eq_true_eq] at hsub
        rcases hsub.1 with hsub | hsub | hsub | hsub
        · rw [hsub] at hkind
          exact absurd hkind (by decide)
        · rw [hsub] at hkind
          exact absurd hkind (by decide)
        · rw [hsub] at hkind
          exact absurd hkind (by decide)
        · exact hsub
    · exact h.beats x hx hwire

theorem Once.publish {s u : Server F} (h : Once handled s) {t : Traced F} (hwire : t.wire = false)
    (hfresh : t.event.id ∉ s.ingest.globalDedup) (hingest : u.ingest = s.ingest)
    (hingress : u.ingress = s.ingress ++ [t]) (hsink : u.sinkQueue = s.sinkQueue)
    (hpublished : u.published = s.published ++ [t]) : Once handled u := by
  have hids : u.publishedIds = s.publishedIds ++ [t.event.id] := by
    simp [publishedIds, hpublished]
  constructor
  · rw [hingest]
    exact h.indexed
  · intro id hid hpub
    rw [hingest] at hid ⊢
    rw [hids] at hpub
    exact h.unknown id hid fun hmem => hpub (List.mem_append_left _ hmem)
  · intro id hid
    rw [hingest] at hid
    rw [hids, List.mem_append, List.mem_singleton]
    rintro (hmem | rfl)
    · exact h.foreign id hid hmem
    · exact hfresh hid
  · rw [hingest]
    exact h.works
  · rw [hingest]
    exact h.checked
  · rw [hingest]
    exact h.unsent
  · intro e he
    rw [hingest] at he ⊢
    exact h.emitted e he
  · rw [hingest]
    exact h.distinct
  · intro x hx
    rw [hingress, hsink, List.append_assoc, List.mem_append, List.mem_append,
      List.mem_singleton] at hx
    have hkeep : ∀ x ∈ s.ingress ++ s.sinkQueue, if x.wire then x.event ∈ u.ingest.emitted
        else x.event.id ∈ u.publishedIds := by
      intro x hx
      have hmem := h.wires x hx
      rw [hingest, hids]
      split_ifs at hmem ⊢
      · exact hmem
      · exact List.mem_append_left _ hmem
    rcases hx with hx | rfl | hx
    · exact hkeep x (List.mem_append_left _ hx)
    · simp [hwire, hids]
    · exact hkeep x (List.mem_append_right _ hx)
  · rw [hsink]
    exact h.beats
  · rw [hingest]
    exact h.past

section Writes
variable [JsonFloat F]

theorem Once.store {s : Server F} (h : Once handled s) {i : Ingest F} {conn : ℕ} {now : UInt64}
    {ses : Session F} {e : Event F} (hroom : s.HasRoom ses.agentId)
    (hchecked : s.ingest.checked conn = some e)
    (hwrite : s.ingest.store.writeEvent (admitted ses.agentId now e) = some i.store)
    (hwindow : i.globalDedup = s.ingest.globalDedup) (hemitted : i.emitted = s.ingest.emitted)
    (hon : Ingest.WorksOn s.ingest i conn none (some (admitted ses.agentId now e))) :
    Once handled { s with ingest := i } := by
  have hwork : s.ingest.Works conn e.id := Or.inl ⟨e, hchecked, rfl⟩
  have hentries : ∀ agentId id, i.store.entries agentId id = s.ingest.store.entries agentId id +
      if agentId = ses.agentId ∧ id = e.id then 1 else 0 := by
    intro agentId id
    have hcount := Store.writeEvent_entries hwrite (by simpa [HasRoom] using hroom) agentId id
    simpa using hcount
  have hother : ∀ agentId id, id ≠ e.id →
      i.store.entries agentId id = s.ingest.store.entries agentId id := by
    intro agentId id hid
    rw [hentries, if_neg (by simp [hid]), Nat.add_zero]
  -- the sessions keep the ids they work on
  have hids : ∀ c id, i.Works c id → s.ingest.Works c id := by
    intro c id hwork'
    rcases works_of_on hon hwork' with ⟨rfl, x, hx, rfl⟩ | ⟨-, hwork'⟩
    · have hxe : admitted ses.agentId now e = x := by simpa using hx
      rw [← hxe, admitted_id]
      exact hwork
    · exact hwork'
  have hapart : ∀ c id, c ≠ conn → s.ingest.Works c id → id ≠ e.id := by
    rintro c id hne hc rfl
    exact hne ((h.works conn e.id hwork).2 c hc)
  constructor
  · exact h.indexed.writeEvent hwrite (by simpa [HasRoom] using hroom)
  · intro id hid hpub agentId
    rw [hwindow] at hid
    rw [hother agentId id fun heq => hid (heq ▸ (h.works conn e.id hwork).1)]
    exact h.unknown id hid hpub agentId
  · rw [hwindow]
    exact h.foreign
  · intro c id hc
    rw [hwindow]
    obtain ⟨hid, hsole⟩ := h.works c id (hids c id hc)
    exact ⟨hid, fun c' hc' => hsole c' (hids c' id hc')⟩
  · intro c x hx agentId
    rw [hon.1 c] at hx
    split_ifs at hx with hconn
    rw [hother agentId x.id (hapart c x.id hconn (Or.inl ⟨x, hx, rfl⟩))]
    exact h.checked c x hx agentId
  · intro c x hx
    rw [hon.2 c] at hx
    split_ifs at hx with hconn
    · cases hx
      rw [hentries, admitted_id, admitted_agentId, h.checked conn e hchecked, if_pos ⟨rfl, rfl⟩]
    · rw [hother x.agentId x.id (hapart c x.id hconn (Or.inr ⟨x, hx, rfl⟩))]
      exact h.unsent c x hx
  · intro x hx
    rw [hemitted] at hx
    rw [hwindow, hother x.agentId x.id (h.worked_new hwork x hx)]
    obtain ⟨hid, hidle, hcount⟩ := h.emitted x hx
    exact ⟨hid, fun c hc => hidle c (hids c x.id hc), hcount⟩
  · rw [hemitted]
    exact h.distinct
  · rw [hemitted]
    exact h.wires
  · exact h.beats
  · rw [hemitted]
    exact h.past

theorem Once.ingest {s : Server F} (h : Once handled s) {a : Ingest.Act F} {i : Ingest F}
    {full : Bool} (hguard : s.Undisturbed (.ingest a full)) (hstep : s.ingest.step a = some i) :
    Once handled
      { s with ingest := i, ingress := s.ingress ++ boarding full (arrivals s.ingest i) } := by
  cases (Ingest.step_move hstep).effect with
  | quiet hlog hwindow hemitted hless =>
      rw [arrivals_nil hemitted, boarding_nil, List.append_nil]
      exact h.quiet hlog hwindow hemitted hless
  | allow conn e ha hnext hnew hlog hwindow hemitted hon =>
      subst ha
      rw [arrivals_nil hemitted, boarding_nil, List.append_nil]
      exact h.allow hguard.1 (hguard.2 e hnext) hnew hlog hwindow hemitted hon
  | fail conn now committed e agentId ha hchecked hkind hfail =>
      subst ha
      obtain ⟨ses, hses, he⟩ := Option.bind_eq_some_iff.mp hchecked
      obtain ⟨hcommitted, hser, -⟩ := hguard ses hses e he hkind
      have hnone := hfail hcommitted
      simp only [Store.writeEvent, admitted_payload, Option.map_eq_none_iff] at hnone
      rw [hnone] at hser
      cases hser
  | store conn now ses e ha hses hchecked hkind hwrite hwindow hemitted hon =>
      subst ha
      rw [arrivals_nil hemitted, boarding_nil, List.append_nil]
      have he : ses.checked = some e := by
        rw [Ingest.checked, hses, Option.bind_some] at hchecked
        exact hchecked
      exact h.store (hguard ses hses e he hkind).2.2 hchecked hwrite hwindow hemitted hon
  | emit conn e ha hunsent hlog hwindow hemitted hon =>
      have hall := h.emit hunsent hlog hwindow hemitted hon
      rw [← arrivals_singleton hemitted] at hall
      refine hall.shed fun t ht => ?_
      rcases List.mem_append.mp ht with ht | ht
      · exact List.mem_append_left _ ht
      · exact List.mem_append_right _ (boarding_subset full _ ht)

theorem Once.sink {s : Server F} (h : Once handled s) {t : Traced F} {rest : List (Traced F)}
    (hq : s.sinkQueue = t :: rest) {store : Store F} (written : List (Written F))
    (hroom : s.HasRoom t.event.agentId) {store' : Store F}
    (hwrite : s.ingest.store.writeEvent t.event = some store')
    (hindex : store.eventsByAgent = store'.eventsByAgent) (hevents : store.events = store'.events) :
    Once (handled ++ [t]) { s with
      sinkQueue := rest
      ingest := { s.ingest with store := store }
      written := written } := by
  have ht : t ∈ s.ingress ++ s.sinkQueue := by simp [hq]
  have hentries : ∀ agentId id, store.entries agentId id = s.ingest.store.entries agentId id +
      if agentId = t.event.agentId ∧ id = t.event.id then 1 else 0 := by
    intro agentId id
    rw [Store.entries_congr hindex]
    exact Store.writeEvent_entries hwrite hroom agentId id
  have hother : ∀ agentId id, id ≠ t.event.id →
      store.entries agentId id = s.ingest.store.entries agentId id := by
    intro agentId id hid
    rw [hentries, if_neg (by simp [hid]), Nat.add_zero]
  have hcounts : ∀ id, (handled ++ [t]).countP (fun t => IsBeat id t) =
      handled.countP (fun t => IsBeat id t) + if IsBeat id t then 1 else 0 := by
    intro id
    simp only [List.countP_append, List.countP_singleton, decide_eq_true_eq]
  have hworked : ∀ conn id, s.ingest.Works conn id → id ≠ t.event.id := fun conn id hwork =>
    (h.queued_ne (h.works conn id hwork).1 (h.worked_new hwork) ht).symm
  refine { h with indexed := ?_, unknown := ?_, checked := ?_, unsent := ?_, emitted := ?_,
                  wires := ?_, beats := ?_, past := ?_ }
  · exact (h.indexed.writeEvent hwrite hroom).congr hindex hevents
  · intro id hid hpub agentId
    have hne : id ≠ t.event.id := by
      rintro rfl
      have hmem := h.wires t ht
      split_ifs at hmem
      · exact hid (h.emitted _ hmem).1
      · exact hpub hmem
    rw [hother agentId id hne]
    exact h.unknown id hid hpub agentId
  · intro conn e he agentId
    rw [hother agentId e.id (hworked conn e.id (Or.inl ⟨e, he, rfl⟩))]
    exact h.checked conn e he agentId
  · intro conn e he
    rw [hother e.agentId e.id (hworked conn e.id (Or.inr ⟨e, he, rfl⟩))]
    exact h.unsent conn e he
  · intro e he
    obtain ⟨hid, hidle, hcount⟩ := h.emitted e he
    refine ⟨hid, hidle, ?_⟩
    rw [hcounts e.id]
    by_cases hsame : e.id = t.event.id
    · -- the sink handles this very event, which is a heartbeat
      have hmem := h.wires t ht
      have hwire : t.wire = true := by
        by_contra hno
        rw [if_neg hno] at hmem
        exact h.foreign e.id hid (hsame ▸ hmem)
      rw [if_pos hwire] at hmem
      have hevent : e = t.event := List.inj_on_of_nodup_map h.distinct he hmem hsame
      have hbeat : IsBeat e.id t := ⟨hwire, h.beats t (by simp [hq]) hwire, hsame.symm⟩
      rw [if_pos hbeat, hentries, if_pos ⟨by rw [hevent], hsame⟩, hcount, Nat.add_assoc]
    · rw [hother e.agentId e.id hsame,
        if_neg fun hbeat : IsBeat e.id t => hsame hbeat.2.2.symm, hcount, Nat.add_zero]
  · intro x hx
    apply h.wires x
    rw [hq]
    simp only [List.mem_append, List.mem_cons] at hx ⊢
    exact hx.imp_right Or.inr
  · intro x hx
    exact h.beats x (by rw [hq]; exact List.mem_cons_of_mem _ hx)
  · intro x hx hwire
    rcases List.mem_append.mp hx with hx | hx
    · exact h.past x hx hwire
    · rw [List.mem_singleton.mp hx] at hwire ⊢
      have hmem := h.wires t ht
      rwa [if_pos hwire] at hmem

end Writes

section Runs
variable [F64 F] {cfg : ServerConfig F}

theorem Once.step {s u : Server F} {a : Act F} (h : Once handled s)
    (hwired : Wired (fun e => isIngestible e.kind = true) s) (hguard : s.Undisturbed a)
    (hstep : step cfg s a = some u) : Once (handled ++ (sunk s a).toList) u := by
  have hunsunk : ∀ {v : Server F}, Once handled v → Once (handled ++ []) v := fun hv => by
    rwa [List.append_nil]
  cases step_move cfg hstep with
  | ingest hi => exact hunsunk (h.ingest hguard hi)
  | dispatch full hq => exact hunsunk (h.dispatch hwired hq full.sink _ _)
  | detect now hout hq => exact hunsunk { h with }
  | @publishDetection x rest id now hout =>
      have hfresh : (publication cfg "plugin-agent-detect" id now x).event.id ∉
        s.ingest.globalDedup := hguard
      exact hunsunk (h.publish rfl hfresh rfl rfl rfl rfl)
  | score hout hq => exact hunsunk { h with }
  | @publishScore x rest id now hout =>
      have hfresh : (publication cfg "plugin-scoring" id now x).event.id ∉
        s.ingest.globalDedup := hguard
      exact hunsunk (h.publish rfl hfresh rfl rfl rfl rfl)
  | @sink t rest alertId logged committed hq =>
      rw [sunk, hq, List.head?_cons, Option.toList_some]
      obtain ⟨rfl, hser, hroom⟩ := hguard t (by simp [hq])
      obtain ⟨payloadJson, hpayload⟩ := Option.isSome_iff_exists.mp hser
      cases hwrite : s.ingest.store.writeEvent t.event with
      | none => simp [Store.writeEvent, hpayload] at hwrite
      | some store' =>
          have hlog := StoreSink.handle_log hwrite alertId committed
          exact h.sink hq _ hroom hwrite hlog.1 hlog.2

theorem run_once {l : List (Act F)} {s u : Server F}
    (h : GuardedRun (step cfg) Undisturbed s l u) (hsourced : Sourced cfg s)
    (hs : Once handled s) : Once (handled ++ observed (step cfg) sunk s l) u := by
  induction h generalizing handled with
  | nil s =>
      rw [observed, List.append_nil]
      exact hs
  | @cons s u v a l hg ht _ ih =>
      simp only [observed, ht, ← List.append_assoc]
      exact ih (hsourced.step (step_move cfg ht)) (hs.step hsourced.wired hg ht)

/-- An accepted event is in its agent's index, and on its pages, exactly once
until the sink handles it as a heartbeat. -/
theorem logged_once_iff {l : List (Act F)} {s : Server F}
    (h : GuardedRun (step cfg) Undisturbed (start .empty) l s) {e : Event F}
    (he : e ∈ s.ingest.emitted) :
    (s.ingest.store.entries e.agentId e.id = 1 ∧
      ∀ pageSize pages, (s.ingest.store.indexOf e.agentId).length ≤ pages * pageSize →
        s.ingest.store.listed e.agentId pageSize pages e.id = 1) ↔
      ∀ t ∈ observed (step cfg) sunk (start .empty) l, ¬IsBeat e.id t := by
  have honce := run_once h (start_sourced .empty) start_once
  rw [List.nil_append] at honce
  obtain ⟨-, -, hcount⟩ := honce.emitted e he
  have hlisted : ∀ pageSize pages,
      (s.ingest.store.indexOf e.agentId).length ≤ pages * pageSize →
        s.ingest.store.listed e.agentId pageSize pages e.id =
          s.ingest.store.entries e.agentId e.id :=
    fun pageSize pages hall => Store.listed_eq_entries honce.indexed hall e.id
  constructor
  · rintro ⟨hentries, -⟩ t ht hbeat
    have hzero :
        (observed (step cfg) sunk (start .empty) l).countP (fun t => IsBeat e.id t) = 0 := by
      omega
    exact List.countP_eq_zero.mp hzero t ht (decide_eq_true hbeat)
  · intro hunhandled
    have hzero : (observed (step cfg) sunk (start .empty) l).countP (fun t => IsBeat e.id t) = 0 :=
      List.countP_eq_zero.mpr fun t ht hbeat => hunhandled t ht (of_decide_eq_true hbeat)
    have hentries : s.ingest.store.entries e.agentId e.id = 1 := by omega
    exact ⟨hentries, fun pageSize pages hall => (hlisted pageSize pages hall).trans hentries⟩

end Runs

/-- An execution and a heartbeat of one agent, sent twice. -/
def loggedRun : List (Act ℚ) :=
  [.ingest (.accept 0 "agent-1"),
    .ingest (.recv 0 (.ofDigit 8) [.new (.ofDigit 1) 0 "agent-1" "host" (.heartbeat 60),
      .new (.ofDigit 2) 0 "agent-1" "process" (.processExec 100 1 1000 "/usr/bin/nmap" [] none),
      .new (.ofDigit 1) 0 "agent-1" "host" (.heartbeat 60)]),
    .ingest (.check 0), .ingest (.write 0 0 true), .ingest (.emit 0),
    .ingest (.check 0), .ingest (.write 0 0 true), .ingest (.emit 0),
    .ingest (.check 0), .ingest (.ack 0 0 true), .dispatch, .dispatch]

theorem logged_once_iff_loggedRun :
    ∃ s ∈ execute (step (.default : ServerConfig ℚ)) Undisturbed (start .empty) loggedRun,
      ∃ e ∈ s.ingest.emitted, e.kind = "process.exec" ∧
        s.ingest.store.entries e.agentId e.id = 1 := by
  have hend : ∃ s ∈ execute (step (.default : ServerConfig ℚ)) Undisturbed (start .empty)
      loggedRun, ∃ e ∈ s.ingest.emitted, e.kind = "process.exec" ∧
        ∀ t ∈ observed (step (.default : ServerConfig ℚ)) sunk (start .empty) loggedRun,
          ¬IsBeat e.id t := by
    decide +kernel
  obtain ⟨s, hs, e, he, hkind, hunhandled⟩ := hend
  exact ⟨s, hs, e, he, hkind, ((logged_once_iff (run_of_execute hs) he).mpr hunhandled).1⟩

/-- The sink handles the heartbeat, and the index has it twice. -/
theorem heartbeat_logged_twice :
    ∃ s ∈ execute (step (.default : ServerConfig ℚ)) Undisturbed (start .empty)
        (loggedRun ++ [.sink (.ofDigit 9) true true]),
      ∃ e ∈ s.ingest.emitted, s.ingest.store.entries e.agentId e.id = 2 ∧
        s.ingest.store.listed e.agentId 10 1 e.id = 2 := by
  decide +kernel

end Server
end Aegis

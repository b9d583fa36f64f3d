import Aegis.Ingest

/-!
# What an acknowledgement promises

An agent deletes a batch when its ack arrives. The ack should mean that the
store holds every event of the batch that the allow-list admits. It does in
every run in which writes succeed, an id names one event of one agent, and none
is remembered for another reason than a write: ids enter the windows before the
allow-list and before the write, and they stay there when either turns the event
away.
-/

namespace Aegis
namespace Ingest
variable {F : Type}

/-- Some session is between its window checks and its write with this id. -/
def Held (sessions : OrderedTable ℕ (Session F)) (id : Uuid) : Prop :=
  ∃ x ∈ sessions.rows, ∃ e ∈ x.2.checked, e.id = id

instance (sessions : OrderedTable ℕ (Session F)) (id : Uuid) : Decidable (Held sessions id) :=
  inferInstanceAs (Decidable (∃ x ∈ sessions.rows, ∃ e ∈ x.2.checked, e.id = id))

/-- A row of the log is what the agent's event is written as at some time. -/
def Persisted [JsonFloat F] (store : Store F) (agentId : AgentId) (e : Event F) : Prop :=
  ∃ r ∈ store.events.rows, ∃ now, ∃ payloadJson ∈ e.payload.serialize,
    r.2 = Store.eventRow (admitted agentId now e) payloadJson

/-- Every admitted event of an acknowledged batch is in the log, as an event of the agent that
sent it. -/
def AckedPersisted [JsonFloat F] (s : Ingest F) : Prop :=
  ∀ a ∈ s.acked, ∀ e ∈ a.events, isIngestible e.kind = true → Persisted s.store a.agentId e

/-- No window remembers an event whose write failed. -/
def FailedForgotten (s : Ingest F) : Prop :=
  ∀ e ∈ s.failed, e.id ∉ s.globalDedup ∧ ∀ x ∈ s.sessions.rows, e.id ∉ x.2.seen

/-- Attempted writes succeed, and a remembered id of an admitted kind is neither
that of an event the allow-list turned away nor held by a session that has yet
to write it. -/
def Meets [JsonFloat F] (s : Ingest F) : Act F → Prop
  | .check conn => ∀ e ∈ s.next conn, isIngestible e.kind = true →
      (∃ ses ∈ s.sessions.get? conn, e.id ∈ ses.seen ∨ e.id ∈ s.globalDedup) →
        e.id ∉ s.turnedAway.map Event.id ∧ ¬Held s.sessions e.id
  | .write conn _ committed => ∀ e ∈ s.checked conn, isIngestible e.kind = true →
      committed = true ∧ e.payload.serialize.isSome
  | _ => True

instance [JsonFloat F] (s : Ingest F) (a : Act F) : Decidable (s.Meets a) := by
  cases a <;> unfold Meets <;> infer_instance

/-- Among the events of admitted kinds an id is that of one event of one agent. -/
def Named (owner : Uuid → AgentId × Event F) (s : Ingest F) : Act F → Prop
  | .recv conn _ events => ∀ ses ∈ s.sessions.get? conn, ∀ e ∈ events,
      isIngestible e.kind = true → owner e.id = (ses.agentId, e)
  | _ => True

theorem checked_idle {ses : Session F} (h : ses.reading = none) : ses.checked = none := by
  simp [Session.checked, h]

theorem checked_nothing {ses : Session F} {r : Reading F} (hr : ses.reading = some r)
    (h : r.holding = .nothing) : ses.checked = none := by
  simp [Session.checked, hr, h]

theorem checked_written {ses : Session F} {r : Reading F} {e : Event F}
    (hr : ses.reading = some r) (h : r.holding = .written e) : ses.checked = none := by
  simp [Session.checked, hr, h]

theorem checked_event {ses : Session F} {r : Reading F} {e : Event F}
    (hr : ses.reading = some r) (h : r.holding = .checked e) : ses.checked = some e := by
  simp [Session.checked, hr, h]

theorem held_put_checked {sessions : OrderedTable ℕ (Session F)} {conn : ℕ} {ses : Session F}
    (hses : sessions.get? conn = some ses) {e : Event F} (he : ses.checked = some e)
    (ses' : Session F) {id : Uuid} (h : Held sessions id) :
    e.id = id ∨ Held (sessions.insert conn ses') id := by
  obtain ⟨x, hx, e', he', hid⟩ := h
  by_cases hconn : x.1 = conn
  · left
    have hget : sessions.get? conn = some x.2 :=
      OrderedTable.get?_eq_some_iff.mpr (hconn ▸ hx)
    rw [hses, Option.some.injEq] at hget
    rw [← hget, he, Option.mem_def, Option.some.injEq] at he'
    rw [he', hid]
  · right
    exact ⟨x, OrderedTable.mem_insertRow_of_ne hx hconn, e', he', hid⟩

theorem held_put {sessions : OrderedTable ℕ (Session F)} {conn : ℕ} {ses : Session F}
    (hses : sessions.get? conn = some ses) (hnone : ses.checked = none) (ses' : Session F)
    {id : Uuid} (h : Held sessions id) : Held (sessions.insert conn ses') id := by
  obtain ⟨x, hx, e, he, hid⟩ := h
  refine ⟨x, OrderedTable.mem_insertRow_of_ne hx ?_, e, he, hid⟩
  rintro rfl
  rw [OrderedTable.get?_eq_some_iff.mpr hx, Option.some.injEq] at hses
  rw [hses, hnone] at he
  cases he

theorem held_erase {sessions : OrderedTable ℕ (Session F)} {conn : ℕ} {ses : Session F}
    (hses : sessions.get? conn = some ses) (hnone : ses.checked = none) {id : Uuid}
    (h : Held sessions id) : Held (sessions.erase conn) id := by
  obtain ⟨x, hx, e, he, hid⟩ := h
  by_cases hconn : x.1 = conn
  · have hget : sessions.get? conn = some x.2 :=
      OrderedTable.get?_eq_some_iff.mpr (hconn ▸ hx)
    rw [hses, Option.some.injEq] at hget
    rw [← hget, hnone] at he
    cases he
  · refine ⟨x, ?_, e, he, hid⟩
    simp only [OrderedTable.erase, OrderedTable.restrict_rows, List.mem_filter]
    exact ⟨hx, by simpa using hconn⟩

/-- A new connection takes no session's place. -/
theorem held_new {sessions : OrderedTable ℕ (Session F)} {conn : ℕ}
    (hses : sessions.get? conn = none) (ses' : Session F) {id : Uuid} (h : Held sessions id) :
    Held (sessions.insert conn ses') id := by
  obtain ⟨x, hx, e, he, hid⟩ := h
  refine ⟨x, OrderedTable.mem_insertRow_of_ne hx ?_, e, he, hid⟩
  rintro rfl
  rw [OrderedTable.get?_eq_some_iff.mpr hx] at hses
  cases hses

theorem held_self (sessions : OrderedTable ℕ (Session F)) (conn : ℕ) {ses : Session F}
    {e : Event F} (he : ses.checked = some e) : Held (sessions.insert conn ses) e.id :=
  ⟨(conn, ses), OrderedTable.insertRow_mem _ _ _, e, he, rfl⟩

section Log
variable [JsonFloat F] {store store' : Store F} {agentId : AgentId} {now : UInt64} {e : Event F}

theorem persisted_of_write (h : store.writeEvent (admitted agentId now e) = some store') :
    Persisted store' agentId e := by
  obtain ⟨payloadJson, hpayload, rfl⟩ := Option.map_eq_some_iff.mp h
  rw [admitted_payload] at hpayload
  exact ⟨_, OrderedTable.insertRow_mem _ _ _, now, payloadJson, hpayload, rfl⟩

/-- A write takes no event out of the log whose id is not that of another event. -/
theorem Persisted.write (h : store.writeEvent (admitted agentId now e) = some store')
    {b : AgentId} {d : Event F} (hd : Persisted store b d)
    (hsame : d.id = e.id → b = agentId ∧ d = e) : Persisted store' b d := by
  by_cases hid : d.id = e.id
  · obtain ⟨rfl, rfl⟩ := hsame hid
    exact persisted_of_write h
  · obtain ⟨r, hr, earlier, payloadJson', hpayload', hrow⟩ := hd
    obtain ⟨payloadJson, -, rfl⟩ := Option.map_eq_some_iff.mp h
    refine ⟨r, OrderedTable.mem_insertRow_of_ne hr fun hkey => hid ?_, earlier, payloadJson',
      hpayload', hrow⟩
    have hrid := compositeKey_id ((store.keyed r hr).symm.trans hkey)
    simpa [hrow, Store.eventRow] using hrid

end Log

variable [JsonFloat F] (owner : Uuid → AgentId × Event F)

/-- Why a window may remember an id. -/
def Known (s : Ingest F) (id : Uuid) : Prop :=
  (∃ agentId e, e.id = id ∧ owner id = (agentId, e) ∧ Persisted s.store agentId e) ∨
    id ∈ s.turnedAway.map Event.id ∨ Held s.sessions id

/-- Windows remember known ids only, and each event of a batch under way is
still to come, logged, or about to be written. -/
structure Settled (s : Ingest F) : Prop where
  window : ∀ id ∈ s.globalDedup, s.Known owner id
  seen : ∀ x ∈ s.sessions.rows, ∀ id ∈ x.2.seen, s.Known owner id
  fetched : ∀ x ∈ s.sessions.rows, ∀ r, x.2.reading = some r → ∀ e,
    e ∈ r.todo ∨ r.holding = .checked e → e ∈ r.events
  named : ∀ x ∈ s.sessions.rows, ∀ r, x.2.reading = some r → ∀ e ∈ r.events,
    isIngestible e.kind = true → owner e.id = (x.2.agentId, e)
  reading : ∀ x ∈ s.sessions.rows, ∀ r, x.2.reading = some r → ∀ e ∈ r.events,
    isIngestible e.kind = true →
      e ∈ r.todo ∨ Persisted s.store x.2.agentId e ∨ r.holding = .checked e
  acked : ∀ b ∈ s.acked, ∀ e ∈ b.events, isIngestible e.kind = true →
    owner e.id = (b.agentId, e) ∧ Persisted s.store b.agentId e
  failed : s.failed = []

theorem start_settled (store : Store F) : (start store).Settled owner where
  window := fun id hid => (DedupWindow.not_mem_new _ id hid).elim
  seen := fun _ hx => nomatch hx
  fetched := fun _ hx => nomatch hx
  named := fun _ hx => nomatch hx
  reading := fun _ hx => nomatch hx
  acked := fun _ ha => nomatch ha
  failed := rfl

variable {owner}

theorem not_fail {s : Ingest F} {conn : ℕ} {now : UInt64} {committed : Bool}
    (hm : s.Meets (.write conn now committed)) {ses : Session F} {r : Reading F} {e : Event F}
    (hses : s.sessions.get? conn = some ses) (hr : ses.reading = some r)
    (hholding : r.holding = .checked e) (hkind : isIngestible e.kind = true) :
    ¬(committed = true → s.store.writeEvent (admitted ses.agentId now e) = none) := by
  have hchecked : s.checked conn = some e := by
    rw [checked, hses, Option.bind_some, checked_event hr hholding]
  obtain ⟨hcommitted, hser⟩ := hm e hchecked hkind
  intro hfail
  have hnone := hfail hcommitted
  simp only [Store.writeEvent, admitted_payload, Option.map_eq_none_iff] at hnone
  rw [hnone] at hser
  cases hser

theorem Settled.checked_named {s : Ingest F} (hI : s.Settled owner) {conn : ℕ} {ses : Session F}
    {r : Reading F} {e : Event F} (hses : s.sessions.get? conn = some ses)
    (hr : ses.reading = some r) (hholding : r.holding = .checked e)
    (hkind : isIngestible e.kind = true) : owner e.id = (ses.agentId, e) := by
  have hrow := OrderedTable.get?_eq_some_iff.mp hses
  exact hI.named _ hrow r hr e (hI.fetched _ hrow r hr e (Or.inr hholding)) hkind

theorem Move.persisted {s u : Ingest F} {a : Act F} (h : Move s a u) (hI : s.Settled owner)
    {b : AgentId} {d : Event F} (howner : owner d.id = (b, d)) (hd : Persisted s.store b d) :
    Persisted u.store b d := by
  cases h with
  | store hses hr hholding hkind hwrite =>
      refine hd.write hwrite fun hid => ?_
      have hnamed := hI.checked_named hses hr hholding hkind
      rw [← hid, howner, Prod.mk.injEq] at hnamed
      exact hnamed
  | ack _ _ _ _ _ _ => simpa [Persisted] using hd
  | unsent _ _ _ _ => simpa [Persisted] using hd
  | _ => exact hd

theorem Move.known {s u : Ingest F} {a : Act F} (h : Move s a u) (hm : s.Meets a)
    (hI : s.Settled owner) {id : Uuid} (hk : s.Known owner id) : u.Known owner id := by
  rcases hk with ⟨agentId, d, rfl, howner, hlog⟩ | haway | hheld
  · exact Or.inl ⟨agentId, d, rfl, howner, h.persisted hI howner hlog⟩
  · right
    left
    cases h with
    | turnAway _ _ _ _ _ _ =>
        rw [List.map_append]
        exact List.mem_append_left _ haway
    | _ => exact haway
  · cases h with
    | accept _ hnew => exact Or.inr (Or.inr (held_new hnew _ hheld))
    | recv _ _ hses hidle => exact Or.inr (Or.inr (held_put hses (checked_idle hidle) _ hheld))
    | skip hses hr hholding _ _ =>
        exact Or.inr (Or.inr (held_put hses (checked_nothing hr hholding) _ hheld))
    | allow hses hr hholding _ _ _ =>
        exact Or.inr (Or.inr (held_put hses (checked_nothing hr hholding) _ hheld))
    | turnAway _ _ hses hr hholding _ =>
        rcases held_put_checked hses (checked_event hr hholding) _ hheld with rfl | hheld
        · right
          left
          simp
        · exact Or.inr (Or.inr hheld)
    | fail hses hr hholding hkind hfail =>
        exact (not_fail hm hses hr hholding hkind hfail).elim
    | store hses hr hholding hkind hwrite =>
        rcases held_put_checked hses (checked_event hr hholding) _ hheld with rfl | hheld
        · exact Or.inl ⟨_, _, rfl, hI.checked_named hses hr hholding hkind,
            persisted_of_write hwrite⟩
        · exact Or.inr (Or.inr hheld)
    | emit hses hr hholding =>
        exact Or.inr (Or.inr (held_put hses (checked_written hr hholding) _ hheld))
    | ack _ _ hses hr hholding _ =>
        exact Or.inr (Or.inr (held_put hses (checked_nothing hr hholding) _ hheld))
    | unsent _ _ hses hnone => exact Or.inr (Or.inr (held_erase hses hnone hheld))
    | close hses hnone => exact Or.inr (Or.inr (held_erase hses hnone hheld))

theorem skipped_persisted {s : Ingest F} {conn : ℕ} (hm : s.Meets (.check conn))
    (hI : s.Settled owner) {ses : Session F} {r : Reading F} {e : Event F} {rest : List (Event F)}
    (hses : s.sessions.get? conn = some ses) (hr : ses.reading = some r)
    (hholding : r.holding = .nothing) (htodo : r.todo = e :: rest)
    (hrem : e.id ∈ ses.seen ∨ e.id ∈ s.globalDedup) (hkind : isIngestible e.kind = true) :
    Persisted s.store ses.agentId e := by
  have hrow := OrderedTable.get?_eq_some_iff.mp hses
  have hnext : s.next conn = some e := by
    simp [next, hses, hr, hholding, htodo]
  obtain ⟨haway, hheld⟩ := hm e hnext hkind ⟨ses, hses, hrem⟩
  have hknown : s.Known owner e.id := by
    rcases hrem with hseen | hglobal
    · exact hI.seen _ hrow _ hseen
    · exact hI.window _ hglobal
  rcases hknown with ⟨agentId, d, -, howner, hlog⟩ | haway' | hheld'
  · have hmem : e ∈ r.events := hI.fetched _ hrow r hr e (Or.inl (htodo ▸ List.mem_cons_self))
    rw [hI.named _ hrow r hr e hmem hkind, Prod.mk.injEq] at howner
    rwa [howner.1, howner.2]
  · exact (haway haway').elim
  · exact (hheld hheld').elim

theorem Move.window {s u : Ingest F} {a : Act F} (h : Move s a u) (hm : s.Meets a)
    (hI : s.Settled owner) : ∀ id ∈ u.globalDedup, u.Known owner id := by
  intro id hid
  have hold : id ∈ s.globalDedup → u.Known owner id :=
    fun hid => h.known hm hI (hI.window id hid)
  cases h with
  | @allow conn ses r e rest hses hr _ _ _ _ =>
      rcases DedupWindow.mem_of_mem_insert hid with rfl | hid
      · right
        right
        exact held_self s.sessions conn rfl
      · exact hold hid
  | _ => exact hold hid

theorem Move.seen {s u : Ingest F} {a : Act F} (h : Move s a u) (hm : s.Meets a)
    (hI : s.Settled owner) : ∀ x ∈ u.sessions.rows, ∀ id ∈ x.2.seen, u.Known owner id := by
  intro x hx id hid
  have hold : x ∈ s.sessions.rows → u.Known owner id :=
    fun hx => h.known hm hI (hI.seen x hx id hid)
  have hown : ∀ {conn ses}, s.sessions.get? conn = some ses → id ∈ ses.seen → u.Known owner id :=
    fun hses hid => h.known hm hI (hI.seen _ (OrderedTable.get?_eq_some_iff.mp hses) id hid)
  have hsame : ∀ {conn} {ses ses' : Session F}, s.sessions.get? conn = some ses →
      x ∈ (s.sessions.insert conn ses').rows → ses'.seen = ses.seen → u.Known owner id := by
    intro conn ses ses' hses hx hseen
    rcases OrderedTable.mem_insert_rows hx with rfl | hx
    · exact hown hses (hseen ▸ hid)
    · exact hold hx
  cases h with
  | accept _ _ =>
      rcases OrderedTable.mem_insert_rows hx with rfl | hx
      · exact (DedupWindow.not_mem_new _ id hid).elim
      · exact hold hx
  | skip hses hr hholding htodo hrem =>
      rcases OrderedTable.mem_insert_rows hx with rfl | hx
      · rcases DedupWindow.mem_of_mem_insert hid with rfl | hid
        · rcases hrem with hseen | hglobal
          · exact hown hses hseen
          · exact (Move.skip hses hr hholding htodo (Or.inr hglobal)).known hm hI
              (hI.window _ hglobal)
        · exact hown hses hid
      · exact hold hx
  | @allow conn ses r e rest hses hr _ _ _ _ =>
      rcases OrderedTable.mem_insert_rows hx with rfl | hx
      · rcases DedupWindow.mem_of_mem_insert hid with rfl | hid
        · right
          right
          exact held_self s.sessions conn rfl
        · exact hown hses hid
      · exact hold hx
  | recv _ _ hses _ => exact hsame hses hx rfl
  | turnAway _ _ hses _ _ _ => exact hsame hses hx rfl
  | fail hses _ _ _ _ => exact hsame hses hx rfl
  | store hses _ _ _ _ => exact hsame hses hx rfl
  | emit hses _ _ => exact hsame hses hx rfl
  | ack _ _ hses _ _ _ => exact hsame hses hx rfl
  | unsent _ _ _ _ => exact hold (List.mem_of_mem_filter hx)
  | close _ _ => exact hold (List.mem_of_mem_filter hx)

/-- What a session has under way: nothing new, a batch that came in, or its batch one event on. -/
theorem Move.fetched {s u : Ingest F} {a : Act F} (h : Move s a u) (hI : s.Settled owner) :
    ∀ x ∈ u.sessions.rows, ∀ r, x.2.reading = some r → ∀ e,
      e ∈ r.todo ∨ r.holding = .checked e → e ∈ r.events := by
  intro x hx r' hr' d hd
  have hold : x ∈ s.sessions.rows → d ∈ r'.events := fun hx => hI.fetched x hx r' hr' d hd
  have hown : ∀ {conn ses r}, s.sessions.get? conn = some ses → ses.reading = some r →
      d ∈ r.todo → d ∈ r.events := fun hses hr htodo =>
    hI.fetched _ (OrderedTable.get?_eq_some_iff.mp hses) _ hr d (Or.inl htodo)
  cases h with
  | accept _ _ | ack _ _ _ _ _ _ =>
      rcases OrderedTable.mem_insert_rows hx with rfl | hx
      · cases hr'
      · exact hold hx
  | recv _ _ _ _ =>
      rcases OrderedTable.mem_insert_rows hx with rfl | hx
      · cases hr'
        rcases hd with hd | hd
        · exact hd
        · cases hd
      · exact hold hx
  | @skip conn ses r e rest hses hr hholding htodo hrem =>
      rcases OrderedTable.mem_insert_rows hx with rfl | hx
      · cases hr'
        rcases hd with hd | hd
        · have hmem := hown hses hr (htodo ▸ List.mem_cons_of_mem e hd)
          exact hmem
        · rw [hholding] at hd
          cases hd
      · exact hold hx
  | @allow conn ses r e rest hses hr hholding htodo _ _ =>
      rcases OrderedTable.mem_insert_rows hx with rfl | hx
      · cases hr'
        have htodo' : d ∈ r.todo := by
          rw [htodo]
          rcases hd with hd | hd
          · exact List.mem_cons_of_mem e hd
          · cases hd
            exact List.mem_cons_self
        have hmem := hown hses hr htodo'
        exact hmem
      · exact hold hx
  | turnAway _ _ hses hr _ _ | fail hses hr _ _ _ | store hses hr _ _ _ | emit hses hr _ =>
      rcases OrderedTable.mem_insert_rows hx with rfl | hx
      · cases hr'
        rcases hd with hd | hd
        · have hmem := hown hses hr hd
          exact hmem
        · cases hd
      · exact hold hx
  | unsent _ _ _ _ => exact hold (List.mem_of_mem_filter hx)
  | close _ _ => exact hold (List.mem_of_mem_filter hx)

theorem Move.named {s u : Ingest F} {a : Act F} (h : Move s a u) (hn : s.Named owner a)
    (hI : s.Settled owner) : ∀ x ∈ u.sessions.rows, ∀ r, x.2.reading = some r → ∀ e ∈ r.events,
      isIngestible e.kind = true → owner e.id = (x.2.agentId, e) := by
  intro x hx r' hr' d hd hkind
  have hold : x ∈ s.sessions.rows → owner d.id = (x.2.agentId, d) :=
    fun hx => hI.named x hx r' hr' d hd hkind
  cases h with
  | accept _ _ | ack _ _ _ _ _ _ =>
      rcases OrderedTable.mem_insert_rows hx with rfl | hx
      · cases hr'
      · exact hold hx
  | recv _ _ hses _ =>
      rcases OrderedTable.mem_insert_rows hx with rfl | hx
      · cases hr'
        exact hn _ hses d hd hkind
      · exact hold hx
  | skip hses hr _ _ _ | allow hses hr _ _ _ _ | turnAway _ _ hses hr _ _ | fail hses hr _ _ _
  | store hses hr _ _ _ | emit hses hr _ =>
      rcases OrderedTable.mem_insert_rows hx with rfl | hx
      · cases hr'
        exact hI.named _ (OrderedTable.get?_eq_some_iff.mp hses) _ hr d hd hkind
      · exact hold hx
  | unsent _ _ _ _ => exact hold (List.mem_of_mem_filter hx)
  | close _ _ => exact hold (List.mem_of_mem_filter hx)

theorem Move.reading {s u : Ingest F} {a : Act F} (h : Move s a u) (hm : s.Meets a)
    (hI : s.Settled owner) : ∀ x ∈ u.sessions.rows, ∀ r, x.2.reading = some r → ∀ e ∈ r.events,
      isIngestible e.kind = true →
        e ∈ r.todo ∨ Persisted u.store x.2.agentId e ∨ r.holding = .checked e := by
  intro x hx r' hr' d hd hkind
  have hkeep : ∀ {b}, owner d.id = (b, d) → Persisted s.store b d → Persisted u.store b d :=
    fun howner hlog => h.persisted hI howner hlog
  have hnamed : ∀ {conn ses r}, s.sessions.get? conn = some ses → ses.reading = some r →
      d ∈ r.events → owner d.id = (ses.agentId, d) := fun hses hr hd =>
    hI.named _ (OrderedTable.get?_eq_some_iff.mp hses) _ hr d hd hkind
  have hown : ∀ {conn ses r}, s.sessions.get? conn = some ses → ses.reading = some r →
      d ∈ r.events →
        d ∈ r.todo ∨ Persisted u.store ses.agentId d ∨ r.holding = .checked d :=
    fun hses hr hd =>
      (hI.reading _ (OrderedTable.get?_eq_some_iff.mp hses) _ hr d hd hkind).imp_right
        (Or.imp_left (hkeep (hnamed hses hr hd)))
  have hold : x ∈ s.sessions.rows →
      d ∈ r'.todo ∨ Persisted u.store x.2.agentId d ∨ r'.holding = .checked d := fun hx =>
    (hI.reading x hx r' hr' d hd hkind).imp_right
      (Or.imp_left (hkeep (hI.named x hx r' hr' d hd hkind)))
  cases h with
  | accept _ _ | ack _ _ _ _ _ _ =>
      rcases OrderedTable.mem_insert_rows hx with rfl | hx
      · cases hr'
      · exact hold hx
  | recv _ _ _ _ =>
      rcases OrderedTable.mem_insert_rows hx with rfl | hx
      · cases hr'
        exact Or.inl hd
      · exact hold hx
  | @skip conn ses r e rest hses hr hholding htodo hrem =>
      rcases OrderedTable.mem_insert_rows hx with rfl | hx
      · cases hr'
        rcases hown hses hr hd with hmem | hlog | hheld
        · rw [htodo] at hmem
          rcases List.mem_cons.mp hmem with rfl | hmem
          · have hlog := hkeep (hnamed hses hr hd)
              (skipped_persisted hm hI hses hr hholding htodo hrem hkind)
            exact Or.inr (Or.inl hlog)
          · exact Or.inl hmem
        · exact Or.inr (Or.inl hlog)
        · rw [hholding] at hheld
          cases hheld
      · exact hold hx
  | @allow conn ses r e rest hses hr hholding htodo _ _ =>
      rcases OrderedTable.mem_insert_rows hx with rfl | hx
      · cases hr'
        rcases hown hses hr hd with hmem | hlog | hheld
        · rw [htodo] at hmem
          rcases List.mem_cons.mp hmem with rfl | hmem
          · exact Or.inr (Or.inr rfl)
          · exact Or.inl hmem
        · exact Or.inr (Or.inl hlog)
        · rw [hholding] at hheld
          cases hheld
      · exact hold hx
  | turnAway _ _ hses hr hholding haway =>
      rcases OrderedTable.mem_insert_rows hx with rfl | hx
      · cases hr'
        rcases hown hses hr hd with hmem | hlog | hheld
        · exact Or.inl hmem
        · exact Or.inr (Or.inl hlog)
        · rw [hholding, Holding.checked.injEq] at hheld
          rw [hheld, hkind] at haway
          cases haway
      · exact hold hx
  | fail hses hr hholding hkind' hfail =>
      exact (not_fail hm hses hr hholding hkind' hfail).elim
  | store hses hr hholding _ hwrite =>
      rcases OrderedTable.mem_insert_rows hx with rfl | hx
      · cases hr'
        rcases hown hses hr hd with hmem | hlog | hheld
        · exact Or.inl hmem
        · exact Or.inr (Or.inl hlog)
        · rw [hholding, Holding.checked.injEq] at hheld
          exact Or.inr (Or.inl (hheld ▸ persisted_of_write hwrite))
      · exact hold hx
  | emit hses hr hholding =>
      rcases OrderedTable.mem_insert_rows hx with rfl | hx
      · cases hr'
        rcases hown hses hr hd with hmem | hlog | hheld
        · exact Or.inl hmem
        · exact Or.inr (Or.inl hlog)
        · rw [hholding] at hheld
          cases hheld
      · exact hold hx
  | unsent _ _ _ _ => exact hold (List.mem_of_mem_filter hx)
  | close _ _ => exact hold (List.mem_of_mem_filter hx)

theorem Move.acked {s u : Ingest F} {a : Act F} (h : Move s a u) (hI : s.Settled owner) :
    ∀ b ∈ u.acked, ∀ e ∈ b.events, isIngestible e.kind = true →
      owner e.id = (b.agentId, e) ∧ Persisted u.store b.agentId e := by
  intro b hb e he hkind
  have hold : b ∈ s.acked → owner e.id = (b.agentId, e) ∧ Persisted u.store b.agentId e := by
    intro hb
    obtain ⟨howner, hlog⟩ := hI.acked b hb e he hkind
    exact ⟨howner, h.persisted hI howner hlog⟩
  cases h with
  | ack now touched hses hr hholding htodo =>
      rcases List.mem_append.mp hb with hb | hb
      · exact hold hb
      · rw [List.mem_singleton.mp hb] at he ⊢
        have hrow := OrderedTable.get?_eq_some_iff.mp hses
        refine ⟨hI.named _ hrow _ hr e he hkind, ?_⟩
        rcases hI.reading _ hrow _ hr e he hkind with hmem | hlog | hheld
        · rw [htodo] at hmem
          cases hmem
        · simpa [Persisted] using hlog
        · rw [hholding] at hheld
          cases hheld
  | _ => exact hold hb

theorem Move.settled {s u : Ingest F} {a : Act F} (h : Move s a u) (hm : s.Meets a)
    (hn : s.Named owner a) (hI : s.Settled owner) : u.Settled owner where
  window := h.window hm hI
  seen := h.seen hm hI
  fetched := h.fetched hI
  named := h.named hn hI
  reading := h.reading hm hI
  acked := h.acked hI
  failed := by
    cases h with
    | fail hses hr hholding hkind hfail =>
        exact (not_fail hm hses hr hholding hkind hfail).elim
    | _ => exact hI.failed

variable (owner) in
/-- In a run whose writes succeed, in which an id names one event of one agent, and whose windows
remember no admitted id without a write, an ack means that the batch is in the log. -/
theorem acked_persisted_of_meets (store : Store F) {l : List (Act F)} {s : Ingest F}
    (h : GuardedRun step (fun s a => s.Meets a ∧ s.Named owner a) (start store) l s) :
    s.AckedPersisted ∧ s.FailedForgotten := by
  have hkeep : ∀ (s : Ingest F) (a : Act F) (u : Ingest F), s.Settled owner →
      s.Meets a ∧ s.Named owner a → s.step a = some u → u.Settled owner :=
    fun s a u hI hm hstep => (step_move hstep).settled hm.1 hm.2 hI
  have hI := h.invariant (Settled owner) hkeep (start_settled owner store)
  constructor
  · exact fun b hb e he hkind => (hI.acked b hb e he hkind).2
  · intro e he
    rw [hI.failed] at he
    cases he

/-- A batch of a heartbeat and an alert, and the heartbeat again on a new connection. -/
def redeliveredRun : List (Act ℚ) :=
  [.accept 0 "agent-1",
    .recv 0 (.ofDigit 8) [heartbeat 1, .new (.ofDigit 2) 0 "agent-1" "plugin-tamper"
      (.alert .high "integrity drift" "drift detected" none)],
    .check 0, .write 0 0 true, .emit 0, .check 0, .write 0 0 true, .ack 0 0 true, .close 0,
    .accept 1 "agent-1", .recv 1 (.ofDigit 9) [heartbeat 1], .check 1, .ack 1 0 true]

def FromAgent (s : Ingest F) : Act F → Prop
  | .recv conn _ _ => ∀ ses ∈ s.sessions.get? conn, ses.agentId = "agent-1"
  | _ => True

instance (s : Ingest F) (a : Act F) : Decidable (s.FromAgent a) := by
  cases a <;> unfold FromAgent <;> infer_instance

/-- The second batch is acknowledged for the row that the first one left. -/
theorem acked_persisted_of_meets_redelivered :
    ∃ s : Ingest ℚ, FreeRun step (start .empty) redeliveredRun s ∧
      s.acked.map (fun b => (b.agentId, b.batchId, b.accepted)) =
        [("agent-1", .ofDigit 8, 1), ("agent-1", .ofDigit 9, 0)] ∧
      s.AckedPersisted ∧ s.FailedForgotten := by
  have hend : ∃ s ∈ execute step (fun s a => s.Meets a ∧ s.FromAgent a) (start .empty)
      redeliveredRun, s.acked.map (fun b => (b.agentId, b.batchId, b.accepted)) =
        [("agent-1", .ofDigit 8, 1), ("agent-1", .ofDigit 9, 0)] := by
    decide +kernel
  obtain ⟨s, hs, hacked⟩ := hend
  have hnamed : ∀ a ∈ redeliveredRun, ∀ s : Ingest ℚ, s.FromAgent a →
      s.Named (fun _ => ("agent-1", heartbeat 1)) a := by
    intro a ha s hfrom
    cases a with
    | recv conn batchId events =>
        intro ses hses e he hkind
        have hbatch : e = heartbeat 1 ∨ e.kind = "alert" := by
          simp only [redeliveredRun, List.mem_cons, Act.recv.injEq, reduceCtorEq, false_or,
            or_false, List.not_mem_nil] at ha
          rcases ha with ⟨-, -, rfl⟩ | ⟨-, -, rfl⟩
          · rcases List.mem_cons.mp he with rfl | he
            · exact Or.inl rfl
            · rw [List.mem_singleton.mp he]
              exact Or.inr rfl
          · exact Or.inl (List.mem_singleton.mp he)
        rcases hbatch with rfl | halert
        · rw [hfrom ses hses]
        · rw [halert] at hkind
          exact absurd hkind (by decide)
    | _ => exact trivial
  have hrun : GuardedRun step
      (fun s a => s.Meets a ∧ s.Named (fun _ => ("agent-1", heartbeat 1)) a)
      (start .empty) redeliveredRun s :=
    (run_of_execute hs).imp fun a ha s hg => ⟨hg.1, hnamed a ha s hg.2⟩
  exact ⟨s, hrun.free, hacked, acked_persisted_of_meets _ .empty hrun⟩

/-- The write of a heartbeat fails and its batch is acknowledged. -/
def failedWriteRun : List (Act ℚ) :=
  [.accept 0 "agent-1", .recv 0 (.ofDigit 8) [heartbeat 1], .check 0, .write 0 0 false,
    .ack 0 0 true]

/-- An acknowledged heartbeat is in no row of the log. -/
theorem failedWriteRun_loses :
    ¬∀ (l : List (Act ℚ)) (s : Ingest ℚ), FreeRun step (start .empty) l s →
      s.AckedPersisted ∧ s.FailedForgotten := by
  intro h
  have hend : ∃ s ∈ execute step (fun _ _ => True) (start .empty) failedWriteRun,
      (∃ a ∈ s.acked, ∃ e ∈ a.events, isIngestible e.kind = true) ∧
        s.store.events.rows.length = 0 := by
    decide +kernel
  obtain ⟨s, hs, ⟨a, ha, e, he, hkind⟩, hlost⟩ := hend
  obtain ⟨r, hr, -⟩ := (h failedWriteRun s (run_of_execute hs)).1 a ha e he hkind
  rw [List.eq_nil_of_length_eq_zero hlost] at hr
  cases hr

/-- A session remembers what it is about to write. -/
def Remembers (s : Ingest F) : Prop :=
  ∀ x ∈ s.sessions.rows, ∀ e ∈ x.2.checked, e.id ∈ x.2.seen

theorem Move.remembers {s u : Ingest F} {a : Act F} (h : Move s a u) (hI : s.Remembers) :
    u.Remembers := by
  intro x hx d hd
  cases h with
  | @allow conn ses r e rest _ _ _ _ _ _ =>
      rcases OrderedTable.mem_insert_rows hx with rfl | hx
      · cases hd
        exact DedupWindow.mem_insert_self ses.seen d.id
      · exact hI x hx d hd
  | @skip conn ses r e rest _ _ hholding _ _ =>
      rcases OrderedTable.mem_insert_rows hx with rfl | hx
      · simp [Session.checked, hholding] at hd
      · exact hI x hx d hd
  | unsent _ _ _ => exact hI x (List.mem_of_mem_filter hx) d hd
  | close _ _ => exact hI x (List.mem_of_mem_filter hx) d hd
  | _ =>
      rcases OrderedTable.mem_insert_rows hx with rfl | hx
      · cases hd
      · exact hI x hx d hd

/-- Right after a failed write its event is remembered, so a redelivery is dropped. -/
theorem failed_write_remembered (store : Store F) {l : List (Act F)} {s u : Ingest F}
    (h : FreeRun step (start store) l s) {a : Act F} (hstep : s.step a = some u)
    (hfail : u.failed ≠ s.failed) : ¬u.FailedForgotten := by
  have hI : s.Remembers := h.invariant Remembers
    (fun s a u hI _ hstep => (step_move hstep).remembers hI) fun _ hx => nomatch hx
  intro hforgot
  cases step_move hstep with
  | @fail conn ses r e now committed hses hr hholding _ _ =>
      have hseen := hI _ (OrderedTable.get?_eq_some_iff.mp hses) e (checked_event hr hholding)
      apply (hforgot (admitted ses.agentId now e) (by simp)).2
        (conn, { ses with reading := some { r with holding := .nothing } })
        (OrderedTable.insertRow_mem _ _ _)
      simpa using hseen
  | _ => exact hfail rfl

end Ingest
end Aegis

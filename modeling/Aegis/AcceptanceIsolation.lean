import Aegis.ServerTraffic
import Aegis.ReplayWindow
import Mathlib.Data.List.Perm.Lattice

/-!
# Acceptance of an agent's events

What becomes of each event that an agent sends: it waits in a batch, it is
looked at and either held back by a window or let past, and what is let past and
of an admitted kind is written and emitted. The shared window holds the ids of
every agent, so an event is held back when another agent used its id.
-/

namespace Aegis
variable {F : Type}

namespace OrderedTable
variable {κ ν : Type} [LinearOrder κ]

theorem erase_rows_perm (t : OrderedTable κ ν) {k : κ} {v : ν} (h : t.get? k = some v) :
    t.rows.Perm ((k, v) :: (t.erase k).rows) := by
  obtain ⟨before, after, hrows⟩ := List.append_of_mem (get?_eq_some_iff.mp h)
  have hsorted := t.sorted
  rw [hrows] at hsorted
  obtain ⟨-, hafter, hcross⟩ := List.pairwise_append.mp hsorted
  have hkeep : ∀ x ∈ before ++ after, x.1 ≠ k := by
    intro x hx
    rcases List.mem_append.mp hx with hx | hx
    · exact (hcross x hx (k, v) List.mem_cons_self).ne
    · exact ((List.pairwise_cons.mp hafter).1 x hx).ne'
  have herase : (t.erase k).rows = before ++ after := by
    simp only [erase, restrict_rows, hrows, List.filter_append, List.filter_cons, ne_eq,
      not_true_eq_false, decide_false, Bool.false_eq_true, if_false]
    rw [← List.filter_append, List.filter_eq_self]
    intro x hx
    exact decide_eq_true (hkeep x hx)
  rw [herase, hrows]
  exact List.perm_middle

theorem erase_insert (t : OrderedTable κ ν) (k : κ) (v : ν) : (t.insert k v).erase k = t.erase k :=
  restrict_insert_of_neg t _ v (by simp)

theorem insert_rows_perm (t : OrderedTable κ ν) (k : κ) (v : ν) :
    (t.insert k v).rows.Perm ((k, v) :: (t.erase k).rows) := by
  have h := erase_rows_perm (t.insert k v) (get?_insert_self t k v)
  rwa [erase_insert] at h

theorem erase_of_none (t : OrderedTable κ ν) {k : κ} (h : t.get? k = none) : t.erase k = t := by
  apply ext
  rw [erase, restrict_rows, List.filter_eq_self]
  intro x hx
  apply decide_eq_true
  rintro rfl
  have hsome : t.get? x.1 = some x.2 := get?_eq_some_iff.mpr hx
  rw [h] at hsome
  cases hsome

end OrderedTable

namespace Ingest

def agentOf (s : Ingest F) (conn : ℕ) : Option AgentId := (s.sessions.get? conn).map Session.agentId

/-- The batch that a step receives from the agent. -/
def batchOf (agentId : AgentId) (s : Ingest F) : Act F → Option (List (Event F))
  | .recv conn _ events => if s.agentOf conn = some agentId then some events else none
  | _ => none

/-- The batch that a step receives from any other agent. -/
def foreignOf (agentId : AgentId) (s : Ingest F) : Act F → Option (List (Event F))
  | .recv conn _ events => if s.agentOf conn = some agentId then none else some events
  | _ => none

/-- The event of the agent that a step looks at, and whether its id is new to the shared
window. -/
def looksAt (agentId : AgentId) (s : Ingest F) : Act F → Option (Event F × Bool)
  | .check conn => if s.agentOf conn = some agentId then
      (s.next conn).map fun e => (e, decide (e.id ∉ s.globalDedup)) else none
  | _ => none

/-- The ids of the events that were written and put on the bus for the agent. -/
def acceptedIds (s : Ingest F) (agentId : AgentId) : List Uuid :=
  (s.emitted.filter fun x => x.agentId = agentId).map Event.id

/-- No session of the agent is at work on a batch. -/
def IdleFor (s : Ingest F) (agentId : AgentId) : Prop :=
  ∀ x ∈ s.sessions.rows, x.2.agentId = agentId → x.2.reading = none

instance (s : Ingest F) (agentId : AgentId) : Decidable (s.IdleFor agentId) :=
  decidable_of_iff (∀ x ∈ s.sessions.rows, x.2.agentId = agentId → x.2.reading.isNone = true) <| by
    simp only [IdleFor, Option.isNone_iff_eq_none]

/-- The writes of the agent's events succeed, and its sessions end between batches. -/
def Served [JsonFloat F] (agentId : AgentId) (s : Ingest F) : Act F → Prop
  | .write conn _ committed => s.agentOf conn = some agentId →
      ∀ e ∈ s.checked conn, isIngestible e.kind = true →
        committed = true ∧ e.payload.serialize.isSome
  | .close conn => ∀ ses ∈ s.sessions.get? conn, ses.agentId = agentId → ses.reading = none
  | _ => True

instance [JsonFloat F] (agentId : AgentId) (s : Ingest F) (a : Act F) :
    Decidable (Served agentId s a) :=
  match a with
  | .write conn _ committed => inferInstanceAs (Decidable (s.agentOf conn = some agentId →
      ∀ e ∈ s.checked conn, isIngestible e.kind = true →
        committed = true ∧ e.payload.serialize.isSome))
  | .close conn => inferInstanceAs (Decidable
      (∀ ses ∈ s.sessions.get? conn, ses.agentId = agentId → ses.reading = none))
  | .accept _ _ => .isTrue trivial
  | .recv _ _ _ => .isTrue trivial
  | .check _ => .isTrue trivial
  | .emit _ => .isTrue trivial
  | .ack _ _ _ _ => .isTrue trivial

/-- The events that a session of the agent has yet to look at. -/
def pendingOf (agentId : AgentId) (ses : Session F) : List (Event F) :=
  if ses.agentId = agentId then (ses.reading.map Reading.todo).getD [] else []

/-- The id that a holding loop has to write or to emit. -/
def Holding.id? : Holding F → Option Uuid
  | .nothing => none
  | .checked e => if isIngestible e.kind = true then some e.id else none
  | .written e => some e.id

/-- The ids that a session of the agent has to write or to emit. -/
def heldOf (agentId : AgentId) (ses : Session F) : List Uuid :=
  if ses.agentId = agentId then (ses.reading.bind fun r => Holding.id? r.holding).toList else []

/-- What the sessions have of something, all together. -/
def gather {α : Type} (of : Session F → List α) (sessions : OrderedTable ℕ (Session F)) : List α :=
  sessions.rows.flatMap fun x => of x.2

/-- The ids of the events that are new to the shared window and of an admitted kind. -/
def cleared (looked : List (Event F × Bool)) : List Uuid :=
  (looked.filter fun p => p.2 && isIngestible p.1.kind).map fun p => p.1.id

section Gather
variable {α : Type} (of : Session F → List α) {sessions : OrderedTable ℕ (Session F)} {conn : ℕ}

theorem gather_split {ses : Session F} (h : sessions.get? conn = some ses) :
    (gather of sessions).Perm (of ses ++ gather of (sessions.erase conn)) :=
  (OrderedTable.erase_rows_perm sessions h).flatMap_right _

theorem gather_insert (ses : Session F) :
    (gather of (sessions.insert conn ses)).Perm (of ses ++ gather of (sessions.erase conn)) :=
  (OrderedTable.insert_rows_perm sessions conn ses).flatMap_right _

theorem gather_exchange {ses ses' : Session F} (h : sessions.get? conn = some ses)
    {inflow outflow : List α} (hof : (inflow ++ of ses).Perm (outflow ++ of ses')) :
    (inflow ++ gather of sessions).Perm (outflow ++ gather of (sessions.insert conn ses')) := by
  calc (inflow ++ gather of sessions).Perm
        (inflow ++ (of ses ++ gather of (sessions.erase conn))) :=
        (gather_split of h).append_left _
    _ = (inflow ++ of ses) ++ gather of (sessions.erase conn) := (List.append_assoc _ _ _).symm
    List.Perm _ ((outflow ++ of ses') ++ gather of (sessions.erase conn)) := hof.append_right _
    _ = outflow ++ (of ses' ++ gather of (sessions.erase conn)) := List.append_assoc _ _ _
    List.Perm _ (outflow ++ gather of (sessions.insert conn ses')) :=
        (gather_insert of ses').symm.append_left _

theorem gather_new {ses : Session F} (h : sessions.get? conn = none) (hof : of ses = []) :
    (gather of (sessions.insert conn ses)).Perm (gather of sessions) := by
  have hinsert : (gather of (sessions.insert conn ses)).Perm
      (of ses ++ gather of (sessions.erase conn)) := gather_insert of ses
  rwa [hof, List.nil_append, OrderedTable.erase_of_none sessions h] at hinsert

theorem gather_erase {ses : Session F} (h : sessions.get? conn = some ses) (hof : of ses = []) :
    (gather of (sessions.erase conn)).Perm (gather of sessions) := by
  have hsplit := gather_split of h
  rw [hof, List.nil_append] at hsplit
  exact hsplit.symm

end Gather

/-- What is known of a session: its own events were looked at, and the ids of a foreign one's
are foreign. -/
structure SessionFits (agentId : AgentId) (looked : List (Event F × Bool)) (foreign : List Uuid)
    (ses : Session F) : Prop where
  seen : ses.agentId = agentId → ∀ id ∈ ses.seen, id ∈ looked.map fun p => p.1.id
  stamped : ∀ x, ses.unsent = some x → x.agentId = ses.agentId
  todo : ses.agentId ≠ agentId → ∀ r, ses.reading = some r → ∀ e ∈ r.todo, e.id ∈ foreign

/-- Every event sent waits or was looked at; those that were cleared are held or accepted. -/
structure Fate (agentId : AgentId) (sent : List (Event F)) (looked : List (Event F × Bool))
    (foreign : List Uuid) (s : Ingest F) : Prop where
  flow : sent.Perm (looked.map Prod.fst ++ gather (pendingOf agentId) s.sessions)
  past : (cleared looked).Perm (s.acceptedIds agentId ++ gather (heldOf agentId) s.sessions)
  sessions : ∀ conn ses, s.sessions.get? conn = some ses → SessionFits agentId looked foreign ses
  window : ∀ id ∈ s.globalDedup, id ∈ (looked.map fun p => p.1.id) ∨ id ∈ foreign

theorem start_fate (agentId : AgentId) (store : Store F) :
    Fate agentId [] [] [] (start store) where
  flow := List.Perm.nil
  past := List.Perm.nil
  sessions := nofun
  window := fun id hid => (DedupWindow.not_mem_new _ id hid).elim

theorem SessionFits.mono {agentId : AgentId} {looked : List (Event F × Bool)}
    {foreign : List Uuid} {ses : Session F} (h : SessionFits agentId looked foreign ses)
    (dlooked : List (Event F × Bool)) (dforeign : List Uuid) :
    SessionFits agentId (looked ++ dlooked) (foreign ++ dforeign) ses where
  seen := by
    intro hown id hid
    rw [List.map_append]
    exact List.mem_append_left _ (h.seen hown id hid)
  stamped := h.stamped
  todo := fun hother r hr e he => List.mem_append_left _ (h.todo hother r hr e he)

/-- A step that gives a session new work and takes its results. -/
theorem Fate.put {agentId : AgentId} {sent : List (Event F)} {looked : List (Event F × Bool)}
    {foreign : List Uuid} {s u : Ingest F} (h : Fate agentId sent looked foreign s) {conn : ℕ}
    {ses ses' : Session F} (hses : s.sessions.get? conn = some ses)
    (hu : u.sessions = s.sessions.insert conn ses')
    {dsent : List (Event F)} {dlooked : List (Event F × Bool)} {dforeign accepted : List Uuid}
    (hflow : (dsent ++ pendingOf agentId ses).Perm
      (dlooked.map Prod.fst ++ pendingOf agentId ses'))
    (hemitted : u.acceptedIds agentId = s.acceptedIds agentId ++ accepted)
    (hpast : (cleared dlooked ++ heldOf agentId ses).Perm (accepted ++ heldOf agentId ses'))
    (hfits : SessionFits agentId (looked ++ dlooked) (foreign ++ dforeign) ses')
    (hwindow : ∀ id ∈ u.globalDedup, id ∈ s.globalDedup ∨ id ∈ (dlooked.map fun p => p.1.id) ∨
      id ∈ foreign ++ dforeign) :
    Fate agentId (sent ++ dsent) (looked ++ dlooked) (foreign ++ dforeign) u where
  flow := by
    rw [hu, List.map_append, List.append_assoc]
    calc (sent ++ dsent).Perm (dsent ++ sent) := List.perm_append_comm
      List.Perm _ (dsent ++ (looked.map Prod.fst ++ gather (pendingOf agentId) s.sessions)) :=
          h.flow.append_left _
      List.Perm _ (looked.map Prod.fst ++ (dsent ++ gather (pendingOf agentId) s.sessions)) :=
          List.perm_append_comm_assoc _ _ _
      List.Perm _ (looked.map Prod.fst ++ (dlooked.map Prod.fst ++
          gather (pendingOf agentId) (s.sessions.insert conn ses'))) :=
          (gather_exchange (pendingOf agentId) hses hflow).append_left _
  past := by
    rw [hu, hemitted, List.append_assoc]
    have hsplit : cleared (looked ++ dlooked) = cleared looked ++ cleared dlooked := by
      simp [cleared]
    rw [hsplit]
    calc (cleared looked ++ cleared dlooked).Perm (cleared dlooked ++ cleared looked) :=
          List.perm_append_comm
      List.Perm _ (cleared dlooked ++
          (s.acceptedIds agentId ++ gather (heldOf agentId) s.sessions)) := h.past.append_left _
      List.Perm _ (s.acceptedIds agentId ++
          (cleared dlooked ++ gather (heldOf agentId) s.sessions)) :=
          List.perm_append_comm_assoc _ _ _
      List.Perm _ (s.acceptedIds agentId ++ (accepted ++
          gather (heldOf agentId) (s.sessions.insert conn ses'))) :=
          (gather_exchange (heldOf agentId) hses hpast).append_left _
  sessions := by
    intro conn' x hx
    rw [hu] at hx
    by_cases hconn : conn' = conn
    · rw [hconn, OrderedTable.get?_insert_self, Option.some.injEq] at hx
      rwa [← hx]
    · rw [OrderedTable.get?_insert_ne _ _ hconn] at hx
      exact (h.sessions conn' x hx).mono dlooked dforeign
  window := by
    intro id hid
    rw [List.map_append, List.mem_append]
    rcases hwindow id hid with hold | hnew | hnew
    · rcases h.window id hold with hlooked | hforeign
      · exact Or.inl (Or.inl hlooked)
      · exact Or.inr (List.mem_append_left _ hforeign)
    · exact Or.inl (Or.inr hnew)
    · exact Or.inr hnew

theorem Fate.frame {agentId : AgentId} {sent : List (Event F)} {looked : List (Event F × Bool)}
    {foreign : List Uuid} {s u : Ingest F} (h : Fate agentId sent looked foreign s)
    (hpending : (gather (pendingOf agentId) u.sessions).Perm
      (gather (pendingOf agentId) s.sessions))
    (hheld : (gather (heldOf agentId) u.sessions).Perm (gather (heldOf agentId) s.sessions))
    (hsessions : ∀ conn ses, u.sessions.get? conn = some ses →
      SessionFits agentId looked foreign ses)
    (hemitted : u.emitted = s.emitted) (hwindow : u.globalDedup = s.globalDedup) :
    Fate agentId sent looked foreign u where
  flow := h.flow.trans (hpending.symm.append_left _)
  past := by
    have hids : u.acceptedIds agentId = s.acceptedIds agentId := by
      rw [acceptedIds, hemitted, acceptedIds]
    rw [hids]
    exact h.past.trans (hheld.symm.append_left _)
  sessions := hsessions
  window := by
    rw [hwindow]
    exact h.window

theorem Fate.leave {agentId : AgentId} {sent : List (Event F)} {looked : List (Event F × Bool)}
    {foreign : List Uuid} {s u : Ingest F} (h : Fate agentId sent looked foreign s) {conn : ℕ}
    {ses : Session F} (hses : s.sessions.get? conn = some ses)
    (hpending : pendingOf agentId ses = []) (hheld : heldOf agentId ses = [])
    (hu : u.sessions = s.sessions.erase conn) (hemitted : u.emitted = s.emitted)
    (hwindow : u.globalDedup = s.globalDedup) :
    Fate agentId (sent ++ []) (looked ++ []) (foreign ++ []) u := by
  rw [List.append_nil, List.append_nil, List.append_nil]
  refine h.frame ?_ ?_ ?_ hemitted hwindow
  · rw [hu]
    exact gather_erase _ hses hpending
  · rw [hu]
    exact gather_erase _ hses hheld
  · intro conn' x hx
    rw [hu] at hx
    exact h.sessions conn' x (OrderedTable.get?_erase_some hx).2

theorem agentOf_eq {s : Ingest F} {conn : ℕ} {ses : Session F}
    (h : s.sessions.get? conn = some ses) : s.agentOf conn = some ses.agentId := by
  rw [agentOf, h, Option.map_some]

theorem pendingOf_own {agentId : AgentId} {ses : Session F} (h : ses.agentId = agentId)
    {r : Reading F} (hr : ses.reading = some r) : pendingOf agentId ses = r.todo := by
  rw [pendingOf, if_pos h, hr, Option.map_some, Option.getD_some]

theorem heldOf_own {agentId : AgentId} {ses : Session F} (h : ses.agentId = agentId)
    {r : Reading F} (hr : ses.reading = some r) :
    heldOf agentId ses = (Holding.id? r.holding).toList := by
  rw [heldOf, if_pos h, hr, Option.bind_some]

theorem pendingOf_other {agentId : AgentId} {ses : Session F} (h : ses.agentId ≠ agentId) :
    pendingOf agentId ses = [] := if_neg h

theorem heldOf_other {agentId : AgentId} {ses : Session F} (h : ses.agentId ≠ agentId) :
    heldOf agentId ses = [] := if_neg h

theorem pendingOf_idle {agentId : AgentId} {ses : Session F} (h : ses.reading = none) :
    pendingOf agentId ses = [] := by
  simp [pendingOf, h]

theorem heldOf_idle {agentId : AgentId} {ses : Session F} (h : ses.reading = none) :
    heldOf agentId ses = [] := by
  simp [heldOf, h]

/-- An event that waits was not looked at before. -/
theorem Fate.unlooked {agentId : AgentId} {sent : List (Event F)}
    {looked : List (Event F × Bool)} {foreign : List Uuid} {s : Ingest F}
    (h : Fate agentId sent looked foreign s) (hdistinct : (sent.map Event.id).Nodup) {conn : ℕ}
    {ses : Session F} (hses : s.sessions.get? conn = some ses) {e : Event F}
    (he : e ∈ pendingOf agentId ses) : e.id ∉ looked.map fun p => p.1.id := by
  have hids := (h.flow.map Event.id).nodup_iff.mp hdistinct
  rw [List.map_append, List.map_map] at hids
  intro hlooked
  have hpending : e.id ∈ (gather (pendingOf agentId) s.sessions).map Event.id := by
    apply List.mem_map_of_mem
    rw [(gather_split (pendingOf agentId) hses).mem_iff]
    exact List.mem_append_left _ he
  exact List.disjoint_of_nodup_append hids hlooked hpending

/-- A step in which a session sends nothing and looks at nothing. -/
theorem Fate.work {agentId : AgentId} {sent : List (Event F)} {looked : List (Event F × Bool)}
    {foreign : List Uuid} {s u : Ingest F} (h : Fate agentId sent looked foreign s) {conn : ℕ}
    {ses ses' : Session F} (hses : s.sessions.get? conn = some ses)
    (hu : u.sessions = s.sessions.insert conn ses') (hagent : ses'.agentId = ses.agentId)
    (hseen : ses'.seen = ses.seen)
    (htodo : (ses'.reading.map Reading.todo).getD [] = (ses.reading.map Reading.todo).getD [])
    (hstamped : ∀ x, ses'.unsent = some x → x.agentId = ses'.agentId) (accepted : List Uuid)
    (hemitted : u.acceptedIds agentId = s.acceptedIds agentId ++ accepted)
    (hpast : heldOf agentId ses = accepted ++ heldOf agentId ses')
    (hwindow : u.globalDedup = s.globalDedup) :
    Fate agentId (sent ++ []) (looked ++ []) (foreign ++ []) u := by
  have hpending : pendingOf agentId ses' = pendingOf agentId ses := by
    rw [pendingOf, pendingOf, hagent, htodo]
  have hfits := h.sessions conn ses hses
  refine h.put hses hu ?_ hemitted ?_ ?_ ?_
  · rw [hpending]
    exact List.Perm.refl _
  · rw [cleared, List.filter_nil, List.map_nil, List.nil_append, hpast]
  · apply SessionFits.mono
    constructor
    · intro hown id hid
      rw [hseen] at hid
      exact hfits.seen (hagent ▸ hown) id hid
    · exact hstamped
    · intro hother r hr e he
      have hmem : e ∈ (ses.reading.map Reading.todo).getD [] := by
        rw [← htodo, hr]
        exact he
      cases hreading : ses.reading with
      | none =>
          rw [hreading] at hmem
          cases hmem
      | some r' =>
          rw [hreading] at hmem
          exact hfits.todo (hagent ▸ hother) r' hreading e hmem
  · intro id hid
    exact Or.inl (hwindow ▸ hid)

theorem looksAt_eq {agentId : AgentId} {s : Ingest F} {conn : ℕ} {ses : Session F}
    {r : Reading F} {e : Event F} {rest : List (Event F)}
    (hses : s.sessions.get? conn = some ses) (hr : ses.reading = some r)
    (hholding : r.holding = .nothing) (htodo : r.todo = e :: rest) :
    looksAt agentId s (.check conn) =
      if ses.agentId = agentId then some (e, decide (e.id ∉ s.globalDedup)) else none := by
  simp [looksAt, agentOf_eq hses, next_eq hses hr hholding htodo]

/-- A look at an event of the agent or of another one. -/
theorem Fate.look {agentId : AgentId} {sent : List (Event F)} {looked : List (Event F × Bool)}
    {foreign : List Uuid} {s u : Ingest F} (h : Fate agentId sent looked foreign s) {conn : ℕ}
    {ses : Session F} {r : Reading F} {e : Event F} {rest : List (Event F)}
    (hses : s.sessions.get? conn = some ses) (hr : ses.reading = some r)
    (hholding : r.holding = .nothing) (htodo : r.todo = e :: rest) (fresh : Bool)
    {holding : Holding F} (hu : u.sessions = s.sessions.insert conn
      { ses with
        seen := (ses.seen.insert e.id).2
        reading := some { r with todo := rest, holding := holding } })
    (hfresh : ses.agentId = agentId → decide (e.id ∉ s.globalDedup) = fresh)
    (hheld : (Holding.id? holding).toList = cleared [(e, fresh)])
    (hunwritten : ∀ x, holding ≠ .written x)
    (hemitted : u.emitted = s.emitted)
    (hwindow : ∀ id ∈ u.globalDedup, id ∈ s.globalDedup ∨ id = e.id) :
    Fate agentId (sent ++ []) (looked ++ (looksAt agentId s (.check conn)).toList)
      (foreign ++ []) u := by
  have hfits := h.sessions conn ses hses
  have hids : u.acceptedIds agentId = s.acceptedIds agentId ++ [] := by
    rw [acceptedIds, hemitted, acceptedIds, List.append_nil]
  rw [looksAt_eq hses hr hholding htodo]
  have hstamped : ∀ seen x, Session.unsent { ses with
      seen := seen
      reading := some { r with todo := rest, holding := holding } } = some x →
      x.agentId = ses.agentId := by
    intro seen x hx
    cases holding with
    | nothing => cases hx
    | checked e => cases hx
    | written e => exact (hunwritten e rfl).elim
  by_cases hown : ses.agentId = agentId
  · rw [if_pos hown, hfresh hown, Option.toList_some]
    refine h.put hses hu ?_ hids ?_ ?_ ?_
    · rw [pendingOf_own hown hr, htodo, pendingOf, if_pos hown]
      exact List.Perm.refl _
    · rw [heldOf_own hown hr, hholding, heldOf, if_pos hown, Option.bind_some, hheld]
      exact List.perm_append_comm
    · constructor
      · intro _ id hid
        rw [List.map_append, List.mem_append]
        rcases DedupWindow.mem_of_mem_insert hid with rfl | hid
        · exact Or.inr List.mem_cons_self
        · exact Or.inl (hfits.seen hown id hid)
      · exact hstamped _
      · intro hother
        exact (hother hown).elim
    · intro id hid
      rcases hwindow id hid with hid | rfl
      · exact Or.inl hid
      · exact Or.inr (Or.inl List.mem_cons_self)
  · rw [if_neg hown, Option.toList_none]
    have htodo' : ∀ d ∈ e :: rest, d.id ∈ foreign := by
      rw [← htodo]
      exact hfits.todo hown r hr
    refine h.put hses hu ?_ hids ?_ ?_ ?_
    · rw [pendingOf_other hown, pendingOf, if_neg hown]
      exact List.Perm.refl _
    · rw [heldOf_other hown, heldOf, if_neg hown]
      exact List.Perm.refl _
    · apply SessionFits.mono
      constructor
      · intro hown'
        exact (hown hown').elim
      · exact hstamped _
      · rintro - r' hr' d hd
        cases hr'
        exact htodo' d (List.mem_cons_of_mem _ hd)
    · intro id hid
      rcases hwindow id hid with hid | rfl
      · exact Or.inl hid
      · right
        right
        rw [List.append_nil]
        exact htodo' e List.mem_cons_self

theorem flatten_toList_append {α : Type} (batch : Option (List α)) (rest : List (List α)) :
    (batch.toList ++ rest).flatten = batch.getD [] ++ rest.flatten := by
  cases batch <;> rfl

theorem next_pending {s : Ingest F} {conn : ℕ} {e : Event F} (h : s.next conn = some e)
    {agentId : AgentId} (hagent : s.agentOf conn = some agentId) :
    ∃ ses, s.sessions.get? conn = some ses ∧ e ∈ pendingOf agentId ses := by
  simp only [next, Option.bind_eq_bind, Option.bind_eq_some_iff] at h
  obtain ⟨ses, hses, r, hr, hhead⟩ := h
  rw [agentOf_eq hses, Option.some.injEq] at hagent
  use ses, hses
  rw [pendingOf_own hagent hr]
  split at hhead
  · exact List.mem_of_head? hhead
  · cases hhead

theorem Fate.looksAt_new {agentId : AgentId} {sent : List (Event F)}
    {looked : List (Event F × Bool)} {foreign : List Uuid} {s : Ingest F}
    (h : Fate agentId sent looked foreign s) (hdistinct : (sent.map Event.id).Nodup)
    (hapart : ∀ e ∈ sent, e.id ∉ foreign) {a : Act F} :
    ∀ p ∈ looksAt agentId s a, p.2 = true := by
  intro p hp
  cases a with
  | check conn =>
      simp only [looksAt, Option.mem_def] at hp
      split_ifs at hp with hagent
      obtain ⟨e, hnext, rfl⟩ := Option.map_eq_some_iff.mp hp
      obtain ⟨ses, hses, he⟩ := next_pending hnext hagent
      apply decide_eq_true
      intro hglobal
      rcases h.window e.id hglobal with hlooked | hforeign
      · exact h.unlooked hdistinct hses he hlooked
      · apply hapart e _ hforeign
        rw [h.flow.mem_iff, List.mem_append]
        right
        rw [(gather_split (pendingOf agentId) hses).mem_iff]
        exact List.mem_append_left _ he
  | _ => cases hp

section Step
variable [JsonFloat F]

theorem unsent_between {s u : Ingest F} {conn : ℕ} {now : UInt64} {touched : Bool}
    (h : s.step (.ack conn now false touched) = some u) {ses : Session F}
    (hses : s.sessions.get? conn = some ses) :
    ∃ r, ses.reading = some r ∧ r.holding = .nothing ∧ r.todo = [] := by
  simp only [step, Option.bind_eq_bind, Option.bind_eq_some_iff] at h
  obtain ⟨x, hx, r, hr, h⟩ := h
  cases hses.symm.trans hx
  use r
  cases hholding : r.holding with
  | nothing =>
      cases htodo : r.todo with
      | nil => exact ⟨hr, rfl, rfl⟩
      | cons e rest => simp [hholding, htodo] at h
  | checked e => simp [hholding] at h
  | written e => simp [hholding] at h

theorem Fate.step {agentId : AgentId} {sent : List (Event F)} {looked : List (Event F × Bool)}
    {foreign : List Uuid} {s u : Ingest F} (h : Fate agentId sent looked foreign s)
    (hdistinct : (sent.map Event.id).Nodup) {a : Act F} (hserved : Served agentId s a)
    (hstep : s.step a = some u) :
    Fate agentId (sent ++ (batchOf agentId s a).getD []) (looked ++ (looksAt agentId s a).toList)
      (foreign ++ ((foreignOf agentId s a).getD []).map Event.id) u := by
  have hnew : ∀ {conn ses r e rest}, s.sessions.get? conn = some ses → ses.reading = some r →
      r.todo = e :: rest → ses.agentId = agentId → e.id ∉ ses.seen := by
    intro conn ses r e rest hses hr htodo hown hseen
    apply h.unlooked hdistinct hses
    · rw [pendingOf_own hown hr, htodo]
      exact List.mem_cons_self
    · exact (h.sessions conn ses hses).seen hown e.id hseen
  cases step_move hstep with
  | @accept conn agentId' hnone =>
      have hframe : Fate agentId sent looked foreign
          (s.put conn ⟨agentId', .new dedupCapacity, none⟩) := by
        refine h.frame (gather_new _ hnone (pendingOf_idle rfl))
          (gather_new _ hnone (heldOf_idle rfl)) ?_ rfl rfl
        intro conn' ses hget
        rw [get?_put] at hget
        split_ifs at hget with hconn
        · cases hget
          exact ⟨fun _ id hid => (DedupWindow.not_mem_new _ id hid).elim,
            fun _ hx => (by cases hx), fun _ _ hr => (by cases hr)⟩
        · exact h.sessions conn' ses hget
      simpa [batchOf, looksAt, foreignOf] using hframe
  | @recv conn ses batchId events hses hidle =>
      have hfits := h.sessions conn ses hses
      simp only [looksAt, batchOf, foreignOf, agentOf_eq hses, Option.some.injEq]
      have hids : ∀ t : Ingest F, t.emitted = s.emitted →
          t.acceptedIds agentId = s.acceptedIds agentId ++ [] := by
        intro t ht
        rw [acceptedIds, ht, acceptedIds, List.append_nil]
      by_cases hown : ses.agentId = agentId
      · rw [if_pos hown, if_pos hown]
        refine h.put hses rfl ?_ (hids _ rfl) ?_ ?_ ?_
        · rw [pendingOf_idle hidle, pendingOf, if_pos hown, List.append_nil]
          exact List.Perm.refl _
        · rw [heldOf_idle hidle, heldOf, if_pos hown]
          exact List.Perm.refl _
        · apply SessionFits.mono
          exact ⟨hfits.seen, fun _ hx => (by cases hx), fun hother => (hother hown).elim⟩
        · intro id hid
          exact Or.inl hid
      · rw [if_neg hown, if_neg hown]
        refine h.put hses rfl ?_ (hids _ rfl) ?_ ?_ ?_
        · rw [pendingOf_other hown, pendingOf, if_neg hown]
          exact List.Perm.refl _
        · rw [heldOf_other hown, heldOf, if_neg hown]
          exact List.Perm.refl _
        · constructor
          · intro hown'
            exact (hown hown').elim
          · intro x hx
            cases hx
          · rintro - r' hr' d hd
            cases hr'
            exact List.mem_append_right _ (List.mem_map_of_mem hd)
        · intro id hid
          exact Or.inl hid
  | @skip conn ses r e rest hses hr hholding htodo hknown =>
      refine h.look hses hr hholding htodo false rfl (fun hown => ?_) ?_ ?_ rfl
        fun id hid => Or.inl hid
      · have hglobal : e.id ∈ s.globalDedup := hknown.resolve_left (hnew hses hr htodo hown)
        simpa using hglobal
      · rw [hholding]
        rfl
      · intro x hx
        rw [hholding] at hx
        cases hx
  | @allow conn ses r e rest hses hr hholding htodo hseen hglobal =>
      refine h.look hses hr hholding htodo true rfl (fun _ => decide_eq_true hglobal) ?_
        (fun _ hx => by cases hx) rfl ?_
      · cases hkind : isIngestible e.kind <;> simp [cleared, Holding.id?, hkind]
      · intro id hid
        exact (DedupWindow.mem_of_mem_insert hid).symm
  | @turnAway conn ses r e now committed hses hr hholding hkind =>
      refine h.work hses rfl rfl rfl ?_ (fun _ hx => by cases hx) []
        (List.append_nil _).symm ?_ rfl
      · rw [hr]
        rfl
      · simp [heldOf, hr, hholding, Holding.id?, hkind]
  | @fail conn ses r e now committed hses hr hholding hkind hfail =>
      refine h.work hses rfl rfl rfl ?_ (fun _ hx => by cases hx) []
        (List.append_nil _).symm ?_ rfl
      · rw [hr]
        rfl
      · by_cases hown : ses.agentId = agentId
        · rw [← hown] at hserved
          exact (not_fail (hserved (agentOf_eq hses)) hses hr hholding hkind hfail).elim
        · rw [heldOf_other hown, heldOf, if_neg hown]
          rfl
  | @store conn ses r e now store hses hr hholding hkind hwrite =>
      refine h.work hses rfl rfl rfl ?_ ?_ [] (List.append_nil _).symm ?_ rfl
      · rw [hr]
        rfl
      · intro x hx
        cases hx
        exact admitted_agentId ses.agentId now e
      · simp [heldOf, hr, hholding, Holding.id?, hkind]
  | @emit conn ses r e hses hr hholding =>
      have hstamped : e.agentId = ses.agentId := by
        apply (h.sessions conn ses hses).stamped
        simp [Session.unsent, hr, hholding]
      refine h.work hses rfl rfl rfl ?_ (fun _ hx => by cases hx)
        (if ses.agentId = agentId then [e.id] else []) ?_ ?_ rfl
      · rw [hr]
        rfl
      · rw [← hstamped]
        by_cases hown : e.agentId = agentId <;> simp [acceptedIds, hown]
      · by_cases hown : ses.agentId = agentId <;> simp [heldOf, hown, hr, hholding, Holding.id?]
  | @ack conn ses r now touched hses hr hholding htodo =>
      refine h.work hses rfl rfl rfl ?_ (fun _ hx => by cases hx) []
        (List.append_nil _).symm ?_ rfl
      · simp [hr, htodo]
      · simp [heldOf, hr, hholding, Holding.id?]
  | @unsent conn ses now touched hses hnone =>
      obtain ⟨r, hr, hholding, htodo⟩ := unsent_between hstep hses
      refine h.leave hses ?_ ?_ rfl rfl rfl
      · simp [pendingOf, hr, htodo]
      · simp [heldOf, hr, hholding, Holding.id?]
  | @close conn ses hses hnone =>
      by_cases hown : ses.agentId = agentId
      · have hidle : ses.reading = none := hserved ses hses hown
        exact h.leave hses (pendingOf_idle hidle) (heldOf_idle hidle) rfl rfl rfl
      · exact h.leave hses (pendingOf_other hown) (heldOf_other hown) rfl rfl rfl

/-- All that a run receives from the agent and from others, and what it makes of the former. -/
theorem run_fate {agentId : AgentId} {s u : Ingest F} {l : List (Act F)}
    (h : GuardedRun step (Served agentId) s l u) {sent : List (Event F)}
    {looked : List (Event F × Bool)} {foreign : List Uuid} (hs : Fate agentId sent looked foreign s)
    (hdistinct : ((sent ++ (observed step (batchOf agentId) s l).flatten).map Event.id).Nodup) :
    Fate agentId (sent ++ (observed step (batchOf agentId) s l).flatten)
      (looked ++ observed step (looksAt agentId) s l)
      (foreign ++ (observed step (foreignOf agentId) s l).flatten.map Event.id) u := by
  induction h generalizing sent looked foreign with
  | nil s => simpa [observed] using hs
  | @cons s u v a l hserved ht _ ih =>
      simp only [observed, ht, flatten_toList_append, List.map_append, ← List.append_assoc]
        at hdistinct ⊢
      rw [← List.map_append, ← List.map_append] at hdistinct
      apply ih _ hdistinct
      apply hs.step _ hserved ht
      rw [List.append_assoc, List.map_append] at hdistinct
      exact (List.nodup_append.mp hdistinct).1

/-- What no other agent sends is new to the shared window. -/
theorem looks_new {agentId : AgentId} {s u : Ingest F} {l : List (Act F)}
    (h : GuardedRun step (Served agentId) s l u) {sent : List (Event F)}
    {looked : List (Event F × Bool)} {foreign : List Uuid} (hs : Fate agentId sent looked foreign s)
    (hdistinct : ((sent ++ (observed step (batchOf agentId) s l).flatten).map Event.id).Nodup)
    (hapart : ∀ e ∈ sent ++ (observed step (batchOf agentId) s l).flatten,
      e.id ∉ foreign ++ (observed step (foreignOf agentId) s l).flatten.map Event.id) :
    ∀ p ∈ observed step (looksAt agentId) s l, p.2 = true := by
  induction h generalizing sent looked foreign with
  | nil s => nofun
  | @cons s u v a l hserved ht _ ih =>
      simp only [observed, ht, flatten_toList_append, List.map_append, ← List.append_assoc]
        at hdistinct hapart ⊢
      rw [← List.map_append, ← List.map_append] at hdistinct
      have hsent : (sent.map Event.id).Nodup := by
        rw [List.append_assoc, List.map_append] at hdistinct
        exact (List.nodup_append.mp hdistinct).1
      intro p hp
      rcases List.mem_append.mp hp with hp | hp
      · apply hs.looksAt_new hsent _ p (Option.mem_toList.mp hp)
        intro e he hforeign
        apply hapart e
        · exact List.mem_append_left _ (List.mem_append_left _ he)
        · exact List.mem_append_left _ (List.mem_append_left _ hforeign)
      · exact ih (hs.step hsent hserved ht) hdistinct hapart p hp

theorem Move.logged {s u : Ingest F} {a : Act F} (h : Move s a u) {id : Uuid}
    (hlog : s.store.Logged id) : u.store.Logged id := by
  cases h with
  | store _ _ _ _ hwrite => exact (Store.writeEvent_logged hwrite id).mpr (Or.inr hlog)
  | ack _ _ _ _ _ _ => simpa [Store.Logged] using hlog
  | unsent _ _ _ _ => simpa [Store.Logged] using hlog
  | _ => exact hlog

/-- An event is in the log when it goes on the bus. -/
structure LoggedFirst (s : Ingest F) : Prop where
  unsent : ∀ conn e, s.unsent conn = some e → s.store.Logged e.id
  emitted : ∀ e ∈ s.emitted, s.store.Logged e.id

theorem step_loggedFirst {s u : Ingest F} {a : Act F} (hs : s.LoggedFirst)
    (hstep : s.step a = some u) : u.LoggedFirst where
  unsent := by
    intro conn e he
    rcases (step_move hstep).unsent_from he with hold | ⟨now, ses, d, -, -, -, -, -, hwrite⟩
    · exact (step_move hstep).logged (hs.unsent conn e hold)
    · apply (Store.writeEvent_logged hwrite e.id).mpr
      exact Or.inl rfl
  emitted := by
    intro e he
    rcases (step_move hstep).emitted with hsame | ⟨conn, d, -, hd, hmore⟩
    · rw [hsame] at he
      exact (step_move hstep).logged (hs.emitted e he)
    · rw [hmore] at he
      rcases List.mem_append.mp he with he | he
      · exact (step_move hstep).logged (hs.emitted e he)
      · rw [List.mem_singleton.mp he]
        exact (step_move hstep).logged (hs.unsent conn d hd)

omit [JsonFloat F] in
/-- At rest, the agent has had accepted what it sent of an admitted kind, except for what the
shared window knew. -/
theorem Fate.accepted_iff {agentId : AgentId} {sent : List (Event F)}
    {looked : List (Event F × Bool)} {foreign : List Uuid} {s : Ingest F}
    (h : Fate agentId sent looked foreign s) (hdistinct : (sent.map Event.id).Nodup)
    (hidle : s.IdleFor agentId) {id : Uuid} :
    id ∈ s.acceptedIds agentId ↔
      ∃ e ∈ sent, e.id = id ∧ isIngestible e.kind = true ∧ (e, false) ∉ looked := by
  have hpending : gather (pendingOf agentId) s.sessions = [] := by
    rw [gather, List.flatMap_eq_nil_iff]
    intro x hx
    by_cases hown : x.2.agentId = agentId
    · exact pendingOf_idle (hidle x hx hown)
    · exact pendingOf_other hown
  have hheld : gather (heldOf agentId) s.sessions = [] := by
    rw [gather, List.flatMap_eq_nil_iff]
    intro x hx
    by_cases hown : x.2.agentId = agentId
    · exact heldOf_idle (hidle x hx hown)
    · exact heldOf_other hown
  have hflow := h.flow
  have hpast := h.past
  rw [hpending, List.append_nil] at hflow
  rw [hheld, List.append_nil] at hpast
  have hnodup : (looked.map Prod.fst).Nodup :=
    hflow.nodup_iff.mp (List.Nodup.of_map _ hdistinct)
  rw [← hpast.mem_iff, cleared, List.mem_map]
  constructor
  · rintro ⟨⟨e, fresh⟩, hp, rfl⟩
    obtain ⟨hlooked, hcleared⟩ := List.mem_filter.mp hp
    obtain ⟨rfl, hkind⟩ := Bool.and_eq_true_iff.mp hcleared
    refine ⟨e, hflow.mem_iff.mpr (List.mem_map_of_mem hlooked), rfl, hkind, ?_⟩
    intro hfalse
    have heq := List.inj_on_of_nodup_map hnodup hlooked hfalse rfl
    cases heq
  · rintro ⟨e, he, rfl, hkind, hfalse⟩
    obtain ⟨⟨d, fresh⟩, hlooked, rfl⟩ := List.mem_map.mp (hflow.mem_iff.mp he)
    cases fresh with
    | false => exact (hfalse hlooked).elim
    | true => exact ⟨(d, true), List.mem_filter.mpr ⟨hlooked, by simpa using hkind⟩, rfl⟩

omit [JsonFloat F] in
theorem Fate.accepted_self {agentId : AgentId} {sent : List (Event F)}
    {looked : List (Event F × Bool)} {foreign : List Uuid} {s : Ingest F}
    (h : Fate agentId sent looked foreign s) (hdistinct : (sent.map Event.id).Nodup)
    (hidle : s.IdleFor agentId) {e : Event F} (he : e ∈ sent) (hkind : isIngestible e.kind = true) :
    e.id ∈ s.acceptedIds agentId ↔ (e, false) ∉ looked := by
  rw [h.accepted_iff hdistinct hidle]
  constructor
  · rintro ⟨d, hd, hid, -, hlooked⟩
    rwa [← List.inj_on_of_nodup_map hdistinct hd he hid]
  · intro hlooked
    exact ⟨e, he, rfl, hkind, hlooked⟩

/-- Two runs that receive the same from an agent, at rest, accept the same of it exactly if the
shared window knows the same ids of admitted events when they are looked at. It knows none that
no other agent sent. What is accepted is in the log. -/
theorem accepted_same_iff (agentId : AgentId) {store store' : Store F} {l l' : List (Act F)}
    {s s' : Ingest F} (h : GuardedRun step (Served agentId) (start store) l s)
    (h' : GuardedRun step (Served agentId) (start store') l' s') (hidle : s.IdleFor agentId)
    (hidle' : s'.IdleFor agentId)
    (hsame : observed step (batchOf agentId) (start store) l =
      observed step (batchOf agentId) (start store') l')
    (hdistinct : ((observed step (batchOf agentId) (start store) l).flatten.map Event.id).Nodup) :
    ((∀ id, id ∈ s.acceptedIds agentId ↔ id ∈ s'.acceptedIds agentId) ↔
      ∀ e ∈ (observed step (batchOf agentId) (start store) l).flatten, isIngestible e.kind = true →
        ((e, false) ∈ observed step (looksAt agentId) (start store) l ↔
          (e, false) ∈ observed step (looksAt agentId) (start store') l')) ∧
    ((∀ e ∈ (observed step (batchOf agentId) (start store) l).flatten,
      e.id ∉ (observed step (foreignOf agentId) (start store) l).flatten.map Event.id ∧
      e.id ∉ (observed step (foreignOf agentId) (start store') l').flatten.map Event.id) →
        ∀ id, id ∈ s.acceptedIds agentId ↔ id ∈ s'.acceptedIds agentId) ∧
    ∀ id ∈ s.acceptedIds agentId, s.store.Logged id := by
  have hdistinct' := hdistinct
  rw [hsame] at hdistinct'
  have hfate := run_fate h (start_fate agentId store) hdistinct
  have hfate' := run_fate h' (start_fate agentId store') hdistinct'
  have hlooks := fun hapart => looks_new h (start_fate agentId store) hdistinct hapart
  have hlooks' := fun hapart => looks_new h' (start_fate agentId store') hdistinct' hapart
  simp only [List.nil_append, ← hsame] at hfate hfate' hlooks hlooks'
  have hiff : (∀ id, id ∈ s.acceptedIds agentId ↔ id ∈ s'.acceptedIds agentId) ↔
      ∀ e ∈ (observed step (batchOf agentId) (start store) l).flatten, isIngestible e.kind = true →
        ((e, false) ∈ observed step (looksAt agentId) (start store) l ↔
          (e, false) ∈ observed step (looksAt agentId) (start store') l') := by
    constructor
    · intro hall e he hkind
      have hid := hall e.id
      rw [hfate.accepted_self hdistinct hidle he hkind,
        hfate'.accepted_self hdistinct hidle' he hkind] at hid
      exact not_iff_not.mp hid
    · intro hheld id
      rw [hfate.accepted_iff hdistinct hidle, hfate'.accepted_iff hdistinct hidle']
      constructor
      · rintro ⟨e, he, hid, hkind, hlooked⟩
        exact ⟨e, he, hid, hkind, fun hlooked' => hlooked ((hheld e he hkind).mpr hlooked')⟩
      · rintro ⟨e, he, hid, hkind, hlooked⟩
        exact ⟨e, he, hid, hkind, fun hlooked' => hlooked ((hheld e he hkind).mp hlooked')⟩
  refine ⟨hiff, ?_, ?_⟩
  · intro hapart
    apply hiff.mpr
    intro e _ _
    constructor
    · intro hlooked
      cases hlooks (fun e he => (hapart e he).1) _ hlooked
    · intro hlooked
      cases hlooks' (fun e he => (hapart e he).2) _ hlooked
  · intro id hid
    obtain ⟨e, he, rfl⟩ := List.mem_map.mp hid
    have hlogged : s.LoggedFirst := h.invariant LoggedFirst
      (fun _ _ _ hs _ hstep => step_loggedFirst hs hstep) ⟨nofun, nofun⟩
    exact hlogged.emitted e (List.mem_of_mem_filter he)

end Step

/-- An agent has its heartbeat accepted. -/
def aloneRun : List (Act ℚ) :=
  [.accept 1 "agent-1", .recv 1 (.ofDigit 9) [heartbeat 1], .check 1, .write 1 0 true, .emit 1,
    .ack 1 0 true]

/-- A second agent's heartbeat is taken in before it. -/
def besideRun : List (Act ℚ) :=
  [.accept 0 "agent-2", .recv 0 (.ofDigit 8) [heartbeat 2], .check 0, .write 0 0 true] ++ aloneRun

theorem accepted_same_iff_beside :
    ∃ s ∈ execute step (Served "agent-1") (start (.empty : Store ℚ)) aloneRun,
      ∃ s' ∈ execute step (Served "agent-1") (start (.empty : Store ℚ)) besideRun,
        ∀ id, id ∈ s.acceptedIds "agent-1" ↔ id ∈ s'.acceptedIds "agent-1" := by
  have hend : ∃ s ∈ execute step (Served "agent-1") (start (.empty : Store ℚ)) aloneRun,
      ∃ s' ∈ execute step (Served "agent-1") (start (.empty : Store ℚ)) besideRun,
        s.IdleFor "agent-1" ∧ s'.IdleFor "agent-1" := by
    decide +kernel
  obtain ⟨s, hs, s', hs', hidle, hidle'⟩ := hend
  refine ⟨s, hs, s', hs', ?_⟩
  apply (accepted_same_iff "agent-1" (run_of_execute hs) (run_of_execute hs') hidle hidle'
    rfl (by decide +kernel)).2.1
  decide +kernel

/-- A second agent's alert, which the allow-list turns away, has the id of the heartbeat. -/
def sharedIdRun : List (Act ℚ) :=
  [.accept 0 "agent-2", .recv 0 (.ofDigit 8) [.new (.ofDigit 1) 0 "agent-2" "plugin-tamper"
      (.alert .high "integrity drift" "drift detected" none)], .check 0, .write 0 0 true,
    .accept 1 "agent-1", .recv 1 (.ofDigit 9) [heartbeat 1], .check 1, .ack 1 0 true]

/-- The heartbeat is accepted in one run and lost in the other. -/
theorem sharedIdRun_drops :
    ¬∀ (l l' : List (Act ℚ)) (s s' : Ingest ℚ),
      GuardedRun step (Served "agent-1") (start .empty) l s →
      GuardedRun step (Served "agent-1") (start .empty) l' s' →
      s.IdleFor "agent-1" → s'.IdleFor "agent-1" →
      observed step (batchOf "agent-1") (start .empty) l =
        observed step (batchOf "agent-1") (start .empty) l' →
      ((observed step (batchOf "agent-1") (start .empty) l).flatten.map Event.id).Nodup →
        ∀ id, id ∈ s.acceptedIds "agent-1" ↔ id ∈ s'.acceptedIds "agent-1" := by
  intro h
  have hend : ∃ s ∈ execute step (Served "agent-1") (start (.empty : Store ℚ)) aloneRun,
      ∃ s' ∈ execute step (Served "agent-1") (start (.empty : Store ℚ)) sharedIdRun,
        s.IdleFor "agent-1" ∧ s'.IdleFor "agent-1" ∧
        .ofDigit 1 ∈ s.acceptedIds "agent-1" ∧ .ofDigit 1 ∉ s'.acceptedIds "agent-1" := by
    decide +kernel
  obtain ⟨s, hs, s', hs', hidle, hidle', haccepted, hlost⟩ := hend
  exact hlost ((h aloneRun sharedIdRun s s' (run_of_execute hs) (run_of_execute hs') hidle hidle'
    rfl (by decide +kernel) (.ofDigit 1)).mp haccepted)

end Ingest
end Aegis

import Aegis.Channel
import Aegis.Event
import Aegis.GuardedRun
import Aegis.OrderedTable

/-!
# The live command router

`registry.rs` with its callers: each session of `run_session` registers the
channel it created, its writer drains the channel, and its teardown unregisters
it. A command is sent in two steps, the lookup under the lock and `try_send`
after it, and any other session may act between them. Channels are named by the
session that created them. `answers`, `delivered` and what a session has `read` and
`discarded` record the past and no step reads them.
-/

namespace Aegis
variable {F : Type}

def commandQueueDepth : ℕ := 64

inductive ServerCommand (F : Type) where
  | rescore (subject : String)
  | setConfig (plugin : String) (config : Json F)
  | isolate (reason : String)
  | noop

inductive RouterError where
  | notConnected
  | channelFull
  deriving DecidableEq

structure Router where
  inner : OrderedTable AgentId ℕ

namespace Router

def new : Router := ⟨.empty⟩

/-- The last registration of an agent wins. -/
def register (r : Router) (agentId : AgentId) (tx : ℕ) : Router := ⟨r.inner.insert agentId tx⟩

/-- Removes the entry if it is still the closing session's. -/
def unregister (r : Router) (agentId : AgentId) (tx : ℕ) : Router :=
  match r.inner.get? agentId with
  | some current => if current = tx then ⟨r.inner.erase agentId⟩ else r
  | none => r

def isConnected (r : Router) (agentId : AgentId) : Bool := (r.inner.get? agentId).isSome

theorem get?_register (r : Router) (agentId : AgentId) (tx : ℕ) (a : AgentId) :
    (r.register agentId tx).inner.get? a = if a = agentId then some tx else r.inner.get? a :=
  OrderedTable.get?_insert _ _ _ _

theorem get?_unregister (r : Router) (agentId : AgentId) (tx : ℕ) (a : AgentId) (t : ℕ) :
    (r.unregister agentId tx).inner.get? a = some t ↔
      r.inner.get? a = some t ∧ ¬(a = agentId ∧ t = tx) := by
  unfold unregister
  cases hcurrent : r.inner.get? agentId with
  | none =>
      refine ⟨fun h => ⟨h, ?_⟩, And.left⟩
      rintro ⟨rfl, rfl⟩
      rw [hcurrent] at h
      cases h
  | some current =>
      by_cases hsame : current = tx
      · subst hsame
        simp only [if_true]
        by_cases ha : a = agentId
        · subst ha
          rw [hcurrent]
          simp [eq_comm]
        · rw [OrderedTable.get?_erase_ne _ ha]
          simp [ha]
      · simp only [if_neg hsame]
        refine ⟨fun h => ⟨h, ?_⟩, And.left⟩
        rintro ⟨rfl, rfl⟩
        rw [hcurrent, Option.some.injEq] at h
        exact hsame h

end Router

/-- What a session has of its channel: the queue, whether it still reads it, what its writer
has read, and what was left in the queue when the receiver went. -/
structure CommandLine (F : Type) where
  agentId : AgentId
  registered : Bool
  receiving : Bool
  queue : Channel (ServerCommand F) commandQueueDepth
  read : List (ServerCommand F)
  discarded : List (ServerCommand F)
  whole : receiving = true → discarded = []

/-- All that came into the queue, in order. -/
def CommandLine.entered (line : CommandLine F) : List (ServerCommand F) :=
  line.read ++ line.discarded ++ line.queue.items

/-- A call of `send` that has looked its channel up. -/
structure Sending (F : Type) where
  agentId : AgentId
  command : ServerCommand F
  tx : Option ℕ

/-- A command that a call put in a session's queue. -/
structure Delivery (F : Type) where
  call : ℕ
  agentId : AgentId
  command : ServerCommand F
  tx : ℕ

structure Commands (F : Type) where
  router : Router
  lines : OrderedTable ℕ (CommandLine F)
  calls : ℕ
  sendings : OrderedTable ℕ (Sending F)
  answers : List (ℕ × Except RouterError Unit)
  delivered : List (Delivery F)

namespace Commands

inductive Act (F : Type) where
  | register (tx : ℕ) (agentId : AgentId)
  | unregister (tx : ℕ)
  | drain (tx : ℕ)
  | dropReceiver (tx : ℕ)
  | lookup (agentId : AgentId) (command : ServerCommand F)
  | trySend (call : ℕ)

def start : Commands F := ⟨.new, .empty, 0, .empty, [], []⟩

def answer (s : Commands F) (call : ℕ) (result : Except RouterError Unit) : Commands F :=
  { s with sendings := s.sendings.erase call, answers := s.answers ++ [(call, result)] }

/-- The second half of `send`. A channel whose receiver is gone is no connection. -/
def trySend (s : Commands F) (call : ℕ) (sending : Sending F) : Commands F :=
  match sending.tx with
  | none => s.answer call (.error .notConnected)
  | some tx => match s.lines.get? tx with
    | none => s.answer call (.error .notConnected)
    | some line =>
        if !line.receiving then s.answer call (.error .notConnected) else
          match line.queue.trySend sending.command with
          | none => s.answer call (.error .channelFull)
          | some queue =>
              { s.answer call (.ok ()) with
                lines := s.lines.insert tx { line with queue := queue }
                delivered := s.delivered ++ [⟨call, sending.agentId, sending.command, tx⟩] }

def step (s : Commands F) : Act F → Option (Commands F)
  | .register tx agentId => match s.lines.get? tx with
    | some _ => none
    | none => some { s with
        router := s.router.register agentId tx
        lines := s.lines.insert tx ⟨agentId, true, true, .empty, [], [], fun _ => rfl⟩ }
  | .unregister tx => do
      let line ← s.lines.get? tx
      if line.registered then some { s with
        router := s.router.unregister line.agentId tx
        lines := s.lines.insert tx { line with registered := false } }
      else none
  | .drain tx => do
      let line ← s.lines.get? tx
      let (command, queue) ← line.queue.recv
      if line.receiving then some { s with
        lines := s.lines.insert tx { line with queue := queue, read := line.read ++ [command] } }
      else none
  | .dropReceiver tx => do
      let line ← s.lines.get? tx
      some { s with lines := s.lines.insert tx { line with
        receiving := false
        queue := .empty
        discarded := line.discarded ++ line.queue.items
        whole := nofun } }
  | .lookup agentId command => some { s with
      calls := s.calls + 1
      sendings := s.sendings.insert s.calls ⟨agentId, command, s.router.inner.get? agentId⟩ }
  | .trySend call => do
      let sending ← s.sendings.get? call
      some (s.trySend call sending)

/-- The changes a step may be. -/
inductive Move (s : Commands F) : Act F → Commands F → Prop
  | register {tx : ℕ} (agentId : AgentId) : s.lines.get? tx = none →
      Move s (.register tx agentId) { s with
        router := s.router.register agentId tx
        lines := s.lines.insert tx ⟨agentId, true, true, .empty, [], [], fun _ => rfl⟩ }
  | unregister {tx : ℕ} {line : CommandLine F} : s.lines.get? tx = some line →
      Move s (.unregister tx) { s with
        router := s.router.unregister line.agentId tx
        lines := s.lines.insert tx { line with registered := false } }
  | serve {a : Act F} {tx : ℕ} {line line' : CommandLine F} : s.lines.get? tx = some line →
      line'.agentId = line.agentId → line'.entered = line.entered →
      a = .drain tx ∨ a = .dropReceiver tx →
      Move s a { s with lines := s.lines.insert tx line' }
  | lookup (agentId : AgentId) (command : ServerCommand F) :
      Move s (.lookup agentId command) { s with
        calls := s.calls + 1
        sendings := s.sendings.insert s.calls ⟨agentId, command, s.router.inner.get? agentId⟩ }
  | refuse {call : ℕ} {sending : Sending F} (error : RouterError) :
      s.sendings.get? call = some sending →
      Move s (.trySend call) (s.answer call (.error error))
  | deliver {call : ℕ} {sending : Sending F} {tx : ℕ} {line line' : CommandLine F} :
      s.sendings.get? call = some sending → sending.tx = some tx →
      s.lines.get? tx = some line → line'.agentId = line.agentId →
      line'.entered = line.entered ++ [sending.command] →
      Move s (.trySend call)
        { s.answer call (.ok ()) with
          lines := s.lines.insert tx line'
          delivered := s.delivered ++ [⟨call, sending.agentId, sending.command, tx⟩] }

theorem entered_recv {line : CommandLine F} (hreceiving : line.receiving = true)
    {command : ServerCommand F} {queue : Channel (ServerCommand F) commandQueueDepth}
    (h : line.queue.recv = some (command, queue)) :
    { line with queue := queue, read := line.read ++ [command] }.entered = line.entered := by
  simp [CommandLine.entered, line.whole hreceiving, Channel.recv_some h]

theorem step_move {s u : Commands F} {a : Act F} (h : s.step a = some u) : Move s a u := by
  cases a with
  | register tx agentId =>
      simp only [step] at h
      split at h
      · cases h
      · cases h
        apply Move.register
        assumption
  | unregister tx =>
      simp only [step, Option.bind_eq_bind, Option.bind_eq_some_iff] at h
      obtain ⟨line, hline, h⟩ := h
      split_ifs at h
      cases h
      exact Move.unregister hline
  | drain tx =>
      simp only [step, Option.bind_eq_bind, Option.bind_eq_some_iff] at h
      obtain ⟨line, hline, ⟨command, queue⟩, hrecv, h⟩ := h
      split_ifs at h with hreceiving
      cases h
      exact Move.serve hline rfl (entered_recv hreceiving hrecv) (Or.inl rfl)
  | dropReceiver tx =>
      simp only [step, Option.bind_eq_bind, Option.bind_eq_some_iff] at h
      obtain ⟨line, hline, h⟩ := h
      cases h
      exact Move.serve hline rfl (by simp [CommandLine.entered]) (Or.inr rfl)
  | lookup agentId command =>
      cases h
      exact Move.lookup agentId command
  | trySend call =>
      simp only [step, Option.bind_eq_bind, Option.bind_eq_some_iff] at h
      obtain ⟨sending, hsending, h⟩ := h
      cases h
      unfold trySend
      split
      · exact Move.refuse _ hsending
      · rename_i tx htx
        split
        · exact Move.refuse _ hsending
        · rename_i line hline
          split_ifs
          · exact Move.refuse _ hsending
          · split
            · exact Move.refuse _ hsending
            · rename_i queue hqueue
              refine Move.deliver hsending htx hline rfl ?_
              simp [CommandLine.entered, (Channel.trySend_some hqueue).1]

/-- What is done to the table, and who asks it. -/
inductive RouterEntry (F : Type) where
  | register (agentId : AgentId) (tx : ℕ)
  | unregister (agentId : AgentId) (tx : ℕ)
  | lookup (call : ℕ) (agentId : AgentId) (command : ServerCommand F)

def RouterEntry.call? : RouterEntry F → Option ℕ
  | .lookup call _ _ => some call
  | _ => none

/-- What a step does to the table. -/
def entry (s : Commands F) : Act F → Option (RouterEntry F)
  | .register tx agentId => some (.register agentId tx)
  | .unregister tx => (s.lines.get? tx).map fun line => .unregister line.agentId tx
  | .lookup agentId command => some (.lookup s.calls agentId command)
  | _ => none

/-- The session registered last for the agent, and it has not unregistered since. -/
def Newest (history : List (RouterEntry F)) (agentId : AgentId) (tx : ℕ) : Prop :=
  ∃ before after, history = before ++ .register agentId tx :: after ∧
    (∀ tx', .register agentId tx' ∉ after) ∧ .unregister agentId tx ∉ after

theorem newest_snoc {history : List (RouterEntry F)} {e : RouterEntry F} {agentId : AgentId}
    {tx : ℕ} : Newest (history ++ [e]) agentId tx ↔ e = .register agentId tx ∨
      Newest history agentId tx ∧ (∀ tx', e ≠ .register agentId tx') ∧
        e ≠ .unregister agentId tx := by
  constructor
  · rintro ⟨before, after, heq, hregister, hunregister⟩
    rcases List.eq_nil_or_concat after with rfl | ⟨rest, x, rfl⟩
    · left
      rw [List.append_inj_right' heq rfl |> List.singleton_inj.mp]
    · right
      rw [List.concat_eq_append] at *
      rw [← List.cons_append, ← List.append_assoc] at heq
      obtain ⟨hhistory, hx⟩ := List.append_inj' heq rfl
      rw [List.singleton_inj] at hx
      subst hx
      refine ⟨⟨before, rest, hhistory, ?_, ?_⟩, ?_, ?_⟩
      · exact fun tx' hmem => hregister tx' (List.mem_append_left _ hmem)
      · exact fun hmem => hunregister (List.mem_append_left _ hmem)
      · rintro tx' rfl
        exact hregister tx' (List.mem_append_right _ List.mem_cons_self)
      · rintro rfl
        exact hunregister (List.mem_append_right _ List.mem_cons_self)
  · rintro (rfl | ⟨⟨before, after, rfl, hregister, hunregister⟩, hnot, hnot'⟩)
    · exact ⟨history, [], rfl, nofun, nofun⟩
    · refine ⟨before, after ++ [e], by simp, ?_, ?_⟩
      · intro tx' hmem
        rcases List.mem_append.mp hmem with hmem | hmem
        · exact hregister tx' hmem
        · exact hnot tx' (List.mem_singleton.mp hmem).symm
      · intro hmem
        rcases List.mem_append.mp hmem with hmem | hmem
        · exact hunregister hmem
        · exact hnot' (List.mem_singleton.mp hmem).symm

/-- Where the call was looked up, the channel it found was the newest session's. -/
def FoundAt (history : List (RouterEntry F)) (call : ℕ) (agentId : AgentId)
    (command : ServerCommand F) (tx : ℕ) : Prop :=
  ∃ before after, history = before ++ .lookup call agentId command :: after ∧
    Newest before agentId tx

theorem FoundAt.append {history : List (RouterEntry F)} {call : ℕ} {agentId : AgentId}
    {command : ServerCommand F} {tx : ℕ} (h : FoundAt history call agentId command tx)
    (rest : List (RouterEntry F)) : FoundAt (history ++ rest) call agentId command tx := by
  obtain ⟨before, after, rfl, hnewest⟩ := h
  exact ⟨before, after ++ rest, by simp, hnewest⟩

/-- The session that created the channel is the agent's. -/
def HasLine (lines : OrderedTable ℕ (CommandLine F)) (tx : ℕ) (agentId : AgentId) : Prop :=
  ∃ line, lines.get? tx = some line ∧ line.agentId = agentId

theorem HasLine.update {lines : OrderedTable ℕ (CommandLine F)} {tx : ℕ} {agentId : AgentId}
    (h : HasLine lines tx agentId) {tx' : ℕ} {line' : CommandLine F}
    (hline : ∀ line, lines.get? tx' = some line → line'.agentId = line.agentId) :
    HasLine (lines.insert tx' line') tx agentId := by
  obtain ⟨line, hget, rfl⟩ := h
  by_cases htx : tx = tx'
  · subst htx
    exact ⟨line', OrderedTable.get?_insert_self _ _ _, hline line hget⟩
  · exact ⟨line, (OrderedTable.get?_insert_ne _ _ htx).trans hget, rfl⟩

def deliveredTo (log : List (Delivery F)) (tx : ℕ) : List (ServerCommand F) :=
  (log.filter fun d => d.tx = tx).map Delivery.command

theorem deliveredTo_snoc (log : List (Delivery F)) (d : Delivery F) (tx : ℕ) :
    deliveredTo (log ++ [d]) tx =
      deliveredTo log tx ++ if d.tx = tx then [d.command] else [] := by
  by_cases h : d.tx = tx <;> simp [deliveredTo, h]

/-- The table follows its history, and so do the calls and the sessions, and what came into a
session's queue are its deliveries. -/
structure Kept (history : List (RouterEntry F)) (s : Commands F) : Prop where
  table : ∀ agentId tx, s.router.inner.get? agentId = some tx ↔ Newest history agentId tx
  lines : ∀ agentId tx, s.router.inner.get? agentId = some tx → HasLine s.lines tx agentId
  calls : history.filterMap RouterEntry.call? = List.range s.calls
  sendings : ∀ call sending, s.sendings.get? call = some sending → ∀ tx, sending.tx = some tx →
    FoundAt history call sending.agentId sending.command tx ∧
      HasLine s.lines tx sending.agentId
  delivered : ∀ d ∈ s.delivered, FoundAt history d.call d.agentId d.command d.tx ∧
    HasLine s.lines d.tx d.agentId
  queues : ∀ tx line, s.lines.get? tx = some line → line.entered = deliveredTo s.delivered tx

theorem start_kept : Kept [] (start : Commands F) where
  table := by
    intro agentId tx
    refine ⟨nofun, ?_⟩
    rintro ⟨before, after, heq, -⟩
    simp at heq
  lines := nofun
  calls := rfl
  sendings := nofun
  delivered := nofun
  queues := nofun

/-- A step that touches only one session, and delivers to no other. -/
theorem Kept.serve {history : List (RouterEntry F)} {s : Commands F} (h : Kept history s) {tx : ℕ}
    {line' : CommandLine F} {log : List (Delivery F)}
    (hline : ∀ line, s.lines.get? tx = some line → line'.agentId = line.agentId)
    (hlog : ∀ d ∈ log, FoundAt history d.call d.agentId d.command d.tx ∧
      HasLine s.lines d.tx d.agentId)
    (hothers : ∀ t, t ≠ tx → deliveredTo log t = deliveredTo s.delivered t)
    (hentered : line'.entered = deliveredTo log tx) :
    Kept history { s with lines := s.lines.insert tx line', delivered := log } where
  table := h.table
  lines := fun agentId t ht => (h.lines agentId t ht).update hline
  calls := h.calls
  sendings := fun call sending hget t ht =>
    ⟨(h.sendings call sending hget t ht).1, (h.sendings call sending hget t ht).2.update hline⟩
  delivered := fun d hd => ⟨(hlog d hd).1, (hlog d hd).2.update hline⟩
  queues := by
    intro t line ht
    by_cases htx : t = tx
    · subst htx
      rw [OrderedTable.get?_insert_self, Option.some.injEq] at ht
      rw [← ht, hentered]
    · rw [OrderedTable.get?_insert_ne _ _ htx] at ht
      rw [h.queues t line ht, hothers t htx]

theorem Kept.deliveredTo_nil {history : List (RouterEntry F)} {s : Commands F}
    (h : Kept history s) {tx : ℕ} (hnone : s.lines.get? tx = none) :
    deliveredTo s.delivered tx = [] := by
  rw [deliveredTo, List.map_eq_nil_iff, List.filter_eq_nil_iff]
  intro d hd htx
  obtain ⟨-, line, hline, -⟩ := h.delivered d hd
  rw [of_decide_eq_true htx, hnone] at hline
  cases hline

theorem Kept.answer {history : List (RouterEntry F)} {s : Commands F} (h : Kept history s)
    (call : ℕ) (result : Except RouterError Unit) : Kept history (s.answer call result) where
  table := h.table
  lines := h.lines
  calls := h.calls
  sendings := fun call' sending hget => h.sendings call' sending
    (OrderedTable.get?_erase_some hget).2
  delivered := h.delivered
  queues := h.queues

theorem Kept.route {history : List (RouterEntry F)} {s : Commands F} (h : Kept history s)
    {router : Router} {e : RouterEntry F} (hcall : e.call? = none)
    (htable : ∀ agentId tx, router.inner.get? agentId = some tx ↔ e = .register agentId tx ∨
      s.router.inner.get? agentId = some tx ∧ (∀ tx', e ≠ .register agentId tx') ∧
        e ≠ .unregister agentId tx)
    (hlines : ∀ agentId tx, e = .register agentId tx → HasLine s.lines tx agentId) :
    Kept (history ++ [e]) { s with router := router } where
  table := by
    intro agentId tx
    rw [htable, newest_snoc, h.table]
  lines := by
    intro agentId tx htx
    rcases (htable agentId tx).mp htx with he | ⟨hold, -⟩
    · exact hlines agentId tx he
    · exact h.lines agentId tx hold
  calls := by
    rw [List.filterMap_append, h.calls]
    simp [hcall]
  sendings := fun call sending hget tx htx =>
    ⟨(h.sendings call sending hget tx htx).1.append _, (h.sendings call sending hget tx htx).2⟩
  delivered := fun d hd => ⟨(h.delivered d hd).1.append _, (h.delivered d hd).2⟩
  queues := h.queues

theorem Kept.lookup {history : List (RouterEntry F)} {s : Commands F} (h : Kept history s)
    (agentId : AgentId) (command : ServerCommand F) :
    Kept (history ++ [.lookup s.calls agentId command])
      { s with
        calls := s.calls + 1
        sendings := s.sendings.insert s.calls
          ⟨agentId, command, s.router.inner.get? agentId⟩ } where
  table := by
    intro agentId' tx
    rw [newest_snoc, h.table]
    simp
  lines := h.lines
  calls := by
    rw [List.filterMap_append, h.calls, List.range_succ]
    rfl
  sendings := by
    intro call sending hget tx htx
    by_cases hcall : call = s.calls
    · subst hcall
      rw [OrderedTable.get?_insert_self, Option.some.injEq] at hget
      subst hget
      exact ⟨⟨history, [], rfl, (h.table agentId tx).mp htx⟩, h.lines agentId tx htx⟩
    · rw [OrderedTable.get?_insert_ne _ _ hcall] at hget
      exact ⟨(h.sendings call sending hget tx htx).1.append _,
        (h.sendings call sending hget tx htx).2⟩
  delivered := fun d hd => ⟨(h.delivered d hd).1.append _, (h.delivered d hd).2⟩
  queues := h.queues

theorem step_kept {history : List (RouterEntry F)} {s u : Commands F} (h : Kept history s)
    {a : Act F} (hstep : s.step a = some u) : Kept (history ++ (entry s a).toList) u := by
  cases step_move hstep with
  | @register tx agentId hnone =>
      have hserved : Kept history { s with
          lines := s.lines.insert tx ⟨agentId, true, true, .empty, [], [], fun _ => rfl⟩ } := by
        refine h.serve (fun line hline => ?_) h.delivered (fun _ _ => rfl)
          (h.deliveredTo_nil hnone).symm
        rw [hnone] at hline
        cases hline
      apply hserved.route rfl
      · intro agentId' tx'
        rw [Router.get?_register]
        by_cases hagent : agentId' = agentId
        · subst hagent
          simp
        · simp [hagent, Ne.symm hagent]
      · intro agentId' tx' he
        cases he
        exact ⟨_, OrderedTable.get?_insert_self _ _ _, rfl⟩
  | @unregister tx line hline =>
      have hserved : Kept history { s with
          lines := s.lines.insert tx { line with registered := false } } := by
        refine h.serve (fun line' hline' => ?_) h.delivered (fun _ _ => rfl)
          (h.queues tx line hline)
        rw [hline, Option.some.injEq] at hline'
        rw [← hline']
      rw [entry, hline]
      apply hserved.route rfl
      · intro agentId' tx'
        rw [Router.get?_unregister]
        simp [eq_comm]
      · nofun
  | @serve a tx line line' hline hagent hentered ha =>
      have hentry : entry s a = none := by
        rcases ha with rfl | rfl <;> rfl
      rw [hentry, Option.toList_none, List.append_nil]
      refine h.serve (fun line'' hline'' => ?_) h.delivered (fun _ _ => rfl)
        (hentered.trans (h.queues tx line hline))
      rw [hline, Option.some.injEq] at hline''
      rw [← hline'', hagent]
  | @lookup agentId command => exact h.lookup agentId command
  | @refuse call sending error hsending =>
      have hentry : entry s (.trySend call) = none := rfl
      rw [hentry, Option.toList_none, List.append_nil]
      exact h.answer call (.error error)
  | @deliver call sending tx line line' hsending htx hline hagent hentered =>
      have hentry : entry s (.trySend call) = none := rfl
      rw [hentry, Option.toList_none, List.append_nil]
      obtain ⟨hfound, hhas⟩ := h.sendings call sending hsending tx htx
      have hupdate : ∀ l, s.lines.get? tx = some l → line'.agentId = l.agentId := by
        intro l hl
        rw [hline, Option.some.injEq] at hl
        rw [← hl, hagent]
      refine (h.answer call (.ok ())).serve hupdate ?_ ?_ ?_
      · intro d hd
        rcases List.mem_append.mp hd with hd | hd
        · exact h.delivered d hd
        · rw [List.mem_singleton.mp hd]
          exact ⟨hfound, hhas⟩
      · intro t ht
        rw [deliveredTo_snoc, if_neg ht.symm, List.append_nil]
        rfl
      · rw [deliveredTo_snoc, if_pos rfl, hentered, h.queues tx line hline]

theorem run_kept {s u : Commands F} {l : List (Act F)} (h : FreeRun step s l u)
    {history : List (RouterEntry F)} (hs : Kept history s) :
    Kept (history ++ observed step entry s l) u := by
  induction h generalizing history with
  | nil s =>
      rw [observed, List.append_nil]
      exact hs
  | @cons s u v a l _ ht _ ih =>
      simp only [observed, ht, ← List.append_assoc]
      exact ih (step_kept hs ht)

/-- Where a session unregisters, the entry of any other session stays. -/
theorem unregister_keeps_newer {s u : Commands F} {tx : ℕ} (h : s.step (.unregister tx) = some u)
    {agentId : AgentId} {newer : ℕ} (hnewer : newer ≠ tx) :
    u.router.inner.get? agentId = some newer ↔ s.router.inner.get? agentId = some newer := by
  cases step_move h with
  | unregister hline =>
      rw [Router.get?_unregister]
      exact and_iff_left fun hsame => hnewer hsame.2
  | serve _ _ _ ha => rcases ha with ha | ha <;> cases ha

/-- After every run, an agent's entry is the channel of the session that registered last for it,
if that one has not unregistered since; a teardown leaves the entry of any other session alone;
each delivery went to the session of its agent that was the newest one at the moment of the
call's own lookup; and what a session's queue holds, behind what was read from it or lost with
its receiver, are the deliveries to that session in order. -/
theorem router_owned {l : List (Act F)} {s : Commands F} (h : FreeRun step start l s) :
    (∀ agentId tx, s.router.inner.get? agentId = some tx ↔
      Newest (observed step entry start l) agentId tx) ∧
    (∀ tx u, s.step (.unregister tx) = some u → ∀ agentId newer, newer ≠ tx →
      (u.router.inner.get? agentId = some newer ↔ s.router.inner.get? agentId = some newer)) ∧
    (∀ d ∈ s.delivered,
      FoundAt (observed step entry start l) d.call d.agentId d.command d.tx ∧
      ∃ line, s.lines.get? d.tx = some line ∧ line.agentId = d.agentId) ∧
    (∀ tx line, s.lines.get? tx = some line →
      line.read ++ line.discarded ++ line.queue.items =
        (s.delivered.filter fun d => d.tx = tx).map Delivery.command) ∧
    ((observed step entry start l).filterMap RouterEntry.call?).Nodup := by
  have hkept := run_kept h start_kept
  rw [List.nil_append] at hkept
  refine ⟨hkept.table, ?_, hkept.delivered, hkept.queues, ?_⟩
  · intro tx u hstep agentId newer hnewer
    exact unregister_keeps_newer hstep hnewer
  · rw [hkept.calls]
    exact List.nodup_range

/-- An agent reconnects, and its old session ends while a command is on its way. -/
def reconnectRun : List (Act ℚ) :=
  [.register 0 "agent-1", .lookup "agent-1" .noop, .register 1 "agent-1", .unregister 0,
    .lookup "agent-1" (.rescore "s1"), .trySend 1, .trySend 0, .dropReceiver 0, .drain 1]

/-- The new session keeps the entry and gets the command that was looked up after it came. -/
theorem router_owned_reconnect :
    ∃ s ∈ execute step (fun _ _ => True) start reconnectRun,
      s.router.inner.get? "agent-1" = some 1 ∧
      Newest (observed step entry start reconnectRun) "agent-1" 1 ∧
      s.delivered.map (fun d => (d.call, d.tx)) = [(1, 1), (0, 0)] ∧
      ∀ tx line, s.lines.get? tx = some line → line.read ++ line.discarded ++ line.queue.items =
        (s.delivered.filter fun d => d.tx = tx).map Delivery.command := by
  have hend : ∃ s ∈ execute step (fun _ _ => True) start reconnectRun,
      s.router.inner.get? "agent-1" = some 1 ∧
        s.delivered.map (fun d => (d.call, d.tx)) = [(1, 1), (0, 0)] := by
    decide +kernel
  obtain ⟨s, hs, hentry, hdelivered⟩ := hend
  obtain ⟨htable, -, -, hqueues, -⟩ := router_owned (run_of_execute hs)
  exact ⟨s, hs, hentry, (htable "agent-1" 1).mp hentry, hdelivered, hqueues⟩

end Commands
end Aegis

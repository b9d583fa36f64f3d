import Aegis.Attribution
import Aegis.Broadcast
import Aegis.Replica

/-!
# The live feed

What the store sink announces once a write is durable, and the streams of
`/api/v1/live` that read it. A stream skips what it lags behind and goes on; what
it got is the rows written since it subscribed, in the order they were written,
less what it lagged. The live channel is any broadcast channel that does what its
documentation says.
-/

namespace Aegis
variable {F : Type}

inductive LiveEvent (F : Type) where
  | score (agentId subject : String) (score : F) (tsNs : UInt64)
  | detection (agentId subject verdict : String) (confidence : F) (tsNs : UInt64)
  | alert (agentId severity title : String) (subject : Option String) (tsNs : UInt64)
  | agentSeen (agentId : String) (hostname : Option String) (tsNs : UInt64)

namespace LiveEvent

/-- The SSE event name. -/
def name : LiveEvent F → String
  | .score _ _ _ _ => "score"
  | .detection _ _ _ _ _ => "detection"
  | .alert _ _ _ _ _ => "alert"
  | .agentSeen _ _ _ => "agent_seen"

def ofRow : DerivedRow F → LiveEvent F
  | .detection row => .detection row.agentId row.subject row.verdict row.confidence row.tsNs
  | .score row => .score row.agentId row.subject row.score row.tsNs
  | .alert row => .alert row.agentId row.severity row.title row.subject row.tsNs

/-- Announces a row, where the rest announce that an agent was seen. -/
def isDerived (ev : LiveEvent F) : Bool := ev.name ≠ "agent_seen"

@[simp] theorem isDerived_ofRow (row : DerivedRow F) : (ofRow row).isDerived = true := by
  cases row <;> rfl

@[simp] theorem isDerived_agentSeen (agentId : String) (hostname : Option String) (tsNs : UInt64) :
    (agentSeen agentId hostname tsNs : LiveEvent F).isDerived = false := rfl

end LiveEvent

def liveChannelCapacity : ℕ := 1024

namespace StoreSink
variable [JsonFloat F]

/-- What `StoreSink::handle` sends on the live channel; `readable` says whether the
agent's row can be read. -/
def announce (store : Store F) (alertId : Uuid) (logged committed readable : Bool)
    (ev : Event F) : Option (LiveEvent F) :=
  match outcome store alertId logged committed ev with
  | .touched store =>
      let agent := if readable then store.agents.get? ev.agentId else none
      some (.agentSeen ev.agentId (agent.map AgentRow.hostname) ev.tsNs)
  | .wrote _ row => some (.ofRow row)
  | _ => none

/-- A row is announced when it is written, and nothing else is but a heartbeat. -/
theorem announce_derived (store : Store F) (alertId : Uuid) (logged committed readable : Bool)
    (ev : Event F) :
    (announce store alertId logged committed readable ev).toList.filter LiveEvent.isDerived =
      ((handle store alertId logged committed ev).2.map .ofRow).toList := by
  rw [announce, handle]
  cases outcome store alertId logged committed ev with
  | lost => rfl
  | logged next => rfl
  | touched next => simp
  | wrote next row => simp

end StoreSink

/-- The server with its live channel and the streams that read it. -/
structure Live (c : BroadcastChannel (LiveEvent F)) where
  server : Server F
  feed : Feed c liveChannelCapacity

namespace Live

inductive Act (F : Type) where
  | server (a : Server.Act F) (readable : Bool)
  | subscribe (id : ℕ)
  | poll (id : ℕ)
  | leave (id : ℕ)

variable {c : BroadcastChannel (LiveEvent F)}

def start (c : BroadcastChannel (LiveEvent F)) (store : Store F) : Live c :=
  ⟨.start store, .start c liveChannelCapacity⟩

section Step
variable [F64 F]

/-- What a step of the server puts on the live channel. -/
def announced (s : Server F) (readable : Bool) : Server.Act F → Option (LiveEvent F)
  | .sink alertId logged committed => s.sinkQueue.head?.bind fun t =>
      StoreSink.announce s.ingest.store alertId logged committed readable t.event
  | _ => none

variable (cfg : ServerConfig F)

def step (s : Live c) : Act F → Option (Live c)
  | .server a readable => (s.server.step cfg a).map fun server =>
      ⟨server, (announced s.server readable a).elim s.feed s.feed.publish⟩
  | .subscribe id => (s.feed.step (.subscribe id)).map fun feed => { s with feed := feed }
  | .poll id => (s.feed.step (.poll id)).map fun feed => { s with feed := feed }
  | .leave id => (s.feed.step (.leave id)).map fun feed => { s with feed := feed }

/-- The stream is not polled while it is further behind than the channel keeps. -/
def Prompt (id : ℕ) (s : Live c) : Act F → Prop
  | .poll id' => s.feed.Prompt id (.poll id')
  | _ => True

omit [F64 F] in
instance (id : ℕ) (s : Live c) (a : Act F) : Decidable (Prompt id s a) :=
  match a with
  | .poll id' => inferInstanceAs (Decidable (s.feed.Prompt id (.poll id')))
  | .server _ _ => .isTrue trivial
  | .subscribe _ => .isTrue trivial
  | .leave _ => .isTrue trivial

/-- A step of the system is a step of the server or of the feed alone, and what the server's
announces is published. -/
theorem step_cases {s u : Live c} {a : Act F} (h : step cfg s a = some u) :
    (∃ b readable, a = .server b readable ∧ s.server.step cfg b = some u.server ∧
      u.feed = (announced s.server readable b).elim s.feed s.feed.publish) ∨
    ∃ b, s.feed.step b = some u.feed ∧ u.server = s.server ∧ u.feed.history = s.feed.history ∧
      ∀ id, Prompt id s a → s.feed.Prompt id b := by
  cases a with
  | server b readable =>
      obtain ⟨server, hserver, rfl⟩ := Option.map_eq_some_iff.mp h
      exact Or.inl ⟨b, readable, rfl, hserver, rfl⟩
  | subscribe id =>
      obtain ⟨feed, hfeed, rfl⟩ := Option.map_eq_some_iff.mp h
      refine Or.inr ⟨_, hfeed, rfl, ?_, fun _ _ => trivial⟩
      simp only [Feed.step] at hfeed
      split_ifs at hfeed
      cases hfeed
      rfl
  | poll id =>
      obtain ⟨feed, hfeed, rfl⟩ := Option.map_eq_some_iff.mp h
      refine Or.inr ⟨_, hfeed, rfl, ?_, fun _ hprompt => hprompt⟩
      obtain ⟨r, -, rfl⟩ := Option.map_eq_some_iff.mp hfeed
      rfl
  | leave id =>
      cases h
      exact Or.inr ⟨.leave id, rfl, rfl, rfl, fun _ _ => trivial⟩

variable {cfg}

/-- The derived part of the channel's history is the rows written. -/
structure Sound (cfg : ServerConfig F) (s : Live c) : Prop where
  sourced : s.server.Sourced cfg
  feed : s.feed.Sound
  writes : s.feed.history.filter LiveEvent.isDerived =
    s.server.written.map fun w => .ofRow w.row

omit [F64 F] in
theorem start_sound (store : Store F) : Sound cfg (start c store) :=
  ⟨Server.start_sourced store, Feed.start_sound, rfl⟩

theorem step_written {s u : Server F} {b : Server.Act F} (h : s.step cfg b = some u)
    (readable : Bool) :
    u.written.map (fun w => LiveEvent.ofRow w.row) =
      s.written.map (fun w => LiveEvent.ofRow w.row) ++
        (announced s readable b).toList.filter LiveEvent.isDerived := by
  cases Server.step_move cfg h with
  | @sink t rest alertId logged committed hq =>
      simp only [announced, hq, List.head?_cons, Option.bind_some, StoreSink.announce_derived,
        List.map_append]
      cases (StoreSink.handle s.ingest.store alertId logged committed t.event).2 <;> rfl
  | _ => simp [announced]

omit [F64 F] in
theorem publish_history (f : Feed c liveChannelCapacity) (o : Option (LiveEvent F)) :
    (o.elim f f.publish).history = f.history ++ o.toList := by
  cases o with
  | none => simp
  | some ev => rfl

theorem liveChannelCapacity_isPowerOfTwo : liveChannelCapacity.isPowerOfTwo := ⟨10, rfl⟩

section Documented
variable (hc : c.Documented)
include hc

theorem step_sound {s u : Live c} {a : Act F} (h : Sound cfg s) (hstep : step cfg s a = some u) :
    Sound cfg u := by
  rcases step_cases cfg hstep with ⟨b, readable, rfl, hserver, hfeed⟩ |
    ⟨b, hfeed, hserver, hsame, -⟩
  · refine ⟨h.sourced.step (Server.step_move cfg hserver), ?_, ?_⟩
    · rw [hfeed]
      cases announced s.server readable b with
      | none => exact h.feed
      | some ev => exact h.feed.publish ev
    · rw [hfeed, publish_history, List.filter_append, h.writes, step_written hserver readable]
  · exact ⟨hserver ▸ h.sourced,
      Feed.step_sound hc liveChannelCapacity_isPowerOfTwo h.feed hfeed,
      by rw [hsame, hserver, h.writes]⟩

theorem run_sound {store : Store F} {l : List (Act F)} {s : Live c}
    (h : FreeRun (step cfg) (start c store) l s) : Sound cfg s :=
  h.invariant (Sound cfg) (fun _ _ _ hs _ hstep => step_sound hc hs hstep) (start_sound store)

theorem run_missed {id : ℕ} {store : Store F} {l : List (Act F)} {s : Live c}
    (h : GuardedRun (step cfg) (Prompt id) (start c store) l s) :
    ∀ r, s.feed.readers.get? id = some r → r.missed = 0 := by
  refine (h.invariant
    (fun s => Sound cfg s ∧ ∀ r, s.feed.readers.get? id = some r → r.missed = 0) ?_
    ⟨start_sound store, fun _ hr => nomatch hr⟩).2
  rintro s a u ⟨hs, hmissed⟩ ha hstep
  refine ⟨step_sound hc hs hstep, ?_⟩
  rcases step_cases cfg hstep with ⟨b, readable, rfl, -, hfeed⟩ | ⟨b, hfeed, -, -, hprompt⟩
  · rw [hfeed]
    cases announced s.server readable b with
    | none => exact hmissed
    | some ev => exact hmissed
  · exact Feed.step_missed hc liveChannelCapacity_isPowerOfTwo hs.feed hmissed (hprompt id ha)
      hfeed

end Documented

variable (cfg) in
theorem run_polls {s : Live c} {id : ℕ} {r : Reader (LiveEvent F)}
    (hr : s.feed.readers.get? id = some r) (n : ℕ) :
    ∃ u, FreeRun (step cfg) s (List.replicate n (.poll id)) u ∧ u.server = s.server ∧
      u.feed.history = s.feed.history ∧
      u.feed.readers.get? id = some ((Reader.poll c s.feed.channel)^[n] r) := by
  induction n generalizing s r with
  | zero => exact ⟨s, .nil s, rfl, rfl, hr⟩
  | succ n ih =>
      have hstep : step cfg s (.poll id) = some { s with feed :=
          { s.feed with readers := s.feed.readers.insert id (r.poll c s.feed.channel) } } := by
        simp only [step, Feed.step, hr, Option.map_some]
      obtain ⟨u, hrun, hserver, hhistory, hget⟩ :=
        ih (s := { s with feed :=
          { s.feed with readers := s.feed.readers.insert id (r.poll c s.feed.channel) } })
          (OrderedTable.get?_insert_self _ _ _)
      exact ⟨u, GuardedRun.cons trivial hstep hrun, hserver, hhistory, hget⟩

variable (cfg) in
/-- After any run a stream got, in order, what was announced since it subscribed: all of it if
it was never polled later than 1024 events behind, and else as much as it was not told it
missed. If it reads on it gets all that is left of the last 1024. -/
theorem stream_follows_writes (hc : c.Documented) {store : Store F} {l : List (Act F)}
    {s : Live c} (h : FreeRun (step cfg) (start c store) l s) {id : ℕ} {r : Reader (LiveEvent F)}
    (hr : s.feed.readers.get? id = some r) :
    s.feed.history.filter LiveEvent.isDerived =
      s.server.written.map (fun w => LiveEvent.ofRow w.row) ∧
    r.got.Sublist (r.passed s.feed.history) ∧ r.got.length + r.missed = r.next - r.joined ∧
    (GuardedRun (step cfg) (Prompt id) (start c store) l s → r.got = r.passed s.feed.history) ∧
    ∃ n ≤ s.feed.history.length - r.next + 1, ∃ u,
      FreeRun (step cfg) s (List.replicate n (.poll id)) u ∧ u.server = s.server ∧
      ∃ r' ∈ u.feed.readers.get? id, r'.next = s.feed.history.length ∧ r'.got = r.got ++
        s.feed.history.drop (max r.next (s.feed.history.length - liveChannelCapacity)) := by
  have hs := run_sound hc h
  have hfollows := hs.feed.follows id r hr
  obtain ⟨n, hn, hnext, hgot⟩ := hfollows.catch_up hc liveChannelCapacity_isPowerOfTwo
  obtain ⟨u, hrun, hserver, -, hget⟩ := run_polls cfg hr n
  rw [← hs.feed.holds] at hnext hgot
  exact ⟨hs.writes, hfollows.got, hfollows.missed,
    fun hprompt => hfollows.got_eq (run_missed hc hprompt r hr), n, hn, u, hrun, hserver, _, hget,
    hnext, hgot⟩

end Step

/-- A stream that subscribes before a score is written and reads it. -/
def streamedRun : List (Act ℚ) :=
  .subscribe 0 :: Server.scoredRun.map (fun a => .server a true) ++ [.poll 0]

/-- It is polled in time and got all of it. -/
theorem stream_follows_writes_scored :
    ∃ s ∈ execute (step (.default : ServerConfig ℚ)) (Prompt 0) (start Broadcast.listed .empty)
        streamedRun,
      ∃ r ∈ s.feed.readers.get? 0, s.feed.history.filter LiveEvent.isDerived =
          s.server.written.map (fun w => LiveEvent.ofRow w.row) ∧
        r.got = r.passed s.feed.history ∧ r.got.length = 1 ∧
        ∃ n ≤ s.feed.history.length - r.next + 1, ∃ u,
          FreeRun (step (.default : ServerConfig ℚ)) s (List.replicate n (.poll 0)) u ∧
          u.server = s.server ∧ ∃ r' ∈ u.feed.readers.get? 0,
            r'.next = s.feed.history.length ∧ r'.got = r.got ++
              s.feed.history.drop (max r.next (s.feed.history.length - liveChannelCapacity)) := by
  have hend : ∃ s ∈ execute (step (.default : ServerConfig ℚ)) (Prompt 0)
      (start Broadcast.listed .empty) streamedRun,
      ∃ r ∈ s.feed.readers.get? 0, r.got.length = 1 := by
    decide +kernel
  obtain ⟨s, hs, r, hr, hgot⟩ := hend
  have hprompt := run_of_execute hs
  obtain ⟨hwrites, -, -, hall, hreads⟩ :=
    stream_follows_writes .default Broadcast.listed_documented hprompt.free hr
  exact ⟨s, hs, r, hr, hwrites, hall hprompt, hgot, hreads⟩

end Live
end Aegis

import Aegis.BusDeadlock
import Aegis.ForwarderConservation

/-!
# The agent's shutdown

The bus of an agent with the transport plugin on it, and the forwarder actor
that the plugin spawned. The plugin's `handle` offers each event to the ring.
`RunningHost::shutdown` joins the dispatcher and the handlers and then calls the
plugin's `shutdown`, which signals the actor and returns: nothing waits for the
actor to write the ring to disk.
-/

namespace Aegis

/-- A host with the transport plugin, which takes every event. -/
structure AgentHost (ε π : Type) extends Host ε π where
  transport : π
  transport_mem : transport ∈ plugins
  transport_all : subscriptions transport = .all

/-- `drained` records whether the ring was emptied since the last offer; no part of the agent
keeps it. -/
structure Agent {ε π : Type} (A : AgentHost ε π) (ρ ι : Type) where
  bus : Bus A.toHost
  forwarder : Forwarder ε ρ ι
  signalled : Bool
  drained : Bool

inductive AgentAct (ε π ι : Type) where
  | bus (a : BusAction ε π)
  | actor (a : Forwarder.Act ε ι)
  | signal

namespace Forwarder
variable {ε ρ ι : Type} (c : Codec ε ρ ι) (cfg : TransportConfig)

/-- The steps the actor takes by itself; it stops once it is signalled. -/
def Act.enabled (signalled : Bool) : Act ε ι → Bool
  | .offer _ => false
  | .stop => signalled
  | _ => true

/-- A flush with a free slot and room in its batch for everything in the ring. -/
def TakesAll (s : Forwarder ε ρ ι) : Prop :=
  s.pending.length < cfg.maxInFlight ∧
    ((TryFlush.collect c cfg s.spill).events.length < cfg.batchMaxEvents ∧
      (TryFlush.collect c cfg s.spill).estBytes < cfg.batchMaxBytes) ∧
    s.ring.inner.length ≤ cfg.batchMaxEvents - (TryFlush.collect c cfg s.spill).events.length

instance (s : Forwarder ε ρ ι) : Decidable (TakesAll c cfg s) :=
  inferInstanceAs (Decidable (_ ∧ _ ∧ _))

/-- The steps that take all of the ring: the ends of the actor and a flush with room for it. -/
def drains (s : Forwarder ε ρ ι) : Act ε ι → Bool
  | .refused => true
  | .stop => true
  | .flush _ _ _ => decide (TakesAll c cfg s)
  | _ => false

variable {c cfg}

theorem topUp_ring_nil {b : TryFlush.Collected ε} {ring : Ring ε} :
    (TryFlush.topUp c cfg b ring).ring.inner = [] ↔ ring.inner = [] ∨
      ((b.events.length < cfg.batchMaxEvents ∧ b.estBytes < cfg.batchMaxBytes) ∧
        ring.inner.length ≤ cfg.batchMaxEvents - b.events.length) := by
  have hdrop : (ring.drain (cfg.batchMaxEvents - b.events.length)).2.inner = [] ↔
      ring.inner.length ≤ cfg.batchMaxEvents - b.events.length := by
    simp only [Ring.drain, List.drop_eq_nil_iff]
  unfold TryFlush.topUp
  by_cases hroom : b.events.length < cfg.batchMaxEvents ∧ b.estBytes < cfg.batchMaxBytes
  · have hring : ring.inner = [] → ring.inner.length ≤ cfg.batchMaxEvents - b.events.length := by
      intro hnil
      rw [hnil, List.length_nil]
      exact Nat.zero_le _
    rw [if_pos hroom]
    simp only [hroom, and_self, true_and]
    split
    · rw [hdrop]
      exact ⟨Or.inr, fun h => h.elim hring id⟩
    · simp only [hdrop]
      exact ⟨Or.inr, fun h => h.elim hring id⟩
  · rw [if_neg hroom]
    simp only [hroom, false_and, or_false]

theorem flush_ring (s : Forwarder ε ρ ι) [DecidableEq ι] (batchId : ι) (delivered sent : Bool) :
    (flush c cfg s batchId delivered sent).ring =
      if cfg.maxInFlight ≤ s.pending.length then s.ring
      else (TryFlush.topUp c cfg (TryFlush.collect c cfg s.spill) s.ring).ring := by
  have hgather : (TryFlush.gather c cfg s.ring s.spill).ring =
      (TryFlush.topUp c cfg (TryFlush.collect c cfg s.spill) s.ring).ring := rfl
  rcases TryFlush.tryFlush_cases c cfg batchId s.pending.length s.ring s.spill with
    ⟨hfull, hr⟩ | ⟨hfree, hr⟩
  · rw [if_pos hfull]
    simp only [flush, hr]
  · rw [if_neg (by omega), ← hgather]
    rcases hr with ⟨-, hr⟩ | ⟨-, doc, -, ⟨-, hr⟩ | ⟨-, hr⟩⟩
    · simp only [flush, hr]
    · simp only [flush, hr]
    · simp only [flush, hr]
      split_ifs <;> rfl

theorem persistRing_ring_nil (s : Forwarder ε ρ ι) : (persistRing c s).ring.inner = [] := by
  simp only [persistRing, Ring.drain, List.drop_length]

theorem step_ring_nil [DecidableEq ι] {s u : Forwarder ε ρ ι} {a : Act ε ι} {signalled : Bool}
    (ha : a.enabled signalled) (h : step c cfg s a = some u) :
    u.ring.inner = [] ↔ s.ring.inner = [] ∨ drains c cfg s a := by
  have hsame : u.ring = s.ring → drains c cfg s a = false →
      (u.ring.inner = [] ↔ s.ring.inner = [] ∨ drains c cfg s a) := by
    intro hring hdrains
    rw [hring, hdrains]
    simp only [Bool.false_eq_true, or_false]
  have hpersist : u.ring.inner = [] → drains c cfg s a = true →
      (u.ring.inner = [] ↔ s.ring.inner = [] ∨ drains c cfg s a) :=
    fun hring hdrains => ⟨fun _ => Or.inr hdrains, fun _ => hring⟩
  cases a with
  | offer e => cases ha
  | connect =>
      simp only [step, Option.ite_none_right_eq_some, Option.some.injEq] at h
      exact hsame (h.2 ▸ rfl) rfl
  | refused =>
      simp only [step, Option.ite_none_right_eq_some, Option.some.injEq] at h
      exact hpersist (h.2 ▸ persistRing_ring_nil s) rfl
  | flush batchId delivered sent =>
      simp only [step, Option.ite_none_right_eq_some, Option.some.injEq] at h
      have htakes : drains c cfg s (.flush batchId delivered sent) = true ↔ TakesAll c cfg s :=
        decide_eq_true_iff
      rw [← h.2, flush_ring, htakes, TakesAll]
      by_cases hfull : cfg.maxInFlight ≤ s.pending.length
      · rw [if_pos hfull]
        have hnot : ¬ s.pending.length < cfg.maxInFlight := by omega
        simp only [hnot, false_and, or_false]
      · rw [if_neg hfull, topUp_ring_nil]
        have hfree : s.pending.length < cfg.maxInFlight := by omega
        simp only [hfree, true_and]
  | ack batchId accepted =>
      rcases step_ack h with rfl | ⟨p, -, -, rfl⟩
      · exact hsame rfl rfl
      · exact hsame rfl rfl
  | fail =>
      simp only [step, Option.ite_none_right_eq_some, Option.some.injEq] at h
      exact hsame (h.2 ▸ rfl) rfl
  | stop =>
      simp only [step] at h
      split_ifs at h
      · cases h
        exact hpersist (persistRing_ring_nil _) rfl
      · cases h
        exact hpersist (persistRing_ring_nil _) rfl

end Forwarder

namespace Agent
variable {ε π ρ ι : Type} {A : AgentHost ε π} [DecidableEq π] [DecidableEq ι]
  (c : Codec ε ρ ι) (cfg : TransportConfig)

/-- A started agent with an existing spill file. -/
def start (A : AgentHost ε π) (table : OrderedTable ℕ ρ) : Agent A ρ ι where
  bus := Bus.start A.toHost
  forwarder := Forwarder.start c cfg table
  signalled := false
  drained := true

/-- The event a step of the bus hands to the transport plugin. -/
def handed (s : Agent A ρ ι) : BusAction ε π → Option ε
  | .handle p => if p = A.transport then (s.bus.queue p).recv.map Prod.fst else none
  | _ => none

/-- `shutdown` returns after the plugins' own `shutdown`, which comes after the handlers have been
joined. -/
def step (s : Agent A ρ ι) : AgentAct ε π ι → Option (Agent A ρ ι)
  | .bus .returns =>
      if s.signalled then (s.bus.step .returns).map fun bus => { s with bus := bus } else none
  | .bus a =>
      (s.bus.step a).bind fun bus =>
        match s.handed a with
        | none => some { s with bus := bus }
        | some e =>
            (Forwarder.step c cfg s.forwarder (.offer e)).map fun forwarder =>
              { s with bus := bus, forwarder := forwarder, drained := false }
  | .actor a =>
      if a.enabled s.signalled then
        (Forwarder.step c cfg s.forwarder a).map fun forwarder =>
          { s with
            forwarder := forwarder
            drained := s.drained || Forwarder.drains c cfg s.forwarder a }
      else none
  | .signal =>
      if s.signalled = false ∧ (s.bus.step .returns).isSome then some { s with signalled := true }
      else none

/-- Every event handed to the ring encodes, so that writes to the spill succeed, frames fit, and no
flush takes ring events over rows it leaves in the spill. -/
def Clean (s : Agent A ρ ι) : AgentAct ε π ι → Prop
  | .bus a => ∀ e ∈ s.handed a, (c.encode e).isSome
  | .actor a => Forwarder.Serializes c cfg s.forwarder a ∧ Forwarder.NoSkip c cfg s.forwarder a
  | .signal => True

/-- Every event that was in the spill at the start or was offered to the ring since is in the
spill, in an acknowledged batch, or counted as dropped, and none is in the ring. -/
def Kept (old : List ι) (s : Agent A ρ ι) : Prop :=
  s.forwarder.ring.inner = [] ∧
  ∃ cleared ringLost spillLost : List ι,
    s.forwarder.ring.dropped = ringLost.length ∧ s.forwarder.spill.dropped = spillLost.length ∧
    (∀ u ∈ cleared, ∃ b ∈ s.forwarder.acked, u ∈ b.2.map c.uid) ∧
    ∀ u, old.count u + (Forwarder.offeredUids c s.forwarder).count u =
      (Forwarder.spillUids c s.forwarder).count u + cleared.count u +
        (ringLost.count u + spillLost.count u)

/-- What a step of the agent does to the forwarder. -/
inductive Does (s : Agent A ρ ι) : AgentAct ε π ι → Agent A ρ ι → Prop
  | bus {a : BusAction ε π} {bus : Bus A.toHost} (hbus : s.bus.step a = some bus)
      (hhanded : s.handed a = none) (hreturns : a = .returns → s.signalled) :
      Does s (.bus a) { s with bus := bus }
  | offer {a : BusAction ε π} {bus : Bus A.toHost} {e : ε} {forwarder : Forwarder ε ρ ι}
      (hbus : s.bus.step a = some bus) (hhanded : s.handed a = some e)
      (hoffer : Forwarder.step c cfg s.forwarder (.offer e) = some forwarder) :
      Does s (.bus a) { s with bus := bus, forwarder := forwarder, drained := false }
  | actor {a : Forwarder.Act ε ι} {forwarder : Forwarder ε ρ ι} (ha : a.enabled s.signalled)
      (hstep : Forwarder.step c cfg s.forwarder a = some forwarder) :
      Does s (.actor a) { s with
        forwarder := forwarder
        drained := s.drained || Forwarder.drains c cfg s.forwarder a }
  | signal (hready : (s.bus.step .returns).isSome) : Does s .signal { s with signalled := true }

variable {c cfg}

theorem step_does {s u : Agent A ρ ι} {a : AgentAct ε π ι} (h : step c cfg s a = some u) :
    Does c cfg s a u := by
  cases a with
  | bus a =>
      by_cases hreturns : a = .returns
      · subst hreturns
        simp only [step, Option.ite_none_right_eq_some, Option.map_eq_some_iff] at h
        obtain ⟨hsignalled, bus, hbus, rfl⟩ := h
        exact .bus hbus rfl fun _ => hsignalled
      · have hstep : (s.bus.step a).bind (fun bus =>
            match s.handed a with
            | none => some { s with bus := bus }
            | some e =>
                (Forwarder.step c cfg s.forwarder (.offer e)).map fun forwarder =>
                  { s with bus := bus, forwarder := forwarder, drained := false }) = some u := by
          rw [← h]
          cases a <;> first | rfl | exact absurd rfl hreturns
        obtain ⟨bus, hbus, hstep⟩ := Option.bind_eq_some_iff.mp hstep
        cases hhanded : s.handed a with
        | none =>
            simp only [hhanded, Option.some.injEq] at hstep
            subst hstep
            exact .bus hbus hhanded fun heq => absurd heq hreturns
        | some e =>
            simp only [hhanded, Option.map_eq_some_iff] at hstep
            obtain ⟨forwarder, hoffer, rfl⟩ := hstep
            exact .offer hbus hhanded hoffer
  | actor a =>
      simp only [step, Option.ite_none_right_eq_some, Option.map_eq_some_iff] at h
      obtain ⟨ha, forwarder, hstep, rfl⟩ := h
      exact .actor ha hstep
  | signal =>
      simp only [step, Option.ite_none_right_eq_some, Option.some.injEq] at h
      obtain ⟨⟨-, hready⟩, rfl⟩ := h
      exact .signal hready

theorem offer_ring_ne_nil (r : Ring ε) (e : ε) : (r.offer e).inner ≠ [] := by
  unfold Ring.offer
  split_ifs <;> simp

theorem Does.drained_iff {s u : Agent A ρ ι} {a : AgentAct ε π ι}
    (does : Does c cfg s a u)
    (h : s.drained = true ↔ s.forwarder.ring.inner = []) :
    u.drained = true ↔ u.forwarder.ring.inner = [] := by
  cases does with
  | bus => exact h
  | offer hbus hhanded hoffer =>
      cases hoffer
      simp only [Bool.false_eq_true, offer_ring_ne_nil]
  | actor ha hstep =>
      rw [Forwarder.step_ring_nil ha hstep, ← h]
      simp only [Bool.or_eq_true]
  | signal => exact h

variable (c cfg) in
/-- The forwarder of an agent has made a run of its own. -/
def Forwards (table : OrderedTable ℕ ρ) (s : Agent A ρ ι) : Prop :=
  ∃ l, GuardedRun (Forwarder.step c cfg)
    (fun s a => Forwarder.Serializes c cfg s a ∧ Forwarder.NoSkip c cfg s a)
    (Forwarder.start c cfg table) l s.forwarder

theorem Does.forwards {table : OrderedTable ℕ ρ} {s u : Agent A ρ ι} {a : AgentAct ε π ι}
    (does : Does c cfg s a u) (hclean : Clean c cfg s a)
    (h : Forwards c cfg table s) : Forwards c cfg table u := by
  obtain ⟨l, hrun⟩ := h
  cases does with
  | bus => exact ⟨l, hrun⟩
  | @offer a bus e forwarder hbus hhanded hoffer =>
      have hguard : Forwarder.Serializes c cfg s.forwarder (.offer e) ∧
          Forwarder.NoSkip c cfg s.forwarder (.offer e) := ⟨hclean e hhanded, trivial⟩
      exact ⟨_, hrun.snoc hguard hoffer⟩
  | actor ha hstep => exact ⟨_, hrun.snoc hclean hstep⟩
  | signal => exact ⟨l, hrun⟩

theorem run_forwards (table : OrderedTable ℕ ρ) {l : List (AgentAct ε π ι)} {s : Agent A ρ ι}
    (hrun : GuardedRun (step c cfg) (Clean c cfg) (start c cfg A table) l s) :
    Forwards c cfg table s ∧ (s.drained = true ↔ s.forwarder.ring.inner = []) := by
  refine hrun.invariant
    (fun s => Forwards c cfg table s ∧ (s.drained = true ↔ s.forwarder.ring.inner = [])) ?_ ?_
  · intro s a u h hclean hstep
    have does := step_does hstep
    exact ⟨does.forwards hclean h.1, does.drained_iff h.2⟩
  · exact ⟨⟨[], .nil _⟩, fun _ => rfl, fun _ => rfl⟩

theorem stopped_step {H : Host ε π} {s u : Bus H} {a : BusAction ε π} {p : π} (h : s.Parked)
    (hp : s.task p = .stopped) (happens : Bus.Happens s a u) : u.task p = .stopped := by
  have hset : ∀ (q : π) (t : PluginTask), s.task q ≠ .stopped →
      Function.update s.task q t p = .stopped := by
    intro q t hq
    have hne : p ≠ q := by
      intro heq
      rw [heq] at hp
      exact hq hp
    rw [Function.update_of_ne hne, hp]
  cases happens with
  | @emitWaits who e ready =>
      cases who with
      | none => exact hp
      | some q => exact hset q .sending (by rw [ready.2]; nofun)
  | @receiveGrant turn e x who ingress ingress' hd hrecv hturn =>
      cases who with
      | none => exact hp
      | some q => exact hset q .handling (by rw [h.task_of_turn hturn]; nofun)
  | @bounce turn who e hd hturn =>
      cases who with
      | none => exact hp
      | some q => exact hset q .handling (by rw [h.task_of_turn hturn]; nofun)
  | handle hq htask => exact hset _ .handling (by rw [htask]; nofun)
  | finish hq htask => exact hset _ .idle (by rw [htask]; nofun)
  | crash hq htask => exact hset _ .stopped (by rw [htask]; nofun)
  | stopTask hq htask => exact hset _ .stopped (by rw [htask]; nofun)
  | _ => exact hp

/-- The actor is signalled after the transport's handler has ended. -/
def Joined (s : Agent A ρ ι) : Prop :=
  s.bus.Parked ∧ (s.signalled = true → s.bus.task A.transport = .stopped)

theorem Does.joined {s u : Agent A ρ ι} {a : AgentAct ε π ι}
    (does : Does c cfg s a u) (h : Joined s) : Joined u := by
  have hbus : ∀ {a : BusAction ε π} {bus : Bus A.toHost}, s.bus.step a = some bus →
      bus.Parked ∧ (s.signalled = true → bus.task A.transport = .stopped) := by
    intro a bus hstep
    have happens := Bus.step_happens hstep
    exact ⟨h.1.step happens, fun hsignalled => stopped_step h.1 (h.2 hsignalled) happens⟩
  cases does with
  | bus hstep => exact hbus hstep
  | offer hstep => exact hbus hstep
  | actor => exact h
  | signal hready =>
      refine ⟨h.1, fun _ => ?_⟩
      obtain ⟨bus, hreturns⟩ := Option.isSome_iff_exists.mp hready
      cases Bus.step_happens hreturns with
      | returns hd hphase htasks => exact htasks _ A.transport_mem

/-- Nothing is handed to the transport once its handler has ended. -/
theorem Does.still_drained {s u : Agent A ρ ι} {a : AgentAct ε π ι}
    (does : Does c cfg s a u) (hended : s.bus.task A.transport = .stopped)
    (h : s.drained = true) : u.drained = true := by
  cases does with
  | bus => exact h
  | @offer a bus e forwarder hbus hhanded hoffer =>
      cases a with
      | handle p =>
          simp only [handed, Option.ite_none_right_eq_some] at hhanded
          have happens := Bus.step_happens hbus
          cases happens with
          | handle hp htask hrecv =>
              rw [hhanded.1, hended] at htask
              cases htask
      | _ => cases hhanded
  | actor => simp only [h, Bool.true_or]
  | signal => exact h

/-- The actor's stop comes after the last offer. -/
theorem drained_of_stop (table : OrderedTable ℕ ρ) {l : List (AgentAct ε π ι)} {s : Agent A ρ ι}
    (hrun : GuardedRun (step c cfg) (Clean c cfg) (start c cfg A table) l s)
    (hstop : .actor .stop ∈ l) : s.drained = true := by
  obtain ⟨s₁, u, l₁, l₂, -, hbefore, -, hstep, hafter⟩ := hrun.through hstop
  have hjoined : Joined s₁ := by
    refine hbefore.invariant Joined (fun _ _ _ h _ hstep => (step_does hstep).joined h) ?_
    exact ⟨fun _ => rfl, nofun⟩
  have hu : Joined u ∧ u.signalled = true ∧ u.drained = true := by
    have does := step_does hstep
    refine ⟨does.joined hjoined, ?_⟩
    cases does with
    | actor ha => exact ⟨ha, Bool.or_true _⟩
  refine (hafter.invariant
    (fun s => Joined s ∧ s.signalled = true ∧ s.drained = true) ?_ hu).2.2
  rintro s a v ⟨hjoined, hsignalled, hdrained⟩ - hstep
  have does := step_does hstep
  refine ⟨does.joined hjoined, ?_, does.still_drained (hjoined.2 hsignalled) hdrained⟩
  cases does with
  | bus => exact hsignalled
  | offer => exact hsignalled
  | actor => exact hsignalled
  | signal => rfl

/-- When `shutdown` returns, nothing that the ring accepted is lost exactly if the ring was emptied
after the last event was offered to it. The actor's stop does that, wherever it comes in the run. -/
theorem shutdown_keeps_iff_drained (table : OrderedTable ℕ ρ) {l : List (AgentAct ε π ι)}
    {s : Agent A ρ ι}
    (hrun : GuardedRun (step c cfg) (Clean c cfg) (start c cfg A table) l s) :
    s.bus.phase = .down →
      (Kept c (Spill.rowUids c table.rows) s ↔ s.drained = true) ∧
      (.actor .stop ∈ l → Kept c (Spill.rowUids c table.rows) s) := by
  obtain ⟨⟨l', hforward⟩, hdrained⟩ := run_forwards table hrun
  have hkept : s.drained = true → Kept c (Spill.rowUids c table.rows) s := by
    intro h
    have hring := hdrained.mp h
    obtain ⟨-, cleared, ringLost, spillLost, hringLost, hspillLost, hcleared, hcount⟩ :=
      Forwarder.run_conserved table hforward
    refine ⟨hring, cleared, ringLost, spillLost, hringLost, hspillLost, hcleared, fun u => ?_⟩
    have hu := hcount u
    simp only [Forwarder.ringUids, hring, List.map_nil, List.count_nil, Nat.zero_add] at hu
    exact hu
  intro _
  exact ⟨⟨fun h => hdrained.mpr h.1, hkept⟩, fun hstop => hkept (drained_of_stop table hrun hstop)⟩

end Agent
/-- An agent with the transport plugin alone. -/
def plainAgent : AgentHost (Event ℚ) Unit where
  kind := Event.kind
  depth := 4
  depth_pos := by decide
  plugins := [()]
  nodup := by decide
  subscriptions := fun _ => .all
  transport := ()
  transport_mem := List.mem_singleton.mpr rfl
  transport_all := rfl

/-- A heartbeat goes to the ring and the host is shut down. -/
def heartbeatAndShutdown : List (AgentAct (Event ℚ) Unit Uuid) :=
  [.bus (.emit none (heartbeat 1)), .bus (.receive 0), .bus .next, .bus .next,
    .bus (.handle ()), .bus (.finish ()), .bus .shutdown, .bus .stopDispatcher,
    .bus (.stopTask ()), .signal]

instance (s : Agent plainAgent (Json ℚ) Uuid) (a : AgentAct (Event ℚ) Unit Uuid) :
    Decidable (Agent.Clean (eventCodec ℚ) Forwarder.smallBatches s a) := by
  cases a <;> unfold Agent.Clean <;> infer_instance

namespace Agent

/-- The actor is still connecting when `shutdown` returns, and the heartbeat is in the ring. -/
theorem heartbeat_lost_at_shutdown :
    ¬ ∀ (l : List (AgentAct (Event ℚ) Unit Uuid)) (s : Agent plainAgent (Json ℚ) Uuid),
      GuardedRun (step (eventCodec ℚ) Forwarder.smallBatches)
        (Clean (eventCodec ℚ) Forwarder.smallBatches)
        (start (eventCodec ℚ) Forwarder.smallBatches plainAgent .empty) l s →
      s.bus.phase = .down → Kept (eventCodec ℚ) [] s := by
  intro h
  obtain ⟨s, hexec, hlog⟩ := Option.map_eq_some_iff.mp (show
    (execute (step (eventCodec ℚ) Forwarder.smallBatches)
      (Clean (eventCodec ℚ) Forwarder.smallBatches)
      (start (eventCodec ℚ) Forwarder.smallBatches plainAgent .empty)
      (heartbeatAndShutdown ++ [.bus .returns])).map (fun s =>
        (s.bus.phase, s.forwarder.ring.inner.length)) = some (.down, 1) by decide +kernel)
  simp only [Prod.mk.injEq] at hlog
  have hkept := (h _ s (run_of_execute hexec) hlog.1).1
  rw [hkept, List.length_nil] at hlog
  cases hlog.2

theorem heartbeat_kept_by_stop :
    ∃ s : Agent plainAgent (Json ℚ) Uuid, s.bus.phase = .down ∧
      s.forwarder.phase = .stopped ∧ Kept (eventCodec ℚ) [] s := by
  obtain ⟨s, hexec, hlog⟩ := Option.map_eq_some_iff.mp (show
    (execute (step (eventCodec ℚ) Forwarder.smallBatches)
      (Clean (eventCodec ℚ) Forwarder.smallBatches)
      (start (eventCodec ℚ) Forwarder.smallBatches plainAgent .empty)
      (heartbeatAndShutdown ++ [.actor .stop, .bus .returns])).map (fun s =>
        (s.bus.phase, s.forwarder.phase)) = some (.down, .stopped) by decide +kernel)
  simp only [Prod.mk.injEq] at hlog
  exact ⟨s, hlog.1, hlog.2,
    (shutdown_keeps_iff_drained .empty (run_of_execute hexec) hlog.1).2
      (List.mem_append_right _ List.mem_cons_self)⟩

end Agent
end Aegis

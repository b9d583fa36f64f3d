import Aegis.Channel
import Aegis.GuardedRun
import Mathlib.Logic.Function.Basic
import Mathlib.Data.List.Infix

/-!
# The event bus

`aegis-core`: the ingress channel, the dispatcher, and the bounded queue and
handler task of every plugin, with `RunningHost::shutdown`. Tasks take turns in
any order; each action below is what one of them does between two awaits. A send
that has to wait stands in `senders` until the dispatcher takes an event and so
frees a slot for it, or is gone. What a plugin does in `handle` is left open: it
may emit any events before it returns, or panic.
-/

namespace Aegis

/-- Security-critical kinds, which wait for a slot instead of being dropped. -/
def isCriticalKind (kind : String) : Bool :=
  kind == "alert" || kind == "detection" || kind == "score"

inductive Subscriptions where
  | all
  | none
  | kinds (set : List String)

def Subscriptions.matchesKind : Subscriptions → String → Bool
  | .all, _ => true
  | .none, _ => false
  | .kinds set, kind => set.contains kind

/-- The plugins of a host in the order of their routes, with the depth of its queues. -/
structure Host (ε π : Type) where
  kind : ε → String
  depth : ℕ
  depth_pos : 0 < depth
  plugins : List π
  nodup : plugins.Nodup
  subscriptions : π → Subscriptions

namespace Host
variable {ε π : Type} (H : Host ε π)

def critical (e : ε) : Bool := isCriticalKind (H.kind e)

def wants (p : π) (e : ε) : Bool := (H.subscriptions p).matchesKind (H.kind e)

end Host

structure BusMetrics where
  ingressDroppedFull : ℕ
  ingressDroppedClosed : ℕ
  fanoutDroppedFull : ℕ

/-- Total events dropped at ingress. -/
def BusMetrics.ingressDropped (m : BusMetrics) : ℕ := m.ingressDroppedFull + m.ingressDroppedClosed

/-- Where the handler task of a plugin stands. -/
inductive PluginTask where
  | idle
  | handling
  | sending
  | stopped
  deriving DecidableEq

/-- How many sends of its handler wait. -/
def PluginTask.sends : PluginTask → ℕ
  | .sending => 1
  | _ => 0

section Tasks
variable {ε π : Type} (H : Host ε π)

/-- Where the dispatcher stands: between two events, with an event and the routes it has not
come to, or waiting for a slot in the queue of a plugin that wants the event. -/
inductive Dispatcher where
  | receiving
  | fanning (e : ε) (left : List π) (suffix : left <:+ H.plugins)
  | awaiting (e : ε) (p : π) (left : List π) (suffix : p :: left <:+ H.plugins)
      (wanted : H.wants p e)
  | stopped

/-- How far a call of `shutdown` has come. -/
inductive HostPhase where
  | running
  | stopping
  | down
  deriving DecidableEq

end Tasks

/-- What has happened to events. No part of the host keeps this. -/
structure BusLog (ε π : Type) where
  /-- The events `emit` was called with. -/
  given : List ε
  /-- The events that entered the ingress channel. -/
  accepted : List ε
  /-- The events a drop counter of the ingress was raised for. -/
  countedIngress : List ε
  /-- The events `handle` was called with. -/
  delivered : π → List ε
  /-- The events the drop counter of the fan-out was raised for. -/
  countedFanout : π → List ε
  /-- The events that went with a channel, or were sent to one that was gone. -/
  vanished : π → List ε

structure Bus {ε π : Type} (H : Host ε π) where
  ingress : Channel ε H.depth
  /-- The sends that wait for a slot of the ingress; those of a handler name its plugin. -/
  senders : List (Option π × ε)
  dispatcher : Dispatcher H
  queue : π → Channel ε H.depth
  task : π → PluginTask
  phase : HostPhase
  metrics : BusMetrics
  log : BusLog ε π

/-- An `emit` comes from the handler of the plugin it names, or from outside. -/
inductive BusAction (ε π : Type) where
  | emit (who : Option π) (e : ε)
  | receive (turn : ℕ)
  | next
  | slot
  | bounce (turn : ℕ)
  | handle (p : π)
  | finish (p : π)
  | crash (p : π)
  | shutdown
  | stopDispatcher
  | stopTask (p : π)
  | returns

theorem count_map_eraseIdx {β γ : Type} [BEq γ] (f : β → γ) {l : List β} {i : ℕ} {b : β}
    (h : l[i]? = some b) (c : γ) :
    (l.map f).count c = ((l.eraseIdx i).map f).count c + if f b == c then 1 else 0 := by
  induction l generalizing i with
  | nil => cases h
  | cons x l ih =>
      cases i with
      | zero =>
          cases h
          simp only [List.map_cons, List.count_cons, List.eraseIdx_zero, List.tail_cons]
      | succ i =>
          simp only [List.map_cons, List.count_cons, List.eraseIdx_cons_succ, ih h]
          omega

/-- The event the dispatcher has in hand, for a plugin whose route it has not dealt with. -/
def Dispatcher.held {ε π : Type} {H : Host ε π} [DecidableEq π] : Dispatcher H → π → List ε
  | .fanning e left _, p => if p ∈ left then [e] else []
  | .awaiting e q left _ _, p => if p ∈ q :: left then [e] else []
  | _, _ => []

namespace Bus
variable {ε π : Type} {H : Host ε π}

/-- A host that has just been started. -/
def start (H : Host ε π) : Bus H where
  ingress := .empty
  senders := []
  dispatcher := .receiving
  queue := fun _ => .empty
  task := fun _ => .idle
  phase := .running
  metrics := ⟨0, 0, 0⟩
  log := ⟨[], [], [], fun _ => [], fun _ => [], fun _ => []⟩

def give (s : Bus H) (e : ε) : Bus H := { s with log.given := s.log.given ++ [e] }

def recordIngressFull (s : Bus H) (e : ε) : Bus H :=
  { s with
    metrics.ingressDroppedFull := s.metrics.ingressDroppedFull + 1
    log.countedIngress := s.log.countedIngress ++ [e] }

def recordIngressClosed (s : Bus H) (e : ε) : Bus H :=
  { s with
    metrics.ingressDroppedClosed := s.metrics.ingressDroppedClosed + 1
    log.countedIngress := s.log.countedIngress ++ [e] }

def accept (s : Bus H) (ingress : Channel ε H.depth) (e : ε) : Bus H :=
  { s with
    ingress := ingress
    log.accepted := s.log.accepted ++ [e] }

section Plugins
variable [DecidableEq π]

def setTask (s : Bus H) (p : π) (t : PluginTask) : Bus H :=
  { s with task := Function.update s.task p t }

/-- The handler whose send has come to its end goes on. -/
def resume (s : Bus H) : Option π → Bus H
  | none => s
  | some p => s.setTask p .handling

def recordFanoutFull (s : Bus H) (p : π) (e : ε) : Bus H :=
  { s with
    metrics.fanoutDroppedFull := s.metrics.fanoutDroppedFull + 1
    log.countedFanout := Function.update s.log.countedFanout p (s.log.countedFanout p ++ [e]) }

def vanish (s : Bus H) (p : π) (events : List ε) : Bus H :=
  { s with log.vanished := Function.update s.log.vanished p (s.log.vanished p ++ events) }

def enqueue (s : Bus H) (p : π) (queue : Channel ε H.depth) : Bus H :=
  { s with queue := Function.update s.queue p queue }

/-- The end of a plugin's task, which closes its queue. -/
def endTask (s : Bus H) (p : π) : Bus H :=
  ((s.vanish p (s.queue p).items).enqueue p .empty).setTask p .stopped

/-- The send of a critical event for which the ingress has no slot. -/
def await (s : Bus H) (who : Option π) (e : ε) : Bus H :=
  match who with
  | none => { s with senders := s.senders ++ [(none, e)] }
  | some p => { s.setTask p .sending with senders := s.senders ++ [(some p, e)] }

/-- `BusEmitter::emit`, called from outside or by the handler of a plugin. -/
def offer (s : Bus H) (who : Option π) (e : ε) : Bus H :=
  match s.dispatcher, s.ingress.trySend e with
  | .stopped, _ => (s.give e).recordIngressClosed e
  | _, some ingress => (s.give e).accept ingress e
  | _, none =>
      if H.critical e then (s.give e).await who e else (s.give e).recordIngressFull e

/-- The slot that the dispatcher frees goes to a sender that waits for one. -/
def grant (s : Bus H) (turn : ℕ) : Option (Bus H) :=
  if s.senders = [] then some s else
    match s.senders[turn]? with
    | none => none
    | some (who, e) =>
        (s.ingress.trySend e).map fun ingress =>
          { (s.accept ingress e).resume who with senders := s.senders.eraseIdx turn }

/-- The dispatcher at its next route. -/
def fan (s : Bus H) (e : ε) (p : π) (left : List π) (h : p :: left <:+ H.plugins) : Bus H :=
  let past : Dispatcher H := .fanning e left ((List.suffix_cons p left).trans h)
  if hw : H.wants p e then
    match s.task p, (s.queue p).trySend e with
    | .stopped, _ => { s.vanish p [e] with dispatcher := past }
    | _, some queue => { s.enqueue p queue with dispatcher := past }
    | _, none =>
        if H.critical e then { s with dispatcher := .awaiting e p left h hw }
        else { s.recordFanoutFull p e with dispatcher := past }
  else { s with dispatcher := past }

/-- An event can be emitted from outside at any time, and by a handler while it runs. -/
def mayEmit (s : Bus H) : Option π → Prop
  | none => True
  | some p => p ∈ H.plugins ∧ s.task p = .handling

instance (s : Bus H) (who : Option π) : Decidable (s.mayEmit who) := by
  cases who <;> unfold mayEmit <;> infer_instance

def step (s : Bus H) : BusAction ε π → Option (Bus H)
  | .emit who e => if s.mayEmit who then some (s.offer who e) else none
  | .receive turn =>
      match s.dispatcher, s.ingress.recv with
      | .receiving, some (e, ingress) =>
          { s with
            ingress := ingress
            dispatcher := .fanning e H.plugins (List.suffix_refl _) }.grant turn
      | _, _ => none
  | .next =>
      match s.dispatcher with
      | .fanning _ [] _ => some { s with dispatcher := .receiving }
      | .fanning e (p :: left) h => some (s.fan e p left h)
      | _ => none
  | .slot =>
      match s.dispatcher with
      | .awaiting e p left h _ =>
          let past : Dispatcher H := .fanning e left ((List.suffix_cons p left).trans h)
          match s.task p, (s.queue p).trySend e with
          | .stopped, _ => some { s.vanish p [e] with dispatcher := past }
          | _, some queue => some { s.enqueue p queue with dispatcher := past }
          | _, none => none
      | _ => none
  | .bounce turn =>
      match s.dispatcher, s.senders[turn]? with
      | .stopped, some (who, e) =>
          some { (s.recordIngressClosed e).resume who with senders := s.senders.eraseIdx turn }
      | _, _ => none
  | .handle p =>
      if p ∈ H.plugins ∧ s.task p = .idle then
        (s.queue p).recv.map fun (e, queue) =>
          { (s.enqueue p queue).setTask p .handling with
            log.delivered := Function.update s.log.delivered p (s.log.delivered p ++ [e]) }
      else none
  | .finish p => if p ∈ H.plugins ∧ s.task p = .handling then some (s.setTask p .idle) else none
  | .crash p => if p ∈ H.plugins ∧ s.task p = .handling then some (s.endTask p) else none
  | .shutdown => if s.phase = .running then some { s with phase := .stopping } else none
  | .stopDispatcher =>
      match s.dispatcher with
      | .receiving =>
          if s.phase = .running then none else
            some { s with
              ingress := .empty
              dispatcher := .stopped
              log.vanished := fun p => s.log.vanished p ++ s.ingress.items.filter (H.wants p) }
      | _ => none
  | .stopTask p =>
      if p ∈ H.plugins ∧ s.task p = .idle ∧ s.phase ≠ .running then some (s.endTask p) else none
  | .returns =>
      match s.dispatcher with
      | .stopped =>
          if s.phase = .stopping ∧ ∀ p ∈ H.plugins, s.task p = .stopped then
            some { s with phase := .down }
          else none
      | _ => none

/-- What each action can do. -/
inductive Happens (s : Bus H) : BusAction ε π → Bus H → Prop
  | emitClosed {who : Option π} {e : ε} (ready : s.mayEmit who)
      (hd : s.dispatcher = .stopped) :
      Happens s (.emit who e) ((s.give e).recordIngressClosed e)
  | emitAccepted {who : Option π} {e : ε} {ingress : Channel ε H.depth} (ready : s.mayEmit who)
      (hd : s.dispatcher ≠ .stopped) (hroom : s.ingress.trySend e = some ingress) :
      Happens s (.emit who e) ((s.give e).accept ingress e)
  | emitWaits {who : Option π} {e : ε} (ready : s.mayEmit who) (hd : s.dispatcher ≠ .stopped)
      (hfull : s.ingress.trySend e = none) (hc : H.critical e) :
      Happens s (.emit who e) ((s.give e).await who e)
  | emitDropped {who : Option π} {e : ε} (ready : s.mayEmit who) (hd : s.dispatcher ≠ .stopped)
      (hfull : s.ingress.trySend e = none) (hc : ¬ H.critical e) :
      Happens s (.emit who e) ((s.give e).recordIngressFull e)
  | receive {turn : ℕ} {e : ε} {ingress : Channel ε H.depth} (hd : s.dispatcher = .receiving)
      (hrecv : s.ingress.recv = some (e, ingress)) (hsenders : s.senders = []) :
      Happens s (.receive turn) { s with
        ingress := ingress
        dispatcher := .fanning e H.plugins (List.suffix_refl _) }
  | receiveGrant {turn : ℕ} {e x : ε} {who : Option π} {ingress ingress' : Channel ε H.depth}
      (hd : s.dispatcher = .receiving) (hrecv : s.ingress.recv = some (e, ingress))
      (hturn : s.senders[turn]? = some (who, x)) (hroom : ingress.trySend x = some ingress') :
      Happens s (.receive turn) { (s.accept ingress' x).resume who with
        dispatcher := .fanning e H.plugins (List.suffix_refl _)
        senders := s.senders.eraseIdx turn }
  | nextDone {e : ε} {h : [] <:+ H.plugins} (hd : s.dispatcher = .fanning e [] h) :
      Happens s .next { s with dispatcher := .receiving }
  | nextUnwanted {e : ε} {p : π} {left : List π} {h : p :: left <:+ H.plugins}
      {hleft : left <:+ H.plugins} (hd : s.dispatcher = .fanning e (p :: left) h)
      (hw : ¬ H.wants p e) : Happens s .next { s with dispatcher := .fanning e left hleft }
  | nextGone {e : ε} {p : π} {left : List π} {h : p :: left <:+ H.plugins}
      {hleft : left <:+ H.plugins} (hd : s.dispatcher = .fanning e (p :: left) h)
      (hw : H.wants p e) (htask : s.task p = .stopped) :
      Happens s .next { s.vanish p [e] with dispatcher := .fanning e left hleft }
  | nextRoom {e : ε} {p : π} {left : List π} {h : p :: left <:+ H.plugins}
      {hleft : left <:+ H.plugins} {queue : Channel ε H.depth}
      (hd : s.dispatcher = .fanning e (p :: left) h) (hw : H.wants p e)
      (htask : s.task p ≠ .stopped) (hroom : (s.queue p).trySend e = some queue) :
      Happens s .next { s.enqueue p queue with dispatcher := .fanning e left hleft }
  | nextAwait {e : ε} {p : π} {left : List π} {h : p :: left <:+ H.plugins}
      (hd : s.dispatcher = .fanning e (p :: left) h) (hw : H.wants p e)
      (htask : s.task p ≠ .stopped) (hfull : (s.queue p).trySend e = none) (hc : H.critical e) :
      Happens s .next { s with dispatcher := .awaiting e p left h hw }
  | nextDropped {e : ε} {p : π} {left : List π} {h : p :: left <:+ H.plugins}
      {hleft : left <:+ H.plugins} (hd : s.dispatcher = .fanning e (p :: left) h)
      (hw : H.wants p e) (htask : s.task p ≠ .stopped) (hfull : (s.queue p).trySend e = none)
      (hc : ¬ H.critical e) :
      Happens s .next { s.recordFanoutFull p e with dispatcher := .fanning e left hleft }
  | slotGone {e : ε} {p : π} {left : List π} {h : p :: left <:+ H.plugins}
      {hleft : left <:+ H.plugins} {hw : H.wants p e}
      (hd : s.dispatcher = .awaiting e p left h hw) (htask : s.task p = .stopped) :
      Happens s .slot { s.vanish p [e] with dispatcher := .fanning e left hleft }
  | slotRoom {e : ε} {p : π} {left : List π} {h : p :: left <:+ H.plugins}
      {hleft : left <:+ H.plugins} {hw : H.wants p e} {queue : Channel ε H.depth}
      (hd : s.dispatcher = .awaiting e p left h hw) (htask : s.task p ≠ .stopped)
      (hroom : (s.queue p).trySend e = some queue) :
      Happens s .slot { s.enqueue p queue with dispatcher := .fanning e left hleft }
  | bounce {turn : ℕ} {who : Option π} {e : ε} (hd : s.dispatcher = .stopped)
      (hturn : s.senders[turn]? = some (who, e)) :
      Happens s (.bounce turn)
        { (s.recordIngressClosed e).resume who with senders := s.senders.eraseIdx turn }
  | handle {p : π} {e : ε} {queue : Channel ε H.depth} (hp : p ∈ H.plugins)
      (htask : s.task p = .idle) (hrecv : (s.queue p).recv = some (e, queue)) :
      Happens s (.handle p) { (s.enqueue p queue).setTask p .handling with
        log.delivered := Function.update s.log.delivered p (s.log.delivered p ++ [e]) }
  | finish {p : π} (hp : p ∈ H.plugins) (htask : s.task p = .handling) :
      Happens s (.finish p) (s.setTask p .idle)
  | crash {p : π} (hp : p ∈ H.plugins) (htask : s.task p = .handling) :
      Happens s (.crash p) (s.endTask p)
  | shutdown (hphase : s.phase = .running) : Happens s .shutdown { s with phase := .stopping }
  | stopDispatcher (hd : s.dispatcher = .receiving) (hphase : s.phase ≠ .running) :
      Happens s .stopDispatcher { s with
        ingress := .empty
        dispatcher := .stopped
        log.vanished := fun p => s.log.vanished p ++ s.ingress.items.filter (H.wants p) }
  | stopTask {p : π} (hp : p ∈ H.plugins) (htask : s.task p = .idle)
      (hphase : s.phase ≠ .running) : Happens s (.stopTask p) (s.endTask p)
  | returns (hd : s.dispatcher = .stopped) (hphase : s.phase = .stopping)
      (htasks : ∀ p ∈ H.plugins, s.task p = .stopped) :
      Happens s .returns { s with phase := .down }

theorem happens_of_offer {s : Bus H} {who : Option π} (ready : s.mayEmit who) (e : ε) :
    Happens s (.emit who e) (s.offer who e) := by
  unfold offer
  split
  · rename_i hd
    exact .emitClosed ready hd
  · rename_i hroom hd
    exact .emitAccepted ready hd hroom
  · rename_i hfull hd
    split_ifs with hc
    · exact .emitWaits ready hd hfull hc
    · exact .emitDropped ready hd hfull hc

theorem happens_of_grant {s u : Bus H} {e : ε} {ingress : Channel ε H.depth} {turn : ℕ}
    (hd : s.dispatcher = .receiving) (hrecv : s.ingress.recv = some (e, ingress))
    (h : grant { s with
      ingress := ingress
      dispatcher := .fanning e H.plugins (List.suffix_refl _) } turn = some u) :
    Happens s (.receive turn) u := by
  unfold grant at h
  split at h
  · rename_i hsenders
    cases h
    exact .receive hd hrecv hsenders
  · split at h
    · cases h
    · rename_i who x hturn
      obtain ⟨ingress', hroom, rfl⟩ := Option.map_eq_some_iff.mp h
      have happens := Happens.receiveGrant hd hrecv hturn hroom
      cases who <;> exact happens

theorem happens_of_fan {s : Bus H} {e : ε} {p : π} {left : List π} {h : p :: left <:+ H.plugins}
    (hd : s.dispatcher = .fanning e (p :: left) h) : Happens s .next (s.fan e p left h) := by
  simp only [fan]
  by_cases hw : H.wants p e = true
  · rw [dif_pos hw]
    split
    · rename_i htask
      exact .nextGone hd hw htask
    · rename_i hroom htask
      exact .nextRoom hd hw htask hroom
    · rename_i hfull htask
      by_cases hc : H.critical e = true
      · rw [if_pos hc]
        exact .nextAwait hd hw htask hfull hc
      · rw [if_neg hc]
        exact .nextDropped hd hw htask hfull hc
  · rw [dif_neg hw]
    exact .nextUnwanted hd hw

/-- Every step is one of the things that can happen. -/
theorem step_happens {s u : Bus H} {a : BusAction ε π} (h : s.step a = some u) :
    Happens s a u := by
  cases a with
  | emit who e =>
      simp only [step, Option.ite_none_right_eq_some, Option.some.injEq] at h
      obtain ⟨ready, rfl⟩ := h
      exact happens_of_offer ready e
  | receive turn =>
      simp only [step] at h
      split at h
      · rename_i e ingress hd hrecv
        exact happens_of_grant hd hrecv h
      · cases h
  | next =>
      simp only [step] at h
      split at h
      · rename_i hd
        cases h
        exact .nextDone hd
      · rename_i hd
        cases h
        exact happens_of_fan hd
      · cases h
  | slot =>
      simp only [step] at h
      split at h
      · rename_i hd
        split at h
        · rename_i htask
          cases h
          exact .slotGone hd htask
        · rename_i hroom htask
          cases h
          exact .slotRoom hd htask hroom
        · cases h
      · cases h
  | bounce turn =>
      simp only [step] at h
      split at h
      · rename_i hd hturn
        cases h
        exact .bounce hd hturn
      · cases h
  | handle p =>
      simp only [step, Option.ite_none_right_eq_some, Option.map_eq_some_iff, Prod.exists] at h
      obtain ⟨⟨hp, htask⟩, e, queue, hrecv, rfl⟩ := h
      exact .handle hp htask hrecv
  | finish p =>
      simp only [step, Option.ite_none_right_eq_some, Option.some.injEq] at h
      obtain ⟨⟨hp, htask⟩, rfl⟩ := h
      exact .finish hp htask
  | crash p =>
      simp only [step, Option.ite_none_right_eq_some, Option.some.injEq] at h
      obtain ⟨⟨hp, htask⟩, rfl⟩ := h
      exact .crash hp htask
  | shutdown =>
      simp only [step, Option.ite_none_right_eq_some, Option.some.injEq] at h
      obtain ⟨hphase, rfl⟩ := h
      exact .shutdown hphase
  | stopDispatcher =>
      simp only [step] at h
      split at h
      · rename_i hd
        simp only [Option.ite_none_left_eq_some, Option.some.injEq] at h
        obtain ⟨hphase, rfl⟩ := h
        exact .stopDispatcher hd hphase
      · cases h
  | stopTask p =>
      simp only [step, Option.ite_none_right_eq_some, Option.some.injEq] at h
      obtain ⟨⟨hp, htask, hphase⟩, rfl⟩ := h
      exact .stopTask hp htask hphase
  | returns =>
      simp only [step] at h
      split at h
      · rename_i hd
        simp only [Option.ite_none_right_eq_some, Option.some.injEq] at h
        obtain ⟨⟨hphase, htasks⟩, rfl⟩ := h
        exact .returns hd hphase htasks
      · cases h

/-- The accepted events that the dispatcher has not come to for a plugin. -/
def ahead (s : Bus H) (p : π) : List ε := s.dispatcher.held p ++ s.ingress.items

/-- The events that reached the queue of a plugin and stayed. -/
def got (s : Bus H) (p : π) : List ε := s.log.delivered p ++ (s.queue p).items

omit [DecidableEq π] in
theorem not_mem_left {p : π} {left : List π} (h : p :: left <:+ H.plugins) : p ∉ left :=
  (List.nodup_cons.mp (h.sublist.nodup H.nodup)).1

/-- A handler waits in `emit` exactly while one send of its own waits. -/
def Parked (s : Bus H) : Prop :=
  ∀ p, (s.senders.map Prod.fst).count (some p) = (s.task p).sends

/-- The dispatcher is gone only after `shutdown` was called. -/
def Serving (s : Bus H) : Prop := s.phase = .running → s.dispatcher ≠ .stopped

theorem Parked.of_task {s u : Bus H} (h : s.Parked) (hsenders : u.senders = s.senders)
    (htask : ∀ p, (u.task p).sends = (s.task p).sends) : u.Parked := by
  intro p
  rw [hsenders, h p, htask p]

theorem Parked.setTask {s u : Bus H} (h : s.Parked) {p : π} {t : PluginTask}
    (hsenders : u.senders = s.senders) (htask : u.task = Function.update s.task p t)
    (hsends : t.sends = (s.task p).sends) : u.Parked := by
  apply h.of_task hsenders
  intro q
  rw [htask]
  by_cases hq : q = p
  · rw [hq, Function.update_self, hsends]
  · rw [Function.update_of_ne hq]

theorem Parked.resume {s u : Bus H} (h : s.Parked) {turn : ℕ} {who : Option π} {e : ε}
    (hturn : s.senders[turn]? = some (who, e)) (hsenders : u.senders = s.senders.eraseIdx turn)
    (htask : u.task = (s.resume who).task) : u.Parked := by
  intro p
  have hcount := count_map_eraseIdx Prod.fst hturn (some p)
  simp only [h p, beq_iff_eq] at hcount
  rw [hsenders, htask]
  cases who with
  | none =>
      rw [if_neg nofun] at hcount
      exact hcount.symm
  | some q =>
      simp only [Bus.resume, Bus.setTask]
      by_cases hq : p = q
      · subst hq
        rw [if_pos rfl] at hcount
        have hle : (s.task p).sends ≤ 1 := by cases s.task p <;> decide
        rw [Function.update_self]
        simp only [PluginTask.sends]
        omega
      · rw [Function.update_of_ne hq]
        rw [if_neg (fun hsome => hq (Option.some.inj hsome).symm)] at hcount
        exact hcount.symm

theorem Parked.await {s u : Bus H} (h : s.Parked) {who : Option π} {e : ε} (ready : s.mayEmit who)
    (hsenders : u.senders = s.senders ++ [(who, e)])
    (htask : u.task = (s.await who e).task) : u.Parked := by
  intro p
  rw [hsenders, List.map_append, List.count_append, h p, htask]
  cases who with
  | none => rfl
  | some q =>
      simp only [Bus.await, Bus.setTask, List.map_cons, List.map_nil, List.count_singleton]
      by_cases hq : p = q
      · subst hq
        simp only [ready.2, Function.update_self, BEq.rfl, if_true, PluginTask.sends, Nat.zero_add]
      · rw [Function.update_of_ne hq, if_neg, Nat.add_zero]
        simp only [beq_iff_eq, Option.some.injEq]
        exact fun hqp => hq hqp.symm

theorem Parked.step {s u : Bus H} {a : BusAction ε π} (h : s.Parked) (happens : Happens s a u) :
    u.Parked := by
  have same : ∀ p, (s.task p).sends = (s.task p).sends := fun _ => rfl
  cases happens with
  | emitClosed => exact h.of_task rfl same
  | emitAccepted => exact h.of_task rfl same
  | @emitWaits who e ready hd hfull hc => cases who <;> exact h.await ready rfl rfl
  | emitDropped => exact h.of_task rfl same
  | receive => exact h.of_task rfl same
  | @receiveGrant turn e x who ingress ingress' hd hrecv hturn hroom =>
      cases who <;> exact h.resume hturn rfl rfl
  | nextDone => exact h.of_task rfl same
  | nextUnwanted => exact h.of_task rfl same
  | nextGone => exact h.of_task rfl same
  | nextRoom => exact h.of_task rfl same
  | nextAwait => exact h.of_task rfl same
  | nextDropped => exact h.of_task rfl same
  | slotGone => exact h.of_task rfl same
  | slotRoom => exact h.of_task rfl same
  | @bounce turn who e hd hturn => cases who <;> exact h.resume hturn rfl rfl
  | handle hp htask => exact h.setTask rfl rfl (by rw [htask]; rfl)
  | finish hp htask => exact h.setTask rfl rfl (by rw [htask]; rfl)
  | crash hp htask => exact h.setTask rfl rfl (by rw [htask]; rfl)
  | shutdown => exact h.of_task rfl same
  | stopDispatcher => exact h.of_task rfl same
  | stopTask hp htask => exact h.setTask rfl rfl (by rw [htask]; rfl)
  | returns => exact h.of_task rfl same

theorem Serving.step {s u : Bus H} {a : BusAction ε π} (h : s.Serving) (happens : Happens s a u) :
    u.Serving := by
  cases happens with
  | @emitWaits who => cases who <;> exact h
  | @receiveGrant turn e x who => cases who <;> exact fun _ => nofun
  | @bounce turn who => cases who <;> exact h
  | stopDispatcher hd hphase => exact fun hrunning => absurd hrunning hphase
  | shutdown => exact nofun
  | returns => exact nofun
  | _ => first | exact h | exact fun _ => nofun

end Plugins
end Bus
end Aegis

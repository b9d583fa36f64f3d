import Aegis.BusOrder
import Mathlib.Algebra.Order.Ring.Nat

/-!
# Loss on the bus

Every event given to `emit` is somewhere for each plugin that wants it: handled,
on the way, counted as dropped, or vanished with a channel. Nothing else happens
to it, and what vanishes is what the drop counters do not see.
-/

namespace Aegis
namespace Bus
variable {ε π : Type} {H : Host ε π} [DecidableEq π]

/-- The events on their way to a plugin: in a send that waits, in the ingress, in the
dispatcher's hands, or in the queue. -/
def onWay (s : Bus H) (p : π) : List ε :=
  s.senders.map Prod.snd ++ s.ingress.items ++ s.dispatcher.held p ++ (s.queue p).items

/-- Each drop counter stands at the number of events it was raised for. -/
def Counting (s : Bus H) : Prop :=
  s.metrics.ingressDropped = s.log.countedIngress.length ∧
    s.metrics.fanoutDroppedFull = (H.plugins.map fun p => (s.log.countedFanout p).length).sum

/-- Every event given to `emit` is, for each plugin that wants it, delivered, on its way, or
counted as dropped, as often as it was given and no more. -/
def Accounted [DecidableEq ε] (s : Bus H) : Prop :=
  s.Counting ∧ ∀ p ∈ H.plugins, ∀ e, H.wants p e → s.log.given.count e =
    (s.log.delivered p).count e + (s.onWay p).count e +
      (s.log.countedIngress.count e + (s.log.countedFanout p).count e)

def Kept (s : Bus H) : Prop := ∀ p ∈ H.plugins, s.log.vanished p = []

/-- No step takes an event that some plugin wants with it: no task ends with events in its queue,
the dispatcher does not end with such events in the ingress, and it comes to no route of a plugin
that wants its event and whose task has ended. -/
def Lossless (s : Bus H) : BusAction ε π → Prop
  | .next => ∀ e p left h, s.dispatcher = .fanning e (p :: left) h → H.wants p e →
      s.task p ≠ .stopped
  | .slot => ∀ e p left h hw, s.dispatcher = .awaiting e p left h hw → s.task p ≠ .stopped
  | .crash p => (s.queue p).items = []
  | .stopTask p => (s.queue p).items = []
  | .stopDispatcher => ∀ e ∈ s.ingress.items, ∀ p ∈ H.plugins, ¬ H.wants p e
  | _ => True

section Vanished

theorem kept_update {s u : Bus H} {q : π} (events : List ε) (hq : q ∈ H.plugins)
    (hu : u.log.vanished = Function.update s.log.vanished q (s.log.vanished q ++ events)) :
    u.Kept ↔ s.Kept ∧ events = [] := by
  constructor
  · intro h
    have hself := h q hq
    rw [hu, Function.update_self, List.append_eq_nil_iff] at hself
    refine ⟨fun p hp => ?_, hself.2⟩
    by_cases hpq : p = q
    · rw [hpq, hself.1]
    · have hp' := h p hp
      rwa [hu, Function.update_of_ne hpq] at hp'
  · rintro ⟨h, rfl⟩ p hp
    rw [hu, List.append_nil, Function.update_eq_self, h p hp]

omit [DecidableEq π] in
theorem kept_same {s u : Bus H} {P : Prop} (hu : u.log.vanished = s.log.vanished) (hP : P) :
    u.Kept ↔ s.Kept ∧ P := by
  simp only [Kept, hu, hP, and_true]

theorem kept_step {s u : Bus H} {a : BusAction ε π} (happens : Happens s a u) :
    u.Kept ↔ s.Kept ∧ s.Lossless a := by
  cases happens with
  | emitClosed => exact kept_same rfl trivial
  | emitAccepted => exact kept_same rfl trivial
  | @emitWaits who => cases who <;> exact kept_same rfl trivial
  | emitDropped => exact kept_same rfl trivial
  | receive => exact kept_same rfl trivial
  | @receiveGrant turn e x who => cases who <;> exact kept_same rfl trivial
  | @nextDone e hnil hd =>
      apply kept_same rfl
      intro e p left h hfan
      rw [hd] at hfan
      cases hfan
  | @nextUnwanted e q left hq hleft hd hw =>
      apply kept_same rfl
      intro e p left h hfan hwants
      rw [hd] at hfan
      cases hfan
      exact absurd hwants hw
  | @nextGone e q left hq hleft hd hw htask =>
      rw [kept_update [e] (hq.subset List.mem_cons_self) rfl]
      have hlost : ¬ s.Lossless .next := fun h => h e q left hq hd hw htask
      simp only [List.cons_ne_nil, hlost, and_false]
  | @nextRoom e q left hq hleft queue hd hw htask hroom =>
      apply kept_same rfl
      intro e p left h hfan _
      rw [hd] at hfan
      cases hfan
      exact htask
  | @nextAwait e q left hq hd hw htask =>
      apply kept_same rfl
      intro e p left h hfan _
      rw [hd] at hfan
      cases hfan
      exact htask
  | @nextDropped e q left hq hleft hd hw htask =>
      apply kept_same rfl
      intro e p left h hfan _
      rw [hd] at hfan
      cases hfan
      exact htask
  | @slotGone e q left hq hleft hw hd htask =>
      rw [kept_update [e] (hq.subset List.mem_cons_self) rfl]
      have hlost : ¬ s.Lossless .slot := fun h => h e q left hq hw hd htask
      simp only [List.cons_ne_nil, hlost, and_false]
  | @slotRoom e q left hq hleft hw queue hd htask hroom =>
      apply kept_same rfl
      intro e p left h hw hwait
      rw [hd] at hwait
      cases hwait
      exact htask
  | @bounce turn who => cases who <;> exact kept_same rfl trivial
  | handle => exact kept_same rfl trivial
  | finish => exact kept_same rfl trivial
  | crash hp htask => exact kept_update _ hp rfl
  | shutdown => exact kept_same rfl trivial
  | stopDispatcher hd hphase =>
      constructor
      · intro h
        refine ⟨fun p hp => (List.append_eq_nil_iff.mp (h p hp)).1, ?_⟩
        intro e he p hp
        exact List.filter_eq_nil_iff.mp (List.append_eq_nil_iff.mp (h p hp)).2 e he
      · rintro ⟨h, hlossless⟩ p hp
        refine List.append_eq_nil_iff.mpr ⟨h p hp, ?_⟩
        exact List.filter_eq_nil_iff.mpr fun e he => hlossless e he p hp
  | stopTask hp htask hphase => exact kept_update _ hp rfl
  | returns => exact kept_same rfl trivial

end Vanished

section Balance
variable [DecidableEq ε]

/-- Where an event is, for a plugin that wants it. -/
def Balanced (s : Bus H) (p : π) (e : ε) : Prop :=
  s.log.given.count e =
    (s.log.delivered p).count e + (s.senders.map Prod.snd).count e + s.ingress.items.count e +
      (s.dispatcher.held p).count e + (s.queue p).items.count e + s.log.countedIngress.count e +
      (s.log.countedFanout p).count e + (s.log.vanished p).count e

/-- The dispatcher past the route of `q` holds its event for one plugin less. -/
theorem held_past {d : Dispatcher H} {x : ε} {q : π} {left : List π} (h : q :: left <:+ H.plugins)
    (hleft : left <:+ H.plugins) (hheld : ∀ p, d.held p = if p ∈ q :: left then [x] else [])
    (p : π) (e : ε) :
    (d.held p).count e =
      ((Dispatcher.fanning x left hleft).held p).count e + if p = q then [x].count e else 0 := by
  rw [hheld, Dispatcher.held]
  by_cases hpq : p = q
  · subst hpq
    simp only [List.mem_cons_self, not_mem_left h, if_true, if_false, List.count_nil, Nat.zero_add]
  · simp only [List.mem_cons, hpq, false_or, if_false, Nat.add_zero]

theorem count_update {f : π → List ε} {p q : π} {events : List ε} {e : ε} :
    (Function.update f q (f q ++ events) p).count e =
      (f p).count e + if p = q then events.count e else 0 := by
  by_cases hpq : p = q
  · rw [hpq, Function.update_self, List.count_append, if_pos rfl]
  · rw [Function.update_of_ne hpq, if_neg hpq, Nat.add_zero]

theorem count_enqueue {f : π → Channel ε H.depth} {p q : π} {queue : Channel ε H.depth} {x e : ε}
    (hroom : (f q).trySend x = some queue) :
    (Function.update f q queue p).items.count e =
      (f p).items.count e + if p = q then [x].count e else 0 := by
  by_cases hpq : p = q
  · rw [hpq, Function.update_self, (Channel.trySend_some hroom).1, List.count_append, if_pos rfl]
  · rw [Function.update_of_ne hpq, if_neg hpq, Nat.add_zero]

theorem balanced_endTask {s : Bus H} {p : π} {e : ε} (h : s.Balanced p e) (q : π) :
    (s.endTask q).Balanced p e := by
  unfold Balanced at h ⊢
  simp only [endTask, setTask, enqueue, vanish, count_update]
  by_cases hpq : p = q
  · subst hpq
    simp only [Function.update_self, Channel.empty_items, List.count_nil, if_true]
    omega
  · simp only [Function.update_of_ne hpq, hpq, if_false]
    omega

theorem balanced_step {s u : Bus H} {a : BusAction ε π} {p : π} {e : ε} (hp : p ∈ H.plugins)
    (hw : H.wants p e) (h : s.Balanced p e) (happens : Happens s a u) : u.Balanced p e := by
  unfold Balanced at h ⊢
  cases happens with
  | emitClosed ready hd =>
      simp only [give, recordIngressClosed, List.count_append]
      omega
  | emitAccepted ready hd hroom =>
      simp only [give, accept, (Channel.trySend_some hroom).1, List.count_append]
      omega
  | @emitWaits who x ready hd hfull hc =>
      cases who with
      | none =>
          simp only [give, await, List.map_append, List.map_cons, List.map_nil, List.count_append]
          omega
      | some q =>
          simp only [give, await, setTask, List.map_append, List.map_cons, List.map_nil,
            List.count_append]
          omega
  | emitDropped ready hd hfull hc =>
      simp only [give, recordIngressFull, List.count_append]
      omega
  | receive hd hrecv hsenders =>
      simp only [hd, Dispatcher.held, hp, if_true, Channel.recv_some hrecv, List.count_cons,
        List.count_nil] at h ⊢
      omega
  | @receiveGrant turn x y who ingress ingress' hd hrecv hturn hroom =>
      have hcount := count_map_eraseIdx Prod.snd hturn e
      simp only at hcount
      simp only [hd, Dispatcher.held, Channel.recv_some hrecv, List.count_cons, List.count_nil] at h
      cases who with
      | none =>
          simp only [resume, accept, Dispatcher.held, hp, if_true,
            (Channel.trySend_some hroom).1, List.count_append, List.count_cons, List.count_nil]
          omega
      | some q =>
          simp only [resume, setTask, accept, Dispatcher.held, hp, if_true,
            (Channel.trySend_some hroom).1, List.count_append, List.count_cons, List.count_nil]
          omega
  | nextDone hd =>
      simp only [hd, Dispatcher.held, List.not_mem_nil, if_false] at h
      exact h
  | @nextUnwanted x q left hq hleft hd hw' =>
      have hheld := held_past hq hleft (held_fanning hd) p e
      have hx : (if p = q then [x].count e else 0) = 0 := by
        split_ifs with hpq
        · subst hpq
          rw [List.count_eq_zero, List.mem_singleton]
          intro hxe
          rw [hxe] at hw
          exact hw' hw
        · rfl
      rw [hheld, hx, Nat.add_zero] at h
      exact h
  | @nextGone x q left hq hleft hd hw' htask =>
      have hheld := held_past hq hleft (held_fanning hd) p e
      simp only [vanish, count_update]
      omega
  | @nextRoom x q left hq hleft queue hd hw' htask hroom =>
      have hheld := held_past hq hleft (held_fanning hd) p e
      simp only [enqueue, count_enqueue hroom]
      omega
  | nextAwait hd =>
      simp only [hd, Dispatcher.held] at h
      exact h
  | @nextDropped x q left hq hleft hd hw' htask hfull hc =>
      have hheld := held_past hq hleft (held_fanning hd) p e
      simp only [recordFanoutFull, count_update]
      omega
  | @slotGone x q left hq hleft hw' hd htask =>
      have hheld := held_past hq hleft (held_awaiting hd) p e
      simp only [vanish, count_update]
      omega
  | @slotRoom x q left hq hleft hw' queue hd htask hroom =>
      have hheld := held_past hq hleft (held_awaiting hd) p e
      simp only [enqueue, count_enqueue hroom]
      omega
  | @bounce turn who x hd hturn =>
      have hcount := count_map_eraseIdx Prod.snd hturn e
      simp only at hcount
      cases who with
      | none =>
          simp only [resume, recordIngressClosed, List.count_append, List.count_singleton]
          omega
      | some q =>
          simp only [resume, setTask, recordIngressClosed, List.count_append,
            List.count_singleton]
          omega
  | @handle q x queue hq htask hrecv =>
      simp only [setTask, enqueue, count_update]
      by_cases hpq : p = q
      · subst hpq
        simp only [Channel.recv_some hrecv, List.count_cons] at h
        simp only [Function.update_self, if_true, List.count_singleton]
        omega
      · simp only [Function.update_of_ne hpq, hpq, if_false]
        omega
  | finish => exact h
  | @crash q hq htask => exact balanced_endTask h q
  | shutdown => exact h
  | stopDispatcher hd hphase =>
      simp only [hd, Dispatcher.held, Channel.empty_items, List.count_nil, List.count_append,
        List.count_filter hw] at h ⊢
      omega
  | @stopTask q hq htask hphase => exact balanced_endTask h q
  | returns => exact h

end Balance

/-- What is in the queue of a plugin, and what vanished for it, it wants. -/
def Wanted (s : Bus H) (p : π) : Prop :=
  (∀ e ∈ (s.queue p).items, H.wants p e) ∧ ∀ e ∈ s.log.vanished p, H.wants p e

theorem Wanted.vanish {s : Bus H} {p : π} (h : s.Wanted p) {q : π} {events : List ε}
    (hevents : p = q → ∀ e ∈ events, H.wants p e) : (s.vanish q events).Wanted p := by
  refine ⟨h.1, ?_⟩
  intro e he
  by_cases hpq : p = q
  · subst hpq
    simp only [Bus.vanish, Function.update_self, List.mem_append] at he
    exact he.elim (h.2 e) (hevents rfl e)
  · simp only [Bus.vanish, Function.update_of_ne hpq] at he
    exact h.2 e he

theorem Wanted.enqueue {s : Bus H} {p : π} (h : s.Wanted p) {q : π} {queue : Channel ε H.depth}
    (hqueue : p = q → ∀ e ∈ queue.items, H.wants p e) : (s.enqueue q queue).Wanted p := by
  refine ⟨?_, h.2⟩
  intro e he
  by_cases hpq : p = q
  · subst hpq
    simp only [Bus.enqueue, Function.update_self] at he
    exact hqueue rfl e he
  · simp only [Bus.enqueue, Function.update_of_ne hpq] at he
    exact h.1 e he

theorem Wanted.room {s : Bus H} {p : π} (h : s.Wanted p) {q : π} {x : ε}
    {queue : Channel ε H.depth} (hroom : (s.queue q).trySend x = some queue) (hw : H.wants q x) :
    (s.enqueue q queue).Wanted p := by
  apply h.enqueue
  rintro rfl e he
  rw [(Channel.trySend_some hroom).1, List.mem_append, List.mem_singleton] at he
  rcases he with he | rfl
  · exact h.1 e he
  · exact hw

theorem Wanted.endTask {s : Bus H} {p : π} (h : s.Wanted p) (q : π) : (s.endTask q).Wanted p := by
  have hvanish : (s.vanish q (s.queue q).items).Wanted p := by
    apply h.vanish
    rintro rfl
    exact h.1
  exact hvanish.enqueue fun _ => nofun

theorem wanted_step {s u : Bus H} {a : BusAction ε π} {p : π} (h : s.Wanted p)
    (happens : Happens s a u) : u.Wanted p := by
  cases happens with
  | emitClosed => exact h
  | emitAccepted => exact h
  | @emitWaits who => cases who <;> exact h
  | emitDropped => exact h
  | receive => exact h
  | @receiveGrant turn e x who => cases who <;> exact h
  | nextDone => exact h
  | nextUnwanted => exact h
  | @nextGone e q left hq hleft hd hw htask =>
      exact h.vanish fun hpq => by simpa only [List.mem_singleton, forall_eq, hpq] using hw
  | nextRoom hd hw htask hroom => exact h.room hroom hw
  | nextAwait => exact h
  | nextDropped => exact h
  | @slotGone e q left hq hleft hw hd htask =>
      exact h.vanish fun hpq => by simpa only [List.mem_singleton, forall_eq, hpq] using hw
  | @slotRoom e q left hq hleft hw queue hd htask hroom => exact h.room hroom hw
  | @bounce turn who => cases who <;> exact h
  | @handle q e queue hq htask hrecv =>
      apply h.enqueue
      rintro rfl x hx
      apply h.1
      rw [Channel.recv_some hrecv]
      exact List.mem_cons_of_mem e hx
  | finish => exact h
  | crash => exact h.endTask _
  | shutdown => exact h
  | stopDispatcher =>
      refine ⟨h.1, fun e he => ?_⟩
      rcases List.mem_append.mp he with he | he
      · exact h.2 e he
      · exact (List.mem_filter.mp he).2
  | stopTask => exact h.endTask _
  | returns => exact h

theorem sum_update_append {l : List π} (hl : l.Nodup) {q : π} (hq : q ∈ l) (f : π → List ε)
    (x : ε) :
    (l.map fun p => (Function.update f q (f q ++ [x]) p).length).sum =
      (l.map fun p => (f p).length).sum + 1 := by
  induction l with
  | nil => cases hq
  | cons p l ih =>
      obtain ⟨hp, hl⟩ := List.nodup_cons.mp hl
      rw [List.map_cons, List.sum_cons, List.map_cons, List.sum_cons]
      by_cases hpq : p = q
      · subst hpq
        have hrest : (l.map fun r => (Function.update f p (f p ++ [x]) r).length) =
            l.map fun r => (f r).length := by
          apply List.map_congr_left
          intro r hr
          rw [Function.update_of_ne fun hrp : r = p => hp (hrp ▸ hr)]
        rw [hrest, Function.update_self, List.length_append, List.length_singleton]
        omega
      · rw [Function.update_of_ne hpq, ih hl ((List.mem_cons.mp hq).resolve_left (Ne.symm hpq))]
        omega

theorem counting_step {s u : Bus H} {a : BusAction ε π} (h : s.Counting)
    (happens : Happens s a u) : u.Counting := by
  cases happens with
  | emitClosed =>
      refine ⟨?_, h.2⟩
      have hin := h.1
      simp only [BusMetrics.ingressDropped] at hin
      simp only [give, recordIngressClosed, BusMetrics.ingressDropped, List.length_append,
        List.length_singleton]
      omega
  | emitAccepted => exact h
  | @emitWaits who => cases who <;> exact h
  | emitDropped =>
      refine ⟨?_, h.2⟩
      have hin := h.1
      simp only [BusMetrics.ingressDropped] at hin
      simp only [give, recordIngressFull, BusMetrics.ingressDropped, List.length_append,
        List.length_singleton]
      omega
  | receive => exact h
  | @receiveGrant turn e x who => cases who <;> exact h
  | nextDone => exact h
  | nextUnwanted => exact h
  | nextGone => exact h
  | nextRoom => exact h
  | nextAwait => exact h
  | @nextDropped e q left hq hleft hd hw htask hfull hc =>
      refine ⟨h.1, ?_⟩
      simp only [recordFanoutFull]
      rw [sum_update_append H.nodup (hq.subset List.mem_cons_self), h.2]
  | slotGone => exact h
  | slotRoom => exact h
  | @bounce turn who =>
      have hin := h.1
      simp only [BusMetrics.ingressDropped] at hin
      cases who <;>
        · refine ⟨?_, h.2⟩
          simp only [resume, setTask, recordIngressClosed, BusMetrics.ingressDropped,
            List.length_append, List.length_singleton]
          omega
  | handle => exact h
  | finish => exact h
  | crash => exact h
  | shutdown => exact h
  | stopDispatcher => exact h
  | stopTask => exact h
  | returns => exact h

section Runs
variable [DecidableEq ε]

theorem accounted_iff_kept {s : Bus H} (hcounting : s.Counting)
    (hwanted : ∀ p ∈ H.plugins, s.Wanted p)
    (hbalanced : ∀ p ∈ H.plugins, ∀ e, H.wants p e → s.Balanced p e) :
    s.Accounted ↔ s.Kept := by
  have hway : ∀ p e, (s.onWay p).count e = (s.senders.map Prod.snd).count e +
      s.ingress.items.count e + (s.dispatcher.held p).count e + (s.queue p).items.count e := by
    intro p e
    simp only [onWay, List.count_append]
  constructor
  · intro h p hp
    by_contra hne
    obtain ⟨e, he⟩ := List.exists_mem_of_ne_nil _ hne
    have hw := (hwanted p hp).2 e he
    have hbal := hbalanced p hp e hw
    have hacc := h.2 p hp e hw
    have hpos := List.count_pos_iff.mpr he
    unfold Balanced at hbal
    rw [hway] at hacc
    omega
  · intro h
    refine ⟨hcounting, fun p hp e hw => ?_⟩
    have hbal := hbalanced p hp e hw
    unfold Balanced at hbal
    rw [h p hp, List.count_nil] at hbal
    rw [hway]
    omega

/-- Every event given to `emit` is accounted for exactly as long as no step takes events with it. -/
theorem accounted_iff_lossless {s : Bus H} {acts : List (BusAction ε π)}
    (hrun : FreeRun step (start H) acts s) :
    s.Accounted ↔ GuardedRun step Lossless (start H) acts s := by
  have hinv : s.Counting ∧ (∀ p ∈ H.plugins, s.Wanted p) ∧
      ∀ p ∈ H.plugins, ∀ e, H.wants p e → s.Balanced p e := by
    refine hrun.invariant (fun s => s.Counting ∧ (∀ p ∈ H.plugins, s.Wanted p) ∧
      ∀ p ∈ H.plugins, ∀ e, H.wants p e → s.Balanced p e) ?_ ?_
    · rintro s a u ⟨hcounting, hwanted, hbalanced⟩ - hstep
      have happens := step_happens hstep
      exact ⟨counting_step hcounting happens, fun p hp => wanted_step (hwanted p hp) happens,
        fun p hp e hw => balanced_step hp hw (hbalanced p hp e hw) happens⟩
    · refine ⟨⟨rfl, ?_⟩, fun p _ => ⟨nofun, nofun⟩, fun p _ e _ => rfl⟩
      simp [start]
  have hexact : s.Kept ↔ (start H).Kept ∧ GuardedRun step Lossless (start H) acts s :=
    hrun.exact_iff fun s a u hstep => kept_step (step_happens hstep)
  have hstart : (start H).Kept := fun _ _ => rfl
  rw [accounted_iff_kept hinv.1 hinv.2.1 hinv.2.2, hexact]
  simp only [hstart, true_and]

end Runs
end Bus

/-- A detection that the dispatcher comes with after the plugin's task has stopped is in no
counter. -/
theorem detection_vanishes_at_shutdown :
    ¬ ∀ (acts : List (BusAction String Bool)) (s : Bus narrowHost),
      FreeRun Bus.step (Bus.start narrowHost) acts s → s.Accounted := by
  intro h
  obtain ⟨s, hexec, hlog⟩ := Option.map_eq_some_iff.mp (show
    (execute Bus.step (fun _ _ => True) (Bus.start narrowHost)
      [.emit none "detection", .receive 0, .shutdown, .stopTask true, .next]).map (fun s =>
        (s.log.given.count "detection", (s.log.delivered true).count "detection" +
          (s.onWay true).count "detection" + (s.log.countedIngress.count "detection" +
            (s.log.countedFanout true).count "detection"))) = some (1, 0) by decide +kernel)
  have hall := (h _ s (run_of_execute hexec)).2 true (by decide) "detection" (by decide)
  simp only [Prod.mk.injEq] at hlog
  rw [hlog.1, hlog.2] at hall
  cases hall

theorem accounted_at_full_ingress :
    ∃ s : Bus narrowHost, s.metrics.ingressDropped = 1 ∧ s.Accounted := by
  obtain ⟨s, hexec, hlog⟩ := Option.map_eq_some_iff.mp (show
    (execute Bus.step (fun _ _ => True) (Bus.start narrowHost)
      [.emit none "detection", .receive 0, .emit none "heartbeat", .emit none "heartbeat"]).map
        (fun s => s.metrics.ingressDropped) = some 1 by decide +kernel)
  have hrun := run_of_execute hexec
  refine ⟨s, hlog, (Bus.accounted_iff_lossless hrun).mpr (hrun.of_actions ?_)⟩
  intro a ha s
  simp only [List.mem_cons, List.not_mem_nil, or_false] at ha
  rcases ha with rfl | rfl | rfl | rfl <;> trivial

end Aegis

import Aegis.BusAccounting
import Mathlib.Algebra.Order.BigOperators.Group.List
import Mathlib.Algebra.Order.Ring.Nat

/-!
# Deadlock on the bus

Back-pressure closes a wait cycle when the dispatcher waits for a slot in the
queue of a plugin whose handler waits for a slot of the ingress. Nothing else can
stop the host: while no step closes the cycle, some task can go on as long as
there is anything to do. Once it is closed it stays closed, and the other tasks
run until none can take a step.
-/

namespace Aegis

/-- The steps of the dispatcher, of a handler, and of a call that waits; the rest come from
outside. -/
def BusAction.ofTask {ε π : Type} : BusAction ε π → Bool
  | .emit who _ => who.isSome
  | .shutdown => false
  | _ => true

namespace Bus
variable {ε π : Type} {H : Host ε π} [DecidableEq π]

/-- Some event is in a send that waits, in a channel, or in the dispatcher's hands. -/
def Undelivered (s : Bus H) : Prop :=
  s.senders ≠ [] ∨ s.ingress.items ≠ [] ∨
    (s.dispatcher ≠ .receiving ∧ s.dispatcher ≠ .stopped) ∨
    ∃ p ∈ H.plugins, (s.queue p).items ≠ []

/-- There is something to do and no task that can do a step. -/
def Stuck (s : Bus H) : Prop :=
  (s.Undelivered ∨ s.phase = .stopping) ∧ ∀ a : BusAction ε π, a.ofTask → s.step a = none

/-- The dispatcher waits for a slot in the full queue of a plugin whose handler waits for a slot
of the ingress. -/
def Wedged (s : Bus H) : Prop :=
  ∃ e p left h hw, s.dispatcher = .awaiting e p left h hw ∧ s.task p = .sending ∧
    (s.queue p).items.length = H.depth

/-- No step closes the wait cycle: a handler does not come to wait for the ingress while the
dispatcher waits for its full queue, and the dispatcher does not come to wait for a full queue
while its handler waits for the ingress. -/
def Apart (s : Bus H) : BusAction ε π → Prop
  | .emit (some p) x => H.critical x → s.ingress.items.length = H.depth →
      (s.queue p).items.length = H.depth →
        ∀ e left h hw, s.dispatcher ≠ .awaiting e p left h hw
  | .next => ∀ e p left h, s.dispatcher = .fanning e (p :: left) h → H.wants p e → H.critical e →
      (s.queue p).items.length = H.depth → s.task p ≠ .sending
  | _ => True

section Cycle

omit [DecidableEq π] in
theorem Wedged.of_same {s u : Bus H} (h : s.Wedged) (hd : u.dispatcher = s.dispatcher)
    (htask : ∀ p, s.task p = .sending → u.task p = .sending)
    (hqueue : ∀ p, s.task p = .sending → u.queue p = s.queue p) : u.Wedged := by
  obtain ⟨e, p, left, hs, hw, hwait, hsend, hfull⟩ := h
  exact ⟨e, p, left, hs, hw, hd.trans hwait, htask p hsend, by rw [hqueue p hsend, hfull]⟩

theorem Wedged.of_setTask {s u : Bus H} (h : s.Wedged) {p : π} {t : PluginTask}
    (hp : s.task p ≠ .sending) (hd : u.dispatcher = s.dispatcher)
    (htask : u.task = Function.update s.task p t)
    (hqueue : ∀ q, q ≠ p → u.queue q = s.queue q) : u.Wedged := by
  have hne : ∀ q, s.task q = .sending → q ≠ p := by
    rintro q hq rfl
    exact hp hq
  apply h.of_same hd
  · intro q hq
    rw [htask, Function.update_of_ne (hne q hq), hq]
  · intro q hq
    exact hqueue q (hne q hq)

theorem Wedged.step {s u : Bus H} {a : BusAction ε π} (h : s.Wedged) (happens : Happens s a u) :
    u.Wedged := by
  obtain ⟨e, p, left, hs, hw, hwait, hsend, hfull⟩ := id h
  cases happens with
  | emitClosed => exact h
  | emitAccepted => exact h
  | @emitWaits who x ready hd =>
      cases who with
      | none => exact h
      | some q => exact h.of_setTask (p := q) (by rw [ready.2]; nofun) rfl rfl fun _ _ => rfl
  | emitDropped => exact h
  | receive hd => rw [hd] at hwait; cases hwait
  | receiveGrant hd => rw [hd] at hwait; cases hwait
  | nextDone hd => rw [hd] at hwait; cases hwait
  | nextUnwanted hd => rw [hd] at hwait; cases hwait
  | nextGone hd => rw [hd] at hwait; cases hwait
  | nextRoom hd => rw [hd] at hwait; cases hwait
  | nextAwait hd => rw [hd] at hwait; cases hwait
  | nextDropped hd => rw [hd] at hwait; cases hwait
  | slotGone hd htask =>
      rw [hd] at hwait
      cases hwait
      rw [htask] at hsend
      cases hsend
  | slotRoom hd htask hroom =>
      rw [hd] at hwait
      cases hwait
      have hlt := (Channel.trySend_some hroom).2
      omega
  | bounce hd => rw [hd] at hwait; cases hwait
  | @handle q x queue hq htask hrecv =>
      refine h.of_setTask (p := q) (by rw [htask]; nofun) rfl rfl ?_
      intro r hr
      simp only [setTask, enqueue, Function.update_of_ne hr]
  | @finish q hq htask =>
      exact h.of_setTask (p := q) (by rw [htask]; nofun) rfl rfl fun _ _ => rfl
  | @crash q hq htask =>
      refine h.of_setTask (p := q) (by rw [htask]; nofun) rfl rfl ?_
      intro r hr
      simp only [endTask, setTask, enqueue, vanish, Function.update_of_ne hr]
  | shutdown => exact h
  | stopDispatcher hd => rw [hd] at hwait; cases hwait
  | @stopTask q hq htask =>
      refine h.of_setTask (p := q) (by rw [htask]; nofun) rfl rfl ?_
      intro r hr
      simp only [endTask, setTask, enqueue, vanish, Function.update_of_ne hr]
  | returns => exact h

theorem apart_of_not_wedged {s u : Bus H} {a : BusAction ε π} (hu : ¬ u.Wedged)
    (happens : Happens s a u) : s.Apart a := by
  cases happens with
  | @emitClosed who x ready hd =>
      cases who with
      | none => trivial
      | some p =>
          intro _ _ _ e left h hw hwait
          rw [hd] at hwait
          cases hwait
  | @emitAccepted who x ingress ready hd hroom =>
      cases who with
      | none => trivial
      | some p =>
          intro _ hfull
          have hlt := (Channel.trySend_some hroom).2
          omega
  | @emitWaits who x ready hd hfull hc =>
      cases who with
      | none => trivial
      | some p =>
          intro _ _ hqueue e left h hw hwait
          exact hu ⟨e, p, left, h, hw, hwait, Function.update_self .., hqueue⟩
  | @emitDropped who x ready hd hfull hc =>
      cases who with
      | none => trivial
      | some p => exact fun hcritical => absurd hcritical hc
  | nextDone hd =>
      intro e p left h hfan
      rw [hd] at hfan
      cases hfan
  | nextUnwanted hd hw =>
      intro e p left h hfan hwants
      rw [hd] at hfan
      cases hfan
      exact absurd hwants hw
  | nextGone hd hw htask =>
      intro e p left h hfan _ _ _
      rw [hd] at hfan
      cases hfan
      rw [htask]
      nofun
  | nextRoom hd hw htask hroom =>
      intro e p left h hfan _ _ hfull
      rw [hd] at hfan
      cases hfan
      have hlt := (Channel.trySend_some hroom).2
      omega
  | @nextAwait x q left hq hd hw htask hfull hc =>
      intro e p left' h hfan _ _ hqueue hsend
      rw [hd] at hfan
      cases hfan
      exact hu ⟨x, q, left, hq, hw, rfl, hsend, hqueue⟩
  | nextDropped hd hw htask hfull hc =>
      intro e p left h hfan _ hcritical
      rw [hd] at hfan
      cases hfan
      exact absurd hcritical hc
  | _ => trivial

theorem Wedged.before_setTask {s u : Bus H} (h : u.Wedged) {p : π} {t : PluginTask}
    (ht : t ≠ .sending) (hd : u.dispatcher = s.dispatcher)
    (htask : u.task = Function.update s.task p t)
    (hqueue : ∀ q, q ≠ p → u.queue q = s.queue q) : s.Wedged := by
  have hne : ∀ q, u.task q = .sending → q ≠ p := by
    rintro q hq rfl
    rw [htask, Function.update_self] at hq
    exact ht hq
  apply h.of_same hd.symm
  · intro q hq
    have hne := hne q hq
    rwa [htask, Function.update_of_ne hne] at hq
  · intro q hq
    exact (hqueue q (hne q hq)).symm

theorem Wedged.before {s u : Bus H} {a : BusAction ε π} (h : u.Wedged) (happens : Happens s a u)
    (hapart : s.Apart a) : s.Wedged := by
  obtain ⟨e, p, left, hs, hw, hwait, hsend, hqueue⟩ := id h
  cases happens with
  | emitClosed => exact h
  | emitAccepted => exact h
  | @emitWaits who x ready hd hfull hc =>
      cases who with
      | none => exact h
      | some q =>
          by_cases hpq : p = q
          · subst hpq
            exact absurd hwait (hapart hc (Channel.trySend_none.mp hfull) hqueue e left hs hw)
          · simp only [await, setTask, Function.update_of_ne hpq] at hsend
            exact ⟨e, p, left, hs, hw, hwait, hsend, hqueue⟩
  | emitDropped => exact h
  | receive => cases hwait
  | @receiveGrant turn x y who => cases who <;> cases hwait
  | nextDone => cases hwait
  | nextUnwanted => cases hwait
  | nextGone => cases hwait
  | nextRoom => cases hwait
  | @nextAwait x q left' hq hd hw' htask hfull hc =>
      cases hwait
      exact absurd hsend (hapart _ _ _ _ hd hw' hc (Channel.trySend_none.mp hfull))
  | nextDropped => cases hwait
  | slotGone => cases hwait
  | slotRoom => cases hwait
  | @bounce turn who x hd =>
      have hstopped : s.dispatcher = .awaiting e p left hs hw := by
        cases who <;> exact hwait
      rw [hd] at hstopped
      cases hstopped
  | @handle q x queue hq htask hrecv =>
      refine h.before_setTask (p := q) (t := .handling) (by decide) rfl rfl ?_
      intro r hr
      simp only [setTask, enqueue, Function.update_of_ne hr]
  | @finish q => exact h.before_setTask (p := q) (t := .idle) (by decide) rfl rfl fun _ _ => rfl
  | @crash q =>
      refine h.before_setTask (p := q) (t := .stopped) (by decide) rfl rfl ?_
      intro r hr
      simp only [endTask, setTask, enqueue, vanish, Function.update_of_ne hr]
  | shutdown => exact h
  | stopDispatcher => cases hwait
  | @stopTask q =>
      refine h.before_setTask (p := q) (t := .stopped) (by decide) rfl rfl ?_
      intro r hr
      simp only [endTask, setTask, enqueue, vanish, Function.update_of_ne hr]
  | returns => exact h

/-- In a run the cycle is open exactly as long as no step has closed it. -/
theorem open_iff_apart {s : Bus H} {acts : List (BusAction ε π)}
    (hrun : FreeRun step (start H) acts s) :
    ¬ s.Wedged ↔ GuardedRun step Apart (start H) acts s := by
  have hstart : ¬ (start H).Wedged := by
    rintro ⟨e, p, left, hs, hw, hwait, -⟩
    cases hwait
  have hexact : ¬ s.Wedged ↔ ¬ (start H).Wedged ∧ GuardedRun step Apart (start H) acts s := by
    apply hrun.exact_iff
    intro s a u hstep
    have happens := step_happens hstep
    constructor
    · exact fun hu => ⟨fun hs => hu (hs.step happens), apart_of_not_wedged hu happens⟩
    · exact fun ⟨hs, hapart⟩ hu => hs (hu.before happens hapart)
  rw [hexact]
  simp only [hstart, not_false_eq_true, true_and]

end Cycle

section Progress

/-- What holds of channels and senders in every run. -/
structure Orderly (s : Bus H) : Prop where
  parked : s.Parked
  serving : s.Serving
  backed : s.senders ≠ [] → s.dispatcher ≠ .stopped → s.ingress.items.length = H.depth
  emptied : ∀ p, s.task p = .stopped → (s.queue p).items = []
  closed : s.dispatcher = .stopped → s.ingress.items = []

theorem backed_step {s u : Bus H} {a : BusAction ε π}
    (h : s.senders ≠ [] → s.dispatcher ≠ .stopped → s.ingress.items.length = H.depth)
    (happens : Happens s a u) :
    u.senders ≠ [] → u.dispatcher ≠ .stopped → u.ingress.items.length = H.depth := by
  cases happens with
  | emitClosed => exact h
  | emitAccepted ready hd hroom =>
      intro hsenders _
      have hfull := h hsenders hd
      have hlt := (Channel.trySend_some hroom).2
      omega
  | @emitWaits who x ready hd hfull hc =>
      intro _ _
      cases who <;> exact Channel.trySend_none.mp hfull
  | emitDropped => exact h
  | receive hd hrecv hsenders => exact fun hne => absurd hsenders hne
  | @receiveGrant turn e x who ingress ingress' hd hrecv hturn hroom =>
      intro _ _
      have hne : s.senders ≠ [] := by
        intro hnil
        rw [hnil] at hturn
        cases hturn
      have hfull := h hne (by rw [hd]; nofun)
      rw [Channel.recv_some hrecv, List.length_cons] at hfull
      have hlength : ingress'.items.length = H.depth := by
        rw [(Channel.trySend_some hroom).1, List.length_append, List.length_singleton, hfull]
      cases who <;> exact hlength
  | nextDone hd => exact fun hne _ => h hne (by rw [hd]; nofun)
  | nextUnwanted hd => exact fun hne _ => h hne (by rw [hd]; nofun)
  | nextGone hd => exact fun hne _ => h hne (by rw [hd]; nofun)
  | nextRoom hd => exact fun hne _ => h hne (by rw [hd]; nofun)
  | nextAwait hd => exact fun hne _ => h hne (by rw [hd]; nofun)
  | nextDropped hd => exact fun hne _ => h hne (by rw [hd]; nofun)
  | slotGone hd => exact fun hne _ => h hne (by rw [hd]; nofun)
  | slotRoom hd => exact fun hne _ => h hne (by rw [hd]; nofun)
  | @bounce turn who x hd => cases who <;> exact fun _ hne => absurd hd hne
  | handle => exact h
  | finish => exact h
  | crash => exact h
  | shutdown => exact h
  | stopDispatcher => exact fun _ hne => absurd rfl hne
  | stopTask => exact h
  | returns => exact h

theorem emptied_setTask {s : Bus H} (h : ∀ p, s.task p = .stopped → (s.queue p).items = [])
    {q : π} {t : PluginTask} (ht : t ≠ .stopped) {u : Bus H}
    (htask : u.task = Function.update s.task q t)
    (hqueue : ∀ p, p ≠ q → u.queue p = s.queue p) :
    ∀ p, u.task p = .stopped → (u.queue p).items = [] := by
  intro p hp
  rw [htask] at hp
  by_cases hpq : p = q
  · rw [hpq, Function.update_self] at hp
    exact absurd hp ht
  · rw [Function.update_of_ne hpq] at hp
    rw [hqueue p hpq, h p hp]

theorem emptied_endTask {s : Bus H} (h : ∀ p, s.task p = .stopped → (s.queue p).items = [])
    (q : π) : ∀ p, (s.endTask q).task p = .stopped → ((s.endTask q).queue p).items = [] := by
  intro p hp
  by_cases hpq : p = q
  · simp only [endTask, setTask, enqueue, hpq, Function.update_self, Channel.empty_items]
  · simp only [endTask, setTask, enqueue, vanish, Function.update_of_ne hpq] at hp ⊢
    exact h p hp

theorem emptied_enqueue {s : Bus H} (h : ∀ p, s.task p = .stopped → (s.queue p).items = [])
    {q : π} (hq : s.task q ≠ .stopped) (queue : Channel ε H.depth) :
    ∀ p, s.task p = .stopped → ((s.enqueue q queue).queue p).items = [] := by
  intro p hp
  have hpq : p ≠ q := by
    rintro rfl
    exact hq hp
  simp only [enqueue, Function.update_of_ne hpq]
  exact h p hp

theorem emptied_step {s u : Bus H} {a : BusAction ε π}
    (h : ∀ p, s.task p = .stopped → (s.queue p).items = []) (happens : Happens s a u) :
    ∀ p, u.task p = .stopped → (u.queue p).items = [] := by
  cases happens with
  | @emitWaits who =>
      cases who with
      | none => exact h
      | some q => exact emptied_setTask h (t := .sending) (by decide) rfl fun _ _ => rfl
  | @receiveGrant turn e x who =>
      cases who with
      | none => exact h
      | some q => exact emptied_setTask h (t := .handling) (by decide) rfl fun _ _ => rfl
  | nextRoom hd hw htask => exact emptied_enqueue h htask _
  | slotRoom hd htask => exact emptied_enqueue h htask _
  | @bounce turn who =>
      cases who with
      | none => exact h
      | some q => exact emptied_setTask h (t := .handling) (by decide) rfl fun _ _ => rfl
  | @handle q x queue =>
      refine emptied_setTask h (q := q) (t := .handling) (by decide) rfl ?_
      intro p hpq
      simp only [setTask, enqueue, Function.update_of_ne hpq]
  | @finish q => exact emptied_setTask h (t := .idle) (by decide) rfl fun _ _ => rfl
  | crash => exact emptied_endTask h _
  | stopTask => exact emptied_endTask h _
  | _ => exact h

theorem closed_step {s u : Bus H} {a : BusAction ε π}
    (h : s.dispatcher = .stopped → s.ingress.items = []) (happens : Happens s a u) :
    u.dispatcher = .stopped → u.ingress.items = [] := by
  cases happens with
  | emitAccepted ready hd => exact fun hstopped => absurd hstopped hd
  | @emitWaits who => cases who <;> exact h
  | @receiveGrant turn e x who => cases who <;> exact nofun
  | @bounce turn who => cases who <;> exact h
  | stopDispatcher => exact fun _ => rfl
  | emitClosed => exact h
  | emitDropped => exact h
  | handle => exact h
  | finish => exact h
  | crash => exact h
  | shutdown => exact h
  | stopTask => exact h
  | returns => exact h
  | _ => exact nofun

theorem orderly_of_run {s : Bus H} {acts : List (BusAction ε π)}
    (hrun : FreeRun step (start H) acts s) : s.Orderly := by
  refine hrun.invariant Orderly ?_ ?_
  · intro s a u h _ hstep
    have happens := step_happens hstep
    exact ⟨h.parked.step happens, h.serving.step happens, backed_step h.backed happens,
      emptied_step h.emptied happens, closed_step h.closed happens⟩
  · exact ⟨fun _ => rfl, fun _ => nofun, fun hne => absurd rfl hne, fun _ _ => rfl, fun _ => rfl⟩

/-- A plugin whose handler does not wait goes on while it has something to do. -/
theorem plugin_step {s : Bus H} {p : π} (hp : p ∈ H.plugins)
    (hstuck : ∀ a : BusAction ε π, a.ofTask → s.step a = none) :
    s.task p ≠ .handling ∧ (s.task p = .idle → (s.queue p).items = [] ∧ s.phase = .running) := by
  constructor
  · intro htask
    have hfinish := hstuck (.finish p) rfl
    simp only [step, hp, htask, and_self, if_true, reduceCtorEq] at hfinish
  · intro htask
    constructor
    · have hhandle := hstuck (.handle p) rfl
      simp only [step, hp, htask, and_self, if_true, Option.map_eq_none_iff] at hhandle
      exact Channel.recv_none.mp hhandle
    · by_contra hphase
      have hstop := hstuck (.stopTask p) rfl
      simp only [step, hp, htask, ne_eq, hphase, not_false_eq_true, and_self, if_true,
        reduceCtorEq] at hstop

theorem senders_of_sending {s : Bus H} (h : s.Parked) {p : π} (hp : s.task p = .sending) :
    s.senders ≠ [] := by
  intro hnil
  have hcount := h p
  rw [hnil, hp] at hcount
  cases hcount

/-- Where the cycle is open, some task can go on as long as there is anything to do. -/
theorem not_stuck {s : Bus H} (h : s.Orderly) (hopen : ¬ s.Wedged) : ¬ s.Stuck := by
  rintro ⟨htodo, hstuck⟩
  cases hd : s.dispatcher with
  | receiving =>
      have hingress : s.ingress.items = [] := by
        have hreceive := hstuck (.receive 0) rfl
        cases hrecv : s.ingress.recv with
        | none => exact Channel.recv_none.mp hrecv
        | some r =>
            obtain ⟨e, ingress⟩ := r
            simp only [step, hd, hrecv, grant] at hreceive
            cases hsenders : s.senders with
            | nil => simp only [hsenders, if_true, reduceCtorEq] at hreceive
            | cons w rest =>
                obtain ⟨ingress', hroom⟩ := Channel.room_of_recv (b := w.2) hrecv
                simp only [hsenders, reduceCtorEq, if_false, List.getElem?_cons_zero, hroom,
                  Option.map_some] at hreceive
      have hsenders : s.senders = [] := by
        by_contra hne
        have hfull := h.backed hne (by simp [hd])
        rw [hingress, List.length_nil] at hfull
        have hpos := H.depth_pos
        omega
      have hphase : s.phase = .running := by
        by_contra hphase
        have hstop := hstuck .stopDispatcher rfl
        simp only [step, hd, hphase, if_false, reduceCtorEq] at hstop
      rcases htodo with hundelivered | hstopping
      · rcases hundelivered with hne | hne | hne | ⟨p, hp, hne⟩
        · exact hne hsenders
        · exact hne hingress
        · exact hne.1 hd
        · obtain ⟨hhandling, hidle⟩ := plugin_step hp hstuck
          cases htask : s.task p with
          | idle => exact hne (hidle htask).1
          | handling => exact hhandling htask
          | sending => exact senders_of_sending h.parked htask hsenders
          | stopped => exact hne (h.emptied p htask)
      · rw [hphase] at hstopping
        cases hstopping
  | fanning e left hleft =>
      have hnext := hstuck .next rfl
      cases left <;> simp only [step, hd, reduceCtorEq] at hnext
  | awaiting e p left hleft hw =>
      have hp : p ∈ H.plugins := hleft.subset List.mem_cons_self
      have hslot := hstuck .slot rfl
      obtain ⟨hhandling, hidle⟩ := plugin_step hp hstuck
      cases hroom : (s.queue p).trySend e with
      | some queue =>
          simp only [step, hd, hroom] at hslot
          split at hslot <;> simp_all
      | none =>
          have hfull := Channel.trySend_none.mp hroom
          have hpos := H.depth_pos
          cases htask : s.task p with
          | idle =>
              rw [(hidle htask).1, List.length_nil] at hfull
              omega
          | handling => exact hhandling htask
          | sending => exact hopen ⟨e, p, left, hleft, hw, hd, htask, hfull⟩
          | stopped => simp only [step, hd, htask, reduceCtorEq] at hslot
  | stopped =>
      have hsenders : s.senders = [] := by
        have hbounce := hstuck (.bounce 0) rfl
        cases hsenders : s.senders with
        | nil => rfl
        | cons w rest =>
            simp only [step, hd, hsenders, List.getElem?_cons_zero, reduceCtorEq] at hbounce
      have hphase : s.phase ≠ .running := fun hrunning => h.serving hrunning hd
      have htasks : ∀ p ∈ H.plugins, s.task p = .stopped := by
        intro p hp
        obtain ⟨hhandling, hidle⟩ := plugin_step hp hstuck
        cases htask : s.task p with
        | idle => exact absurd (hidle htask).2 hphase
        | handling => exact absurd htask hhandling
        | sending => exact absurd hsenders (senders_of_sending h.parked htask)
        | stopped => rfl
      rcases htodo with hundelivered | hstopping
      · rcases hundelivered with hne | hne | hne | ⟨p, hp, hne⟩
        · exact hne hsenders
        · exact hne (h.closed hd)
        · exact hne.2 hd
        · exact hne (h.emptied p (htasks p hp))
      · have hreturns := hstuck .returns rfl
        simp only [step, hd, hstopping, true_and] at hreturns
        rw [if_pos htasks] at hreturns
        cases hreturns

end Progress

section Quiet

/-- How much the handler of a plugin can still do by itself. -/
def PluginTask.rank : PluginTask → ℕ
  | .idle => 1
  | .handling => 2
  | .sending => 0
  | .stopped => 0

def load (s : Bus H) (p : π) : ℕ := 3 * (s.queue p).items.length + PluginTask.rank (s.task p)

/-- No handler can go on by itself. -/
def Quiet (s : Bus H) : Prop :=
  ∀ p ∈ H.plugins, s.task p ≠ .handling ∧
    (s.task p = .idle → (s.queue p).items = [] ∧ s.phase = .running)

theorem load_lt {s u : Bus H} {p : π} (hp : p ∈ H.plugins) (hself : u.load p < s.load p)
    (hother : ∀ q, q ≠ p → u.load q = s.load q) :
    (H.plugins.map u.load).sum < (H.plugins.map s.load).sum := by
  apply List.sum_lt_sum
  · intro q _
    by_cases hq : q = p
    · rw [hq]
      exact hself.le
    · exact (hother q hq).le
  · exact ⟨p, hp, hself⟩

/-- A handler that can go on by itself has less to do afterwards. -/
theorem exists_less {s : Bus H} (h : ¬ s.Quiet) :
    ∃ (a : BusAction ε π) (u : Bus H), a.ofTask ∧ s.step a = some u ∧
      (H.plugins.map u.load).sum < (H.plugins.map s.load).sum := by
  simp only [Quiet, not_forall] at h
  obtain ⟨p, hp, hbusy⟩ := h
  cases htask : s.task p with
  | idle =>
      cases hrecv : (s.queue p).recv with
      | some r =>
          obtain ⟨e, queue⟩ := r
          refine ⟨.handle p, { (s.enqueue p queue).setTask p .handling with
            log.delivered := Function.update s.log.delivered p (s.log.delivered p ++ [e]) },
            rfl, ?_, ?_⟩
          · simp only [step, hp, htask, and_self, if_true, hrecv, Option.map_some]
          · apply load_lt hp
            · simp only [load, setTask, enqueue, Function.update_self, htask, PluginTask.rank,
                Channel.recv_some hrecv, List.length_cons]
              omega
            · intro q hq
              simp only [load, setTask, enqueue, Function.update_of_ne hq]
      | none =>
          have hempty := Channel.recv_none.mp hrecv
          have hphase : s.phase ≠ .running := fun hrunning => hbusy
            ⟨by simp [htask], fun _ => ⟨hempty, hrunning⟩⟩
          refine ⟨.stopTask p, s.endTask p, rfl, ?_, ?_⟩
          · simp only [step, hp, htask, ne_eq, hphase, not_false_eq_true, and_self, if_true]
          · apply load_lt hp
            · simp only [load, endTask, setTask, enqueue, Function.update_self, htask,
                PluginTask.rank, Channel.empty_items, List.length_nil]
              omega
            · intro q hq
              simp only [load, endTask, setTask, enqueue, vanish, Function.update_of_ne hq]
  | handling =>
      refine ⟨.finish p, s.setTask p .idle, rfl, ?_, ?_⟩
      · simp only [step, hp, htask, and_self, if_true]
      · apply load_lt hp
        · simp only [load, setTask, Function.update_self, htask, PluginTask.rank]
          omega
        · intro q hq
          simp only [load, setTask, Function.update_of_ne hq]
  | sending =>
      simp [htask] at hbusy
  | stopped =>
      simp [htask] at hbusy

/-- With the cycle closed and every other handler at rest the host is stuck. -/
theorem stuck_of_quiet {s : Bus H} (h : s.Wedged) (hquiet : s.Quiet) : s.Stuck := by
  obtain ⟨e, p, left, hs, hw, hwait, hsend, hfull⟩ := h
  constructor
  · apply Or.inl
    apply Or.inr
    apply Or.inr
    apply Or.inl
    rw [hwait]
    exact ⟨nofun, nofun⟩
  · intro a ha
    cases hstep : s.step a with
    | none => rfl
    | some u =>
        have happens := step_happens hstep
        cases happens with
        | @emitClosed who x ready hd => rw [hd] at hwait; cases hwait
        | @emitAccepted who x ingress ready =>
            cases who with
            | none => cases ha
            | some q => exact absurd ready.2 (hquiet q ready.1).1
        | @emitWaits who x ready =>
            cases who with
            | none => cases ha
            | some q => exact absurd ready.2 (hquiet q ready.1).1
        | @emitDropped who x ready =>
            cases who with
            | none => cases ha
            | some q => exact absurd ready.2 (hquiet q ready.1).1
        | receive hd => rw [hd] at hwait; cases hwait
        | receiveGrant hd => rw [hd] at hwait; cases hwait
        | nextDone hd => rw [hd] at hwait; cases hwait
        | nextUnwanted hd => rw [hd] at hwait; cases hwait
        | nextGone hd => rw [hd] at hwait; cases hwait
        | nextRoom hd => rw [hd] at hwait; cases hwait
        | nextAwait hd => rw [hd] at hwait; cases hwait
        | nextDropped hd => rw [hd] at hwait; cases hwait
        | slotGone hd htask =>
            rw [hd] at hwait
            cases hwait
            rw [htask] at hsend
            cases hsend
        | slotRoom hd htask hroom =>
            rw [hd] at hwait
            cases hwait
            have hlt := (Channel.trySend_some hroom).2
            omega
        | bounce hd => rw [hd] at hwait; cases hwait
        | @handle q x queue hq htask hrecv =>
            have hempty := ((hquiet q hq).2 htask).1
            rw [Channel.recv_some hrecv] at hempty
            cases hempty
        | finish hq htask => exact absurd htask (hquiet _ hq).1
        | crash hq htask => exact absurd htask (hquiet _ hq).1
        | shutdown => cases ha
        | stopDispatcher hd => rw [hd] at hwait; cases hwait
        | stopTask hq htask hphase => exact absurd ((hquiet _ hq).2 htask).2 hphase
        | returns hd => rw [hd] at hwait; cases hwait

theorem stuck_of_wedged {s : Bus H} (h : s.Wedged) :
    ∃ (acts : List (BusAction ε π)) (u : Bus H), (∀ a ∈ acts, a.ofTask) ∧
      FreeRun step s acts u ∧ u.Stuck := by
  induction hload : (H.plugins.map s.load).sum using Nat.strong_induction_on generalizing s with
  | _ n ih =>
      by_cases hquiet : s.Quiet
      · exact ⟨[], s, nofun, .nil s, stuck_of_quiet h hquiet⟩
      · obtain ⟨a, u, ha, hstep, hless⟩ := exists_less hquiet
        obtain ⟨acts, v, hacts, hrun, hstuck⟩ :=
          ih _ (hload ▸ hless) (h.step (step_happens hstep)) rfl
        exact ⟨a :: acts, v, List.forall_mem_cons.mpr ⟨ha, hacts⟩, .cons trivial hstep hrun,
          hstuck⟩

end Quiet

/-- A run that never closes the wait cycle between the dispatcher and a handler is not stuck; one
that does is stuck for good as soon as the other handlers have come to rest. -/
theorem deadlock_iff_cycle {s : Bus H} {acts : List (BusAction ε π)}
    (hrun : FreeRun step (start H) acts s) :
    (GuardedRun step Apart (start H) acts s → ¬ s.Stuck) ∧
    (¬ GuardedRun step Apart (start H) acts s →
      ∃ (later : List (BusAction ε π)) (u : Bus H), (∀ a ∈ later, a.ofTask) ∧
        FreeRun step s later u ∧ u.Stuck) := by
  have hopen := open_iff_apart hrun
  constructor
  · exact fun hapart => not_stuck (orderly_of_run hrun) (hopen.mpr hapart)
  · intro hclosed
    apply stuck_of_wedged
    by_contra hne
    exact hclosed (hopen.mp hne)

end Bus

/-- The plugin whose queue the dispatcher waits on. -/
def Dispatcher.awaited {ε π : Type} {H : Host ε π} : Dispatcher H → Option π
  | .awaiting _ p _ _ _ => some p
  | _ => none

theorem Dispatcher.eq_awaiting {ε π : Type} {H : Host ε π} {d : Dispatcher H} {p : π}
    (h : d.awaited = some p) : ∃ e left suffix wanted, d = .awaiting e p left suffix wanted := by
  cases d with
  | awaiting e q left suffix wanted =>
      cases h
      exact ⟨e, left, suffix, wanted, rfl⟩
  | receiving => cases h
  | fanning => cases h
  | stopped => cases h

set_option synthInstance.maxSize 256 in
/-- Queues of one event: the dispatcher holds a third detection for a plugin whose queue is full,
and the plugin's handler waits with a score for a slot of the full ingress. -/
theorem scoring_handler_deadlocks :
    ¬ ∀ (acts : List (BusAction String Bool)) (s : Bus narrowHost),
      FreeRun Bus.step (Bus.start narrowHost) acts s → ¬ s.Stuck := by
  intro h
  obtain ⟨s, hexec, hlog⟩ := Option.map_eq_some_iff.mp (show
    (execute Bus.step (fun _ _ => True) (Bus.start narrowHost)
      [.emit none "detection", .receive 0, .next, .next, .next, .handle true, .handle false,
        .finish false, .emit none "detection", .receive 0, .next, .next, .next, .handle false,
        .finish false, .emit none "detection", .receive 0, .next, .emit none "detection",
        .emit (some true) "score"]).map (fun s =>
          (s.dispatcher.awaited, s.task true, s.task false, (s.queue true).items.length,
            (s.queue false).items, s.phase)) =
      some (some true, .sending, .idle, 1, [], .running) by decide +kernel)
  simp only [Prod.mk.injEq] at hlog
  obtain ⟨hwait, htrue, hfalse, hfull, hempty, hphase⟩ := hlog
  refine h _ s (run_of_execute hexec) (Bus.stuck_of_quiet ?_ ?_)
  · obtain ⟨e, left, hs, hw, hd⟩ := Dispatcher.eq_awaiting hwait
    exact ⟨e, true, left, hs, hw, hd, htrue, hfull⟩
  · intro p _
    cases p with
    | true =>
        simp [htrue]
    | false =>
        simp [hfalse, hempty, hphase]

theorem flooded_ingress_not_stuck :
    ∃ s : Bus narrowHost, s.senders = [(none, "alert")] ∧ ¬ s.Stuck := by
  obtain ⟨s, hexec, hlog⟩ := Option.map_eq_some_iff.mp (show
    (execute Bus.step (fun _ _ => True) (Bus.start narrowHost)
      [.emit none "detection", .receive 0, .emit none "heartbeat", .emit none "alert"]).map
        (fun s => s.senders) = some [(none, "alert")] by decide +kernel)
  have hrun := run_of_execute hexec
  refine ⟨s, hlog, (Bus.deadlock_iff_cycle hrun).1 (hrun.of_actions ?_)⟩
  intro a ha s
  simp only [List.mem_cons, List.not_mem_nil, or_false] at ha
  rcases ha with rfl | rfl | rfl | rfl <;> trivial

end Aegis

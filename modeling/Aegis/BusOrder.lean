import Aegis.Bus

/-!
# Order on the bus

For each plugin the accepted events split into those the dispatcher has dealt
with and those ahead of it. What reached the plugin's queue is a sublist of the
former, and of critical events it is everything the plugin wants while both
tasks are alive.
-/

namespace Aegis
namespace Bus
variable {ε π : Type} {H : Host ε π} [DecidableEq π]

structure Followed (s : Bus H) (p : π) (passed : List ε) : Prop where
  split : s.log.accepted = passed ++ s.ahead p
  order : (s.got p).Sublist (passed.filter (H.wants p))
  kept : s.task p ≠ .stopped → s.dispatcher ≠ .stopped →
    (s.got p).filter H.critical = (passed.filter (H.wants p)).filter H.critical

namespace Followed
variable {s u : Bus H} {p : π} {passed : List ε}

theorem same (h : Followed s p passed) (haccepted : u.log.accepted = s.log.accepted)
    (hahead : u.ahead p = s.ahead p) (hgot : u.got p = s.got p)
    (hlive : u.task p ≠ .stopped → u.dispatcher ≠ .stopped →
      s.task p ≠ .stopped ∧ s.dispatcher ≠ .stopped) : Followed u p passed where
  split := by rw [haccepted, hahead, h.split]
  order := by
    rw [hgot]
    exact h.order
  kept := by
    intro htask hd
    rw [hgot]
    exact h.kept (hlive htask hd).1 (hlive htask hd).2

theorem accept (h : Followed s p passed) {x : ε}
    (haccepted : u.log.accepted = s.log.accepted ++ [x]) (hahead : u.ahead p = s.ahead p ++ [x])
    (hgot : u.got p = s.got p)
    (hlive : u.task p ≠ .stopped → u.dispatcher ≠ .stopped →
      s.task p ≠ .stopped ∧ s.dispatcher ≠ .stopped) : Followed u p passed where
  split := by rw [haccepted, hahead, h.split, List.append_assoc]
  order := by
    rw [hgot]
    exact h.order
  kept := by
    intro htask hd
    rw [hgot]
    exact h.kept (hlive htask hd).1 (hlive htask hd).2

/-- The dispatcher is done with an event for the plugin, which did not get it. -/
theorem skip (h : Followed s p passed) {e : ε} (haccepted : u.log.accepted = s.log.accepted)
    (hahead : s.ahead p = e :: u.ahead p) (hgot : u.got p = s.got p)
    (hlive : u.task p ≠ .stopped → s.task p ≠ .stopped ∧ s.dispatcher ≠ .stopped ∧
      ¬ (H.wants p e ∧ H.critical e)) : Followed u p (passed ++ [e]) where
  split := by rw [haccepted, h.split, hahead, List.append_assoc, List.singleton_append]
  order := by
    rw [hgot, List.filter_append]
    exact h.order.trans (List.sublist_append_left _ _)
  kept := by
    intro htask _
    obtain ⟨hlive, hdisp, hneither⟩ := hlive htask
    have hnone : ([e].filter (H.wants p)).filter H.critical = [] := by
      simp only [List.filter_filter, List.filter_eq_nil_iff, List.mem_singleton, forall_eq,
        Bool.and_eq_true]
      exact fun hboth => hneither ⟨hboth.2, hboth.1⟩
    rw [hgot, List.filter_append, List.filter_append, hnone, List.append_nil]
    exact h.kept hlive hdisp

theorem queued (h : Followed s p passed) {e : ε} (haccepted : u.log.accepted = s.log.accepted)
    (hahead : s.ahead p = e :: u.ahead p) (hgot : u.got p = s.got p ++ [e]) (hw : H.wants p e)
    (hlive : s.task p ≠ .stopped ∧ s.dispatcher ≠ .stopped) : Followed u p (passed ++ [e]) where
  split := by rw [haccepted, h.split, hahead, List.append_assoc, List.singleton_append]
  order := by
    rw [hgot, List.filter_append, List.filter_cons_of_pos hw, List.filter_nil]
    exact h.order.append (List.Sublist.refl _)
  kept := by
    intro _ _
    rw [hgot, List.filter_append, List.filter_append, List.filter_cons_of_pos hw, List.filter_nil,
      List.filter_append, h.kept hlive.1 hlive.2]

theorem ended (h : Followed s p passed) (haccepted : u.log.accepted = s.log.accepted)
    (hahead : u.ahead p = s.ahead p) (hgot : (u.got p).Sublist (s.got p))
    (htask : u.task p = .stopped) : Followed u p passed where
  split := by rw [haccepted, hahead, h.split]
  order := hgot.trans h.order
  kept := fun hlive => absurd htask hlive

theorem closed (h : Followed s p passed) (haccepted : u.log.accepted = s.log.accepted)
    (hahead : u.ahead p = []) (hgot : u.got p = s.got p) (hd : u.dispatcher = .stopped) :
    Followed u p (passed ++ s.ahead p) where
  split := by rw [haccepted, hahead, h.split, List.append_nil]
  order := by
    rw [hgot, List.filter_append]
    exact h.order.trans (List.sublist_append_left _ _)
  kept := fun _ hlive => absurd hd hlive

end Followed

theorem ahead_past {s u : Bus H} {e : ε} {p q : π} {left : List π} {hleft : left <:+ H.plugins}
    (hd : s.dispatcher.held p = if p ∈ q :: left then [e] else [])
    (hu : u.dispatcher = .fanning e left hleft) (hingress : u.ingress = s.ingress) (hq : p ≠ q) :
    u.ahead p = s.ahead p := by
  have hmem : p ∈ q :: left ↔ p ∈ left := by
    rw [List.mem_cons]
    exact ⟨fun h => h.resolve_left hq, Or.inr⟩
  simp only [ahead, hd, hmem, hingress]
  rw [hu, Dispatcher.held]

theorem ahead_past_self {s u : Bus H} {e : ε} {p : π} {left : List π}
    {h : p :: left <:+ H.plugins} {hleft : left <:+ H.plugins}
    (hd : s.dispatcher.held p = if p ∈ p :: left then [e] else [])
    (hu : u.dispatcher = .fanning e left hleft) (hingress : u.ingress = s.ingress) :
    s.ahead p = e :: u.ahead p := by
  simp only [ahead, hd, List.mem_cons_self, if_true, hingress]
  rw [hu, Dispatcher.held]
  simp only [not_mem_left h, if_false, List.nil_append, List.singleton_append]

omit [DecidableEq π] in
theorem got_handled {s : Bus H} {p : π} {e : ε} {queue : Channel ε H.depth}
    (h : (s.queue p).recv = some (e, queue)) :
    s.got p = s.log.delivered p ++ [e] ++ queue.items := by
  rw [got, Channel.recv_some h, List.append_assoc, List.singleton_append]

/-- A step that leaves channels, dispatcher and history alone as far as the plugin can see. -/
theorem Followed.still {s u : Bus H} {p : π} {passed : List ε} (h : Followed s p passed)
    (haccepted : u.log.accepted = s.log.accepted) (hingress : u.ingress = s.ingress)
    (hd : u.dispatcher = s.dispatcher) (hqueue : u.queue = s.queue)
    (hdelivered : u.log.delivered = s.log.delivered)
    (hlive : u.task p ≠ .stopped → u.dispatcher ≠ .stopped → s.task p ≠ .stopped) :
    Followed u p passed := by
  apply h.same haccepted
  · simp only [ahead, Dispatcher.held, hingress, hd]
  · simp only [got, hqueue, hdelivered]
  · intro htask hdisp
    exact ⟨hlive htask hdisp, hd ▸ hdisp⟩

/-- The dispatcher goes past a route. -/
theorem Followed.past {s u : Bus H} {e : ε} {p q : π} {left : List π} {passed : List ε}
    {h : q :: left <:+ H.plugins} {hleft : left <:+ H.plugins} (hf : Followed s p passed)
    (hheld : ∀ p, s.dispatcher.held p = if p ∈ q :: left then [e] else [])
    (hd : s.dispatcher ≠ .stopped) (hu : u.dispatcher = .fanning e left hleft)
    (hingress : u.ingress = s.ingress)
    (haccepted : u.log.accepted = s.log.accepted) (htask : u.task = s.task)
    (hother : p ≠ q → u.got p = s.got p)
    (hself : p = q → (u.got p = s.got p ∧
        (s.task p = .stopped ∨ ¬ (H.wants p e ∧ H.critical e))) ∨
      (H.wants p e ∧ s.task p ≠ .stopped ∧ u.got p = s.got p ++ [e])) :
    ∃ passed, Followed u p passed := by
  by_cases hq : p = q
  · subst hq
    have hahead := ahead_past_self (h := h) (hheld p) hu hingress
    apply Exists.intro (passed ++ [e])
    rcases hself rfl with ⟨hgot, hlost⟩ | ⟨hw, hlive, hgot⟩
    · apply hf.skip haccepted hahead hgot
      intro hlive
      rw [htask] at hlive
      exact ⟨hlive, hd, hlost.resolve_left hlive⟩
    · exact hf.queued haccepted hahead hgot hw ⟨hlive, hd⟩
  · apply Exists.intro passed
    apply hf.same haccepted (ahead_past (hheld p) hu hingress hq) (hother hq)
    intro hlive _
    rw [htask] at hlive
    exact ⟨hlive, hd⟩

theorem held_fanning {s : Bus H} {e : ε} {left : List π} {h : left <:+ H.plugins}
    (hd : s.dispatcher = .fanning e left h) (p : π) :
    s.dispatcher.held p = if p ∈ left then [e] else [] := by
  rw [hd, Dispatcher.held]

theorem held_awaiting {s : Bus H} {e : ε} {q : π} {left : List π} {h : q :: left <:+ H.plugins}
    {hw : H.wants q e} (hd : s.dispatcher = .awaiting e q left h hw) (p : π) :
    s.dispatcher.held p = if p ∈ q :: left then [e] else [] := by
  rw [hd, Dispatcher.held]

theorem got_enqueue {s : Bus H} {p q : π} {e : ε} {queue : Channel ε H.depth}
    (hroom : (s.queue q).trySend e = some queue) :
    (p ≠ q → (s.enqueue q queue).got p = s.got p) ∧
      (p = q → (s.enqueue q queue).got p = s.got p ++ [e]) := by
  constructor
  · intro hq
    simp only [got, enqueue, Function.update_of_ne hq]
  · intro hq
    subst hq
    simp only [got, enqueue, Function.update_self, (Channel.trySend_some hroom).1,
      List.append_assoc]

theorem task_resume (s : Bus H) (who : Option π) (p : π) :
    (s.resume who).task p = if who = some p then .handling else s.task p := by
  cases who with
  | none => rfl
  | some q =>
      simp only [resume, setTask, Function.update_apply, Option.some.injEq]
      by_cases hq : p = q
      · rw [if_pos hq, if_pos hq.symm]
      · rw [if_neg hq, if_neg (Ne.symm hq)]

theorem Parked.task_of_turn {s : Bus H} (h : s.Parked) {turn : ℕ} {p : π} {e : ε}
    (hturn : s.senders[turn]? = some (some p, e)) : s.task p = .sending := by
  have hcount := count_map_eraseIdx Prod.fst hturn (some p)
  rw [h p, if_pos BEq.rfl] at hcount
  cases htask : s.task p with
  | sending => rfl
  | _ =>
      rw [htask] at hcount
      simp only [PluginTask.sends] at hcount
      omega

theorem Followed.endTask {s : Bus H} {p : π} {passed : List ε} (h : Followed s p passed) (q : π) :
    Followed (s.endTask q) p passed := by
  by_cases hq : p = q
  · subst hq
    refine h.ended rfl rfl ?_ ?_
    · simp only [got, Bus.endTask, setTask, enqueue, vanish, Function.update_self,
        Channel.empty_items, List.append_nil]
      exact List.sublist_append_left _ _
    · simp only [Bus.endTask, setTask, Function.update_self]
  · refine h.same rfl rfl ?_ ?_
    · simp only [got, Bus.endTask, setTask, enqueue, vanish, Function.update_of_ne hq]
    · intro htask hd
      simp only [Bus.endTask, setTask, enqueue, vanish, Function.update_of_ne hq] at htask
      exact ⟨htask, hd⟩

theorem Followed.step {s u : Bus H} {a : BusAction ε π} {p : π} {passed : List ε}
    (h : Followed s p passed) (hp : p ∈ H.plugins) (hparked : s.Parked)
    (happens : Happens s a u) : ∃ passed, Followed u p passed := by
  cases happens with
  | emitClosed => exact ⟨passed, h.still rfl rfl rfl rfl rfl fun htask _ => htask⟩
  | @emitAccepted who e ingress ready hd hroom =>
      apply Exists.intro passed
      refine h.accept rfl ?_ ?_ ?_
      · have hitems := (Channel.trySend_some hroom).1
        change s.dispatcher.held p ++ ingress.items = s.dispatcher.held p ++ s.ingress.items ++ [e]
        rw [hitems, List.append_assoc]
      · rfl
      · exact fun htask hd => ⟨htask, hd⟩
  | @emitWaits who e ready hd hfull hc =>
      apply Exists.intro passed
      cases who with
      | none => exact h.still rfl rfl rfl rfl rfl fun htask _ => htask
      | some q =>
          refine h.still rfl rfl rfl rfl rfl ?_
          intro htask _
          by_cases hq : p = q
          · simp [hq, ready.2]
          · simp only [Bus.await, setTask, Function.update_of_ne hq] at htask
            exact htask
  | emitDropped => exact ⟨passed, h.still rfl rfl rfl rfl rfl fun htask _ => htask⟩
  | @receive turn e ingress hd hrecv hsenders =>
      apply Exists.intro passed
      refine h.same rfl ?_ ?_ ?_
      · simp only [ahead, Dispatcher.held, hd, hp, if_true, Channel.recv_some hrecv,
          List.nil_append, List.singleton_append]
      · rfl
      · exact fun htask _ => ⟨htask, by simp [hd]⟩
  | @receiveGrant turn e x who ingress ingress' hd hrecv hturn hroom =>
      apply Exists.intro passed
      have hresume : ∀ s : Bus H, (s.resume who).ingress = s.ingress ∧
          (s.resume who).log = s.log ∧ (s.resume who).queue = s.queue := by
        intro s
        cases who <;> exact ⟨rfl, rfl, rfl⟩
      refine h.accept (x := x) ?_ ?_ ?_ ?_
      · simp only [(hresume _).2.1]
        rfl
      · simp only [ahead, Dispatcher.held, hd, hp, if_true, (hresume _).1, Bus.accept,
          Channel.recv_some hrecv, (Channel.trySend_some hroom).1, List.nil_append,
          List.cons_append]
      · simp only [got, (hresume _).2.1, (hresume _).2.2, Bus.accept]
      · intro htask _
        refine ⟨?_, by simp [hd]⟩
        simp only [task_resume] at htask
        split at htask
        · rename_i hwho
          subst hwho
          simp [hparked.task_of_turn hturn]
        · exact htask
  | @nextDone e hnil hd =>
      apply Exists.intro passed
      refine h.same rfl ?_ ?_ ?_
      · simp only [ahead, Dispatcher.held, hd, List.not_mem_nil, if_false]
      · rfl
      · exact fun htask _ => ⟨htask, by simp [hd]⟩
  | @nextUnwanted e q left hq hleft hd hw =>
      refine h.past (h := hq) (held_fanning hd) (by simp [hd]) rfl rfl rfl rfl
        (fun _ => rfl) ?_
      intro hpq
      subst hpq
      exact .inl ⟨rfl, .inr fun hboth => hw hboth.1⟩
  | @nextGone e q left hq hleft hd hw htask =>
      refine h.past (h := hq) (held_fanning hd) (by simp [hd]) rfl rfl rfl rfl
        (fun _ => rfl) ?_
      intro hpq
      subst hpq
      exact .inl ⟨rfl, .inl htask⟩
  | @nextRoom e q left hq hleft queue hd hw htask hroom =>
      have hgot := got_enqueue (p := p) hroom
      refine h.past (h := hq) (held_fanning hd) (by simp [hd]) rfl rfl rfl rfl
        hgot.1 ?_
      intro hpq
      subst hpq
      exact .inr ⟨hw, htask, hgot.2 rfl⟩
  | @nextAwait e q left hq hd hw htask hfull hc =>
      apply Exists.intro passed
      refine h.same rfl ?_ ?_ ?_
      · simp only [ahead, Dispatcher.held, hd]
      · rfl
      · exact fun htask _ => ⟨htask, by simp [hd]⟩
  | @nextDropped e q left hq hleft hd hw htask hfull hc =>
      refine h.past (h := hq) (held_fanning hd) (by simp [hd]) rfl rfl rfl rfl
        (fun _ => rfl) ?_
      intro hpq
      subst hpq
      exact .inl ⟨rfl, .inr fun hboth => hc hboth.2⟩
  | @slotGone e q left hq hleft hw hd htask =>
      refine h.past (h := hq) (held_awaiting hd) (by simp [hd]) rfl rfl rfl rfl
        (fun _ => rfl) ?_
      intro hpq
      subst hpq
      exact .inl ⟨rfl, .inl htask⟩
  | @slotRoom e q left hq hleft hw queue hd htask hroom =>
      have hgot := got_enqueue (p := p) hroom
      refine h.past (h := hq) (held_awaiting hd) (by simp [hd]) rfl rfl rfl rfl
        hgot.1 ?_
      intro hpq
      subst hpq
      exact .inr ⟨hw, htask, hgot.2 rfl⟩
  | @bounce turn who e hd hturn =>
      apply Exists.intro passed
      cases who <;> exact h.still rfl rfl rfl rfl rfl fun _ hlive => absurd hd hlive
  | @handle q e queue hq htask hrecv =>
      apply Exists.intro passed
      refine h.same rfl rfl ?_ ?_
      · by_cases hpq : p = q
        · subst hpq
          rw [got_handled hrecv]
          simp only [got, setTask, enqueue, Function.update_self]
        · simp only [got, setTask, enqueue, Function.update_of_ne hpq]
      · intro htask' hd
        refine ⟨?_, hd⟩
        by_cases hpq : p = q
        · simp [hpq, htask]
        · simp only [setTask, enqueue, Function.update_of_ne hpq] at htask'
          exact htask'
  | @finish q hq htask =>
      apply Exists.intro passed
      refine h.still rfl rfl rfl rfl rfl ?_
      intro htask' _
      by_cases hpq : p = q
      · simp [hpq, htask]
      · simp only [setTask, Function.update_of_ne hpq] at htask'
        exact htask'
  | crash => exact ⟨passed, h.endTask _⟩
  | shutdown => exact ⟨passed, h.still rfl rfl rfl rfl rfl fun htask _ => htask⟩
  | stopDispatcher hd hphase =>
      exact ⟨_, h.closed rfl rfl rfl rfl⟩
  | stopTask => exact ⟨passed, h.endTask _⟩
  | returns => exact ⟨passed, h.still rfl rfl rfl rfl rfl fun htask _ => htask⟩

omit [DecidableEq π] in
theorem critical_iff {e : ε} :
    H.critical e ↔ H.kind e = "alert" ∨ H.kind e = "detection" ∨ H.kind e = "score" := by
  simp only [Host.critical, isCriticalKind, Bool.or_eq_true, beq_iff_eq, or_assoc]

theorem followed_of_run {s : Bus H} {acts : List (BusAction ε π)}
    (hrun : FreeRun step (start H) acts s) {p : π} (hp : p ∈ H.plugins) :
    ∃ passed, Followed s p passed := by
  have hstart : (start H).Parked ∧ ∃ passed, Followed (start H) p passed := by
    constructor
    · exact fun _ => rfl
    · exact ⟨[], rfl, List.Sublist.refl _, fun _ _ => rfl⟩
  refine (hrun.invariant (fun s => s.Parked ∧ ∃ passed, Followed s p passed) ?_ hstart).2
  rintro s a u ⟨hparked, passed, h⟩ - hstep
  have happens := step_happens hstep
  exact ⟨hparked.step happens, h.step hp hparked happens⟩

theorem serving_of_run {s : Bus H} {acts : List (BusAction ε π)}
    (hrun : FreeRun step (start H) acts s) : s.Serving :=
  hrun.invariant Serving (fun _ _ _ h _ hstep => h.step (step_happens hstep)) fun _ => nofun

/-- Before shutdown and with every handler alive, each plugin gets a sublist of what the ingress
accepted. Of the alerts, detections and scores it wants, those that were handled, that are in its
queue and that are ahead of the dispatcher are all there were, in their order. -/
theorem fanout_in_order {s : Bus H} {acts : List (BusAction ε π)}
    (hrun : FreeRun step (start H) acts s) (hphase : s.phase = .running)
    (hlive : ∀ p ∈ H.plugins, s.task p ≠ .stopped) {p : π} (hp : p ∈ H.plugins) :
    (s.log.delivered p).Sublist s.log.accepted ∧
    (s.log.delivered p ++ (s.queue p).items ++ (s.ahead p).filter (H.wants p)).Sublist
      (s.log.accepted.filter (H.wants p)) ∧
    (s.log.delivered p ++ (s.queue p).items ++ (s.ahead p).filter (H.wants p)).filter H.critical =
      (s.log.accepted.filter (H.wants p)).filter H.critical ∧
    ∀ e ∈ s.log.accepted, H.kind e = "alert" ∨ H.kind e = "detection" ∨ H.kind e = "score" →
      H.wants p e → e ∈ s.log.delivered p ∨ e ∈ (s.queue p).items ∨ e ∈ s.ahead p := by
  obtain ⟨passed, h⟩ := followed_of_run hrun hp
  have hserving := serving_of_run hrun hphase
  have hall : (s.log.delivered p ++ (s.queue p).items ++ (s.ahead p).filter (H.wants p)).Sublist
      (s.log.accepted.filter (H.wants p)) := by
    rw [h.split, List.filter_append]
    exact h.order.append (List.Sublist.refl _)
  have hcritical : (s.log.delivered p ++ (s.queue p).items ++
      (s.ahead p).filter (H.wants p)).filter H.critical =
      (s.log.accepted.filter (H.wants p)).filter H.critical := by
    have hkept := h.kept (hlive p hp) hserving
    rw [got] at hkept
    rw [h.split, List.filter_append, hkept, List.filter_append, List.filter_append]
  refine ⟨?_, hall, hcritical, ?_⟩
  · rw [List.append_assoc] at hall
    exact ((List.sublist_append_left _ _).trans hall).trans List.filter_sublist
  · intro e he hkind hw
    have hmem : e ∈ (s.log.accepted.filter (H.wants p)).filter H.critical :=
      List.mem_filter.mpr ⟨List.mem_filter.mpr ⟨he, hw⟩, critical_iff.mpr hkind⟩
    rw [← hcritical] at hmem
    simp only [List.mem_filter, List.mem_append, or_assoc] at hmem
    exact hmem.1.imp_right fun h => h.imp_right And.left

end Bus

/-- A host whose events are their kinds: plugin `true` takes detections and commands, plugin
`false` takes everything, and a queue holds one event. -/
def narrowHost : Host String Bool where
  kind := id
  depth := 1
  depth_pos := Nat.one_pos
  plugins := [true, false]
  nodup := by decide
  subscriptions
    | true => .kinds ["detection", "command.observed"]
    | false => .all

theorem fanout_in_order_of_flood :
    ∃ s : Bus narrowHost, s.log.accepted = ["detection", "command.observed", "detection"] ∧
      s.log.delivered true = ["detection", "detection"] ∧
      (s.log.delivered true).Sublist s.log.accepted := by
  obtain ⟨s, hexec, hlog⟩ := Option.map_eq_some_iff.mp (show
    (execute Bus.step (fun _ _ => True) (Bus.start narrowHost)
      [.emit none "detection", .receive 0, .next, .next, .next, .handle false,
        .emit none "command.observed", .receive 0, .next, .next, .next, .handle true, .finish true,
        .finish false, .handle false, .emit none "detection", .receive 0, .next, .next, .next,
        .handle true]).map (fun s => (s.log.accepted, s.log.delivered true, s.phase,
          s.task true, s.task false)) =
      some (["detection", "command.observed", "detection"], ["detection", "detection"], .running,
        .handling, .handling) by decide +kernel)
  simp only [Prod.mk.injEq] at hlog
  obtain ⟨haccepted, hdelivered, hphase, htrue, hfalse⟩ := hlog
  have hlive : ∀ p ∈ narrowHost.plugins, s.task p ≠ .stopped := by
    intro p _
    cases p with
    | true => rw [htrue]; nofun
    | false => rw [hfalse]; nofun
  exact ⟨s, haccepted, hdelivered, (Bus.fanout_in_order (run_of_execute hexec) hphase hlive
    (p := true) (by decide)).1⟩

end Aegis

import Aegis.SessionTracking

/-!
# The offline replay of the sequential test

`run_session_sequential` replays the events of one session against an accumulator
of its own, with a cadence counter, an average and a latch written out beside the
detector's. The two stay in step: the detector escalates exactly if the replay
latches, and the replay's verdict is the one the detector ends with.
-/

namespace Aegis
variable {F : Type}

/-- One synthesized event, in arrival order. -/
inductive SynthEvent (F : Type) where
  | keystroke (interArrivalNs : UInt64) (isPaste : Bool) (burstLen : UInt32)
  | command (interCommandNs : UInt64) (hadBackspace : Bool) (entropy : F)

namespace SynthEvent

def apply [F64 F] (acc : SessionAccumulator F) : SynthEvent F → SessionAccumulator F
  | .keystroke interArrivalNs isPaste burstLen =>
      acc.recordKeystroke interArrivalNs isPaste burstLen
  | .command interCommandNs hadBackspace entropy =>
      acc.recordCommand interCommandNs hadBackspace entropy

/-- The synthesized event with the timings of a session's telemetry. -/
def ofPayload (sessionId : String) : EventPayload F → Option (SynthEvent F)
  | .keystroke id interArrivalNs isPaste burstLen =>
      if id = sessionId then some (.keystroke interArrivalNs isPaste burstLen) else none
  | .commandObserved id _ _ shannonEntropy hadBackspace _ interCommandNs _ =>
      if id = sessionId then some (.command interCommandNs hadBackspace shannonEntropy) else none
  | _ => none

theorem telemetry_of_ofPayload [F64 F] {sessionId : String} {payload : EventPayload F}
    {e : SynthEvent F} (h : ofPayload sessionId payload = some e) :
    payload.telemetry = some (sessionId, fun acc => e.apply acc) := by
  cases payload with
  | keystroke id =>
      rw [ofPayload] at h
      split_ifs at h with hid
      cases h
      rw [← hid]
      rfl
  | commandObserved id =>
      rw [ofPayload] at h
      split_ifs at h with hid
      cases h
      rw [← hid]
      rfl
  | _ => cases h

end SynthEvent

namespace Eval
variable [F64 F]

/-- The local variables of the loop. -/
structure Sequential (F : Type) where
  acc : SessionAccumulator F
  sinceLastAssess : ℕ
  ewmaLogit : F
  ewmaInited : Bool
  escalated : Bool

def Sequential.start : Sequential F := ⟨{}, 0, F64.lit 0, false, false⟩

variable (model : Model F) (ewmaAlpha escalateLogit : F) (assessEvery : ℕ)

/-- One sequential step on the current accumulator. -/
def step (s : Sequential F) : Sequential F :=
  match s.acc.features with
  | none => s
  | some f =>
      let a := model.assess f
      let llr := Model.logLikelihoodRatio a
      let ewmaLogit := if s.ewmaInited then
        ewmaAlpha * llr + (F64.lit 1 - ewmaAlpha) * s.ewmaLogit else llr
      { s with
        ewmaLogit := ewmaLogit
        ewmaInited := true
        escalated := if F64.le escalateLogit ewmaLogit && decide (a.verdict = .uncertain) &&
          !s.escalated then true else s.escalated }

/-- One round of the loop. -/
def feed (s : Sequential F) (e : SynthEvent F) : Sequential F :=
  let s := { s with acc := e.apply s.acc, sinceLastAssess := s.sinceLastAssess + 1 }
  if assessEvery ≤ s.sinceLastAssess then
    step model ewmaAlpha escalateLogit { s with sinceLastAssess := 0 }
  else s

/-- The loop over all events. -/
def loop (events : List (SynthEvent F)) : Sequential F :=
  events.foldl (feed model ewmaAlpha escalateLogit assessEvery) .start

/-- The loop and the final forced step. -/
def latched (events : List (SynthEvent F)) : Sequential F :=
  step model ewmaAlpha escalateLogit (loop model ewmaAlpha escalateLogit assessEvery events)

/-- `run_session_sequential` on given events: the verdict of a single assessment at the end, and
the one of the sequential test. -/
def runSessionSequential (events : List (SynthEvent F)) : Verdict × Verdict :=
  let acc := (loop model ewmaAlpha escalateLogit assessEvery events).acc
  let singleShot := (acc.features.map fun f => (model.assess f).verdict).getD .uncertain
  let seqVerdict := if (latched model ewmaAlpha escalateLogit assessEvery events).escalated
    then .agent else singleShot
  (singleShot, seqVerdict)

theorem step_escalated (s : Sequential F) (n : ℕ) :
    (step model ewmaAlpha escalateLogit { s with sinceLastAssess := n }).escalated =
      (step model ewmaAlpha escalateLogit s).escalated := by
  unfold step
  dsimp only
  cases s.acc.features <;> rfl

end Eval

namespace Model
variable [F64 F]

theorem hardRules_reasons (f : FeatureVector F) (pAgent : F) {name : String}
    (h : name ∈ (hardRules f pAgent).2) : name ∈ ["physiological-floor+paste",
      "reaction-time-floor", "uncorrelated-flat-throughput"] := by
  rcases mem_ratchet h with ⟨-, rfl⟩ | h
  · decide
  rcases mem_ratchet h with ⟨-, rfl⟩ | h
  · decide
  rcases mem_ratchet h with ⟨-, rfl⟩ | h
  · decide
  · cases h

theorem not_mem_reasons (m : Model F) (f : FeatureVector F) :
    "sequential-escalation" ∉ (m.assess f).reasons := by
  have hnames : (terms f).map Term.name = ["metronomic-typing", "paste-injection",
      "instant-reaction", "errorless-input", "dense-commands", "regular-cadence",
      "gap-non-autocorrelation", "constant-think-time", "no-throughput-decay",
      "whole-line-injection", "burst-metronome"] := rfl
  rw [assess_reasons, List.mem_append]
  rintro (hrule | hterm)
  · split_ifs at hrule
    · cases hrule
    · exact absurd (hardRules_reasons f _ hrule) (by decide)
  · obtain ⟨t, ht, hname⟩ := List.mem_map.mp (mem_contributions hterm)
    have hmem : t.name ∈ (terms f).map Term.name :=
      List.mem_map_of_mem (List.mem_of_mem_filter ht)
    rw [hname, hnames] at hmem
    exact absurd hmem (by decide)

end Model

namespace EventPayload

/-- A detection with the reason of the sequential test. -/
def escalation : EventPayload F → Bool
  | .detection _ _ _ _ reasons _ => decide ("sequential-escalation" ∈ reasons)
  | _ => false

def verdict? : EventPayload F → Option Verdict
  | .detection _ verdict _ _ _ _ => some verdict
  | _ => none

end EventPayload

namespace AgentDetect
variable [F64 F] (model : Model F) (config : DetectConfig F)

/-- What the detector emits on a history, from given sessions. -/
def emissions : Detector F → History F → List (EventPayload F)
  | _, [] => []
  | d, x :: rest =>
      (handle model config d x.1 x.2).2 ++ emissions (handle model config d x.1 x.2).1 rest

/-- The sessions after a history. -/
def after (d : Detector F) (history : History F) : Detector F :=
  history.foldl (fun d x => (handle model config d x.1 x.2).1) d

/-- The replay's view of a session. -/
def mirror (state : SessionState F) : Eval.Sequential F :=
  ⟨state.acc, state.sinceLastAssess, state.ewmaLogit, state.ewmaInited, state.escalated⟩

theorem assess_due {sessionId : String} {state : SessionState F}
    (h : config.assessEvery ≤ state.sinceLastAssess) :
    assessSession model config sessionId false state =
      assessSession model config sessionId true state := by
  simp [assessSession, not_lt.mpr h]

theorem assess_early {sessionId : String} {state : SessionState F}
    (h : ¬config.assessEvery ≤ state.sinceLastAssess) :
    assessSession model config sessionId false state = (state, []) := by
  simp [assessSession, not_le.mp h]

/-- A detection names the sequential test exactly where it escalates. -/
theorem detection_escalation (sessionId : String) (f : FeatureVector F) (ewma : F)
    (escalated : Bool) :
    (detection config sessionId f (model.assess f) ewma escalated).1.verdict? =
      some (if (detection config sessionId f (model.assess f) ewma escalated).1.escalation
        then .agent else (model.assess f).verdict) ∧
    (detection config sessionId f (model.assess f) ewma escalated).2 =
      ((detection config sessionId f (model.assess f) ewma escalated).1.escalation ||
        escalated) := by
  by_cases hfires : (F64.le config.escalateLogit ewma &&
      decide ((model.assess f).verdict = .uncertain) && !escalated) = true
  · rw [detection, if_pos hfires]
    simp [EventPayload.escalation, EventPayload.verdict?]
  · rw [detection, if_neg hfires]
    have hreason := model.not_mem_reasons f
    simp [EventPayload.escalation, EventPayload.verdict?, hreason]

/-- An assessment is one step of the replay, and what it emits tells whether it latched. -/
theorem assess_mirrors (sessionId : String) (state : SessionState F) :
    mirror (assessSession model config sessionId true state).1 =
      Eval.step model config.ewmaAlpha config.escalateLogit
        { mirror state with sinceLastAssess := 0 } ∧
    (assessSession model config sessionId true state).1.escalated =
      ((assessSession model config sessionId true state).2.any EventPayload.escalation ||
        state.escalated) ∧
    (state.acc.features = none → (assessSession model config sessionId true state).2 = []) ∧
    ∀ f, state.acc.features = some f → ∃ p,
      (assessSession model config sessionId true state).2 = [p] ∧
      p.verdict? = some (if p.escalation then .agent else (model.assess f).verdict) := by
  have hforced : assessSession model config sessionId true state =
      (match state.acc.features with
      | none => ({ state with sinceLastAssess := 0 }, [])
      | some features =>
          let a := model.assess features
          let ewma := foldLogit config { state with sinceLastAssess := 0 }
            (Model.logLikelihoodRatio a)
          let d := detection config sessionId features a ewma state.escalated
          ({ state with
            sinceLastAssess := 0
            ewmaLogit := ewma
            ewmaInited := true
            escalated := d.2 }, [d.1])) := by
    unfold assessSession
    exact if_neg (by simp)
  rw [hforced]
  cases hfeatures : state.acc.features with
  | none =>
      refine ⟨?_, rfl, fun _ => rfl, nofun⟩
      simp only [Eval.step, mirror, hfeatures]
  | some f =>
      obtain ⟨ewma, hewma⟩ : ∃ ewma, ewma = foldLogit config { state with sinceLastAssess := 0 }
        (Model.logLikelihoodRatio (model.assess f)) := ⟨_, rfl⟩
      have hstep : Eval.step model config.ewmaAlpha config.escalateLogit
          { mirror state with sinceLastAssess := 0 } =
            ⟨state.acc, 0, ewma, true, if F64.le config.escalateLogit ewma &&
              decide ((model.assess f).verdict = .uncertain) && !state.escalated then true
              else state.escalated⟩ := by
        rw [hewma]
        simp only [Eval.step, mirror, hfeatures]
        rfl
      rw [hstep]
      dsimp only
      rw [← hewma]
      obtain ⟨hverdict, hlatch⟩ := detection_escalation model config sessionId f ewma
        state.escalated
      refine ⟨?_, ?_, nofun, ?_⟩
      · unfold detection
        split_ifs <;> rfl
      · rw [hlatch, List.any_cons, List.any_nil, Bool.or_false]
      · rintro _ ⟨⟩
        exact ⟨_, rfl, hverdict⟩

theorem handle_tracked {d : Detector F} {sessionId : String} {state : SessionState F}
    (hstate : d.get? sessionId = some state) {now : UInt64} {payload : EventPayload F}
    {record : SessionAccumulator F → SessionAccumulator F}
    (h : payload.telemetry = some (sessionId, record))
    (hidle : Within config state.lastActivityNs now) :
    (handle model config d now payload).1.get? sessionId =
      some (assessSession model config sessionId false (state.noted now record)).1 ∧
    (handle model config d now payload).2 =
      (assessSession model config sessionId false (state.noted now record)).2 := by
  have hkept : (evictIdle d now config.ttlNs).get? sessionId = some state :=
    get?_evictIdle.mpr ⟨hstate, hidle⟩
  rw [handle_of_telemetry model config h, observe_eq, tracked]
  obtain ⟨kept, hname⟩ : ∃ kept, kept = evictIdle d now config.ttlNs := ⟨_, rfl⟩
  rw [← hname] at hkept ⊢
  rw [hkept]
  dsimp only
  rw [maybeEmit_tracked model config false (OrderedTable.get?_insert_self _ _ _)]
  exact ⟨OrderedTable.get?_insert_self _ _ _, rfl⟩

/-- More telemetry never takes the evidence below what an assessment needs. -/
theorem features_apply {acc : SessionAccumulator F} (h : acc.features.isSome = true)
    (e : SynthEvent F) : (e.apply acc).features.isSome = true := by
  have hiff : ∀ a : SessionAccumulator F, a.features.isSome = a.enoughEvidence := by
    intro a
    unfold SessionAccumulator.features
    cases a.enoughEvidence <;> rfl
  rw [hiff, SessionAccumulator.enoughEvidence, Bool.and_eq_true, decide_eq_true_eq,
    decide_eq_true_eq] at h ⊢
  cases e with
  | keystroke interArrivalNs isPaste burstLen =>
      exact ⟨h.1.trans (Nat.le_add_right _ _), h.2⟩
  | command interCommandNs hadBackspace entropy =>
      exact ⟨h.1, h.2.trans (Nat.le_add_right _ _)⟩

/-- The detector and the loop of the replay are in step: what the session holds is what the loop
holds, it escalated exactly if it said so or had before, and where it said anything there is
enough evidence. -/
structure InStep (start state : SessionState F) (s : Eval.Sequential F)
    (emitted : List (EventPayload F)) : Prop where
  mirrors : mirror state = s
  latch : state.escalated = (emitted.any EventPayload.escalation || start.escalated)
  evidence : start.acc.features.isSome = true ∨ emitted ≠ [] → state.acc.features.isSome = true

theorem feed_inStep (sessionId : String) (state : SessionState F) (now : UInt64)
    (e : SynthEvent F) :
    InStep state
      (assessSession model config sessionId false (state.noted now fun acc => e.apply acc)).1
      (Eval.feed model config.ewmaAlpha config.escalateLogit config.assessEvery (mirror state) e)
      (assessSession model config sessionId false
        (state.noted now fun acc => e.apply acc)).2 := by
  obtain ⟨noted, hnoted⟩ : ∃ noted, noted = state.noted now fun acc => e.apply acc := ⟨_, rfl⟩
  have hsame : mirror noted = { mirror state with
      acc := e.apply state.acc
      sinceLastAssess := state.sinceLastAssess + 1 } := by
    rw [hnoted]
    rfl
  have hescalated : noted.escalated = state.escalated := by
    rw [hnoted]
    rfl
  have hacc : state.acc.features.isSome = true → noted.acc.features.isSome = true := by
    rw [hnoted]
    exact fun h => features_apply h e
  rw [← hnoted, Eval.feed]
  by_cases hdue : config.assessEvery ≤ noted.sinceLastAssess
  · have hdue' : config.assessEvery ≤ (mirror state).sinceLastAssess + 1 := by
      rwa [hnoted] at hdue
    obtain ⟨hmirror, hlatch, hnone, -⟩ := assess_mirrors model config sessionId noted
    rw [assess_due model config hdue, if_pos hdue']
    refine ⟨hmirror.trans (by rw [hsame]; rfl), by rw [hlatch, hescalated], ?_⟩
    rw [(assessSession_keeps model config sessionId true noted).1]
    rintro (hstart | hemitted)
    · exact hacc hstart
    · rw [Option.isSome_iff_ne_none]
      exact fun hfeatures => hemitted (hnone hfeatures)
  · have hearly : ¬config.assessEvery ≤ (mirror state).sinceLastAssess + 1 := by
      rwa [hnoted] at hdue
    rw [assess_early model config hdue, if_neg hearly]
    refine ⟨hsame, hescalated, ?_⟩
    rintro (hstart | hemitted)
    · exact hacc hstart
    · exact (hemitted rfl).elim

theorem run_inStep {sessionId : String} {feed : History F} {events : List (SynthEvent F)}
    (hsame : List.Forall₂ (fun x e => SynthEvent.ofPayload sessionId x.2 = some e) feed events)
    {d : Detector F} {state : SessionState F} (hstate : d.get? sessionId = some state)
    (hidle : List.IsChain (Within config) (state.lastActivityNs :: feed.map Prod.fst)) :
    ∃ state', (after model config d feed).get? sessionId = some state' ∧
      InStep state state' (events.foldl
        (Eval.feed model config.ewmaAlpha config.escalateLogit config.assessEvery) (mirror state))
        (emissions model config d feed) := by
  induction hsame generalizing d state with
  | nil =>
      refine ⟨state, hstate, rfl, rfl, ?_⟩
      rintro (hstart | hemitted)
      · exact hstart
      · exact (hemitted rfl).elim
  | @cons x e feed events hx hrest ih =>
      obtain ⟨hfirst, hrestidle⟩ := List.isChain_cons_cons.mp hidle
      obtain ⟨hget, hemits⟩ := handle_tracked model config hstate
        (SynthEvent.telemetry_of_ofPayload hx) hfirst
      have hfeed := feed_inStep model config sessionId state x.1 e
      rw [← hemits] at hfeed
      obtain ⟨next, hnext⟩ : ∃ next, next = (assessSession model config sessionId false
        (state.noted x.1 fun acc => e.apply acc)).1 := ⟨_, rfl⟩
      have hlast : next.lastActivityNs = x.1 := by
        rw [hnext, (assessSession_keeps model config sessionId false _).2]
        rfl
      rw [← hnext] at hget hfeed
      obtain ⟨state', hstate', hrun⟩ := ih hget (by rwa [hlast])
      refine ⟨state', hstate', ?_, ?_, ?_⟩
      · rw [hrun.mirrors, hfeed.mirrors]
        rfl
      · rw [hrun.latch, hfeed.latch, emissions, List.any_append]
        exact (Bool.or_left_comm _ _ _).trans (Bool.or_assoc _ _ _).symm
      · rintro (hstart | hemitted)
        · exact hrun.evidence (Or.inl (hfeed.evidence (Or.inl hstart)))
        · rw [emissions, ne_eq, List.append_eq_nil_iff, not_and_or] at hemitted
          rcases hemitted with hfirst | hlater
          · exact hrun.evidence (Or.inl (hfeed.evidence (Or.inr hfirst)))
          · exact hrun.evidence (Or.inr hlater)

theorem emissions_snoc (d : Detector F) (history : History F) (x : UInt64 × EventPayload F) :
    emissions model config d (history ++ [x]) = emissions model config d history ++
      (handle model config (after model config d history) x.1 x.2).2 := by
  induction history generalizing d with
  | nil => exact List.append_nil _
  | cons y history ih =>
      rw [List.cons_append, emissions, ih, emissions, List.append_assoc]
      rfl

/-- What the detector emits on a session that starts, is fed and ends. -/
def sessionEmits (d : Detector F) (sessionId : String) (start : UInt64 × EventPayload F)
    (feed : History F) (ended : UInt64) : List (EventPayload F) :=
  emissions model config d (start :: feed ++ [(ended, .sessionEnd sessionId)])

theorem handle_start {d : Detector F} {sessionId : String} (hnew : d.get? sessionId = none)
    {now : UInt64} {payload : EventPayload F} (hstart : payload.starts sessionId = true) :
    (handle model config d now payload).1.get? sessionId =
        some { SessionState.default with lastActivityNs := now } ∧
      (handle model config d now payload).2 = [] := by
  have hnone : (evictIdle d now config.ttlNs).get? sessionId = none := by
    rw [Option.eq_none_iff_forall_ne_some]
    intro state hstate
    rw [(get?_evictIdle.mp hstate).1] at hnew
    cases hnew
  cases payload with
  | sessionStart id =>
      obtain rfl : id = sessionId := eq_of_beq hstart
      obtain ⟨kept, hkept⟩ : ∃ kept, kept = evictIdle d now config.ttlNs := ⟨_, rfl⟩
      rw [handle, ← hkept]
      rw [← hkept] at hnone
      dsimp only
      rw [hnone]
      exact ⟨OrderedTable.get?_insert_self _ _ _, rfl⟩
  | _ => cases hstart

/-- Fed a session of its own from its start to its end, without a pause beyond the idle limit, the
detector gives the reason of the sequential test in a detection exactly if the replay of the same
telemetry latches. Where it emits anything, it ends with the forced detection, and the replay's
verdict is `agent` if some detection escalated or the forced one says so, and otherwise what the
forced one says. -/
theorem replay_agrees
    (hend : config.assessOnSessionEnd = true) {d : Detector F} {sessionId : String}
    (hnew : d.get? sessionId = none) {start : UInt64 × EventPayload F}
    (hstart : start.2.starts sessionId = true) {feed : History F} {events : List (SynthEvent F)}
    (hsame : List.Forall₂ (fun x e => SynthEvent.ofPayload sessionId x.2 = some e) feed events)
    (hidle : List.IsChain (Within config) (start.1 :: feed.map Prod.fst)) (ended : UInt64) :
    ((∃ p ∈ sessionEmits model config d sessionId start feed ended, p.escalation = true) ↔
      (Eval.latched model config.ewmaAlpha config.escalateLogit config.assessEvery
        events).escalated = true) ∧
    (sessionEmits model config d sessionId start feed ended ≠ [] → ∃ final v,
      sessionEmits model config d sessionId start feed ended =
        emissions model config d (start :: feed) ++ [final] ∧ final.verdict? = some v ∧
      ((Eval.runSessionSequential model config.ewmaAlpha config.escalateLogit
        config.assessEvery events).2 = .agent ↔
          (∃ p ∈ sessionEmits model config d sessionId start feed ended, p.escalation = true) ∨
            v = .agent) ∧
      (¬((∃ p ∈ sessionEmits model config d sessionId start feed ended, p.escalation = true) ∨
          v = .agent) →
        (Eval.runSessionSequential model config.ewmaAlpha config.escalateLogit
          config.assessEvery events).2 = v)) := by
  obtain ⟨hget, hquiet⟩ := handle_start model config hnew hstart
  obtain ⟨state, hstate, hrun⟩ := run_inStep model config hsame hget hidle
  have hloop : mirror state = Eval.loop model config.ewmaAlpha config.escalateLogit
      config.assessEvery events := hrun.mirrors
  obtain ⟨hmirror, hlatch, hnone, hsome⟩ := assess_mirrors model config sessionId state
  obtain ⟨earlier, hearlier⟩ : ∃ earlier, earlier = emissions model config d (start :: feed) :=
    ⟨_, rfl⟩
  have hfeed : earlier = emissions model config (handle model config d start.1 start.2).1 feed := by
    rw [hearlier, emissions, hquiet, List.nil_append]
  have hemits : sessionEmits model config d sessionId start feed ended =
      earlier ++ (assessSession model config sessionId true state).2 := by
    have hforced : (handle model config (after model config d (start :: feed)) ended
        (.sessionEnd sessionId)).2 = (assessSession model config sessionId true state).2 := by
      have hmaybe := maybeEmit_tracked model config true hstate
      rw [handle, if_pos hend]
      exact congrArg Prod.snd hmaybe
    rw [sessionEmits, emissions_snoc, hforced, hearlier]
  rw [← hfeed] at hrun
  rw [← hearlier, hemits]
  -- the forced assessment is the replay's final step, which does not reset its counter
  have hlatched : (Eval.latched model config.ewmaAlpha config.escalateLogit config.assessEvery
      events).escalated =
        (earlier ++ (assessSession model config sessionId true state).2).any
          EventPayload.escalation := by
    rw [Eval.latched, ← hloop, ← Eval.step_escalated _ _ _ _ 0, ← hmirror, List.any_append]
    rw [mirror, hlatch, hrun.latch, SessionState.default, Bool.or_false, Bool.or_comm]
  rw [← List.any_eq_true, ← hlatched]
  refine ⟨Iff.rfl, ?_⟩
  intro hemitted
  have hfeatures : state.acc.features.isSome = true := by
    rw [ne_eq, List.append_eq_nil_iff, not_and_or] at hemitted
    rcases hemitted with hbefore | hforced
    · exact hrun.evidence (Or.inr hbefore)
    · rw [Option.isSome_iff_ne_none]
      exact fun hfeatures => hforced (hnone hfeatures)
  obtain ⟨f, hf⟩ := Option.isSome_iff_exists.mp hfeatures
  obtain ⟨final, hfinal, hverdict⟩ := hsome f hf
  refine ⟨final, _, by rw [hfinal], hverdict, ?_⟩
  have hreplay : (Eval.runSessionSequential model config.ewmaAlpha config.escalateLogit
      config.assessEvery events).2 =
        if (Eval.latched model config.ewmaAlpha config.escalateLogit config.assessEvery
          events).escalated then .agent else (model.assess f).verdict := by
    have hacc : (Eval.loop model config.ewmaAlpha config.escalateLogit config.assessEvery
        events).acc.features = some f := by rw [← hloop, ← hf]; rfl
    simp only [Eval.runSessionSequential, hacc, Option.map_some, Option.getD_some]
  rw [hreplay]
  cases hescalated : (Eval.latched model config.ewmaAlpha config.escalateLogit
      config.assessEvery events).escalated with
  | true => simp
  | false =>
      have hplain : final.escalation = false := by
        rw [hlatched, hfinal, List.any_append, List.any_cons, Bool.or_eq_false_iff,
          Bool.or_eq_false_iff] at hescalated
        exact hescalated.2.1
      simp [hplain]

/-- Assesses after every event. -/
def eachEvent : DetectConfig ℚ := { DetectConfig.default with assessEvery := 1 }

/-- Leaves more sessions undecided. -/
def cautious : Model ℚ := { Model.default with agentThreshold := 9 / 10 }

/-- A typed line and three commands. -/
def scriptedFeed : History ℚ :=
  [(1000000000, .keystroke "s1" 20000000 false 12),
    (2000000000, .commandObserved "s1" 12 2 4 false 0 1000000000 "a"),
    (3000000000, .commandObserved "s1" 12 2 4 false 0 1000000000 "b"),
    (4000000000, .commandObserved "s1" 12 2 4 false 0 1000000000 "c")]

def scriptedEvents : List (SynthEvent ℚ) :=
  [.keystroke 20000000 false 12, .command 1000000000 false 4, .command 1000000000 false 4,
    .command 1000000000 false 4]

/-- The replay of a session that leans to an agent latches, so the detector escalates. -/
theorem replay_agrees_scripted :
    ∃ p ∈ sessionEmits cautious eachEvent .empty "s1" (0, sessionOpens) scriptedFeed 5000000000,
      p.escalation = true := by
  have hsame : List.Forall₂ (fun x e => SynthEvent.ofPayload "s1" x.2 = some e) scriptedFeed
      scriptedEvents := .cons rfl (.cons rfl (.cons rfl (.cons rfl .nil)))
  have hstart : sessionOpens.starts "s1" = true := rfl
  exact (replay_agrees cautious eachEvent rfl rfl hstart hsame (by decide +kernel) 5000000000).1.mpr
    (by decide +kernel)

end AgentDetect
end Aegis

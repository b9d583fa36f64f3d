import Aegis.AssessmentBounds
import Aegis.SequentialReplay
import Aegis.Smoothing

/-!
# One escalation in the life of a session

A session lives from the event that creates its state to the one that removes
it. Its average smooths the log-odds of the assessments since it was created,
and the latch holds whether one of them escalated. Another life of the same
session starts over.
-/

namespace Aegis
variable {F K : Type} [F64 F]

/-- The logarithm of a positive number is a number. -/
structure ExactLog (F K : Type) [F64 F] [Field K] [LinearOrder K] [IsStrictOrderedRing K]
    extends ExactModel F K where
  ln : K → K
  ln_num : ∀ {a}, 0 < a → F64.ln (num a) = num (ln a)

/-- An escalation of the session. -/
def EventPayload.escalates (sessionId : String) : EventPayload F → Bool
  | .detection subject _ _ _ reasons _ =>
      decide (subject = sessionId) && decide ("sequential-escalation" ∈ reasons)
  | _ => false

namespace AgentDetect
variable (model : Model F) (config : DetectConfig F) (sessionId : String)

/-- The session as the handling of an event finds it, after the eviction that goes with it. -/
def found (d : Detector F) (x : UInt64 × EventPayload F) : Option (SessionState F) :=
  (if x.2.sweeps then evictIdle d x.1 config.ttlNs else d).get? sessionId

/-- Every event finds the session. -/
def lasts : Detector F → History F → Bool
  | _, [] => true
  | d, x :: rest =>
      (found config sessionId d x).isSome && lasts (handle model config d x.1 x.2).1 rest

/-- The first event does not find the session, and every later one does. -/
def life (d : Detector F) : History F → Bool
  | [] => true
  | x :: rest =>
      (found config sessionId d x).isNone &&
        lasts model config sessionId (handle model config d x.1 x.2).1 rest

/-- The call of `maybe_emit` for the session: whether it is forced, and the state it meets. -/
def turn (d : Detector F) (x : UInt64 × EventPayload F) : Option (Bool × SessionState F) :=
  match x.2.telemetry with
  | some (id, record) =>
      if id = sessionId then
        (tracked config (evictIdle d x.1 config.ttlNs) sessionId).map fun state =>
          (false, state.noted x.1 record)
      else none
  | none =>
      if x.2.ends sessionId && config.assessOnSessionEnd then
        (d.get? sessionId).map fun state => (true, state)
      else none

/-- The assessment that a call of `maybe_emit` makes: none before it is due or where the evidence
is too thin. -/
def assessed (force : Bool) (state : SessionState F) : Option (Assessment F) :=
  if !force && decide (state.sinceLastAssess < config.assessEvery) then none
  else state.acc.features.map model.assess

/-- The log-odds that an event feeds to the average of the session. -/
def ratioOf (d : Detector F) (x : UInt64 × EventPayload F) : Option F :=
  (turn config sessionId d x).bind fun t =>
    (assessed model config t.1 t.2).map Model.logLikelihoodRatio

/-- The log-odds fed in the course of a history. -/
def ratios : Detector F → History F → List F
  | _, [] => []
  | d, x :: rest =>
      (ratioOf model config sessionId d x).toList ++ ratios (handle model config d x.1 x.2).1 rest

def escalations (d : Detector F) (history : History F) : ℕ :=
  (emissions model config d history).countP (EventPayload.escalates sessionId)

theorem after_snoc (d : Detector F) (history : History F) (x : UInt64 × EventPayload F) :
    after model config d (history ++ [x]) =
      (handle model config (after model config d history) x.1 x.2).1 := by
  rw [after, List.foldl_append]
  rfl

theorem ratios_append (d : Detector F) (before rest : History F) :
    ratios model config sessionId d (before ++ rest) =
      ratios model config sessionId d before ++
        ratios model config sessionId (after model config d before) rest := by
  induction before generalizing d with
  | nil => rfl
  | cons x before ih =>
      rw [List.cons_append, ratios, ih, ratios, List.append_assoc]
      rfl

theorem ratios_snoc (d : Detector F) (history : History F) (x : UInt64 × EventPayload F) :
    ratios model config sessionId d (history ++ [x]) =
      ratios model config sessionId d history ++
        (ratioOf model config sessionId (after model config d history) x).toList := by
  rw [ratios_append, ratios, ratios, List.append_nil]

theorem escalations_snoc (d : Detector F) (history : History F) (x : UInt64 × EventPayload F) :
    escalations model config sessionId d (history ++ [x]) =
      escalations model config sessionId d history +
        (handle model config (after model config d history) x.1 x.2).2.countP
          (EventPayload.escalates sessionId) := by
  rw [escalations, emissions_snoc, List.countP_append]
  rfl

theorem lasts_append (d : Detector F) (before rest : History F) :
    lasts model config sessionId d (before ++ rest) =
      (lasts model config sessionId d before &&
        lasts model config sessionId (after model config d before) rest) := by
  induction before generalizing d with
  | nil => rfl
  | cons x before ih =>
      rw [List.cons_append, lasts, ih, lasts, Bool.and_assoc]
      rfl

variable {model config sessionId}

/-- Within a life only the first event is without the session. -/
theorem found_of_life {d : Detector F} {before after' : History F} {x : UInt64 × EventPayload F}
    (h : life model config sessionId d (before ++ x :: after') = true) :
    life model config sessionId d before = true ∧
      (found config sessionId (after model config d before) x = none ↔ before = []) := by
  cases before with
  | nil =>
      simp only [List.nil_append, life, Bool.and_eq_true, Option.isNone_iff_eq_none] at h
      exact ⟨rfl, iff_of_true h.1 rfl⟩
  | cons y before =>
      simp only [List.cons_append, life, lasts_append, lasts, Bool.and_eq_true] at h
      obtain ⟨hfirst, hbefore, hx, -⟩ := h
      refine ⟨by simp only [life, hfirst, hbefore, Bool.and_self], iff_of_false ?_ (by simp)⟩
      exact Option.isSome_iff_ne_none.mp hx

/-- Evidence too thin resets the cadence and nothing else. -/
theorem assessSession_cases (model : Model F) (config : DetectConfig F) (sessionId : String)
    (force : Bool) (state : SessionState F) :
    (assessed model config force state = none ∧
      (assessSession model config sessionId force state).2 = [] ∧
      ∃ n, (n = 0 ∨ n = state.sinceLastAssess ∧ n < config.assessEvery) ∧
        (assessSession model config sessionId force state).1 =
          { state with sinceLastAssess := n }) ∨
    ∃ f, assessed model config force state = some (model.assess f) ∧
      assessSession model config sessionId force state =
        (let ewma := foldLogit config state (Model.logLikelihoodRatio (model.assess f))
        let p := detection config sessionId f (model.assess f) ewma state.escalated
        ({ state with
          sinceLastAssess := 0
          ewmaLogit := ewma
          ewmaInited := true
          escalated := p.2 }, [p.1])) := by
  unfold assessed assessSession
  by_cases hearly : (!force && decide (state.sinceLastAssess < config.assessEvery)) = true
  · rw [if_pos hearly, if_pos hearly]
    rw [Bool.and_eq_true, decide_eq_true_eq] at hearly
    exact Or.inl ⟨rfl, rfl, _, Or.inr ⟨rfl, hearly.2⟩, rfl⟩
  · rw [if_neg hearly, if_neg hearly]
    dsimp only
    cases state.acc.features with
    | none => exact Or.inl ⟨rfl, rfl, 0, Or.inl rfl, rfl⟩
    | some f => exact Or.inr ⟨f, rfl, rfl⟩

/-- A detection escalates where the average is high, the verdict uncertain and the latch open, and
only then closes the latch. -/
theorem detection_cases (model : Model F) (config : DetectConfig F) (sessionId : String)
    (f : FeatureVector F) (ewma : F) (escalated : Bool) :
    (F64.le config.escalateLogit ewma = true ∧ (model.assess f).verdict = .uncertain ∧
      escalated = false ∧
      (detection config sessionId f (model.assess f) ewma escalated).1.escalates sessionId = true ∧
      (detection config sessionId f (model.assess f) ewma escalated).2 = true) ∨
    ((detection config sessionId f (model.assess f) ewma escalated).1.escalates sessionId = false ∧
      (detection config sessionId f (model.assess f) ewma escalated).2 = escalated) := by
  by_cases hfires : (F64.le config.escalateLogit ewma &&
      decide ((model.assess f).verdict = .uncertain) && !escalated) = true
  · rw [detection, if_pos hfires]
    simp only [Bool.and_eq_true, decide_eq_true_eq, Bool.not_eq_true'] at hfires
    exact Or.inl ⟨hfires.1.1, hfires.1.2, hfires.2, by simp [EventPayload.escalates], rfl⟩
  · rw [detection, if_neg hfires]
    exact Or.inr ⟨by simp [EventPayload.escalates, model.not_mem_reasons f], rfl⟩

theorem escalates_other {id : String} (h : id ≠ sessionId) (force : Bool)
    (state : SessionState F) :
    (assessSession model config id force state).2.countP (EventPayload.escalates sessionId) =
      0 := by
  rw [List.countP_eq_zero]
  intro p hp
  rcases assessSession_cases model config id force state with ⟨-, hnone, -⟩ | ⟨f, -, hsome⟩
  · rw [hnone] at hp
    cases hp
  · rw [hsome] at hp
    rw [List.mem_singleton.mp hp, detection]
    split_ifs <;> simp [EventPayload.escalates, h]

variable (model config) in
theorem maybeEmit_other {id : String} (h : id ≠ sessionId) (d : Detector F) (force : Bool) :
    (maybeEmit model config d id force).2.countP (EventPayload.escalates sessionId) = 0 ∧
      (maybeEmit model config d id force).1.get? sessionId = d.get? sessionId := by
  refine ⟨?_, get?_maybeEmit_ne d force (Ne.symm h)⟩
  unfold maybeEmit
  cases d.get? id with
  | none => rfl
  | some state => exact escalates_other h force state

variable (config sessionId) in
/-- The state that an event acts on, new where the session was not found. -/
def prior (d : Detector F) (x : UInt64 × EventPayload F) : SessionState F :=
  (found config sessionId d x).getD .default

/-- The sequential test stands the same in both states. -/
structure SameTest (state state' : SessionState F) : Prop where
  ewmaLogit : state.ewmaLogit = state'.ewmaLogit
  ewmaInited : state.ewmaInited = state'.ewmaInited
  escalated : state.escalated = state'.escalated

theorem getD_of_tracked {sessions : Detector F} {id : String} {state : SessionState F}
    (h : tracked config sessions id = some state) :
    state = (sessions.get? id).getD .default := by
  rw [tracked] at h
  cases hget : sessions.get? id with
  | some s =>
      rw [hget] at h
      exact (Option.some.inj h).symm
  | none =>
      rw [hget] at h
      dsimp only at h
      split_ifs at h
      exact (Option.some.inj h).symm

variable (model) in
/-- Where `maybe_emit` is called for the session, the event emits and leaves what the call does. -/
theorem handle_of_turn {d : Detector F} {x : UInt64 × EventPayload F} {force : Bool}
    {state : SessionState F} (h : turn config sessionId d x = some (force, state)) :
    (handle model config d x.1 x.2).2 = (assessSession model config sessionId force state).2 ∧
    (∀ state', (handle model config d x.1 x.2).1.get? sessionId = some state' →
      state' = (assessSession model config sessionId force state).1) ∧
    SameTest state (prior config sessionId d x) ∧
    state.sinceLastAssess ≤ (prior config sessionId d x).sinceLastAssess + 1 := by
  unfold turn at h
  cases htelemetry : x.2.telemetry with
  | some t =>
      obtain ⟨id, record⟩ := t
      rw [htelemetry] at h
      dsimp only at h
      split_ifs at h with hid
      subst hid
      have hsweeps := (EventPayload.of_telemetry htelemetry).1
      rw [handle_of_telemetry model config htelemetry, observe_eq, prior, found, if_pos hsweeps]
      obtain ⟨kept, hkept⟩ : ∃ kept, kept = evictIdle d x.1 config.ttlNs := ⟨_, rfl⟩
      rw [← hkept] at h ⊢
      obtain ⟨old, htracked, hold⟩ := Option.map_eq_some_iff.mp h
      cases hold
      rw [htracked]
      dsimp only
      rw [maybeEmit_tracked model config false (OrderedTable.get?_insert_self kept id _)]
      rw [← getD_of_tracked htracked]
      refine ⟨rfl, ?_, ⟨rfl, rfl, rfl⟩, le_rfl⟩
      intro state' hstate'
      rw [OrderedTable.get?_insert_self] at hstate'
      exact (Option.some.inj hstate').symm
  | none =>
      rw [htelemetry] at h
      dsimp only at h
      split_ifs at h with hends
      rw [Bool.and_eq_true] at hends
      obtain ⟨old, hget, hold⟩ := Option.map_eq_some_iff.mp h
      cases hold
      obtain ⟨now, payload⟩ := x
      cases payload with
      | sessionEnd id =>
          obtain rfl : id = sessionId := eq_of_beq hends.1
          have hprior : prior config id d (now, .sessionEnd id) = state := by
            have hfound : found config id d (now, .sessionEnd id) = d.get? id := rfl
            rw [prior, hfound, hget, Option.getD_some]
          rw [hprior, handle, if_pos hends.2, maybeEmit_tracked model config true hget]
          refine ⟨rfl, ?_, ⟨rfl, rfl, rfl⟩, Nat.le_succ _⟩
          intro state' hstate'
          dsimp only at hstate'
          rw [OrderedTable.get?_erase_self] at hstate'
          cases hstate'
      | _ => cases hends.1

variable (config sessionId) in
/-- What came of an event leaves the session's test as it was. -/
structure Undisturbed (d : Detector F) (x : UInt64 × EventPayload F)
    (result : Detector F × List (EventPayload F)) : Prop where
  silent : result.2.countP (EventPayload.escalates sessionId) = 0
  kept : ∀ state', result.1.get? sessionId = some state' →
    SameTest state' (prior config sessionId d x) ∧
    state'.sinceLastAssess = (prior config sessionId d x).sinceLastAssess

theorem Undisturbed.of_found {d : Detector F} {x : UInt64 × EventPayload F}
    {result : Detector F × List (EventPayload F)}
    (silent : result.2.countP (EventPayload.escalates sessionId) = 0)
    (h : ∀ state', result.1.get? sessionId = some state' →
      found config sessionId d x = some state') :
    Undisturbed config sessionId d x result where
  silent := silent
  kept := by
    intro state' hstate'
    rw [prior, h state' hstate']
    exact ⟨⟨rfl, rfl, rfl⟩, rfl⟩

variable (model) in
theorem undisturbed_telemetry {d : Detector F} {x : UInt64 × EventPayload F}
    {id : String} {record : SessionAccumulator F → SessionAccumulator F}
    (htelemetry : x.2.telemetry = some (id, record)) (h : turn config sessionId d x = none) :
    Undisturbed config sessionId d x (handle model config d x.1 x.2) := by
  have hsweeps := (EventPayload.of_telemetry htelemetry).1
  have hfound : found config sessionId d x = (evictIdle d x.1 config.ttlNs).get? sessionId := by
    rw [found, if_pos hsweeps]
  rw [turn, htelemetry] at h
  rw [handle_of_telemetry model config htelemetry, observe_eq]
  obtain ⟨kept, hkept⟩ : ∃ kept, kept = evictIdle d x.1 config.ttlNs := ⟨_, rfl⟩
  rw [← hkept] at h hfound ⊢
  dsimp only at h
  split_ifs at h with hid
  · subst hid
    rw [Option.map_eq_none_iff] at h
    rw [h]
    exact .of_found rfl fun state' hstate' => hfound.trans hstate'
  · cases tracked config kept id with
    | none => exact .of_found rfl fun state' hstate' => hfound.trans hstate'
    | some state =>
        dsimp only
        obtain ⟨hcount, hget⟩ := maybeEmit_other model config hid
          (kept.insert id (state.noted x.1 record)) false
        rw [OrderedTable.get?_insert_ne _ _ (Ne.symm hid)] at hget
        exact .of_found hcount fun state' hstate' => by rw [hfound, ← hget, hstate']

variable (model) in
theorem undisturbed_sessionStart (d : Detector F) (now : UInt64) (id : String)
    (tty : Option String) (user : String) (remote : Option String) :
    Undisturbed config sessionId d (now, .sessionStart id tty user remote)
      (handle model config d now (.sessionStart id tty user remote)) := by
  have hsweeps : (EventPayload.sessionStart id tty user remote : EventPayload F).sweeps = true :=
    rfl
  have hfound : found config sessionId d (now, .sessionStart id tty user remote) =
      (evictIdle d now config.ttlNs).get? sessionId := by
    rw [found, if_pos hsweeps]
  rw [handle]
  obtain ⟨kept, hkept⟩ : ∃ kept, kept = evictIdle d now config.ttlNs := ⟨_, rfl⟩
  rw [← hkept] at hfound ⊢
  by_cases hid : sessionId = id
  · subst hid
    refine ⟨rfl, fun state' hstate' => ?_⟩
    rw [OrderedTable.get?_insert_self] at hstate'
    cases hstate'
    rw [prior, hfound]
    exact ⟨⟨rfl, rfl, rfl⟩, rfl⟩
  · refine .of_found rfl fun state' hstate' => ?_
    rw [OrderedTable.get?_insert_ne _ _ hid] at hstate'
    exact hfound.trans hstate'

variable (model) in
theorem undisturbed_sessionEnd {d : Detector F} {now : UInt64} {id : String}
    (h : turn config sessionId d (now, .sessionEnd id) = none) :
    Undisturbed config sessionId d (now, .sessionEnd id)
      (handle model config d now (.sessionEnd id)) := by
  by_cases hid : id = sessionId
  · subst hid
    refine .of_found ?_ fun state' hstate' => ?_
    · rw [handle]
      split_ifs with hassess
      · rw [turn] at h
        dsimp only [EventPayload.telemetry] at h
        rw [EventPayload.ends, beq_self_eq_true, hassess, Bool.and_self, if_pos rfl,
          Option.map_eq_none_iff] at h
        rw [maybeEmit, h]
        rfl
      · rfl
    · simp only [handle, OrderedTable.get?_erase_self] at hstate'
      cases hstate'
  · obtain ⟨hcount, hget⟩ := maybeEmit_other model config hid d true
    have hfound : found config sessionId d (now, .sessionEnd id) = d.get? sessionId := rfl
    refine .of_found ?_ fun state' hstate' => ?_
    · rw [handle]
      split_ifs with hassess
      · exact hcount
      · rfl
    · simp only [handle] at hstate'
      rw [OrderedTable.get?_erase_ne _ (Ne.symm hid)] at hstate'
      rw [hfound, ← hstate']
      split_ifs with hassess
      · exact hget.symm
      · rfl

variable (model) in
theorem handle_of_no_turn {d : Detector F} {x : UInt64 × EventPayload F}
    (h : turn config sessionId d x = none) :
    Undisturbed config sessionId d x (handle model config d x.1 x.2) := by
  cases htelemetry : x.2.telemetry with
  | some t => exact undisturbed_telemetry model htelemetry h
  | none =>
      obtain ⟨now, payload⟩ := x
      cases payload with
      | sessionStart id tty user remote =>
          exact undisturbed_sessionStart model d now id tty user remote
      | sessionEnd id => exact undisturbed_sessionEnd model h
      | keystroke id => cases htelemetry
      | commandObserved id => cases htelemetry
      | _ => exact .of_found rfl fun state' hstate' => hstate'

omit [F64 F] in
theorem get?_of_found {d : Detector F} {x : UInt64 × EventPayload F} {state : SessionState F}
    (h : found config sessionId d x = some state) : d.get? sessionId = some state := by
  unfold found at h
  split_ifs at h
  · exact (get?_evictIdle.mp h).1
  · exact h

theorem assessSession_due (model : Model F) (config : DetectConfig F) (sessionId : String)
    (force : Bool) (state : SessionState F) :
    (assessSession model config sessionId force state).1.sinceLastAssess <
      max config.assessEvery 1 := by
  have hzero : 0 < max config.assessEvery 1 := lt_max_of_lt_right Nat.one_pos
  rcases assessSession_cases model config sessionId force state with
    ⟨-, -, n, hn, hstate⟩ | ⟨f, -, hstate⟩
  · rw [hstate]
    rcases hn with rfl | ⟨-, hlt⟩
    · exact hzero
    · exact lt_max_of_lt_left hlt
  · rw [hstate]
    exact hzero

section Exact
variable [Field K] [LinearOrder K] [IsStrictOrderedRing K]

theorem logLikelihoodRatio_num (E : ExactLog F K) (model : Model F) (f : FeatureVector F) :
    ∃ l, Model.logLikelihoodRatio (model.assess f) = E.num l := by
  obtain ⟨ts, -, hts, -, -, -⟩ := ExactModel.surviving_toward
    fun s _ => ExactModel.Signal.toward_refl (E := E.toExactModel) s f
  obtain ⟨p, hp⟩ : ∃ p, (model.assess f).pAgent = E.num p := ⟨_, E.pAgent_num model hts⟩
  have hhigh : F64.lit 1 - F64.lit (1 / 10000) = (F64.lit (9999 / 10000) : F) := by
    rw [E.lit, E.lit, E.lit, E.sub]
    norm_num
  obtain ⟨c, hc⟩ : ∃ c : K, c = max ((1 / 10000 : ℚ) : K) (min p ((9999 / 10000 : ℚ) : K)) :=
    ⟨_, rfl⟩
  have hpos : 0 < c := by
    rw [hc]
    exact lt_max_of_lt_left (by norm_num)
  have hlt : 0 < 1 - c := by
    rw [hc]
    exact sub_pos.mpr (max_lt (by norm_num) (min_lt_of_right_lt (by norm_num)))
  have hclamped : F64.clamp (model.assess f).pAgent (F64.lit (1 / 10000))
      (F64.lit 1 - F64.lit (1 / 10000)) = E.num c := by
    rw [hp, hhigh, E.clamp_num p (by norm_num), hc]
  have hone : (F64.lit 1 : F) = E.num 1 := by rw [E.lit, Rat.cast_one]
  have hodds := E.ln_num (div_pos hpos hlt)
  rw [← E.div _ hlt.ne', ← E.sub, ← hone, ← hclamped] at hodds
  exact ⟨_, hodds⟩

/-- The test of a session after the log-odds fed and the escalations emitted since it was
created. -/
structure Tested (E : ExactLog F K) (share : K) (ls : List K) (n : ℕ) (state : SessionState F) :
    Prop where
  inited : state.ewmaInited = (Smoothing.average share ls).isSome
  average : ∀ w, Smoothing.average share ls = some w → state.ewmaLogit = E.num w
  latch : n = state.escalated.toNat

variable {E : ExactLog F K} {share : K} {ls : List K} {n : ℕ} {state state' : SessionState F}

theorem Tested.same (h : Tested E share ls n state) (hsame : SameTest state' state) :
    Tested E share ls n state' where
  inited := hsame.ewmaInited.trans h.inited
  average w hw := hsame.ewmaLogit.trans (h.average w hw)
  latch := by rw [hsame.escalated, h.latch]

theorem Tested.foldLogit (h : Tested E share ls n state)
    (hshare : config.ewmaAlpha = E.num share) (l : K) :
    ∃ w, Smoothing.average share (ls ++ [l]) = some w ∧
      foldLogit config state (E.num l) = E.num w := by
  rw [Smoothing.average_snoc, AgentDetect.foldLogit, h.inited]
  cases hw : Smoothing.average share ls with
  | none => exact ⟨l, rfl, rfl⟩
  | some w =>
      refine ⟨_, rfl, ?_⟩
      rw [Option.isSome_some, if_pos rfl, hshare, h.average w hw, E.lit, E.mul, E.sub, E.mul,
        E.add, Rat.cast_one]
      rfl

theorem Tested.assess (h : Tested E share ls n state) (hshare : config.ewmaAlpha = E.num share)
    (model : Model F) (sessionId : String) (force : Bool) :
    ∃ ls', ((assessed model config force state).map Model.logLikelihoodRatio).toList =
        ls'.map E.num ∧
      Tested E share (ls ++ ls')
        (n + (assessSession model config sessionId force state).2.countP
          (EventPayload.escalates sessionId))
        (assessSession model config sessionId force state).1 := by
  rcases assessSession_cases model config sessionId force state with
    ⟨hnone, hemits, m, -, hstate⟩ | ⟨f, hsome, hresult⟩
  · rw [hnone, hemits, hstate, List.countP_nil, Nat.add_zero]
    refine ⟨[], rfl, ?_⟩
    rw [List.append_nil]
    exact h.same ⟨rfl, rfl, rfl⟩
  · obtain ⟨l, hl⟩ := logLikelihoodRatio_num E model f
    obtain ⟨w, hw, hfold⟩ := h.foldLogit hshare l
    rw [hsome, hresult]
    refine ⟨[l], by simp [hl], ?_⟩
    dsimp only
    rw [hl, hfold]
    constructor
    case inited => rw [hw, Option.isSome_some]
    case average =>
      intro w' hw'
      rw [hw] at hw'
      rw [Option.some.inj hw']
    case latch =>
      dsimp only
      rw [h.latch, List.countP_singleton]
      rcases detection_cases model config sessionId f (E.num w) state.escalated with
        ⟨-, -, hopen, hescalates, hclosed⟩ | ⟨hplain, hlatch⟩
      · rw [hopen] at hescalates hclosed ⊢
        rw [hescalates, hclosed]
        rfl
      · rw [hplain, hlatch]
        rfl

variable {d : Detector F} {x : UInt64 × EventPayload F}

variable (model) in
/-- An event takes the test of its session on, and escalates at most where the latch is open. -/
theorem handle_tested (h : Tested E share ls n (prior config sessionId d x))
    (hshare : config.ewmaAlpha = E.num share)
    (hdue : (prior config sessionId d x).sinceLastAssess < max config.assessEvery 1) :
    ∃ ls', (ratioOf model config sessionId d x).toList = ls'.map E.num ∧
      n + (handle model config d x.1 x.2).2.countP (EventPayload.escalates sessionId) ≤ 1 ∧
      ∀ state', (handle model config d x.1 x.2).1.get? sessionId = some state' →
        Tested E share (ls ++ ls')
          (n + (handle model config d x.1 x.2).2.countP (EventPayload.escalates sessionId))
          state' ∧
        state'.sinceLastAssess < max config.assessEvery 1 := by
  unfold ratioOf
  cases hturn : turn config sessionId d x with
  | none =>
      obtain ⟨hcount, hkeeps⟩ := handle_of_no_turn model hturn
      rw [hcount, Nat.add_zero]
      refine ⟨[], rfl, ?_, fun state' hstate' => ?_⟩
      · rw [h.latch]
        exact Bool.toNat_le _
      · obtain ⟨hsame, hsince⟩ := hkeeps state' hstate'
        rw [List.append_nil, hsince]
        exact ⟨h.same hsame, hdue⟩
  | some t =>
      obtain ⟨force, state⟩ := t
      obtain ⟨hemits, hleaves, hsame, -⟩ := handle_of_turn model hturn
      obtain ⟨ls', hls', htested⟩ := (h.same hsame).assess hshare model sessionId force
      rw [hemits]
      refine ⟨ls', hls', ?_, fun state' hstate' => ?_⟩
      · rw [htested.latch]
        exact Bool.toNat_le _
      · rw [hleaves state' hstate']
        exact ⟨htested, assessSession_due model config sessionId force state⟩

/-- In a life each event acts on a session tested by the events before it. -/
theorem prior_tested (hshare : config.ewmaAlpha = E.num share) {before rest : History F}
    (hlife : life model config sessionId d (before ++ x :: rest) = true) :
    ∃ ls, ratios model config sessionId d before = ls.map E.num ∧
      Tested E share ls (escalations model config sessionId d before)
        (prior config sessionId (after model config d before) x) ∧
      (prior config sessionId (after model config d before) x).sinceLastAssess <
        max config.assessEvery 1 := by
  induction before using List.reverseRecOn generalizing x rest with
  | nil =>
      have hnew : prior config sessionId (after model config d []) x = .default := by
        rw [prior, (found_of_life hlife).2.mpr rfl, Option.getD_none]
      rw [hnew]
      exact ⟨[], rfl, ⟨rfl, nofun, rfl⟩, lt_max_of_lt_right Nat.one_pos⟩
  | append_singleton before y ih =>
      have hfound := mt (found_of_life hlife).2.mp (by simp)
      obtain ⟨state, hstate⟩ := Option.ne_none_iff_exists'.mp hfound
      rw [List.append_assoc, List.singleton_append] at hlife
      obtain ⟨ls, hls, htested, hdue⟩ := ih hlife
      obtain ⟨ls', hls', -, hleaves⟩ := handle_tested model htested hshare hdue
      rw [prior, hstate, Option.getD_some, escalations_snoc, ratios_snoc, hls, hls',
        ← List.map_append]
      refine ⟨ls ++ ls', rfl, hleaves state ?_⟩
      rw [← after_snoc]
      exact get?_of_found hstate

variable (model config sessionId d) in
/-- What the sequential test promises of a life of a session. -/
structure OneEscalation (part : History F) : Prop where
  once : escalations model config sessionId d part ≤ 1
  uncertain : ∀ before x after', part = before ++ x :: after' →
    ∀ p ∈ (handle model config (after model config d before) x.1 x.2).2,
      p.escalates sessionId = true → ∃ force state a,
        turn config sessionId (after model config d before) x = some (force, state) ∧
        assessed model config force state = some a ∧ a.verdict = .uncertain ∧
        F64.le config.escalateLogit
          (assessSession model config sessionId force state).1.ewmaLogit = true
  average : ∀ before x after', part = before ++ x :: after' → ∀ force state a,
    turn config sessionId (after model config d before) x = some (force, state) →
    assessed model config force state = some a →
      (∃ r ∈ ratios model config sessionId d (before ++ [x]), F64.le r
        (assessSession model config sessionId force state).1.ewmaLogit = true) ∧
      ∃ r ∈ ratios model config sessionId d (before ++ [x]), F64.le
        (assessSession model config sessionId force state).1.ewmaLogit r = true
  quiet : (∀ r ∈ ratios model config sessionId d part, F64.lt r config.escalateLogit = true) →
    escalations model config sessionId d part = 0
  counter : config.assessEvery < UInt32.size → ∀ before x after', part = before ++ x :: after' →
    ∀ force state, turn config sessionId (after model config d before) x = some (force, state) →
      state.sinceLastAssess < UInt32.size

omit [F64 F] in
theorem mem_escalates_of_countP {ps : List (EventPayload F)}
    (h : ps.countP (EventPayload.escalates sessionId) ≠ 0) :
    ∃ p ∈ ps, p.escalates sessionId = true :=
  List.countP_pos_iff.mp (Nat.pos_of_ne_zero h)

theorem mem_emissions {part : History F} {p : EventPayload F}
    (h : p ∈ emissions model config d part) : ∃ before x after', part = before ++ x :: after' ∧
      p ∈ (handle model config (after model config d before) x.1 x.2).2 := by
  induction part generalizing d with
  | nil => cases h
  | cons y part ih =>
      rw [emissions] at h
      rcases List.mem_append.mp h with hfirst | hlater
      · exact ⟨[], y, part, rfl, hfirst⟩
      · obtain ⟨before, x, after', rfl, hp⟩ := ih hlater
        exact ⟨y :: before, x, after', rfl, hp⟩

theorem escalates_uncertain {p : EventPayload F}
    (hp : p ∈ (handle model config d x.1 x.2).2) (hescalates : p.escalates sessionId = true) :
    ∃ force state a, turn config sessionId d x = some (force, state) ∧
      assessed model config force state = some a ∧ a.verdict = .uncertain ∧
      F64.le config.escalateLogit
        (assessSession model config sessionId force state).1.ewmaLogit = true := by
  cases hturn : turn config sessionId d x with
  | none =>
      have hcount := (handle_of_no_turn model hturn).1
      exact absurd hescalates (List.countP_eq_zero.mp hcount p hp)
  | some t =>
      obtain ⟨force, state⟩ := t
      rw [(handle_of_turn model hturn).1] at hp
      rcases assessSession_cases model config sessionId force state with
        ⟨-, hemits, -⟩ | ⟨f, hsome, hresult⟩
      · rw [hemits] at hp
        cases hp
      · rw [hresult] at hp
        rw [List.mem_singleton.mp hp] at hescalates
        refine ⟨force, state, _, rfl, hsome, ?_⟩
        rw [hresult]
        rcases detection_cases model config sessionId f
          (foldLogit config state (Model.logLikelihoodRatio (model.assess f))) state.escalated with
          ⟨hhigh, hverdict, -⟩ | ⟨hplain, -⟩
        · exact ⟨hverdict, hhigh⟩
        · rw [hplain] at hescalates
          cases hescalates

/-- After an assessment the average is within the range of the log-odds fed. -/
theorem average_within (hshare : config.ewmaAlpha = E.num share) (hlo : 0 ≤ share)
    (hhi : share ≤ 1) {before rest : History F}
    (hlife : life model config sessionId d (before ++ x :: rest) = true) {force : Bool}
    {a : Assessment F}
    (hturn : turn config sessionId (after model config d before) x = some (force, state))
    (ha : assessed model config force state = some a) :
    (∃ r ∈ ratios model config sessionId d (before ++ [x]), F64.le r
      (assessSession model config sessionId force state).1.ewmaLogit = true) ∧
    ∃ r ∈ ratios model config sessionId d (before ++ [x]), F64.le
      (assessSession model config sessionId force state).1.ewmaLogit r = true := by
  obtain ⟨ls, hls, htested, -⟩ := prior_tested hshare hlife
  obtain ⟨-, -, hsame, -⟩ := handle_of_turn model hturn
  obtain ⟨ls', hls', hnext⟩ := (htested.same hsame).assess hshare model sessionId force
  have hratio : (ratioOf model config sessionId (after model config d before) x).toList =
      ls'.map E.num := by
    rw [ratioOf, hturn]
    exact hls'
  have hall : ratios model config sessionId d (before ++ [x]) = (ls ++ ls').map E.num := by
    rw [ratios_snoc, hls, hratio, ← List.map_append]
  have hfed : ls ++ ls' ≠ [] := by
    intro hnil
    rw [ha, (List.append_eq_nil_iff.mp hnil).2] at hls'
    cases hls'
  obtain ⟨w, hw⟩ : ∃ w, Smoothing.average share (ls ++ ls') = some w := by
    rcases List.eq_nil_or_concat (ls ++ ls') with hnil | ⟨init, l, hconcat⟩
    · exact absurd hnil hfed
    · rw [hconcat, List.concat_eq_append, Smoothing.average_snoc]
      cases Smoothing.average share init with
      | none => exact ⟨_, rfl⟩
      | some v => exact ⟨_, rfl⟩
  obtain ⟨⟨low, hlow, hlowle⟩, ⟨high, hhigh, hlehigh⟩⟩ := Smoothing.average_between hlo hhi hw
  rw [hnext.average w hw, hall]
  exact ⟨⟨_, List.mem_map_of_mem hlow, (E.le _ _).mpr hlowle⟩,
    ⟨_, List.mem_map_of_mem hhigh, (E.le _ _).mpr hlehigh⟩⟩

/-- In every life of a session at most one detection escalates, at an assessment with an uncertain
verdict and an average of at least the limit; the average is within the range of the log-odds fed
since the session was created, so below the limit throughout nothing escalates; and the cadence
counter does not overflow. -/
theorem life_escalates_once (E : ExactLog F K) (model : Model F) (config : DetectConfig F)
    (hvalid : config.valid = true) (sessionId : String) (d : Detector F) (part : History F)
    (hlife : life model config sessionId d part = true) :
    OneEscalation model config sessionId d part := by
  rw [DetectConfig.valid, Bool.and_eq_true] at hvalid
  obtain ⟨zero, share, hzero, hshare, hpos⟩ := E.numbers_of_lt hvalid.1
  obtain ⟨share', one, hshare', hone, hle⟩ := E.numbers_of_le hvalid.2
  rw [E.lit] at hzero hone
  have hlo : 0 ≤ share := by
    rw [← E.num_injective hzero, Rat.cast_zero] at hpos
    exact hpos.le
  have hhi : share ≤ 1 := by
    rwa [E.num_injective (hshare.symm.trans hshare'), ← E.num_injective hone, Rat.cast_one] at *
  have hwithin : ∀ before x after', part = before ++ x :: after' → ∀ force state a,
      turn config sessionId (after model config d before) x = some (force, state) →
      assessed model config force state = some a → _ := fun before x after' hpart force state a =>
    average_within (E := E) hshare hlo hhi (hpart ▸ hlife)
  constructor
  case once =>
    rcases List.eq_nil_or_concat part with rfl | ⟨before, x, rfl⟩
    · exact Nat.zero_le 1
    · rw [List.concat_eq_append] at hlife ⊢
      obtain ⟨ls, -, htested, hdue⟩ := prior_tested (E := E) hshare hlife
      obtain ⟨-, -, honce, -⟩ := handle_tested model htested hshare hdue
      rw [escalations_snoc]
      exact honce
  case uncertain => exact fun before x after' _ p hp => escalates_uncertain hp
  case average => exact hwithin
  case quiet =>
    intro hbelow
    by_contra hsome
    obtain ⟨p, hp, hescalates⟩ := mem_escalates_of_countP hsome
    obtain ⟨before, x, after', hpart, hp⟩ := mem_emissions hp
    obtain ⟨force, state, a, hturn, ha, -, hhigh⟩ := escalates_uncertain hp hescalates
    obtain ⟨-, r, hr, hler⟩ := hwithin before x after' hpart force state a hturn ha
    have hmem : r ∈ ratios model config sessionId d part := by
      rw [hpart, ← List.singleton_append, ← List.append_assoc, ratios_append]
      exact List.mem_append_left _ hr
    obtain ⟨limit, w, hlimit, hw, hlimitle⟩ := E.numbers_of_le hhigh
    obtain ⟨w', v, hw', hv, hwv⟩ := E.numbers_of_le hler
    obtain ⟨v', limit', hv', hlimit', hlt⟩ := E.numbers_of_lt (hbelow r hmem)
    rw [E.num_injective (hw'.symm.trans hw)] at hwv
    rw [E.num_injective (hv'.symm.trans hv), E.num_injective (hlimit'.symm.trans hlimit)] at hlt
    exact absurd (hlimitle.trans hwv) (not_le.mpr hlt)
  case counter =>
    intro hsize before x after' hpart force state hturn
    obtain ⟨-, -, -, hdue⟩ := prior_tested (E := E) hshare (hpart ▸ hlife)
    obtain ⟨-, -, -, hsince⟩ := handle_of_turn model hturn
    have hmax : max config.assessEvery 1 < UInt32.size := max_lt hsize (by decide)
    exact (hsince.trans hdue).trans_lt hmax

end Exact
def exactLog : ExactLog Exact ℚ where
  toExactModel := exactModel
  ln := F64.ln
  ln_num _ := rfl

/-- Assesses after every event. -/
def promptly : DetectConfig Exact := { DetectConfig.default with assessEvery := 1 }

/-- Leaves more sessions undecided. -/
def hesitant : Model Exact := { Model.default with agentThreshold := F64.lit (9 / 10) }

def promptCommand (commandHash : String) : EventPayload Exact :=
  .commandObserved "s1" 12 2 (.ofRat 6) false 0 100000000 commandHash

/-- A session that leans to an agent, with another session in between. -/
def leaningLife : History Exact :=
  [(0, .sessionStart "s1" none "alice" none),
    (1000000000, .keystroke "s1" 20000000 true 40),
    (2000000000, promptCommand "a"),
    (2500000000, .sessionStart "s2" none "bob" none),
    (3000000000, promptCommand "b"),
    (4000000000, promptCommand "c"),
    (5000000000, promptCommand "d"),
    (6000000000, .sessionEnd "s1")]

theorem life_escalates_once_leaning :
    OneEscalation hesitant promptly "s1" .empty leaningLife :=
  life_escalates_once exactLog hesitant promptly (by decide +kernel) "s1" .empty leaningLife
    (by decide +kernel)

example : escalations hesitant promptly "s1" .empty (leaningLife.take 6) = 1 := by
  decide +kernel

end AgentDetect
end Aegis

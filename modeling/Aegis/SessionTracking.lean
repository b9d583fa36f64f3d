import Aegis.AgentDetect

/-!
# Which telemetry the detector records

The detector creates the state of a session when it starts and drops it when it
ends, and every event that may come after a pause first evicts the sessions that
have been idle for too long. So telemetry is recorded as long as no event was
handled too late after the session's last one, and the next start of the session
begins anew.
-/

namespace Aegis
variable {F : Type}

namespace EventPayload

/-- The start of the session. -/
def starts (sessionId : String) : EventPayload F → Bool
  | .sessionStart id _ _ _ => id == sessionId
  | _ => false

/-- The end of the session. -/
def ends (sessionId : String) : EventPayload F → Bool
  | .sessionEnd id => id == sessionId
  | _ => false

/-- A keystroke or command: its session, and what it adds to an accumulator. -/
def telemetry [F64 F] :
    EventPayload F → Option (String × (SessionAccumulator F → SessionAccumulator F))
  | .keystroke sessionId interArrivalNs isPaste burstLen =>
      some (sessionId, fun acc => acc.recordKeystroke interArrivalNs isPaste burstLen)
  | .commandObserved sessionId _ _ shannonEntropy hadBackspace _ interCommandNs _ =>
      some (sessionId, fun acc => acc.recordCommand interCommandNs hadBackspace shannonEntropy)
  | _ => none

/-- A start, keystroke or command of any session; the handling of these evicts. -/
def sweeps : EventPayload F → Bool
  | .sessionStart _ _ _ _ => true
  | .keystroke _ _ _ _ => true
  | .commandObserved _ _ _ _ _ _ _ _ => true
  | _ => false

/-- A start, keystroke or command of the session. -/
def touches (sessionId : String) : EventPayload F → Bool
  | .sessionStart id _ _ _ => id == sessionId
  | .keystroke id _ _ _ => id == sessionId
  | .commandObserved id _ _ _ _ _ _ _ => id == sessionId
  | _ => false

theorem touches_of_starts {sessionId : String} {e : EventPayload F}
    (h : e.starts sessionId = true) : e.touches sessionId = true := by
  cases e with
  | sessionStart id user tty remote => exact h
  | _ => cases h

theorem of_telemetry [F64 F] {e : EventPayload F} {id : String}
    {record : SessionAccumulator F → SessionAccumulator F} (h : e.telemetry = some (id, record)) :
    e.sweeps = true ∧ (∀ k, e.touches k = (id == k)) ∧ (∀ k, e.starts k = false) ∧
      ∀ k, e.ends k = false := by
  cases e with
  | keystroke sessionId =>
      cases h
      exact ⟨rfl, fun _ => rfl, fun _ => rfl, fun _ => rfl⟩
  | commandObserved sessionId =>
      cases h
      exact ⟨rfl, fun _ => rfl, fun _ => rfl, fun _ => rfl⟩
  | _ => cases h

end EventPayload

namespace AgentDetect

/-- The events a detector handled, each with the clock reading of its handling. -/
abbrev History (F : Type) : Type := List (UInt64 × EventPayload F)

/-- When the session's last start, keystroke or command was handled. -/
def lastTouch (sessionId : String) (history : History F) : Option UInt64 :=
  ((history.filter fun x => x.2.touches sessionId).getLast?).map Prod.fst

/-- At the later time the session is not idle for too long. -/
def Within (config : DetectConfig F) (earlier later : UInt64) : Prop :=
  config.ttlNs = 0 ∨ later.toNat - earlier.toNat ≤ config.ttlNs

instance (config : DetectConfig F) (earlier later : UInt64) :
    Decidable (Within config earlier later) :=
  inferInstanceAs (Decidable (config.ttlNs = 0 ∨ later.toNat - earlier.toNat ≤ config.ttlNs))

/-- No event that evicts was handled too late after the session's last event before it. -/
def Steady (config : DetectConfig F) (sessionId : String) (part : History F) : Prop :=
  ∀ before x after, part = before ++ x :: after → x.2.sweeps = true →
    ∀ t ∈ lastTouch sessionId before, Within config t x.1

/-- The session started, it has not ended since, and no pause since then was too long. -/
def Live (config : DetectConfig F) (sessionId : String) (history : History F) : Prop :=
  ∃ before x after, history = before ++ x :: after ∧ x.2.starts sessionId = true ∧
    (∀ y ∈ after, y.2.ends sessionId = false) ∧ Steady config sessionId (x :: after)

theorem lastTouch_append (sessionId : String) (history rest : History F) :
    lastTouch sessionId (history ++ rest) =
      (lastTouch sessionId rest).or (lastTouch sessionId history) := by
  rw [lastTouch, List.filter_append, List.getLast?_append, lastTouch, lastTouch]
  cases (rest.filter fun x => x.2.touches sessionId).getLast? <;> rfl

theorem lastTouch_singleton (sessionId : String) (x : UInt64 × EventPayload F) :
    lastTouch sessionId [x] = if x.2.touches sessionId then some x.1 else none := by
  cases htouches : x.2.touches sessionId <;> simp [lastTouch, List.filter, htouches]

/-- From a start on, the events before it do not matter. -/
theorem lastTouch_from_start {sessionId : String} (before after : History F)
    {x : UInt64 × EventPayload F} (hx : x.2.starts sessionId = true) :
    lastTouch sessionId (before ++ x :: after) = lastTouch sessionId (x :: after) := by
  have hsome : ∃ t, lastTouch sessionId (x :: after) = some t := by
    rw [← List.singleton_append, lastTouch_append, lastTouch_singleton,
      if_pos (EventPayload.touches_of_starts hx)]
    cases lastTouch sessionId after with
    | none => exact ⟨x.1, rfl⟩
    | some t => exact ⟨t, rfl⟩
  obtain ⟨t, ht⟩ := hsome
  rw [lastTouch_append, ht, Option.some_or]

theorem Steady.snoc_iff {config : DetectConfig F} {sessionId : String} {part : History F}
    {x : UInt64 × EventPayload F} :
    Steady config sessionId (part ++ [x]) ↔ Steady config sessionId part ∧
      (x.2.sweeps = true → ∀ t ∈ lastTouch sessionId part, Within config t x.1) := by
  constructor
  · intro h
    refine ⟨?_, fun hsweeps => h part x [] rfl hsweeps⟩
    rintro before y after rfl
    exact h before y (after ++ [x]) (by simp)
  · rintro ⟨hpart, hx⟩ before y after heq
    rcases List.eq_nil_or_concat after with rfl | ⟨rest, z, rfl⟩
    · obtain ⟨rfl, hyx⟩ := List.append_inj' heq rfl
      rw [List.singleton_inj] at hyx
      rwa [← hyx]
    · rw [List.concat_eq_append, ← List.cons_append, ← List.append_assoc] at heq
      obtain ⟨rfl, -⟩ := List.append_inj' heq rfl
      exact hpart before y rest rfl

theorem Live.start {config : DetectConfig F} {sessionId : String} (history : History F)
    {x : UInt64 × EventPayload F} (hx : x.2.starts sessionId = true) :
    Live config sessionId (history ++ [x]) := by
  refine ⟨history, x, [], rfl, hx, nofun, ?_⟩
  intro before y after heq _ t ht
  cases before with
  | nil => cases ht
  | cons z before => simp at heq

/-- Any other event keeps a session alive unless it ends it or comes too late. -/
theorem Live.snoc_iff {config : DetectConfig F} {sessionId : String} {history : History F}
    {x : UInt64 × EventPayload F} (hx : x.2.starts sessionId = false) :
    Live config sessionId (history ++ [x]) ↔ Live config sessionId history ∧
      x.2.ends sessionId = false ∧
      (x.2.sweeps = true → ∀ t ∈ lastTouch sessionId history, Within config t x.1) := by
  constructor
  · rintro ⟨before, s, after, heq, hs, hends, hsteady⟩
    rcases List.eq_nil_or_concat after with rfl | ⟨rest, z, rfl⟩
    · obtain ⟨-, hsx⟩ := List.append_inj' heq rfl
      rw [List.singleton_inj] at hsx
      rw [← hsx, hx] at hs
      cases hs
    · rw [List.concat_eq_append, ← List.cons_append] at *
      rw [← List.append_assoc] at heq
      obtain ⟨rfl, hzx⟩ := List.append_inj' heq rfl
      rw [List.singleton_inj] at hzx
      subst hzx
      obtain ⟨hrest, hlate⟩ := Steady.snoc_iff.mp hsteady
      refine ⟨⟨before, s, rest, rfl, hs, ?_, hrest⟩, hends x (by simp), ?_⟩
      · exact fun y hy => hends y (List.mem_append_left _ hy)
      · rwa [lastTouch_from_start before rest hs]
  · rintro ⟨⟨before, s, after, rfl, hs, hends, hsteady⟩, hx', hlate⟩
    rw [lastTouch_from_start before after hs] at hlate
    refine ⟨before, s, after ++ [x], by simp, hs, ?_, Steady.snoc_iff.mpr ⟨hsteady, hlate⟩⟩
    intro y hy
    rcases List.mem_append.mp hy with hy | hy
    · exact hends y hy
    · rwa [List.mem_singleton.mp hy]

theorem get?_evictIdle {d : Detector F} {now : UInt64} {ttlNs : ℕ} {sessionId : String}
    {state : SessionState F} :
    (evictIdle d now ttlNs).get? sessionId = some state ↔ d.get? sessionId = some state ∧
      (ttlNs = 0 ∨ now.toNat - state.lastActivityNs.toNat ≤ ttlNs) := by
  unfold evictIdle
  split_ifs with hzero
  · simp [hzero]
  · rw [OrderedTable.get?_eq_some_iff, OrderedTable.get?_eq_some_iff, List.mem_filter]
    simp [hzero]

/-- The detector has the session if it is alive, with the time of its last event. -/
def TracksOf (config : DetectConfig F) (history : History F) (d : Detector F)
    (sessionId : String) : Prop :=
  (∀ state, d.get? sessionId = some state → Live config sessionId history ∧
    lastTouch sessionId history = some state.lastActivityNs) ∧
  (Live config sessionId history → ∃ state, d.get? sessionId = some state)

def Tracks (config : DetectConfig F) (history : History F) (d : Detector F) : Prop :=
  ∀ sessionId, TracksOf config history d sessionId

variable {config : DetectConfig F}

theorem start_tracks : Tracks config [] .empty := by
  intro sessionId
  refine ⟨nofun, ?_⟩
  rintro ⟨before, x, after, heq, -⟩
  simp at heq

/-- Eviction leaves the sessions that an event at this time keeps alive. -/
theorem Tracks.evict {history : History F} {d : Detector F} (h : Tracks config history d)
    {x : UInt64 × EventPayload F} (hsweeps : x.2.sweeps = true) {sessionId : String}
    (hstarts : x.2.starts sessionId = false) (hends : x.2.ends sessionId = false) :
    (∀ state, (evictIdle d x.1 config.ttlNs).get? sessionId = some state →
      Live config sessionId (history ++ [x]) ∧
      lastTouch sessionId history = some state.lastActivityNs) ∧
    (Live config sessionId (history ++ [x]) →
      ∃ state, (evictIdle d x.1 config.ttlNs).get? sessionId = some state) := by
  obtain ⟨hlive, hhas⟩ := h sessionId
  constructor
  · intro state hstate
    obtain ⟨hget, hwithin⟩ := get?_evictIdle.mp hstate
    obtain ⟨hold, hlast⟩ := hlive state hget
    refine ⟨(Live.snoc_iff hstarts).mpr ⟨hold, hends, fun _ t ht => ?_⟩, hlast⟩
    rw [hlast, Option.mem_def, Option.some.injEq] at ht
    rw [← ht]
    exact hwithin
  · intro hsnoc
    obtain ⟨hold, -, hlate⟩ := (Live.snoc_iff hstarts).mp hsnoc
    obtain ⟨state, hget⟩ := hhas hold
    obtain ⟨-, hlast⟩ := hlive state hget
    exact ⟨state, get?_evictIdle.mpr ⟨hget, hlate hsweeps _ hlast⟩⟩

theorem lastTouch_snoc (sessionId : String) (history : History F) (x : UInt64 × EventPayload F) :
    lastTouch sessionId (history ++ [x]) =
      if x.2.touches sessionId then some x.1 else lastTouch sessionId history := by
  rw [lastTouch_append, lastTouch_singleton]
  split_ifs <;> rfl

theorem Tracks.other {history : History F} {d d' : Detector F} (h : Tracks config history d)
    {x : UInt64 × EventPayload F} (hsweeps : x.2.sweeps = true) {sessionId : String}
    (hstarts : x.2.starts sessionId = false) (hends : x.2.ends sessionId = false)
    (htouches : x.2.touches sessionId = false)
    (hget : d'.get? sessionId = (evictIdle d x.1 config.ttlNs).get? sessionId) :
    TracksOf config (history ++ [x]) d' sessionId := by
  obtain ⟨hlive, hhas⟩ := h.evict hsweeps hstarts hends
  rw [TracksOf, hget, lastTouch_snoc, htouches]
  exact ⟨hlive, hhas⟩

theorem Tracks.frame {history : History F} {d d' : Detector F} (h : Tracks config history d)
    {x : UInt64 × EventPayload F} (hsweeps : x.2.sweeps = false) {sessionId : String}
    (hstarts : x.2.starts sessionId = false) (hends : x.2.ends sessionId = false)
    (htouches : x.2.touches sessionId = false) (hget : d'.get? sessionId = d.get? sessionId) :
    TracksOf config (history ++ [x]) d' sessionId := by
  rw [TracksOf, hget, lastTouch_snoc, htouches, Live.snoc_iff hstarts]
  obtain ⟨hlive, hhas⟩ := h sessionId
  constructor
  · intro state hstate
    obtain ⟨hold, hlast⟩ := hlive state hstate
    exact ⟨⟨hold, hends, fun hs => by rw [hsweeps] at hs; cases hs⟩, hlast⟩
  · exact fun hsnoc => hhas hsnoc.1

variable [F64 F] {model : Model F}

theorem assessSession_keeps (model : Model F) (config : DetectConfig F) (sessionId : String)
    (force : Bool) (state : SessionState F) :
    (assessSession model config sessionId force state).1.acc = state.acc ∧
      (assessSession model config sessionId force state).1.lastActivityNs =
        state.lastActivityNs := by
  unfold assessSession
  split_ifs
  · exact ⟨rfl, rfl⟩
  · dsimp only
    split <;> exact ⟨rfl, rfl⟩

theorem get?_maybeEmit_ne (d : Detector F) {sessionId k : String} (force : Bool)
    (h : k ≠ sessionId) : (maybeEmit model config d sessionId force).1.get? k = d.get? k := by
  unfold maybeEmit
  cases d.get? sessionId with
  | none => rfl
  | some state => exact OrderedTable.get?_insert_ne _ _ h

theorem maybeEmit_tracked (model : Model F) (config : DetectConfig F) {d : Detector F}
    {sessionId : String} {state : SessionState F} (force : Bool)
    (h : d.get? sessionId = some state) :
    maybeEmit model config d sessionId force =
      (d.insert sessionId (assessSession model config sessionId force state).1,
        (assessSession model config sessionId force state).2) := by
  unfold maybeEmit
  rw [h]

theorem handle_of_telemetry (model : Model F) (config : DetectConfig F) {d : Detector F}
    {now : UInt64} {payload : EventPayload F} {sessionId : String}
    {record : SessionAccumulator F → SessionAccumulator F}
    (h : payload.telemetry = some (sessionId, record)) :
    handle model config d now payload = observe model config d sessionId now record := by
  cases payload with
  | keystroke id =>
      cases h
      rfl
  | commandObserved id =>
      cases h
      rfl
  | _ => cases h

theorem get?_observe (model : Model F) (hmissing : config.assessOnMissingSession = false)
    (d : Detector F)
    (sessionId k : String) (now : UInt64)
    (record : SessionAccumulator F → SessionAccumulator F) :
    (k ≠ sessionId → (observe model config d sessionId now record).1.get? k =
      (evictIdle d now config.ttlNs).get? k) ∧
    ((evictIdle d now config.ttlNs).get? sessionId = none →
      (observe model config d sessionId now record).1.get? sessionId = none ∧
        (observe model config d sessionId now record).2 = []) ∧
    ∀ state, (evictIdle d now config.ttlNs).get? sessionId = some state →
      ∃ state', (observe model config d sessionId now record).1.get? sessionId = some state' ∧
        state'.acc = record state.acc ∧ state'.lastActivityNs = now := by
  rw [observe_eq, tracked, hmissing]
  obtain ⟨kept, hkept⟩ : ∃ kept, kept = evictIdle d now config.ttlNs := ⟨_, rfl⟩
  rw [← hkept]
  cases hget : kept.get? sessionId with
  | none => exact ⟨fun _ => rfl, fun _ => ⟨hget, rfl⟩, nofun⟩
  | some state =>
      refine ⟨?_, nofun, ?_⟩
      · intro hk
        exact (get?_maybeEmit_ne _ false hk).trans (OrderedTable.get?_insert_ne _ _ hk)
      · intro state' hstate'
        cases hstate'
        have hself := maybeEmit_tracked model config false
          (OrderedTable.get?_insert_self kept sessionId (state.noted now record))
        have hkeeps := assessSession_keeps model config sessionId false
          (state.noted now record)
        refine ⟨_, ?_, hkeeps.1, hkeeps.2⟩
        dsimp only
        rw [hself]
        exact OrderedTable.get?_insert_self _ _ _

theorem observe_tracks (hmissing : config.assessOnMissingSession = false) {history : History F}
    {d : Detector F} (h : Tracks config history d) {x : UInt64 × EventPayload F} {id : String}
    {record : SessionAccumulator F → SessionAccumulator F}
    (htelemetry : x.2.telemetry = some (id, record)) :
    Tracks config (history ++ [x]) (observe model config d id x.1 record).1 := by
  obtain ⟨hsweeps, htouches, hstarts, hends⟩ := EventPayload.of_telemetry htelemetry
  intro sessionId
  obtain ⟨hother, hnone, hsome⟩ := get?_observe model hmissing d id sessionId x.1 record
  by_cases hid : sessionId = id
  · subst hid
    obtain ⟨hlive, hhas⟩ := h.evict hsweeps (hstarts sessionId) (hends sessionId)
    rw [TracksOf, lastTouch_snoc, htouches, beq_self_eq_true, if_pos rfl]
    cases hget : (evictIdle d x.1 config.ttlNs).get? sessionId with
    | none =>
        rw [(hnone hget).1]
        refine ⟨nofun, fun hsnoc => ?_⟩
        obtain ⟨state, hstate⟩ := hhas hsnoc
        rw [hget] at hstate
        cases hstate
    | some state =>
        obtain ⟨state', hstate', -, hlast⟩ := hsome state hget
        rw [hstate']
        refine ⟨?_, fun _ => ⟨state', rfl⟩⟩
        rintro _ ⟨⟩
        exact ⟨(hlive state hget).1, by rw [hlast]⟩
  · apply h.other hsweeps (hstarts sessionId) (hends sessionId) _ (hother hid)
    rw [htouches]
    exact beq_eq_false_iff_ne.mpr (Ne.symm hid)

theorem handle_tracks (hmissing : config.assessOnMissingSession = false) {history : History F}
    {d : Detector F} (h : Tracks config history d) (x : UInt64 × EventPayload F) :
    Tracks config (history ++ [x]) (handle model config d x.1 x.2).1 := by
  obtain ⟨now, e⟩ := x
  cases e with
  | sessionStart id user tty remote =>
      intro sessionId
      by_cases hid : sessionId = id
      · subst hid
        have hstarts : (EventPayload.sessionStart sessionId user tty remote : EventPayload F).starts
            sessionId = true := beq_self_eq_true sessionId
        have hlive : Live config sessionId
            (history ++ [(now, .sessionStart sessionId user tty remote)]) :=
          Live.start history hstarts
        simp only [handle]
        rw [TracksOf, OrderedTable.get?_insert_self, lastTouch_snoc,
          if_pos (EventPayload.touches_of_starts hstarts)]
        refine ⟨?_, fun _ => ⟨_, rfl⟩⟩
        rintro _ ⟨⟩
        exact ⟨hlive, rfl⟩
      · have hne : (id == sessionId) = false := beq_eq_false_iff_ne.mpr (Ne.symm hid)
        exact h.other rfl hne rfl hne (OrderedTable.get?_insert_ne _ _ hid)
  | keystroke id interArrivalNs isPaste burstLen => exact observe_tracks hmissing h rfl
  | commandObserved id _ _ _ _ _ _ _ => exact observe_tracks hmissing h rfl
  | sessionEnd id =>
      intro sessionId
      by_cases hid : sessionId = id
      · subst hid
        have hgone : (handle model config d now (.sessionEnd sessionId)).1.get? sessionId =
            none := by
          simp only [handle, OrderedTable.get?_erase_self]
        rw [TracksOf, hgone]
        refine ⟨by simp, fun hsnoc => ?_⟩
        obtain ⟨-, hends, -⟩ := (Live.snoc_iff rfl).mp hsnoc
        simp [EventPayload.ends] at hends
      · refine h.frame rfl rfl (beq_eq_false_iff_ne.mpr (Ne.symm hid)) rfl ?_
        simp only [handle]
        rw [OrderedTable.get?_erase_ne _ hid]
        split_ifs
        · exact get?_maybeEmit_ne d true hid
        · rfl
  | _ =>
      intro sessionId
      exact h.frame rfl rfl rfl rfl rfl

/-- The detector after a history. -/
def run (model : Model F) (config : DetectConfig F) (history : History F) : Detector F :=
  history.foldl (fun d x => (handle model config d x.1 x.2).1) .empty

theorem run_tracks (model : Model F) (hmissing : config.assessOnMissingSession = false)
    (history : History F) :
    Tracks config history (run model config history) := by
  induction history using List.reverseRecOn with
  | nil => exact start_tracks
  | append_singleton history x ih =>
      rw [run, List.foldl_append]
      exact handle_tracks hmissing ih x

/-- After every history, a keystroke or command is recorded into its session's accumulator if
the session is alive, its own handling included, and otherwise dropped: the session started, it
has not ended since, and no start, keystroke or command of any session was handled too long
after the session's last one. -/
theorem telemetry_recorded_iff (model : Model F) (config : DetectConfig F)
    (hmissing : config.assessOnMissingSession = false) (history : History F) (now : UInt64)
    (e : EventPayload F) {sessionId : String}
    {record : SessionAccumulator F → SessionAccumulator F}
    (he : e.telemetry = some (sessionId, record)) :
    ((∃ state state', (run model config history).get? sessionId = some state ∧
        (run model config (history ++ [(now, e)])).get? sessionId = some state' ∧
        state'.acc = record state.acc) ↔ Live config sessionId (history ++ [(now, e)])) ∧
    (¬Live config sessionId (history ++ [(now, e)]) →
      (run model config (history ++ [(now, e)])).get? sessionId = none ∧
      (handle model config (run model config history) now e).2 = []) := by
  have hsnoc : run model config (history ++ [(now, e)]) =
      (handle model config (run model config history) now e).1 := by
    rw [run, List.foldl_append]
    rfl
  have hhandle : handle model config (run model config history) now e =
      observe model config (run model config history) sessionId now record :=
    handle_of_telemetry model config he
  obtain ⟨hsweeps, -, hstarts, hends⟩ := EventPayload.of_telemetry he
  have hsweep : (now, e).2.sweeps = true := hsweeps
  obtain ⟨hlive, hhas⟩ := (run_tracks model hmissing history).evict hsweep (hstarts sessionId)
    (hends sessionId)
  obtain ⟨-, hnone, hsome⟩ := get?_observe model hmissing (run model config history)
    sessionId sessionId now record
  rw [hsnoc, hhandle]
  refine ⟨⟨?_, ?_⟩, ?_⟩
  · rintro ⟨state, state', -, hstate', -⟩
    cases hget : (evictIdle (run model config history) now config.ttlNs).get? sessionId with
    | none =>
        rw [(hnone hget).1] at hstate'
        cases hstate'
    | some kept => exact (hlive kept hget).1
  · intro hsnoc
    obtain ⟨state, hget⟩ := hhas hsnoc
    obtain ⟨state', hstate', hacc, -⟩ := hsome state hget
    exact ⟨state, state', (get?_evictIdle.mp hget).1, hstate', hacc⟩
  · intro hdead
    apply hnone
    cases hget : (evictIdle (run model config history) now config.ttlNs).get? sessionId with
    | none => rfl
    | some kept => exact (hdead (hlive kept hget).1).elim

/-- One second of idleness at most. -/
def shortTtl : DetectConfig ℚ := { DetectConfig.default with sessionTtlS := 1 }

def sessionOpens : EventPayload ℚ := .sessionStart "s1" "alice" "pts/0" none

def keyPressed : EventPayload ℚ := .keystroke "s1" 1000000 false 1

/-- A keystroke half a second after its session's start is recorded. -/
theorem telemetry_recorded_iff_soon :
    ∃ state state', (run .default shortTtl [(0, sessionOpens)]).get? "s1" = some state ∧
      (run .default shortTtl ([(0, sessionOpens)] ++ [(500000000, keyPressed)])).get? "s1" =
        some state' ∧
      state'.acc = state.acc.recordKeystroke 1000000 false 1 := by
  apply (telemetry_recorded_iff .default shortTtl rfl [(0, sessionOpens)] 500000000 keyPressed
    rfl).1.mpr
  apply (Live.snoc_iff rfl).mpr
  refine ⟨Live.start [] (x := (0, sessionOpens)) rfl, rfl, ?_⟩
  rintro - t ht
  have hzero : t = 0 := by
    have hlast : lastTouch "s1" [((0 : UInt64), sessionOpens)] = some 0 := by decide +kernel
    rw [hlast] at ht
    exact (Option.some.inj ht).symm
  rw [hzero, Within]
  decide +kernel

/-- A keystroke two seconds after it is not. -/
theorem idle_session_unrecorded :
    ¬∀ (model : Model ℚ) (config : DetectConfig ℚ), config.assessOnMissingSession = false →
      ∀ (history : History ℚ) (now : UInt64) (e : EventPayload ℚ) (sessionId : String)
        (record : SessionAccumulator ℚ → SessionAccumulator ℚ),
        e.telemetry = some (sessionId, record) →
        ((∃ state state', (run model config history).get? sessionId = some state ∧
          (run model config (history ++ [(now, e)])).get? sessionId = some state' ∧
          state'.acc = record state.acc) ↔
        ∃ before x after, history = before ++ x :: after ∧ x.2.starts sessionId = true ∧
          ∀ y ∈ after, y.2.ends sessionId = false) := by
  intro h
  obtain ⟨state, state', -, hstate', -⟩ := (h .default shortTtl rfl [(0, sessionOpens)] 2000000000
    keyPressed "s1" _ rfl).mpr ⟨[], (0, sessionOpens), [], rfl, rfl, nofun⟩
  have hgone : ((run .default shortTtl ([(0, sessionOpens)] ++ [(2000000000, keyPressed)])).get?
      "s1").isNone = true := by
    decide +kernel
  rw [hstate'] at hgone
  cases hgone

end AgentDetect
end Aegis

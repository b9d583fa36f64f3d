import Aegis.Scoring
import Aegis.SessionTracking

/-!
# The keys of the central processors

Both processors keep their state in a map: the detector by session id, scoring
by the subject of a detection, by the user of a process, or by the id of a
session that ends. A payload has at most one key, a handler reads and writes
the entry of that key only, and what it emits has the same key or none.
-/

namespace Aegis
variable {F : Type}

/-- The key under which a processor looks up what a payload is about. -/
def EventPayload.subjectKey : EventPayload F → Option String
  | .sessionStart sessionId _ _ _ => some sessionId
  | .keystroke sessionId _ _ _ => some sessionId
  | .commandObserved sessionId _ _ _ _ _ _ _ => some sessionId
  | .sessionEnd sessionId => some sessionId
  | .processExec _ _ uid _ _ _ => some (Scoring.uidSubject uid)
  | .detection subject _ _ _ _ _ => some subject
  | _ => none

namespace AgentDetect

theorem evictIdle_restrict (d : Detector F) (p : String → Bool) (now : UInt64) (ttlNs : ℕ) :
    evictIdle (d.restrict p) now ttlNs = (evictIdle d now ttlNs).restrict p := by
  unfold evictIdle
  split_ifs
  · rfl
  · apply OrderedTable.ext
    simp only [OrderedTable.restrict_rows, List.filter_filter]
    exact List.filter_congr fun r _ => Bool.and_comm _ _

variable [F64 F] (model : Model F) (config : DetectConfig F)

theorem maybeEmit_restrict_of_pos (d : Detector F) (p : String → Bool) {sessionId : String}
    (h : p sessionId = true) (force : Bool) :
    maybeEmit model config (d.restrict p) sessionId force =
      ((maybeEmit model config d sessionId force).1.restrict p,
        (maybeEmit model config d sessionId force).2) := by
  unfold maybeEmit
  rw [OrderedTable.get?_restrict, if_pos h]
  cases d.get? sessionId with
  | none => rfl
  | some state => simp only [OrderedTable.restrict_insert_of_pos _ p _ h]

theorem maybeEmit_restrict_of_neg (d : Detector F) (p : String → Bool) {sessionId : String}
    (h : p sessionId = false) (force : Bool) :
    (maybeEmit model config d sessionId force).1.restrict p = d.restrict p := by
  unfold maybeEmit
  cases d.get? sessionId with
  | none => rfl
  | some state => exact OrderedTable.restrict_insert_of_neg _ p _ h

theorem tracked_restrict (d : Detector F) (p : String → Bool) {sessionId : String}
    (h : p sessionId = true) :
    tracked config (d.restrict p) sessionId = tracked config d sessionId := by
  rw [tracked, tracked, OrderedTable.get?_restrict, if_pos h]

theorem observe_restrict_of_pos (d : Detector F) (p : String → Bool) {sessionId : String}
    (h : p sessionId = true) (now : UInt64) (record : SessionAccumulator F → SessionAccumulator F) :
    observe model config (d.restrict p) sessionId now record =
      ((observe model config d sessionId now record).1.restrict p,
        (observe model config d sessionId now record).2) := by
  rw [observe_eq, observe_eq, evictIdle_restrict, tracked_restrict config _ p h]
  obtain ⟨kept, hkept⟩ : ∃ kept, kept = evictIdle d now config.ttlNs := ⟨_, rfl⟩
  rw [← hkept]
  cases tracked config kept sessionId with
  | none => rfl
  | some state =>
      simp only [← OrderedTable.restrict_insert_of_pos _ p _ h,
        maybeEmit_restrict_of_pos model config _ p h]

theorem observe_restrict_of_neg (d : Detector F) (p : String → Bool) {sessionId : String}
    (h : p sessionId = false) (now : UInt64) (record : SessionAccumulator F → SessionAccumulator F)
    (hidle : (evictIdle d now config.ttlNs).restrict p = d.restrict p) :
    (observe model config d sessionId now record).1.restrict p = d.restrict p := by
  rw [observe_eq]
  obtain ⟨kept, hkept⟩ : ∃ kept, kept = evictIdle d now config.ttlNs := ⟨_, rfl⟩
  rw [← hkept] at hidle ⊢
  cases tracked config kept sessionId with
  | none => exact hidle
  | some state =>
      simp only [maybeEmit_restrict_of_neg model config _ p h,
        OrderedTable.restrict_insert_of_neg _ p _ h, hidle]

/-- On a payload of the keys kept, the handler does with these keys alone what it does with all. -/
theorem handle_restrict_of_pos (d : Detector F) (p : String → Bool) (now : UInt64)
    {payload : EventPayload F} (h : ∀ k, payload.subjectKey = some k → p k = true) :
    handle model config (d.restrict p) now payload =
      ((handle model config d now payload).1.restrict p,
        (handle model config d now payload).2) := by
  cases payload with
  | sessionStart sessionId user tty remote =>
      have hp := h sessionId rfl
      simp only [handle, evictIdle_restrict, OrderedTable.get?_restrict, if_pos hp,
        OrderedTable.restrict_insert_of_pos _ p _ hp]
  | keystroke sessionId =>
      simp only [handle, observe_restrict_of_pos model config d p (h sessionId rfl) now]
  | commandObserved sessionId =>
      simp only [handle, observe_restrict_of_pos model config d p (h sessionId rfl) now]
  | sessionEnd sessionId =>
      have hp := h sessionId rfl
      have herase : ∀ t : Detector F,
          (t.restrict p).erase sessionId = (t.erase sessionId).restrict p :=
        fun t => OrderedTable.restrict_restrict_comm t p _
      simp only [handle]
      split_ifs
      · simp only [maybeEmit_restrict_of_pos model config d p hp, herase]
      · simp only [herase]
  | _ => rfl

/-- On a payload of another key it leaves them alone, unless one of their sessions is idle. -/
theorem handle_restrict_of_neg (d : Detector F) (p : String → Bool) (now : UInt64)
    {payload : EventPayload F} (h : ∀ k, payload.subjectKey = some k → p k = false)
    (hidle : payload.sweeps = true →
      (evictIdle d now config.ttlNs).restrict p = d.restrict p) :
    (handle model config d now payload).1.restrict p = d.restrict p := by
  cases payload with
  | sessionStart sessionId user tty remote =>
      simp only [handle, OrderedTable.restrict_insert_of_neg _ p _ (h sessionId rfl), hidle rfl]
  | keystroke sessionId =>
      exact observe_restrict_of_neg model config d p (h sessionId rfl) now _ (hidle rfl)
  | commandObserved sessionId =>
      exact observe_restrict_of_neg model config d p (h sessionId rfl) now _ (hidle rfl)
  | sessionEnd sessionId =>
      have hp := h sessionId rfl
      simp only [handle]
      split_ifs
      · rw [OrderedTable.restrict_erase_of_neg _ p hp,
          maybeEmit_restrict_of_neg model config d p hp]
      · exact OrderedTable.restrict_erase_of_neg _ p hp
  | _ => rfl

theorem detection_subjectKey (sessionId : String) (features : FeatureVector F)
    (a : Assessment F) (ewma : F) (escalated : Bool) :
    (detection config sessionId features a ewma escalated).1.subjectKey = some sessionId := by
  unfold detection
  split_ifs <;> rfl

theorem assessSession_subjectKey (sessionId : String) (force : Bool) (state : SessionState F)
    {q : EventPayload F} (hq : q ∈ (assessSession model config sessionId force state).2) :
    q.subjectKey = some sessionId := by
  unfold assessSession at hq
  split_ifs at hq
  · cases hq
  · cases hfeatures : state.acc.features with
    | none => simp [hfeatures] at hq
    | some features =>
        simp only [hfeatures, List.mem_singleton] at hq
        rw [hq]
        exact detection_subjectKey config sessionId features _ _ _

theorem maybeEmit_subjectKey (d : Detector F) (sessionId : String) (force : Bool)
    {q : EventPayload F} (hq : q ∈ (maybeEmit model config d sessionId force).2) :
    q.subjectKey = some sessionId := by
  unfold maybeEmit at hq
  cases hget : d.get? sessionId with
  | none => simp [hget] at hq
  | some state =>
      simp only [hget] at hq
      exact assessSession_subjectKey model config sessionId force state hq

theorem observe_subjectKey (d : Detector F) (sessionId : String) (now : UInt64)
    (record : SessionAccumulator F → SessionAccumulator F) {q : EventPayload F}
    (hq : q ∈ (observe model config d sessionId now record).2) : q.subjectKey = some sessionId := by
  rw [observe_eq] at hq
  obtain ⟨kept, hkept⟩ : ∃ kept, kept = evictIdle d now config.ttlNs := ⟨_, rfl⟩
  rw [← hkept] at hq
  cases htracked : tracked config kept sessionId with
  | none =>
      rw [htracked] at hq
      cases hq
  | some state =>
      rw [htracked] at hq
      exact maybeEmit_subjectKey model config _ sessionId false hq

theorem handle_subjectKey (d : Detector F) (now : UInt64) {payload q : EventPayload F}
    (hq : q ∈ (handle model config d now payload).2) : q.subjectKey = payload.subjectKey := by
  cases payload with
  | sessionStart sessionId => cases hq
  | keystroke sessionId => exact observe_subjectKey model config d sessionId now _ hq
  | commandObserved sessionId => exact observe_subjectKey model config d sessionId now _ hq
  | sessionEnd sessionId =>
      simp only [handle] at hq
      split_ifs at hq
      · exact maybeEmit_subjectKey model config d sessionId true hq
      · cases hq
  | _ => cases hq

end AgentDetect

namespace Scoring
variable [F64 F] (config : ScoringConfig F)

theorem evidence_subject {payload : EventPayload F} {ev : Evidence F}
    (h : evidence config payload = some ev) : payload.subjectKey = some ev.subject := by
  unfold evidence at h
  split at h
  · cases h
    rfl
  · split_ifs at h
    cases h
    rfl
  · cases h
    rfl
  · cases h

theorem handle_restrict_of_pos (s : RiskState F) (p : String → Bool) {payload : EventPayload F}
    (h : ∀ k, payload.subjectKey = some k → p k = true) :
    handle config (s.restrict p) payload =
      ((handle config s payload).1.restrict p, (handle config s payload).2) := by
  unfold handle
  split
  · simp only [RiskState.remove, OrderedTable.erase, OrderedTable.restrict_restrict_comm s p]
  · cases hev : evidence config payload with
    | none => rfl
    | some ev =>
        have hp := h ev.subject (evidence_subject config hev)
        simp only [RiskState.bump_restrict_of_pos s p hp]

theorem handle_restrict_of_neg (s : RiskState F) (p : String → Bool) {payload : EventPayload F}
    (h : ∀ k, payload.subjectKey = some k → p k = false) :
    (handle config s payload).1.restrict p = s.restrict p := by
  unfold handle
  split
  · exact OrderedTable.restrict_erase_of_neg s p (h _ rfl)
  · cases hev : evidence config payload with
    | none => rfl
    | some ev =>
        exact RiskState.settle_restrict_of_neg s p (h ev.subject (evidence_subject config hev)) _

theorem handle_subjectKey (s : RiskState F) {payload q : EventPayload F}
    (hq : q ∈ (handle config s payload).2) : q.subjectKey = none := by
  unfold handle at hq
  split at hq
  · cases hq
  · cases hev : evidence config payload with
    | none => simp [hev] at hq
    | some ev =>
        simp only [hev, reports, List.mem_cons] at hq
        rcases hq with rfl | hq
        · rfl
        · split_ifs at hq
          · rw [List.mem_singleton.mp hq]
            rfl
          · cases hq

end Scoring
end Aegis

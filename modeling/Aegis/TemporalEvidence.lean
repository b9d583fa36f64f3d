import Aegis.DetectionModel
import Aegis.Magnitudes

/-!
# When temporal features are evidence

The autocorrelation, the tail and the decay are computed from the command gaps
that were kept, but gated by the number of commands, and gaps of zero or of an
hour and more are not kept. So they are reported from too few gaps, down to
none, where enough commands came without a gap to keep.
-/

namespace Aegis
variable {F : Type} [F64 F]

/-- A call that records an observation. -/
inductive Recording (F : Type) where
  | keystroke (interArrivalNs : UInt64) (isPaste : Bool) (burstLen : UInt32)
  | command (interCommandNs : UInt64) (hadBackspace : Bool) (entropy : F)

def SessionAccumulator.record (acc : SessionAccumulator F) : Recording F → SessionAccumulator F
  | .keystroke interArrivalNs isPaste burstLen =>
      acc.recordKeystroke interArrivalNs isPaste burstLen
  | .command interCommandNs hadBackspace entropy =>
      acc.recordCommand interCommandNs hadBackspace entropy

namespace Recording

/-- The keystrokes that a call counts. -/
def keys : Recording F → ℕ
  | .keystroke _ _ burstLen => max burstLen.toNat 1
  | .command _ _ _ => 0

def isCommand : Recording F → Bool
  | .keystroke _ _ _ => false
  | .command _ _ _ => true

/-- The gap before a command, if it is positive and shorter than an hour. -/
def gap? : Recording F → Option F
  | .keystroke _ _ _ => none
  | .command interCommandNs _ _ =>
      let ms := F64.ofNat interCommandNs.toNat / F64.lit 1000000
      if SessionAccumulator.inOpenInterval ms (F64.lit 0) (F64.lit 3600000) then some ms else none

end Recording

def accumulate (calls : List (Recording F)) : SessionAccumulator F := 
  calls.foldl SessionAccumulator.record {}

omit [F64 F] in
theorem pushCapped_length (buf : List F) (v : F) (h : buf.length ≤ sampleCap) :
    (pushCapped buf v).length = min (buf.length + 1) sampleCap := by
  have hcap : 0 < sampleCap := by decide
  unfold pushCapped
  split_ifs <;> simp only [List.length_append, List.length_drop, List.length_singleton] <;> omega

omit [F64 F] in
theorem mem_pushCapped {buf : List F} {v x : F} (h : x ∈ pushCapped buf v) : x ∈ buf ∨ x = v := by
  unfold pushCapped at h
  rcases List.mem_append.mp h with h | h
  · left
    split_ifs at h
    · exact List.mem_of_mem_drop h
    · exact h
  · exact Or.inr (List.mem_singleton.mp h)

/-- What the counters and the gap buffer hold after some calls. -/
structure Counted (calls : List (Recording F)) (acc : SessionAccumulator F) : Prop where
  keystrokes : acc.keystrokes = (calls.map Recording.keys).sum
  commands : acc.commands = calls.countP Recording.isCommand
  gaps : acc.interCommandsMs.length = min (calls.filterMap Recording.gap?).length sampleCap
  kept : ∀ x ∈ acc.interCommandsMs, F64.lt (F64.lit 0) x = true ∧ F64.lt x (F64.lit 3600000) = true

theorem Counted.snoc {calls : List (Recording F)} {acc : SessionAccumulator F}
    (h : Counted calls acc) (r : Recording F) : Counted (calls ++ [r]) (acc.record r) := by
  cases r with
  | keystroke interArrivalNs isPaste burstLen =>
      constructor
      · simp [SessionAccumulator.record, SessionAccumulator.recordKeystroke, h.keystrokes,
          Recording.keys]
      · simp [SessionAccumulator.record, SessionAccumulator.recordKeystroke, h.commands,
          Recording.isCommand]
      · simp only [SessionAccumulator.record, SessionAccumulator.recordKeystroke, h.gaps,
          List.filterMap_append, List.filterMap_cons, List.filterMap_nil, Recording.gap?,
          List.append_nil]
      · exact h.kept
  | command interCommandNs hadBackspace entropy =>
      have hcapped : acc.interCommandsMs.length ≤ sampleCap := by
        rw [h.gaps]
        exact min_le_right _ _
      constructor
      · simp [SessionAccumulator.record, SessionAccumulator.recordCommand, h.keystrokes,
          Recording.keys]
      · simp [SessionAccumulator.record, SessionAccumulator.recordCommand, h.commands,
          Recording.isCommand]
      · simp only [SessionAccumulator.record, SessionAccumulator.recordCommand,
          List.filterMap_append, List.filterMap_cons, List.filterMap_nil, Recording.gap?]
        split_ifs with hgap
        · rw [pushCapped_length _ _ hcapped, h.gaps, List.length_append, List.length_singleton]
          omega
        · rw [h.gaps, List.append_nil]
      · intro x hx
        simp only [SessionAccumulator.record, SessionAccumulator.recordCommand] at hx
        split_ifs at hx with hgap
        · rcases mem_pushCapped hx with hx | rfl
          · exact h.kept x hx
          · exact Bool.and_eq_true_iff.mp hgap
        · exact h.kept x hx

theorem accumulate_counted (calls : List (Recording F)) : Counted calls (accumulate calls) := by
  induction calls using List.reverseRecOn with
  | nil => exact ⟨rfl, rfl, rfl, nofun⟩
  | append_singleton calls r ih =>
      have hsnoc : accumulate (calls ++ [r]) = (accumulate calls).record r := List.foldl_append
      rw [hsnoc]
      exact ih.snoc r

/-- The autocorrelation of fewer than sixteen gaps is never missing. -/
theorem lag1Autocorr_number (m : Magnitudes F) {xs : List F} (hlen : xs.length ≤ 15)
    (h : ∀ x ∈ xs, F64.lt (F64.lit 0) x = true ∧ F64.lt x (F64.lit 3600000) = true) :
    F64.isNaN (lag1Autocorr xs) = false := by
  have hzero : F64.isNaN (F64.lit 0 : F) = false := m.number m.zero
  have hgap : ∀ x ∈ xs, m.within 22 x := fun x hx => m.between (by norm_num) (h x hx).1 (h x hx).2
  unfold lag1Autocorr
  dsimp only
  split_ifs with hshort hflat
  · exact hzero
  · exact hzero
  · have hmean : m.within 37 (mean xs) := by
      rw [mean]
      exact m.divNat (by omega) (m.sum hgap hlen (by omega))
    have hdev : ∀ x ∈ xs, m.within 38 (x - mean xs) := fun x hx =>
      m.sub (by omega) (m.mono (by omega) (hgap x hx)) hmean
    have hdenom : m.within 91 (F64.sum (xs.map fun x => (x - mean xs) * (x - mean xs))) := by
      apply m.sum (k := 76) (n := 15) _ (by simpa using hlen) (by omega)
      intro y hy
      obtain ⟨x, hx, rfl⟩ := List.mem_map.mp hy
      exact m.mul (j := 38) (k := 38) (by omega) (hdev x hx) (hdev x hx)
    have hnumer : m.within 91 (F64.sum ((xs.zip xs.tail).map fun w =>
        (w.1 - mean xs) * (w.2 - mean xs))) := by
      apply m.sum (k := 76) (n := 15) _ _ (by omega)
      · intro y hy
        obtain ⟨w, hw, rfl⟩ := List.mem_map.mp hy
        have hmem := List.of_mem_zip hw
        exact m.mul (j := 38) (k := 38) (by omega) (hdev _ hmem.1)
          (hdev _ (List.mem_of_mem_tail hmem.2))
      · rw [List.length_map, List.length_zip]
        omega
    have hpos := m.positive hdenom (by simpa using hflat)
    exact m.div hnumer hdenom hpos

namespace FeatureVector

/-- The vector with its temporal features missing. -/
def withoutTemporal (f : FeatureVector F) : FeatureVector F :=
  { f with gapAutocorr := F64.nan, thinkTailRatio := F64.nan, throughputDecay := F64.nan }

end FeatureVector

/-- A temporal feature is reported only from enough gaps, and below that the temporal features
have no say in the hard rules. -/
structure TemporalSound (acc : SessionAccumulator F) : Prop where
  reported : ∀ f, acc.features = some f →
    F64.isNaN f.gapAutocorr = false ∨ F64.isNaN f.thinkTailRatio = false ∨
      F64.isNaN f.throughputDecay = false →
    minCommandsRobust ≤ acc.interCommandsMs.length
  rules : ∀ f, acc.features = some f → acc.interCommandsMs.length < minCommandsRobust →
    ∀ pAgent, Model.hardRules f pAgent = Model.hardRules f.withoutTemporal pAgent

theorem features_temporal {acc : SessionAccumulator F} {f : FeatureVector F}
    (h : acc.features = some f) : acc.enoughEvidence = true ∧
      (minCommandsRobust ≤ acc.commands → f.gapAutocorr = lag1Autocorr acc.interCommandsMs) ∧
      (acc.commands < minCommandsRobust → f = f.withoutTemporal) := by
  cases henough : acc.enoughEvidence with
  | false => simp [SessionAccumulator.features, henough] at h
  | true =>
      simp only [SessionAccumulator.features, henough, Bool.not_true, Bool.false_eq_true, if_false,
        Option.some.injEq] at h
      rw [← h]
      refine ⟨rfl, ?_, ?_⟩
      · intro hrobust
        simp only [hrobust, decide_true, if_true]
      · intro hfew
        simp only [FeatureVector.withoutTemporal, not_le.mpr hfew, decide_false,
          Bool.false_eq_true, if_false]

/-- After every sequence of recorded keystrokes and commands, temporal features are reported from
at least sixteen gaps alone, and fewer never raise the probability, exactly if there is too little
evidence for any feature, fewer than sixteen commands, or sixteen gaps to keep. -/
theorem temporal_sound_iff (m : Magnitudes F) (calls : List (Recording F)) :
    TemporalSound (accumulate calls) ↔
      (calls.map Recording.keys).sum < minKeystrokes ∨
      calls.countP Recording.isCommand < minCommandsRobust ∨
      minCommandsRobust ≤ (calls.filterMap Recording.gap?).length := by
  have hcounted := accumulate_counted calls
  have hcap : minCommandsRobust ≤ sampleCap := by decide
  rw [← hcounted.keystrokes, ← hcounted.commands]
  have hgaps : minCommandsRobust ≤ (calls.filterMap Recording.gap?).length ↔
      minCommandsRobust ≤ (accumulate calls).interCommandsMs.length := by
    rw [hcounted.gaps]
    omega
  rw [hgaps]
  constructor
  · intro h
    by_contra hnot
    simp only [not_or, not_lt] at hnot
    obtain ⟨hkeys, hcommands, hfew⟩ := hnot
    have hmin : minCommands ≤ minCommandsRobust := by decide
    have henough : (accumulate calls).enoughEvidence = true := by
      rw [SessionAccumulator.enoughEvidence, decide_eq_true hkeys,
        decide_eq_true (hmin.trans hcommands)]
      rfl
    obtain ⟨f, hf⟩ : ∃ f, (accumulate calls).features = some f := by
      unfold SessionAccumulator.features
      rw [henough]
      exact ⟨_, rfl⟩
    apply hfew
    apply h.reported f hf
    left
    rw [(features_temporal hf).2.1 hcommands]
    have hrobust : minCommandsRobust = 16 := rfl
    exact lag1Autocorr_number m (by omega) hcounted.kept
  · intro h
    by_cases hcommands : (accumulate calls).commands < minCommandsRobust
    · constructor
      · intro f hf hreported
        have hmissing := (features_temporal hf).2.2 hcommands
        rw [hmissing] at hreported
        simp only [FeatureVector.withoutTemporal, m.nan] at hreported
        simp at hreported
      · intro f hf _ pAgent
        exact congrArg (Model.hardRules · pAgent) ((features_temporal hf).2.2 hcommands)
    · rcases h with hkeys | hfew | hmany
      · have hnone : ∀ f, (accumulate calls).features ≠ some f := by
          intro f hf
          have henough := (features_temporal hf).1
          rw [SessionAccumulator.enoughEvidence, decide_eq_false (not_le.mpr hkeys)] at henough
          cases henough
        exact ⟨fun f hf => (hnone f hf).elim, fun f hf => (hnone f hf).elim⟩
      · exact (hcommands hfew).elim
      · exact ⟨fun _ _ _ => hmany, fun _ _ hfew => (not_lt.mpr hmany hfew).elim⟩

/-- Twelve keystrokes, and sixteen commands of which one has a gap. -/
def oneGapCalls : List (Recording (Option ℚ)) :=
  .keystroke 0 false 12 :: .command 1000000000 false (some 4) ::
    List.replicate 15 (.command 0 false (some 4))

theorem temporal_sound_iff_few : TemporalSound (accumulate (oneGapCalls.take 10)) := by
  apply (temporal_sound_iff exactMagnitudes (oneGapCalls.take 10)).mpr
  right
  left
  decide +kernel

/-- One gap is reported as uncorrelated, flat and constant, and makes the session an agent's. -/
theorem oneGapCalls_raise :
    ¬∀ calls : List (Recording (Option ℚ)), TemporalSound (accumulate calls) := by
  intro h
  have hraised : ∃ f ∈ (accumulate oneGapCalls).features,
      Model.hardRules f (some 0) = (some (72 / 100), ["uncorrelated-flat-throughput"]) ∧
        Model.hardRules f.withoutTemporal (some 0) = (some 0, []) := by
    decide +kernel
  obtain ⟨f, hf, hwith, hwithout⟩ := hraised
  have hsame := (h oneGapCalls).rules f hf (by decide +kernel) (some 0)
  rw [hwith, hwithout] at hsame
  exact List.cons_ne_nil _ _ (congrArg Prod.snd hsame)

end Aegis

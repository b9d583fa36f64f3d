import Aegis.Rounding
import Aegis.TemporalEvidence
import Mathlib.Data.List.DropRight

/-!
# What an accumulator has recorded

Each buffer of a session holds the most recent of the samples it admitted, and
the counters are bounded by the number of commands over the whole history, also
where the samples behind them are long gone.
-/

namespace Aegis
variable {F : Type}

/-- The most recent of all samples, up to the cap. -/
def lastSamples (xs : List F) : List F := xs.rtake sampleCap

@[simp] theorem lastSamples_nil : lastSamples ([] : List F) = [] := by
  rw [lastSamples, List.rtake_nil]

theorem length_lastSamples (xs : List F) : (lastSamples xs).length = min sampleCap xs.length := by
  rw [lastSamples, List.rtake.eq_def, List.length_drop]
  omega

theorem mem_of_mem_lastSamples {xs : List F} {x : F} (h : x ∈ lastSamples xs) : x ∈ xs := by
  rw [lastSamples, List.rtake.eq_def] at h
  exact List.mem_of_mem_drop h

theorem pushCapped_lastSamples (xs : List F) (v : F) :
    pushCapped (lastSamples xs) v = lastSamples (xs ++ [v]) := by
  have hcap : 0 < sampleCap := by decide
  have hlength := length_lastSamples xs
  simp only [pushCapped, lastSamples, List.rtake.eq_def, List.length_append,
    List.length_singleton] at hlength ⊢
  generalize sampleCap = cap at hcap hlength ⊢
  split_ifs with hfull
  · have hstart : xs.length + 1 - cap = xs.length - cap + 1 := by omega
    rw [List.drop_drop, hstart, List.drop_append_of_le_length (by omega)]
  · have hnone : xs.length - cap = 0 := by omega
    have hnone' : xs.length + 1 - cap = 0 := by omega
    rw [hnone, hnone', List.drop_zero, List.drop_zero]

theorem pushCapped_filterMap {α : Type} (f : α → Option F) (calls : List α) {r : α} {v : F}
    (hv : f r = some v) :
    pushCapped (lastSamples (calls.filterMap f)) v = lastSamples ((calls ++ [r]).filterMap f) := by
  have hone : [r].filterMap f = [v] := by rw [List.filterMap_cons, hv, List.filterMap_nil]
  rw [pushCapped_lastSamples, List.filterMap_append, hone]

theorem filterMap_snoc_none {α : Type} (f : α → Option F) (calls : List α) {r : α}
    (hr : f r = none) : (calls ++ [r]).filterMap f = calls.filterMap f := by
  have hone : [r].filterMap f = [] := by rw [List.filterMap_cons, hr, List.filterMap_nil]
  rw [List.filterMap_append, hone, List.append_nil]

namespace Recording
variable [F64 F]

/-- The gap before a keystroke, if it is positive and shorter than a minute. -/
def arrival? : Recording F → Option F
  | .keystroke interArrivalNs _ _ =>
      let ms := F64.ofNat interArrivalNs.toNat / F64.lit 1000000
      if SessionAccumulator.inOpenInterval ms (F64.lit 0) (F64.lit 60000) then some ms else none
  | .command _ _ _ => none

def entropy? : Recording F → Option F
  | .keystroke _ _ _ => none
  | .command _ _ entropy => some entropy

end Recording

variable [F64 F]

/-- The buffers and counters after some calls. -/
structure Recorded (calls : List (Recording F)) (acc : SessionAccumulator F) : Prop where
  arrivals : acc.interArrivalsMs = lastSamples (calls.filterMap Recording.arrival?)
  gaps : acc.interCommandsMs = lastSamples (calls.filterMap Recording.gap?)
  entropies : acc.entropies = lastSamples (calls.filterMap Recording.entropy?)
  backspaces : acc.backspaceCommands ≤ acc.commands
  deliveries : acc.wholeLinePastes + acc.subFloorNonpasteGaps ≤ acc.commands

theorem Recorded.keystroke {calls : List (Recording F)} {acc : SessionAccumulator F}
    (h : Recorded calls acc) (ns : UInt64) (isPaste : Bool) (burstLen : UInt32) :
    Recorded (calls ++ [.keystroke ns isPaste burstLen])
      (acc.recordKeystroke ns isPaste burstLen) where
  arrivals := by
    rw [SessionAccumulator.recordKeystroke]
    dsimp only
    split_ifs with hopen
    · rw [h.arrivals]
      exact pushCapped_filterMap Recording.arrival? calls (if_pos hopen)
    · have hnone : (Recording.keystroke ns isPaste burstLen : Recording F).arrival? = none :=
        if_neg hopen
      rw [h.arrivals, filterMap_snoc_none Recording.arrival? calls hnone]
  gaps := h.gaps.trans (congrArg lastSamples (filterMap_snoc_none _ _ rfl).symm)
  entropies := h.entropies.trans (congrArg lastSamples (filterMap_snoc_none _ _ rfl).symm)
  backspaces := h.backspaces
  deliveries := h.deliveries

theorem Recorded.command {calls : List (Recording F)} {acc : SessionAccumulator F}
    (h : Recorded calls acc) (ns : UInt64) (hadBackspace : Bool) (entropy : F) :
    Recorded (calls ++ [.command ns hadBackspace entropy])
      (acc.recordCommand ns hadBackspace entropy) where
  arrivals := h.arrivals.trans (congrArg lastSamples (filterMap_snoc_none _ _ rfl).symm)
  gaps := by
    rw [SessionAccumulator.recordCommand]
    dsimp only
    split_ifs with hopen
    · rw [h.gaps]
      exact pushCapped_filterMap Recording.gap? calls (if_pos hopen)
    · have hnone : (Recording.command ns hadBackspace entropy).gap? = none := if_neg hopen
      rw [h.gaps, filterMap_snoc_none Recording.gap? calls hnone]
  entropies := by
    rw [SessionAccumulator.recordCommand, h.entropies]
    exact pushCapped_filterMap Recording.entropy? calls rfl
  backspaces := by
    have hle := h.backspaces
    rw [SessionAccumulator.recordCommand]
    dsimp only
    split_ifs <;> omega
  deliveries := by
    have hle := h.deliveries
    rw [SessionAccumulator.recordCommand]
    dsimp only
    cases acc.pendingCommandIsPaste
    · simp only [Bool.false_eq_true, if_false, Bool.not_false, Bool.and_true]
      split_ifs <;> omega
    · simp only [if_true, Bool.not_true, Bool.and_false, Bool.false_eq_true, if_false]
      omega

theorem Recorded.snoc {calls : List (Recording F)} {acc : SessionAccumulator F}
    (h : Recorded calls acc) (r : Recording F) : Recorded (calls ++ [r]) (acc.record r) := by
  cases r with
  | keystroke ns isPaste burstLen => exact h.keystroke ns isPaste burstLen
  | command ns hadBackspace entropy => exact h.command ns hadBackspace entropy

theorem accumulate_recorded (calls : List (Recording F)) : Recorded calls (accumulate calls) := by
  induction calls using List.reverseRecOn with
  | nil => exact ⟨lastSamples_nil.symm, lastSamples_nil.symm, lastSamples_nil.symm, le_rfl, le_rfl⟩
  | append_singleton calls r ih =>
      have hsnoc : accumulate (calls ++ [r]) = (accumulate calls).record r := List.foldl_append
      rw [hsnoc]
      exact ih.snoc r

omit [F64 F] in
theorem sum_keys_le {bound : ℕ} (hbound : ∀ r : Recording F, r.keys ≤ bound)
    (calls : List (Recording F)) : (calls.map Recording.keys).sum ≤ calls.length * bound := by
  induction calls with
  | nil => simp
  | cons r calls ih =>
      have hr := hbound r
      rw [List.map_cons, List.sum_cons, List.length_cons, Nat.add_mul, Nat.one_mul]
      omega

omit [F64 F] in
theorem keys_le (r : Recording F) : r.keys ≤ 2 ^ 32 := by
  cases r with
  | keystroke ns isPaste burstLen =>
      have hburst := burstLen.toNat_lt
      rw [Recording.keys]
      omega
  | command ns hadBackspace entropy => exact Nat.zero_le _

/-- A call adds less than 2^32 to a counter, so `u64` is wide enough for as many calls. -/
theorem accumulate_counters_lt (calls : List (Recording F)) (h : calls.length < 2 ^ 32) :
    (accumulate calls).keystrokes < 2 ^ 64 ∧ (accumulate calls).commands < 2 ^ 64 := by
  have hcounted := accumulate_counted calls
  have hkeys := sum_keys_le keys_le calls
  have hcommands : calls.countP Recording.isCommand ≤ calls.length := List.countP_le_length
  rw [hcounted.keystrokes, hcounted.commands]
  constructor
  · calc (calls.map Recording.keys).sum
      _ ≤ calls.length * 2 ^ 32 := hkeys
      _ < 2 ^ 32 * 2 ^ 32 := Nat.mul_lt_mul_of_pos_right h (by norm_num)
      _ = 2 ^ 64 := by norm_num
  · calc calls.countP Recording.isCommand
      _ ≤ calls.length := hcommands
      _ < 2 ^ 32 := h
      _ ≤ 2 ^ 64 := by norm_num

theorem features_ratios {acc : SessionAccumulator F} {f : FeatureVector F}
    (h : acc.features = some f) :
    f.backspaceRatio = ratio acc.backspaceCommands (max acc.commands 1) ∧
      f.wholeLinePasteRatio = ratio acc.wholeLinePastes (max acc.commands 1) ∧
      f.reactionFloorHits = ratio acc.subFloorNonpasteGaps (max acc.commands 1) := by
  rw [SessionAccumulator.features] at h
  split at h
  · cases h
  · cases h
    exact ⟨rfl, rfl, rfl⟩

section Ratios
variable {K : Type} [Field K] [LinearOrder K] [IsStrictOrderedRing K]

theorem ratio_fraction (R : RoundedArithmetic F K) {m n : ℕ} (h : m ≤ n) :
    0 ≤ R.val (ratio m (max n 1)) ∧ R.val (ratio m (max n 1)) ≤ 1 := by
  have hpos : 0 < max n 1 := by omega
  rw [ratio, if_neg hpos.ne']
  exact R.fraction (by omega) hpos

theorem ratio_sum (R : RoundedArithmetic F K) (hexact : ∀ a, R.round a = a) {m m' n : ℕ}
    (h : m + m' ≤ n) : R.val (ratio m (max n 1)) + R.val (ratio m' (max n 1)) ≤ 1 := by
  have hpos : 0 < max n 1 := by omega
  have hle : m + m' ≤ max n 1 := by omega
  have hcast : (m : K) + m' ≤ (max n 1 : ℕ) := by exact_mod_cast hle
  rw [ratio, ratio, if_neg hpos.ne', if_neg hpos.ne', R.quotient_of_exact hexact m hpos,
    R.quotient_of_exact hexact m' hpos, ← add_div]
  exact div_le_one_of_le₀ hcast (Nat.cast_nonneg _)

theorem ratio_sum_rounded (R : RoundedArithmetic F K) {u : K} {most m m' n : ℕ}
    (hnearest : R.Nearest u most) (h : m + m' ≤ n) (hn : n < most) :
    R.round (R.val (ratio m (max n 1)) + R.val (ratio m' (max n 1))) ≤ 1 := by
  have hpos : 0 < max n 1 := by omega
  rw [ratio, ratio, if_neg hpos.ne', if_neg hpos.ne']
  exact hnearest.sum_le_one R (by omega) hpos (by omega)

/-- After any calls the buffers hold the last samples they admitted, the counters stay
within the commands, the three ratios are fractions under any rounding, and the last two
of them add up to at most one where nothing is rounded, and with their sum rounded where each
result is rounded to nearest. -/
theorem accumulate_representation (R : RoundedArithmetic F K) (calls : List (Recording F)) :
    (accumulate calls).interArrivalsMs = lastSamples (calls.filterMap Recording.arrival?) ∧
      (accumulate calls).interCommandsMs = lastSamples (calls.filterMap Recording.gap?) ∧
      (accumulate calls).entropies = lastSamples (calls.filterMap Recording.entropy?) ∧
      (accumulate calls).backspaceCommands ≤ (accumulate calls).commands ∧
      (accumulate calls).wholeLinePastes + (accumulate calls).subFloorNonpasteGaps ≤
        (accumulate calls).commands ∧
      ∀ f, (accumulate calls).features = some f →
        (0 ≤ R.val f.backspaceRatio ∧ R.val f.backspaceRatio ≤ 1) ∧
        (0 ≤ R.val f.wholeLinePasteRatio ∧ R.val f.wholeLinePasteRatio ≤ 1) ∧
        (0 ≤ R.val f.reactionFloorHits ∧ R.val f.reactionFloorHits ≤ 1) ∧
        ((∀ a, R.round a = a) → R.val f.wholeLinePasteRatio + R.val f.reactionFloorHits ≤ 1) ∧
        ∀ u most, R.Nearest u most → (accumulate calls).commands < most →
          R.round (R.val f.wholeLinePasteRatio + R.val f.reactionFloorHits) ≤ 1 := by
  have h := accumulate_recorded calls
  have hdeliveries := h.deliveries
  refine ⟨h.arrivals, h.gaps, h.entropies, h.backspaces, hdeliveries, ?_⟩
  intro f hf
  obtain ⟨hback, hpaste, hfloor⟩ := features_ratios hf
  rw [hback, hpaste, hfloor]
  refine ⟨ratio_fraction R h.backspaces, ratio_fraction R (by omega), ratio_fraction R (by omega),
    fun hexact => ratio_sum R hexact hdeliveries, ?_⟩
  intro u most hnearest hmost
  exact ratio_sum_rounded R hnearest hdeliveries hmost

/-- A line pasted whole, then two commands of which one is prompt. -/
def pastedLine : List (Recording ℚ) :=
  [.keystroke 4000000 true 20, .command 5000000 true 3, .command 0 false 3,
    .command 2000000 false 2]

theorem accumulate_representation_pastedLine :
    ∃ f, (accumulate pastedLine).features = some f ∧
      f.wholeLinePasteRatio + f.reactionFloorHits ≤ 1 ∧
      ratRounded.round (ratRounded.val f.wholeLinePasteRatio +
        ratRounded.val f.reactionFloorHits) ≤ 1 := by
  obtain ⟨f, hf⟩ : ∃ f, (accumulate pastedLine).features = some f :=
    Option.isSome_iff_exists.mp (by decide +kernel)
  have hratios := (accumulate_representation ratRounded pastedLine).2.2.2.2.2 f hf
  exact ⟨f, hf, hratios.2.2.2.1 fun _ => rfl,
    hratios.2.2.2.2 0 4 (ratRounded_nearest 4) (by decide +kernel)⟩

end Ratios
end Aegis

import Aegis.RealArithmetic

/-!
# The features do not see the tempo

A session typed at another tempo, with every gap multiplied by the same factor,
has the same features but for its mean gap, as long as the same gaps are kept.
Variation, autocorrelation, tail and decay are quotients of statistics of one
degree.
-/

namespace Aegis
variable {F K : Type} [F64 F] [Field K] [LinearOrder K] [IsStrictOrderedRing K]

/-- The same observation at another tempo, on the same side of the longest gap kept. -/
inductive Retimed (c : K) : Recording F → Recording F → Prop where
  | keystroke {ns ns' : UInt64} (isPaste : Bool) (burstLen : UInt32)
      (scaled : (ns'.toNat : K) = c * ns.toNat)
      (kept : ns'.toNat < 60000000000 ↔ ns.toNat < 60000000000) :
      Retimed c (.keystroke ns isPaste burstLen) (.keystroke ns' isPaste burstLen)
  | command {ns ns' : UInt64} (hadBackspace : Bool) (entropy : F)
      (scaled : (ns'.toNat : K) = c * ns.toNat)
      (kept : ns'.toNat < 3600000000000 ↔ ns.toNat < 3600000000000) :
      Retimed c (.command ns hadBackspace entropy) (.command ns' hadBackspace entropy)

namespace ExactStatistics
variable (E : ExactStatistics F K) (c : K)

/-- Two buffers of positive numbers, the second at another tempo. -/
def Scaled (buf buf' : List F) : Prop :=
  ∃ ys : List K, (∀ y ∈ ys, 0 < y) ∧ buf = ys.map E.num ∧
    buf' = (ys.map fun y => c * y).map E.num

/-- The same counters, with buffers at another tempo, and no more quick gaps at a slower one. -/
structure Paced (acc acc' : SessionAccumulator F) : Prop where
  arrivals : E.Scaled c acc.interArrivalsMs acc'.interArrivalsMs
  gaps : E.Scaled c acc.interCommandsMs acc'.interCommandsMs
  entropies : acc'.entropies = acc.entropies
  keystrokes : acc'.keystrokes = acc.keystrokes
  pastes : acc'.pastes = acc.pastes
  commands : acc'.commands = acc.commands
  backspaces : acc'.backspaceCommands = acc.backspaceCommands
  pending : acc'.pendingCommandIsPaste = acc.pendingCommandIsPaste
  wholeLines : acc'.wholeLinePastes = acc.wholeLinePastes
  quick : 1 ≤ c → acc'.subFloorNonpasteGaps ≤ acc.subFloorNonpasteGaps

/-- The same features but for the mean gap and for those with a threshold in milliseconds. -/
structure SameShape (f f' : FeatureVector F) : Prop where
  keystrokeCv : f'.keystrokeCv = f.keystrokeCv
  pasteRatio : f'.pasteRatio = f.pasteRatio
  meanInterCommandMs : ∃ m, f.meanInterCommandMs = E.num m ∧ f'.meanInterCommandMs = E.num (c * m)
  backspaceRatio : f'.backspaceRatio = f.backspaceRatio
  entropyMean : f'.entropyMean = f.entropyMean
  cadenceRegularity : f'.cadenceRegularity = f.cadenceRegularity
  gapAutocorr : f'.gapAutocorr = f.gapAutocorr
  thinkTailRatio : f'.thinkTailRatio = f.thinkTailRatio
  throughputDecay : f'.throughputDecay = f.throughputDecay
  reactionFloorHits : 1 ≤ c → F64.le f'.reactionFloorHits f.reactionFloorHits = true
  wholeLinePasteRatio : f'.wholeLinePasteRatio = f.wholeLinePasteRatio

omit [F64 F] [Field K] [LinearOrder K] [IsStrictOrderedRing K] in
theorem pushCapped_map (f : K → F) (ys : List K) (y : K) :
    pushCapped (ys.map f) (f y) = (pushCapped ys y).map f := by
  rw [pushCapped, pushCapped, List.length_map]
  split_ifs
  · rw [List.map_append, List.map_drop, List.map_singleton]
  · rw [List.map_append, List.map_singleton]

variable {c}

include E in
theorem milliseconds_num (n : ℕ) :
    (F64.ofNat n / F64.lit 1000000 : F) = E.num ((n : K) / 1000000) := by
  have hcast : ((1000000 : ℚ) : K) = 1000000 := by norm_num
  rw [E.ofNat, E.lit, hcast, E.div _ (by norm_num)]

theorem kept_iff (n bound : ℕ) :
    SessionAccumulator.inOpenInterval (E.num ((n : K) / 1000000)) (F64.lit 0)
      (F64.lit (bound : ℚ)) = true ↔ 0 < n ∧ n < bound * 1000000 := by
  have hunit : (0 : K) < 1000000 := by norm_num
  rw [SessionAccumulator.inOpenInterval, Bool.and_eq_true, E.zero, E.lit, E.lt, E.lt,
    Rat.cast_natCast, div_pos_iff_of_pos_right hunit, div_lt_iff₀ hunit]
  norm_cast

/-- A buffer after a gap, which is kept if it is positive and short. -/
def withGap (buf : List F) (ns : ℕ) (bound : ℚ) : List F :=
  let ms := F64.ofNat ns / F64.lit 1000000
  if SessionAccumulator.inOpenInterval ms (F64.lit 0) (F64.lit bound) then pushCapped buf ms
  else buf

theorem Scaled.withGap {buf buf' : List F} (h : E.Scaled c buf buf') (hc : 0 < c) {n n' : ℕ}
    (hscaled : (n' : K) = c * n) (bound : ℕ)
    (hkept : n' < bound * 1000000 ↔ n < bound * 1000000) :
    E.Scaled c (ExactStatistics.withGap buf n bound) (ExactStatistics.withGap buf' n' bound) := by
  have hpos : 0 < n' ↔ 0 < n := by
    have hcast : (0 : K) < n' ↔ (0 : K) < n := by rw [hscaled, mul_pos_iff_of_pos_left hc]
    exact_mod_cast hcast
  simp only [ExactStatistics.withGap, E.milliseconds_num, E.kept_iff, hpos, hkept]
  split_ifs with hopen
  · obtain ⟨ys, hys, rfl, rfl⟩ := h
    rw [hscaled]
    refine ⟨pushCapped ys ((n : K) / 1000000), ?_, pushCapped_map _ _ _, ?_⟩
    · intro y hy
      rcases mem_pushCapped hy with hy | rfl
      · exact hys y hy
      · exact div_pos (Nat.cast_pos.mpr hopen.1) (by norm_num)
    · rw [← pushCapped_map (fun y => c * y), ← pushCapped_map, mul_div_assoc]
  · exact h

include E in
theorem quick_le (hc : 1 ≤ c) {n n' : ℕ} (hscaled : (n' : K) = c * n)
    (hquick : SessionAccumulator.inOpenInterval (F64.ofNat n' / F64.lit 1000000 : F) (F64.lit 0)
      SessionAccumulator.reactionFloorMs = true) :
    SessionAccumulator.inOpenInterval (F64.ofNat n / F64.lit 1000000 : F) (F64.lit 0)
      SessionAccumulator.reactionFloorMs = true := by
  have hfloor : (SessionAccumulator.reactionFloorMs : F) = F64.lit ((150 : ℕ) : ℚ) := by
    rw [SessionAccumulator.reactionFloorMs, Nat.cast_ofNat]
  rw [hfloor, E.milliseconds_num, E.kept_iff] at hquick ⊢
  have hle : (n : K) ≤ n' := hscaled ▸ le_mul_of_one_le_left (Nat.cast_nonneg n) hc
  have hle' : n ≤ n' := by exact_mod_cast hle
  refine ⟨?_, hle'.trans_lt hquick.2⟩
  rcases Nat.eq_zero_or_pos n with rfl | hn
  · rw [Nat.cast_zero, mul_zero, Nat.cast_eq_zero] at hscaled
    exact absurd hscaled hquick.1.ne'
  · exact hn

theorem Paced.record {acc acc' : SessionAccumulator F} (h : E.Paced c acc acc') (hc : 0 < c)
    {r r' : Recording F} (hr : Retimed c r r') : E.Paced c (acc.record r) (acc'.record r') := by
  cases hr with
  | keystroke isPaste burstLen scaled kept =>
      constructor
      case arrivals =>
        have hpush := Scaled.withGap E h.arrivals hc scaled 60000 kept
        rwa [Nat.cast_ofNat] at hpush
      case gaps => exact h.gaps
      case entropies => exact h.entropies
      case keystrokes => exact congrArg (· + max burstLen.toNat 1) h.keystrokes
      case pastes =>
        simp only [SessionAccumulator.record, SessionAccumulator.recordKeystroke, h.pastes]
      case commands => exact h.commands
      case backspaces => exact h.backspaces
      case pending => rfl
      case wholeLines => exact h.wholeLines
      case quick => exact h.quick
  | command hadBackspace entropy scaled kept =>
      constructor
      case arrivals => exact h.arrivals
      case gaps =>
        have hpush := Scaled.withGap E h.gaps hc scaled 3600000 kept
        rwa [Nat.cast_ofNat] at hpush
      case entropies => exact congrArg (pushCapped · entropy) h.entropies
      case keystrokes => exact h.keystrokes
      case pastes => exact h.pastes
      case commands => exact congrArg (· + 1) h.commands
      case backspaces =>
        simp only [SessionAccumulator.record, SessionAccumulator.recordCommand, h.backspaces]
      case pending => rfl
      case wholeLines =>
        simp only [SessionAccumulator.record, SessionAccumulator.recordCommand, h.wholeLines,
          h.pending]
      case quick =>
        intro hslower
        have hle := h.quick hslower
        simp only [SessionAccumulator.record, SessionAccumulator.recordCommand, h.pending]
        split_ifs with hquick hquick' hquick'
        · exact Nat.succ_le_succ hle
        · rw [Bool.and_eq_true] at hquick hquick'
          exact absurd ⟨E.quick_le hslower scaled hquick.1, hquick.2⟩ hquick'
        · exact Nat.le_succ_of_le hle
        · exact hle

theorem accumulate_paced (hc : 0 < c) {calls calls' : List (Recording F)}
    (h : List.Forall₂ (Retimed c) calls calls') :
    E.Paced c (accumulate calls) (accumulate calls') := by
  have hrun : ∀ acc acc' : SessionAccumulator F, E.Paced c acc acc' →
      E.Paced c (calls.foldl SessionAccumulator.record acc)
        (calls'.foldl SessionAccumulator.record acc') := by
    induction h with
    | nil => exact fun _ _ hacc => hacc
    | cons hr _ ih => exact fun acc acc' hacc => ih _ _ (hacc.record E hc hr)
  have hempty : E.Scaled c [] [] := ⟨[], nofun, rfl, rfl⟩
  exact hrun {} {} ⟨hempty, hempty, rfl, rfl, rfl, rfl, rfl, rfl, rfl, fun _ => le_rfl⟩

section Statistics
variable (hc : 0 < c) (hroot : ∀ a, 0 ≤ a → E.sqrt a * E.sqrt a = a)

include hc hroot in
theorem sqrt_scaled {a : K} (ha : 0 ≤ a) : E.sqrt (c * c * a) = c * E.sqrt a := by
  have hsquare : 0 ≤ c * c * a := mul_nonneg (mul_self_nonneg c) ha
  rw [← mul_self_inj (E.sqrt_nonneg hsquare) (mul_nonneg hc.le (E.sqrt_nonneg ha)),
    hroot _ hsquare, mul_mul_mul_comm, hroot _ ha]

omit E [LinearOrder K] [IsStrictOrderedRing K] in
theorem deviations_scaled (ys : List K) (m : K) :
    ((ys.map fun y => c * y).map fun y => y - c * m) =
      (ys.map fun y => y - m).map fun d => c * d := by
  rw [List.map_map, List.map_map]
  apply List.map_congr_left
  intro y _
  exact (mul_sub c y m).symm

omit E [LinearOrder K] [IsStrictOrderedRing K] in
theorem mean_scaled (ys : List K) :
    (ys.map fun y => c * y).sum / ((ys.map fun y => c * y).length : K) =
      c * (ys.sum / ys.length) := by
  rw [Sample.sum_scaled, List.length_map, mul_div_assoc]

include hc hroot in
theorem meanStd_scaled (ys : List K) : ∃ m s, meanStd (ys.map E.num) = (E.num m, E.num s) ∧
    meanStd ((ys.map fun y => c * y).map E.num) = (E.num (c * m), E.num (c * s)) := by
  by_cases hnil : ys = []
  · refine ⟨0, 0, ?_, ?_⟩
    · rw [hnil, ← E.zero]
      rfl
    · rw [hnil, mul_zero, ← E.zero]
      rfl
  · have hscaled : (ys.map fun y => c * y) ≠ [] := by simpa using hnil
    have hlength := length_pos_cast hnil
    obtain ⟨m, hm⟩ : ∃ m, m = ys.sum / (ys.length : K) := ⟨_, rfl⟩
    have hvar : 0 ≤ Sample.squares (ys.map fun y => y - m) / (ys.length : K) :=
      div_nonneg (Sample.squares_nonneg _) hlength.le
    refine ⟨m, E.sqrt (Sample.squares (ys.map fun y => y - m) / ys.length), ?_, ?_⟩
    · rw [meanStd, if_neg (by simpa using hnil)]
      dsimp only
      rw [E.mean_num hnil, ← hm, E.deviations_num, E.ofNat, List.length_map,
        E.div _ hlength.ne', E.sqrt_num hvar]
    · rw [meanStd, if_neg (by simpa using hnil)]
      dsimp only
      rw [E.mean_num hscaled, mean_scaled, ← hm, E.deviations_num, deviations_scaled,
        Sample.squares_scaled, E.ofNat, List.length_map, List.length_map, E.div _ hlength.ne',
        mul_div_assoc, E.sqrt_num (mul_nonneg (mul_self_nonneg c) hvar),
        E.sqrt_scaled hc hroot hvar]

include hc in
theorem coefficient_scaled (m s : K) :
    SessionAccumulator.coefficient (E.num (c * m)) (E.num (c * s)) =
      SessionAccumulator.coefficient (E.num m) (E.num s) := by
  have hpos : F64.lt (F64.lit 0) (E.num (c * m)) = F64.lt (F64.lit 0) (E.num m) := by
    rw [Bool.eq_iff_iff, E.zero, E.lt, E.lt, mul_pos_iff_of_pos_left hc]
  rw [SessionAccumulator.coefficient, SessionAccumulator.coefficient, hpos]
  split_ifs with h
  · rw [E.zero, E.lt] at h
    rw [E.div _ (mul_pos hc h).ne', E.div _ h.ne', mul_div_mul_left _ _ hc.ne']
  · rfl

include hc in
theorem lag1Autocorr_scaled (ys : List K) :
    lag1Autocorr ((ys.map fun y => c * y).map E.num) = lag1Autocorr (ys.map E.num) := by
  rw [lag1Autocorr, lag1Autocorr]
  simp only [List.length_map]
  by_cases hshort : ys.length < 4
  · rw [if_pos hshort, if_pos hshort]
  · have hne : ys ≠ [] := by
      rintro rfl
      simp at hshort
    have hscaled : (ys.map fun y => c * y) ≠ [] := by simpa using hne
    have hsquare : 0 < c * c := mul_pos hc hc
    have hflat_iff : ∀ a, c * c * a ≤ 0 ↔ a ≤ 0 := by
      intro a
      rw [← not_lt, ← not_lt, mul_pos_iff_of_pos_left hsquare]
    rw [if_neg hshort, if_neg hshort, E.mean_num hne, E.mean_num hscaled, mean_scaled,
      E.deviations_num, E.deviations_num, E.covariations_num, E.covariations_num,
      deviations_scaled, Sample.squares_scaled, Sample.neighbors_scaled]
    simp only [E.zero, E.le, hflat_iff]
    split_ifs with hflat
    · rfl
    · rw [not_le] at hflat
      rw [E.div _ (mul_pos hsquare hflat).ne', E.div _ hflat.ne',
        mul_div_mul_left _ _ hsquare.ne']

include hc in
theorem sort_scaled (ys : List K) :
    ((ys.map fun y => c * y).mergeSort fun a b => decide (a ≤ b)) =
      (ys.mergeSort fun a b => decide (a ≤ b)).map fun y => c * y := by
  refine (List.map_mergeSort fun a _ b _ => ?_).symm
  rw [decide_eq_decide, mul_le_mul_iff_of_pos_left hc]

omit [Field K] [LinearOrder K] [IsStrictOrderedRing K] in
omit E in
theorem percentile_nil (q : F) : percentile ([] : List F) q = F64.lit 0 := by
  rw [percentile, F64.sort, List.mergeSort_nil]

include hc in
theorem percentile_scaled (ys : List K) (q : K) : ∃ p,
    percentile (ys.map E.num) (E.num q) = E.num p ∧
      percentile ((ys.map fun y => c * y).map E.num) (E.num q) = E.num (c * p) := by
  by_cases hnil : ys = []
  · refine ⟨0, ?_, ?_⟩
    · rw [hnil, List.map_nil, percentile_nil, E.zero]
    · rw [hnil, List.map_nil, List.map_nil, percentile_nil, mul_zero, E.zero]
  · have hscaled : (ys.map fun y => c * y) ≠ [] := by simpa using hnil
    obtain ⟨lo, hi, hbrackets, -, hp⟩ := E.percentile_num hnil q
    obtain ⟨lo', hi', hbrackets', -, hp'⟩ := E.percentile_num hscaled q
    rw [List.length_map] at hbrackets' hp'
    obtain ⟨rfl, rfl⟩ := hbrackets.unique hbrackets'
    rw [sort_scaled hc, Sample.interpolate_scaled] at hp'
    exact ⟨_, hp, hp'⟩

include hc in
theorem thinkTailRatio_scaled (ys : List K) :
    SessionAccumulator.thinkTailRatio ((ys.map fun y => c * y).map E.num) =
      SessionAccumulator.thinkTailRatio (ys.map E.num) := by
  obtain ⟨p50, hp50, hp50'⟩ := E.percentile_scaled hc ys ((1 / 2 : ℚ) : K)
  obtain ⟨p90, hp90, hp90'⟩ := E.percentile_scaled hc ys ((9 / 10 : ℚ) : K)
  rw [SessionAccumulator.thinkTailRatio, SessionAccumulator.thinkTailRatio, E.lit (1 / 2),
    E.lit (9 / 10), hp50, hp50', hp90, hp90']
  simp only [E.zero, E.lt, mul_pos_iff_of_pos_left hc]
  split_ifs with hpos
  · rw [E.div _ (mul_pos hc hpos).ne', E.div _ hpos.ne', mul_div_mul_left _ _ hc.ne']
  · rfl

theorem not_le_zero {a : K} (ha : 0 < a) : F64.le (E.num a) (F64.lit 0) = false := by
  rw [Bool.eq_false_iff, ne_eq, E.zero, E.le, not_le]
  exact ha

/-- The decay of two halves that took some time. -/
theorem decaySlope_halves {ys : List K} (hys : ∀ y ∈ ys, 0 < y) (hlong : ¬ys.length < 6)
    {first second : K} (hfirst : first = (ys.take (ys.length / 2)).sum)
    (hsecond : second = ys.sum - (ys.take (ys.length / 2)).sum) :
    decaySlope (ys.map E.num) = E.num (E.tanh
      ((((ys.length - ys.length / 2 : ℕ) : K) / second - ((ys.length / 2 : ℕ) : K) / first) /
        (((ys.length / 2 : ℕ) : K) / first) * ((3 / 2 : ℚ) : K))) := by
  obtain ⟨hfirstpos, hsecondpos⟩ := halves_pos hys hlong
  rw [← hfirst] at hfirstpos hsecond hsecondpos
  rw [← hsecond] at hsecondpos
  have htotal : 0 < ys.sum := by linarith
  have hmid : (0 : K) < (ys.length / 2 : ℕ) := by
    have hhalf : 0 < ys.length / 2 := by omega
    exact_mod_cast hhalf
  have hrate := div_pos hmid hfirstpos
  rw [decaySlope, List.length_map, if_neg hlong]
  dsimp only
  rw [← List.map_take, E.sum_num, E.sum_num, ← hfirst, E.sub, ← hsecond, E.not_le_zero htotal,
    E.not_le_zero hfirstpos, E.not_le_zero hsecondpos, E.ofNat, E.ofNat, E.div _ hfirstpos.ne',
    E.div _ hsecondpos.ne', E.not_le_zero hrate, E.sub, E.div _ hrate.ne', E.lit (3 / 2), E.mul,
    E.tanh_num]
  rfl

include hc in
theorem decaySlope_scaled {ys : List K} (hys : ∀ y ∈ ys, 0 < y) :
    decaySlope ((ys.map fun y => c * y).map E.num) = decaySlope (ys.map E.num) := by
  by_cases hshort : ys.length < 6
  · rw [decaySlope, decaySlope]
    simp only [List.length_map, if_pos hshort]
  · have hscaled : ∀ y ∈ ys.map fun y => c * y, 0 < y := by
      intro y hy
      obtain ⟨x, hx, rfl⟩ := List.mem_map.mp hy
      exact mul_pos hc (hys x hx)
    have hlong : ¬(ys.map fun y => c * y).length < 6 := by rwa [List.length_map]
    have hrate : ∀ n t : K, n / (c * t) = c⁻¹ * (n / t) := by
      intro n t
      rw [mul_comm c t, ← div_div, div_eq_inv_mul]
    have hinv : c⁻¹ ≠ 0 := inv_ne_zero hc.ne'
    rw [E.decaySlope_halves hys hshort rfl rfl, E.decaySlope_halves hscaled hlong rfl rfl,
      List.length_map, ← List.map_take, Sample.sum_scaled, Sample.sum_scaled, ← mul_sub, hrate,
      hrate, ← mul_sub, mul_div_mul_left _ _ hinv]

end Statistics

theorem Paced.features {acc acc' : SessionAccumulator F} (h : E.Paced c acc acc') (hc : 0 < c)
    (hroot : ∀ a, 0 ≤ a → E.sqrt a * E.sqrt a = a) :
    Option.Rel (E.SameShape c) acc.features acc'.features := by
  obtain ⟨as, -, has, has'⟩ := h.arrivals
  obtain ⟨gs, hgs, hgaps, hgaps'⟩ := h.gaps
  obtain ⟨am, asd, hastats, hastats'⟩ := E.meanStd_scaled hc hroot as
  obtain ⟨gm, gsd, hgstats, hgstats'⟩ := E.meanStd_scaled hc hroot gs
  have henough : acc'.enoughEvidence = acc.enoughEvidence := by
    rw [SessionAccumulator.enoughEvidence, SessionAccumulator.enoughEvidence, h.keystrokes,
      h.commands]
  rw [SessionAccumulator.features, SessionAccumulator.features, henough]
  cases acc.enoughEvidence with
  | false => exact Option.Rel.none
  | true =>
      simp only [Bool.not_true, Bool.false_eq_true, if_false, has, has', hgaps, hgaps', hastats,
        hastats', hgstats, hgstats']
      apply Option.Rel.some
      constructor
      case keystrokeCv => exact E.coefficient_scaled hc am asd
      case pasteRatio => rw [h.pastes, h.commands]
      case meanInterCommandMs => exact ⟨gm, rfl, rfl⟩
      case backspaceRatio => rw [h.backspaces, h.commands]
      case entropyMean => rw [h.entropies]
      case cadenceRegularity => rw [E.coefficient_scaled hc gm gsd]
      case gapAutocorr => rw [h.commands, E.lag1Autocorr_scaled hc]
      case thinkTailRatio => rw [h.commands, E.thinkTailRatio_scaled hc]
      case throughputDecay => rw [h.commands, E.decaySlope_scaled hc hgs]
      case reactionFloorHits =>
        intro hslower
        have hle : (acc'.subFloorNonpasteGaps : K) ≤ acc.subFloorNonpasteGaps := by
          exact_mod_cast h.quick hslower
        have hcommands : 0 < max acc.commands 1 := lt_max_of_lt_right Nat.one_pos
        dsimp only
        rw [h.commands, E.ratio_num _ hcommands, E.ratio_num _ hcommands, E.le]
        exact div_le_div_of_nonneg_right hle (Nat.cast_nonneg _)
      case wholeLinePasteRatio => rw [h.wholeLines, h.commands]

/-- At another tempo a session has the same features but for its mean gap, which is scaled, and
at a slower one no more reactions below the floor. -/
theorem features_retimed (hroot : ∀ a, 0 ≤ a → E.sqrt a * E.sqrt a = a) (hc : 0 < c)
    {calls calls' : List (Recording F)} (h : List.Forall₂ (Retimed c) calls calls') :
    Option.Rel (E.SameShape c) (accumulate calls).features (accumulate calls').features :=
  (E.accumulate_paced hc h).features E hc hroot

end ExactStatistics

/-- Twelve keystrokes and sixteen commands at varied gaps. -/
def tempoCalls (tempo : ℕ) : List (Recording RealOrMissing) :=
  .keystroke (.ofNat (tempo * 100000000)) false 12 ::
    (List.range 16).map fun i =>
      .command (.ofNat (tempo * (1000000 * (i % 5 + 1)))) false RealOrMissing.missing

theorem features_retimed_slower :
    ∃ f f', (accumulate (tempoCalls 1)).features = some f ∧
      (accumulate (tempoCalls 2)).features = some f' ∧
      f'.gapAutocorr = f.gapAutocorr ∧ f'.throughputDecay = f.throughputDecay := by
  have hnat : ∀ n : ℕ, n < 2 ^ 64 → (UInt64.ofNat n).toNat = n := fun n hn =>
    UInt64.toNat_ofNat_of_lt' hn
  have hretimed : List.Forall₂ (Retimed (2 : ℝ)) (tempoCalls 1) (tempoCalls 2) := by
    apply List.Forall₂.cons
    · apply Retimed.keystroke
      · rw [hnat _ (by norm_num), hnat _ (by norm_num)]
        norm_num
      · rw [hnat _ (by norm_num), hnat _ (by norm_num)]
        norm_num
    · rw [List.forall₂_map_left_iff, List.forall₂_map_right_iff, List.forall₂_same]
      intro i _
      have hphase : i % 5 < 5 := Nat.mod_lt i (by norm_num)
      apply Retimed.command
      · rw [hnat _ (by omega), hnat _ (by omega)]
        push_cast
        ring
      · rw [hnat _ (by omega), hnat _ (by omega)]
        omega
  have hshape := RealOrMissing.statistics.features_retimed (fun a ha => Real.mul_self_sqrt ha)
    (by norm_num) hretimed
  have henough : (accumulate (tempoCalls 1)).enoughEvidence = true := by
    have hcounted := accumulate_counted (tempoCalls 1)
    rw [SessionAccumulator.enoughEvidence, hcounted.keystrokes, hcounted.commands]
    rfl
  obtain ⟨f, hf⟩ : ∃ f, (accumulate (tempoCalls 1)).features = some f := by
    rw [SessionAccumulator.features, henough]
    exact ⟨_, rfl⟩
  rw [hf] at hshape
  generalize hf' : (accumulate (tempoCalls 2)).features = features' at hshape
  cases hshape with
  | some h => exact ⟨f, _, hf, rfl, h.gapAutocorr, h.throughputDecay⟩

end Aegis

import Aegis.SampleHistory
import Aegis.SampleStatistics
import Aegis.ExactArithmetic

/-!
# The ranges of the features

In exact arithmetic no feature divides by zero, and every feature is in its
range or missing, whatever was recorded. The autocorrelation is bounded since
neighbors are dominated by squares, and the quantiles rise with their rank since
they interpolate in the sorted samples.
-/

namespace Aegis
variable {F K : Type} [F64 F]

namespace F64

/-- A division that gives something else where the divisor is zero. -/
def quotient (atZero : F → F) (x y : F) : F :=
  if le y (lit 0) && le (lit 0) y then atZero x else x / y

/-- The arithmetic in which divisions by zero have other results. -/
@[reducible] def withZeroDivision (atZero : F → F) : F64 F :=
  { (inferInstance : F64 F) with div := quotient atZero }

end F64

variable [Field K] [LinearOrder K] [IsStrictOrderedRing K]

/-- The functions that the statistics use, on numbers. -/
structure ExactStatistics (F K : Type) [F64 F] [Field K] [LinearOrder K] [IsStrictOrderedRing K]
    extends ExactModel F K, ExactCounts F K where
  brackets : ∀ {a}, 0 ≤ a → Sample.Brackets a (F64.floor (num a)) (F64.ceil (num a))
  sqrt : K → K
  sqrt_num : ∀ {a}, 0 ≤ a → F64.sqrt (num a) = num (sqrt a)
  sqrt_nonneg : ∀ {a}, 0 ≤ a → 0 ≤ sqrt a
  tanh : K → K
  tanh_num : ∀ a, F64.tanh (num a) = num (tanh a)
  tanh_strictMono : StrictMono tanh
  tanh_zero : tanh 0 = 0
  tanh_bounds : ∀ a, -1 < tanh a ∧ tanh a < 1

namespace ExactStatistics
variable (E : ExactStatistics F K)

/-- The missing value, or a number with the property. -/
def MissingOr (P : K → Prop) (x : F) : Prop := x = F64.nan ∨ ∃ a, x = E.num a ∧ P a

include E

theorem ofNat (n : ℕ) : F64.ofNat n = E.num n := E.toExactCounts.ofNat n

theorem zero : (F64.lit 0 : F) = E.num 0 := by rw [E.lit, Rat.cast_zero]

theorem one : (F64.lit 1 : F) = E.num 1 := by rw [E.lit, Rat.cast_one]

theorem exists_map_num {P : K → Prop} {xs : List F} (h : ∀ x ∈ xs, ∃ a, x = E.num a ∧ P a) :
    ∃ ys : List K, xs = ys.map E.num ∧ ∀ y ∈ ys, P y := by
  induction xs with
  | nil => exact ⟨[], rfl, nofun⟩
  | cons x xs ih =>
      obtain ⟨a, rfl, ha⟩ := h x List.mem_cons_self
      obtain ⟨ys, rfl, hys⟩ := ih fun y hy => h y (List.mem_cons_of_mem _ hy)
      exact ⟨a :: ys, rfl, List.forall_mem_cons.mpr ⟨ha, hys⟩⟩

theorem positive_of_lt {x : F} (h : F64.lt (F64.lit 0) x = true) : ∃ a, x = E.num a ∧ 0 < a := by
  obtain ⟨b, a, hb, rfl, hba⟩ := E.numbers_of_lt h
  rw [E.zero] at hb
  exact ⟨a, rfl, E.num_injective hb ▸ hba⟩

omit E in
theorem length_pos_cast {ys : List K} (h : ys ≠ []) : (0 : K) < (ys.length : K) := by
  exact_mod_cast List.length_pos_iff.mpr h

theorem mean_num {ys : List K} (h : ys ≠ []) :
    mean (ys.map E.num) = E.num (ys.sum / ys.length) := by
  rw [mean, E.sum_num, E.ofNat, List.length_map, E.div _ (length_pos_cast h).ne']

omit E in
theorem mean_nonneg {ys : List K} (h : ∀ y ∈ ys, 0 < y) : 0 ≤ ys.sum / (ys.length : K) :=
  div_nonneg (List.sum_nonneg fun y hy => (h y hy).le) (Nat.cast_nonneg _)

theorem deviations_num (ys : List K) (m : K) :
    F64.sum ((ys.map E.num).map fun x => (x - E.num m) * (x - E.num m)) =
      E.num (Sample.squares (ys.map fun y => y - m)) := by
  rw [Sample.squares, ← E.sum_num, List.map_map, List.map_map, List.map_map]
  congr 1
  apply List.map_congr_left
  intro y _
  simp only [Function.comp_apply, E.sub, E.mul]

theorem covariations_num (ys : List K) (m : K) :
    F64.sum (((ys.map E.num).zip (ys.map E.num).tail).map fun w =>
        (w.1 - E.num m) * (w.2 - E.num m)) =
      E.num (Sample.neighbors (ys.map fun y => y - m)) := by
  rw [Sample.neighbors, ← E.sum_num, ← List.map_tail, ← List.map_tail, List.zip_map, List.zip_map,
    List.map_map, List.map_map, List.map_map]
  congr 1
  apply List.map_congr_left
  intro w _
  simp only [Function.comp_apply, Prod.map_fst, Prod.map_snd, E.sub, E.mul]

theorem meanStd_num {ys : List K} (h : ∀ y ∈ ys, 0 < y) :
    ∃ m s, meanStd (ys.map E.num) = (E.num m, E.num s) ∧ 0 ≤ m ∧ 0 ≤ s := by
  unfold meanStd
  by_cases hnil : ys = []
  · rw [hnil, E.zero]
    exact ⟨0, 0, rfl, le_rfl, le_rfl⟩
  · have hlength := length_pos_cast hnil
    have hvar : 0 ≤ Sample.squares (ys.map fun y => y - ys.sum / ys.length) / (ys.length : K) :=
      div_nonneg (Sample.squares_nonneg _) hlength.le
    rw [if_neg (by simpa using hnil)]
    dsimp only
    rw [E.mean_num hnil, E.deviations_num, E.ofNat, List.length_map, E.div _ hlength.ne',
      E.sqrt_num hvar]
    exact ⟨_, _, rfl, mean_nonneg h, E.sqrt_nonneg hvar⟩

theorem coefficient_num (m : K) {s : K} (hs : 0 ≤ s) :
    ∃ c, SessionAccumulator.coefficient (E.num m) (E.num s) = E.num c ∧ 0 ≤ c := by
  rw [SessionAccumulator.coefficient]
  split_ifs with hpos
  · rw [E.zero, E.lt] at hpos
    exact ⟨s / m, E.div s hpos.ne', div_nonneg hs hpos.le⟩
  · exact ⟨0, E.zero, le_rfl⟩

theorem lag1Autocorr_num (ys : List K) :
    ∃ r, lag1Autocorr (ys.map E.num) = E.num r ∧ -1 ≤ r ∧ r ≤ 1 := by
  unfold lag1Autocorr
  rw [List.length_map, E.zero]
  by_cases hshort : ys.length < 4
  · rw [if_pos hshort]
    exact ⟨0, rfl, by norm_num, by norm_num⟩
  · have hne : ys ≠ [] := by
      rintro rfl
      simp at hshort
    rw [if_neg hshort]
    dsimp only
    rw [E.mean_num hne, E.deviations_num, E.covariations_num]
    obtain ⟨devs, hdevs⟩ : ∃ devs, devs = ys.map fun y => y - ys.sum / ys.length := ⟨_, rfl⟩
    rw [← hdevs]
    split_ifs with hflat
    · exact ⟨0, rfl, by norm_num, by norm_num⟩
    · rw [E.le, not_le] at hflat
      have hbound := abs_le.mp (Sample.neighbors_le_squares devs)
      refine ⟨_, E.div _ hflat.ne', ?_, ?_⟩
      · rw [le_div_iff₀ hflat]
        linarith
      · rw [div_le_one hflat]
        exact hbound.2

omit E [Field K] [IsStrictOrderedRing K] in
theorem pairwise_sorted (ys : List K) :
    (ys.mergeSort fun a b => decide (a ≤ b)).Pairwise (· ≤ ·) := by
  have hsorted : (ys.mergeSort fun a b => decide (a ≤ b)).Pairwise fun a b => decide (a ≤ b) :=
    List.pairwise_mergeSort
      (fun a b c hab hbc => by simpa using (by simpa using hab : a ≤ b).trans (by simpa using hbc))
      (fun a b => by simpa using le_total a b) ys
  simpa using hsorted

theorem sort_num (ys : List K) :
    F64.sort (ys.map E.num) = (ys.mergeSort fun a b => decide (a ≤ b)).map E.num := by
  rw [F64.sort]
  refine (List.map_mergeSort fun a _ b _ => ?_).symm
  rw [Bool.eq_iff_iff, decide_eq_true_iff, Bool.not_eq_true', ← Bool.not_eq_true, E.lt, not_lt]

/-- The position of a rank among some samples. -/
def position (q : K) (n : ℕ) : K := max 0 (min q 1) * ((n - 1 : ℕ) : K)

omit E in
theorem position_bounds (q : K) (n : ℕ) :
    0 ≤ position q n ∧ position q n ≤ ((n - 1 : ℕ) : K) := by
  have hlast : (0 : K) ≤ ((n - 1 : ℕ) : K) := Nat.cast_nonneg _
  have hrank : max 0 (min q 1) ≤ 1 := max_le zero_le_one (min_le_right q 1)
  exact ⟨mul_nonneg (le_max_left 0 _) hlast, mul_le_of_le_one_left hlast hrank⟩

omit E in
theorem position_mono {q q' : K} (h : q ≤ q') (n : ℕ) : position q n ≤ position q' n := by
  have hrank : max 0 (min q 1) ≤ max 0 (min q' 1) := max_le_max le_rfl (min_le_min h le_rfl)
  exact mul_le_mul_of_nonneg_right hrank (Nat.cast_nonneg _)

theorem percentile_num {ys : List K} (h : ys ≠ []) (q : K) :
    ∃ lo hi, Sample.Brackets (position q ys.length) lo hi ∧ hi < ys.length ∧
      percentile (ys.map E.num) (E.num q) = E.num (Sample.interpolate
        (ys.mergeSort fun a b => decide (a ≤ b)) lo hi (position q ys.length)) := by
  have hlength := (List.mergeSort_perm ys fun a b => decide (a ≤ b)).length_eq
  obtain ⟨hpos, hlast⟩ := position_bounds q ys.length
  obtain ⟨p, hp⟩ : ∃ p, p = position q ys.length := ⟨_, rfl⟩
  have hcount : 0 < ys.length := List.length_pos_iff.mpr h
  have hinside : ∀ {lo hi : ℕ}, Sample.Brackets p lo hi → hi < ys.length := by
    intro lo hi hbrackets
    have hlt : (hi : K) < (ys.length - 1 : ℕ) + 1 :=
      hbrackets.hi_lt.trans_le (add_le_add (hp ▸ hlast) le_rfl)
    have hlt' : hi < ys.length - 1 + 1 := by exact_mod_cast hlt
    omega
  have hclamp : F64.clamp (E.num q) (F64.lit 0) (F64.lit 1) *
      F64.ofNat (ys.length - 1) = E.num p := by
    rw [E.clamp_num q (by norm_num), E.ofNat, E.mul, hp, position, Rat.cast_zero, Rat.cast_one]
  rw [← hp] at hpos hlast ⊢
  rw [percentile, E.sort_num]
  generalize hv : (ys.mergeSort fun a b => decide (a ≤ b)) = v at hlength
  rw [← hlength] at hclamp hinside hlast ⊢
  cases v with
  | nil =>
      rw [← hlength] at hcount
      cases hcount
  | cons x rest =>
      cases rest with
      | nil =>
          have hzero : p = 0 := le_antisymm (by simpa using hlast) hpos
          have hbrackets : Sample.Brackets p 0 0 := by
            constructor <;> simp [hzero]
          exact ⟨0, 0, hbrackets, hinside hbrackets, rfl⟩
      | cons y rest =>
          refine ⟨_, _, E.brackets hpos, hinside (E.brackets hpos), ?_⟩
          rw [List.map_cons, List.map_cons]
          dsimp only
          rw [← List.map_cons, ← List.map_cons, List.length_map, hclamp, Sample.interpolate]
          have hentry : ∀ i, ((x :: y :: rest).map E.num).getD i (F64.lit 0) =
              E.num ((x :: y :: rest).getD i 0) := by
            intro i
            rw [E.zero]
            exact List.getD_map _ _ E.num
          rw [hentry, hentry]
          split_ifs
          · rfl
          · rw [E.ofNat, E.one, E.sub, E.sub, E.mul, E.mul, E.add]

/-- Quantiles rise with their rank and are between the smallest and the largest sample. -/
theorem percentile_bounds {xs : List F} (hxs : ∀ x ∈ xs, JsonFloat.finite x = true) {q q' : F}
    (hqq' : F64.le q q' = true) :
    F64.le (percentile xs q) (percentile xs q') = true ∧
      (xs ≠ [] → (∃ x ∈ xs, F64.le x (percentile xs q) = true) ∧
        ∃ x ∈ xs, F64.le (percentile xs q) x = true) := by
  obtain ⟨r, r', rfl, rfl, hrr'⟩ := E.numbers_of_le hqq'
  obtain ⟨ys, rfl, -⟩ := E.exists_map_num (P := fun _ => True) fun x hx =>
    (E.number (hxs x hx)).imp fun a ha => ⟨ha, trivial⟩
  by_cases hnil : ys = []
  · subst hnil
    have hempty : ∀ q : F, percentile ([].map E.num) q = E.num 0 := by
      intro q
      rw [percentile, E.sort_num, List.mergeSort_nil, ← E.zero]
      rfl
    rw [hempty, hempty]
    exact ⟨(E.le 0 0).mpr le_rfl, fun hne => absurd rfl hne⟩
  · obtain ⟨lo, hi, hbrackets, hhi, hq⟩ := E.percentile_num hnil r
    obtain ⟨lo', hi', hbrackets', hhi', hq'⟩ := E.percentile_num hnil r'
    have hsorted := pairwise_sorted ys
    have hlength := (List.mergeSort_perm ys fun a b => decide (a ≤ b)).length_eq
    have hmem : ∀ i, i < ys.length →
        (ys.mergeSort fun a b => decide (a ≤ b)).getD i 0 ∈ ys := by
      intro i hi
      rw [← hlength] at hi
      rw [List.getD_eq_getElem _ 0 hi]
      exact List.mem_mergeSort.mp (List.getElem_mem hi)
    have hle : lo ≤ hi := by exact_mod_cast hbrackets.lo_le.trans hbrackets.le_hi
    obtain ⟨hlow, hhigh⟩ := Sample.interpolate_bounds hsorted hbrackets (hlength ▸ hhi)
    rw [hq, hq']
    refine ⟨(E.le _ _).mpr ?_, fun _ => ⟨?_, ?_⟩⟩
    · exact Sample.interpolate_mono hsorted hbrackets hbrackets' (position_mono hrr' _)
        (hlength ▸ hhi')
    · exact ⟨_, List.mem_map_of_mem (hmem lo (hle.trans_lt hhi)), (E.le _ _).mpr hlow⟩
    · exact ⟨_, List.mem_map_of_mem (hmem hi hhi), (E.le _ _).mpr hhigh⟩

theorem thinkTailRatio_num (ys : List K) :
    E.MissingOr (1 ≤ ·) (SessionAccumulator.thinkTailRatio (ys.map E.num)) := by
  have hfinite : ∀ x ∈ ys.map E.num, JsonFloat.finite x = true := by
    intro x hx
    obtain ⟨y, -, rfl⟩ := List.mem_map.mp hx
    exact E.finite_num y
  have hranks : F64.le (F64.lit (1 / 2) : F) (F64.lit (9 / 10)) = true := by
    rw [E.lit, E.lit, E.le]
    norm_num
  obtain ⟨a, b, ha, hb, hab⟩ := E.numbers_of_le (E.percentile_bounds hfinite hranks).1
  rw [SessionAccumulator.thinkTailRatio, ha, hb]
  split_ifs with hpos
  · rw [E.zero, E.lt] at hpos
    exact Or.inr ⟨b / a, E.div b hpos.ne', (one_le_div hpos).mpr hab⟩
  · exact Or.inl rfl

omit E in
theorem sum_pos {ys : List K} (h : ∀ y ∈ ys, 0 < y) (hne : ys ≠ []) : 0 < ys.sum := by
  cases ys with
  | nil => exact absurd rfl hne
  | cons y ys =>
      rw [List.sum_cons]
      exact add_pos_of_pos_of_nonneg (h y List.mem_cons_self)
        (List.sum_nonneg fun z hz => (h z (List.mem_cons_of_mem _ hz)).le)

omit E in
theorem halves_pos {ys : List K} (h : ∀ y ∈ ys, 0 < y) (hlong : ¬ys.length < 6) :
    0 < (ys.take (ys.length / 2)).sum ∧ 0 < ys.sum - (ys.take (ys.length / 2)).sum := by
  have hfirst : ys.take (ys.length / 2) ≠ [] := by
    rw [ne_eq, ← List.length_eq_zero_iff, List.length_take]
    omega
  have hsecond : ys.drop (ys.length / 2) ≠ [] := by
    rw [ne_eq, ← List.length_eq_zero_iff, List.length_drop]
    omega
  have hsum := List.sum_take_add_sum_drop ys (ys.length / 2)
  have hdrop := sum_pos (fun y hy => h y (List.mem_of_mem_drop hy)) hsecond
  refine ⟨sum_pos (fun y hy => h y (List.mem_of_mem_take hy)) hfirst, ?_⟩
  linarith

theorem decaySlope_num {ys : List K} (h : ∀ y ∈ ys, 0 < y) :
    ∃ t, decaySlope (ys.map E.num) = E.num t ∧ -1 < t ∧ t < 1 := by
  have hflat : ∃ t, (F64.lit 0 : F) = E.num t ∧ -1 < t ∧ t < 1 :=
    ⟨0, E.zero, by norm_num, by norm_num⟩
  unfold decaySlope
  rw [List.length_map]
  by_cases hshort : ys.length < 6
  · rw [if_pos hshort]
    exact hflat
  · obtain ⟨hfirst, hsecond⟩ := halves_pos h hshort
    rw [if_neg hshort]
    dsimp only
    rw [← List.map_take, E.sum_num, E.sum_num, E.ofNat, E.ofNat, E.sub, E.div _ hfirst.ne',
      E.div _ hsecond.ne', E.sub, E.lit (3 / 2)]
    split_ifs with htotal hhalves hrate
    · exact hflat
    · exact hflat
    · exact hflat
    · rw [E.zero, E.le, not_le] at hrate
      rw [E.div _ hrate.ne', E.mul, E.tanh_num]
      exact ⟨_, rfl, E.tanh_bounds _⟩

theorem keystrokeBurstCv_num {ys : List K} (h : ∀ y ∈ ys, 0 < y) :
    E.MissingOr (0 ≤ ·) (SessionAccumulator.keystrokeBurstCv (ys.map E.num)) := by
  rw [SessionAccumulator.keystrokeBurstCv, List.filter_map]
  have hkept : ∀ y ∈ ys.filter ((fun g => F64.lt g (F64.lit 300)) ∘ E.num), 0 < y :=
    fun y hy => h y (List.mem_of_mem_filter hy)
  obtain ⟨m, s, hstats, -, hs⟩ := E.meanStd_num hkept
  rw [hstats]
  dsimp only
  split_ifs with henough
  · rw [Bool.and_eq_true, E.zero, E.lt] at henough
    exact Or.inr ⟨s / m, E.div s henough.2.ne', div_nonneg hs henough.2.le⟩
  · exact Or.inl rfl

theorem cadence_num {c : K} (hc : 0 ≤ c) :
    ∃ r, F64.lit 1 - F64.min (E.num c) (F64.lit 1) = E.num r ∧ 0 ≤ r ∧ r ≤ 1 := by
  rw [E.one, E.min_num, E.sub]
  exact ⟨_, rfl, sub_nonneg.mpr (min_le_right c 1), sub_le_self 1 (le_min hc zero_le_one)⟩

theorem ratio_num (m : ℕ) {n : ℕ} (hn : 0 < n) : (ratio m n : F) = E.num ((m : K) / n) := by
  have hcast : (0 : K) < n := by exact_mod_cast hn
  rw [ratio, if_neg hn.ne', E.ofNat, E.ofNat, E.div _ hcast.ne']

-- Each function gives the same in the arithmetic in which a division by zero would give anything
-- else.
section ZeroDivision
variable (atZero : F → F)

theorem quotient_num (x : F) {b : K} (hb : b ≠ 0) :
    F64.quotient atZero x (E.num b) = x / E.num b := by
  rw [F64.quotient, if_neg]
  rw [Bool.and_eq_true, E.zero, E.le, E.le]
  rintro ⟨hle, hge⟩
  exact hb (le_antisymm hle hge)

theorem mean_same {ys : List K} (h : ys ≠ []) :
    @mean F (F64.withZeroDivision atZero) (ys.map E.num) = mean (ys.map E.num) := by
  have hguarded : @mean F (F64.withZeroDivision atZero) (ys.map E.num) =
    F64.quotient atZero (F64.sum (ys.map E.num)) (F64.ofNat (ys.map E.num).length) := rfl
  rw [hguarded, E.ofNat, List.length_map, E.quotient_num atZero _ (length_pos_cast h).ne', mean,
    E.ofNat, List.length_map]

theorem meanStd_same (ys : List K) :
    @meanStd F (F64.withZeroDivision atZero) (ys.map E.num) = meanStd (ys.map E.num) := by
  by_cases hnil : ys = []
  · subst hnil
    rfl
  · have hnonempty : ¬(ys.map E.num).isEmpty = true := by simpa using hnil
    have hguarded : @meanStd F (F64.withZeroDivision atZero) (ys.map E.num) =
      if (ys.map E.num).isEmpty then (F64.lit 0, F64.lit 0) else
        let m := @mean F (F64.withZeroDivision atZero) (ys.map E.num)
        (m, F64.sqrt (F64.quotient atZero
          (F64.sum ((ys.map E.num).map fun x => (x - m) * (x - m)))
          (F64.ofNat (ys.map E.num).length))) := rfl
    rw [hguarded, meanStd, if_neg hnonempty, if_neg hnonempty, E.mean_same atZero hnil, E.ofNat,
      List.length_map]
    dsimp only
    rw [E.quotient_num atZero _ (length_pos_cast hnil).ne']

theorem coefficient_same (m s : K) :
    @SessionAccumulator.coefficient F (F64.withZeroDivision atZero) (E.num m) (E.num s) =
      SessionAccumulator.coefficient (E.num m) (E.num s) := by
  have hguarded : @SessionAccumulator.coefficient F (F64.withZeroDivision atZero) (E.num m)
      (E.num s) = if F64.lt (F64.lit 0) (E.num m) then
        F64.quotient atZero (E.num s) (E.num m) else F64.lit 0 := rfl
  rw [hguarded, SessionAccumulator.coefficient]
  split_ifs with hpos
  · rw [E.zero, E.lt] at hpos
    exact E.quotient_num atZero _ hpos.ne'
  · rfl

theorem ratio_same (m n : ℕ) :
    @ratio F (F64.withZeroDivision atZero) m n = ratio m n := by
  have hguarded : @ratio F (F64.withZeroDivision atZero) m n =
    if n = 0 then F64.lit 0 else F64.quotient atZero (F64.ofNat m) (F64.ofNat n) := rfl
  rw [hguarded, ratio]
  split_ifs with hzero
  · rfl
  · rw [E.ofNat n]
    exact E.quotient_num atZero _ (Nat.cast_ne_zero.mpr hzero)

theorem lag1Autocorr_same (ys : List K) :
    @lag1Autocorr F (F64.withZeroDivision atZero) (ys.map E.num) =
      lag1Autocorr (ys.map E.num) := by
  have hguarded : @lag1Autocorr F (F64.withZeroDivision atZero) (ys.map E.num) =
    if (ys.map E.num).length < 4 then F64.lit 0 else
      let m := @mean F (F64.withZeroDivision atZero) (ys.map E.num)
      let denom := F64.sum ((ys.map E.num).map fun x => (x - m) * (x - m))
      if F64.le denom (F64.lit 0) then F64.lit 0 else
        F64.quotient atZero (F64.sum (((ys.map E.num).zip (ys.map E.num).tail).map fun w =>
          (w.1 - m) * (w.2 - m))) denom := rfl
  rw [hguarded, lag1Autocorr]
  by_cases hshort : (ys.map E.num).length < 4
  · rw [if_pos hshort, if_pos hshort]
  · have hne : ys ≠ [] := by
      rintro rfl
      simp at hshort
    rw [if_neg hshort, if_neg hshort, E.mean_same atZero hne]
    dsimp only
    rw [E.mean_num hne, E.deviations_num]
    split_ifs with hflat
    · rfl
    · rw [E.zero, E.le, not_le] at hflat
      exact E.quotient_num atZero _ hflat.ne'

theorem thinkTailRatio_same (ys : List K) :
    @SessionAccumulator.thinkTailRatio F (F64.withZeroDivision atZero) (ys.map E.num) =
      SessionAccumulator.thinkTailRatio (ys.map E.num) := by
  have hguarded : @SessionAccumulator.thinkTailRatio F (F64.withZeroDivision atZero)
      (ys.map E.num) =
    if F64.lt (F64.lit 0) (percentile (ys.map E.num) (F64.lit (1 / 2))) then
      F64.quotient atZero (percentile (ys.map E.num) (F64.lit (9 / 10)))
        (percentile (ys.map E.num) (F64.lit (1 / 2)))
    else F64.nan := rfl
  rw [hguarded, SessionAccumulator.thinkTailRatio]
  split_ifs with hpos
  · obtain ⟨a, ha, hpos⟩ := E.positive_of_lt hpos
    rw [ha]
    exact E.quotient_num atZero _ hpos.ne'
  · rfl

theorem decaySlope_same {ys : List K} (h : ∀ y ∈ ys, 0 < y) :
    @decaySlope F (F64.withZeroDivision atZero) (ys.map E.num) = decaySlope (ys.map E.num) := by
  have hguarded : @decaySlope F (F64.withZeroDivision atZero) (ys.map E.num) =
    if (ys.map E.num).length < 6 then F64.lit 0 else
      let total := F64.sum (ys.map E.num)
      if F64.le total (F64.lit 0) then F64.lit 0 else
        let mid := (ys.map E.num).length / 2
        let firstTime := F64.sum ((ys.map E.num).take mid)
        let secondTime := total - firstTime
        if F64.le firstTime (F64.lit 0) || F64.le secondTime (F64.lit 0) then F64.lit 0 else
          let rateFirst := F64.quotient atZero (F64.ofNat mid) firstTime
          let rateSecond :=
            F64.quotient atZero (F64.ofNat ((ys.map E.num).length - mid)) secondTime
          if F64.le rateFirst (F64.lit 0) then F64.lit 0 else
            F64.tanh (F64.quotient atZero (rateSecond - rateFirst) rateFirst * F64.lit (3 / 2)) :=
    rfl
  rw [hguarded, decaySlope, List.length_map]
  by_cases hshort : ys.length < 6
  · rw [if_pos hshort, if_pos hshort]
  · obtain ⟨hfirst, hsecond⟩ := halves_pos h hshort
    rw [if_neg hshort, if_neg hshort]
    dsimp only
    rw [← List.map_take, E.sum_num, E.sum_num, E.sub, E.quotient_num atZero _ hfirst.ne',
      E.quotient_num atZero _ hsecond.ne', E.ofNat, E.div _ hfirst.ne']
    split_ifs with htotal hhalves hrate
    · rfl
    · rfl
    · rfl
    · rw [E.zero, E.le, not_le] at hrate
      rw [E.quotient_num atZero _ hrate.ne']

theorem keystrokeBurstCv_same (ys : List K) :
    @SessionAccumulator.keystrokeBurstCv F (F64.withZeroDivision atZero) (ys.map E.num) =
      SessionAccumulator.keystrokeBurstCv (ys.map E.num) := by
  have hguarded : @SessionAccumulator.keystrokeBurstCv F (F64.withZeroDivision atZero)
      (ys.map E.num) =
    let burstGaps := (ys.map E.num).filter fun g => F64.lt g (F64.lit 300)
    let p := @meanStd F (F64.withZeroDivision atZero) burstGaps
    if decide (4 ≤ burstGaps.length) && F64.lt (F64.lit 0) p.1 then
      F64.quotient atZero p.2 p.1 else F64.nan := rfl
  rw [hguarded, SessionAccumulator.keystrokeBurstCv]
  dsimp only
  rw [List.filter_map, E.meanStd_same atZero]
  split_ifs with henough
  · obtain ⟨m, hm, hpos⟩ := E.positive_of_lt (Bool.and_eq_true_iff.mp henough).2
    rw [hm]
    exact E.quotient_num atZero _ hpos.ne'
  · rfl

end ZeroDivision

/-- Every feature is a number in its range, or missing. -/
structure InRange (f : FeatureVector F) : Prop where
  keystrokeCv : E.MissingOr (0 ≤ ·) f.keystrokeCv
  pasteRatio : E.MissingOr (0 ≤ ·) f.pasteRatio
  meanInterCommandMs : E.MissingOr (0 ≤ ·) f.meanInterCommandMs
  backspaceRatio : E.MissingOr (fun a => 0 ≤ a ∧ a ≤ 1) f.backspaceRatio
  entropyMean : E.MissingOr (fun _ => True) f.entropyMean
  cadenceRegularity : E.MissingOr (fun a => 0 ≤ a ∧ a ≤ 1) f.cadenceRegularity
  gapAutocorr : E.MissingOr (fun a => -1 ≤ a ∧ a ≤ 1) f.gapAutocorr
  thinkTailRatio : E.MissingOr (1 ≤ ·) f.thinkTailRatio
  throughputDecay : E.MissingOr (fun a => -1 < a ∧ a < 1) f.throughputDecay
  reactionFloorHits : E.MissingOr (fun a => 0 ≤ a ∧ a ≤ 1) f.reactionFloorHits
  wholeLinePasteRatio : E.MissingOr (fun a => 0 ≤ a ∧ a ≤ 1) f.wholeLinePasteRatio
  keystrokeBurstCv : E.MissingOr (0 ≤ ·) f.keystrokeBurstCv

/-- The samples of an accumulator are numbers, the gaps positive ones, and no command counts
twice. -/
structure Sampled (acc : SessionAccumulator F) : Prop where
  arrivals : ∃ ys : List K, acc.interArrivalsMs = ys.map E.num ∧ ∀ y ∈ ys, 0 < y
  gaps : ∃ ys : List K, acc.interCommandsMs = ys.map E.num ∧ ∀ y ∈ ys, 0 < y
  entropies : ∃ ys : List K, acc.entropies = ys.map E.num
  backspaces : acc.backspaceCommands ≤ acc.commands
  deliveries : acc.wholeLinePastes + acc.subFloorNonpasteGaps ≤ acc.commands

theorem accumulate_sampled {calls : List (Recording F)}
    (hfinite : ∀ r ∈ calls, ∀ e ∈ r.entropy?, JsonFloat.finite e = true) :
    E.Sampled (accumulate calls) := by
  have hrecorded := accumulate_recorded calls
  constructor
  case arrivals =>
    apply E.exists_map_num
    intro x hx
    rw [hrecorded.arrivals] at hx
    obtain ⟨r, -, hr⟩ := List.mem_filterMap.mp (mem_of_mem_lastSamples hx)
    cases r with
    | keystroke ns isPaste burstLen =>
        rw [Recording.arrival?] at hr
        split_ifs at hr with hopen
        cases hr
        exact E.positive_of_lt (Bool.and_eq_true_iff.mp hopen).1
    | command => cases hr
  case gaps =>
    apply E.exists_map_num
    intro x hx
    exact E.positive_of_lt ((accumulate_counted calls).kept x hx).1
  case entropies =>
    have hnumbers : ∀ x ∈ (accumulate calls).entropies, ∃ a, x = E.num a ∧ True := by
      intro x hx
      rw [hrecorded.entropies] at hx
      obtain ⟨r, hmem, hr⟩ := List.mem_filterMap.mp (mem_of_mem_lastSamples hx)
      exact (E.number (hfinite r hmem x hr)).imp fun a ha => ⟨ha, trivial⟩
    obtain ⟨ys, hys, -⟩ := E.exists_map_num hnumbers
    exact ⟨ys, hys⟩
  case backspaces => exact hrecorded.backspaces
  case deliveries => exact hrecorded.deliveries

/-- Whatever a division by zero gives, the features are the same. -/
theorem features_same {acc : SessionAccumulator F} (h : E.Sampled acc) (atZero : F → F) :
    @SessionAccumulator.features F (F64.withZeroDivision atZero) acc = acc.features := by
  obtain ⟨as, has, hpositive⟩ := h.arrivals
  obtain ⟨gs, hgs, hgaps⟩ := h.gaps
  obtain ⟨es, hes⟩ := h.entropies
  obtain ⟨am, asd, hastats, -, -⟩ := E.meanStd_num hpositive
  obtain ⟨gm, gsd, hgstats, -, -⟩ := E.meanStd_num hgaps
  have hentropy : (if acc.entropies.isEmpty then @F64.lit F (F64.withZeroDivision atZero) 0 else
      @mean F (F64.withZeroDivision atZero) acc.entropies) =
        if acc.entropies.isEmpty then F64.lit 0 else mean acc.entropies := by
    split_ifs with hnone
    · rfl
    · rw [hes] at hnone ⊢
      exact E.mean_same atZero (by simpa using hnone)
  unfold SessionAccumulator.features
  rw [has, hgs, E.meanStd_same, E.meanStd_same, hastats, hgstats]
  dsimp only
  rw [E.coefficient_same, E.coefficient_same, E.lag1Autocorr_same, E.thinkTailRatio_same,
    E.decaySlope_same atZero hgaps, E.keystrokeBurstCv_same]
  simp only [E.ratio_same]
  rw [hentropy]
  rfl

theorem Sampled.inRange {acc : SessionAccumulator F} (h : E.Sampled acc) {f : FeatureVector F}
    (hf : acc.features = some f) : E.InRange f := by
  obtain ⟨as, has, hpositive⟩ := h.arrivals
  obtain ⟨gs, hgs, hgaps⟩ := h.gaps
  obtain ⟨es, hes⟩ := h.entropies
  obtain ⟨am, asd, hastats, -, hasd⟩ := E.meanStd_num hpositive
  obtain ⟨gm, gsd, hgstats, hgm, hgsd⟩ := E.meanStd_num hgaps
  obtain ⟨c, hc, hcpos⟩ := E.coefficient_num am hasd
  obtain ⟨v, hv, hvpos⟩ := E.coefficient_num gm hgsd
  obtain ⟨r, hr, hrange⟩ := E.cadence_num hvpos
  have hcommands : 0 < max acc.commands 1 := lt_max_of_lt_right Nat.one_pos
  have hfraction : ∀ {m : ℕ}, m ≤ acc.commands →
      E.MissingOr (fun a => 0 ≤ a ∧ a ≤ 1) (ratio m (max acc.commands 1)) := by
    intro m hm
    have hle : (m : K) ≤ (max acc.commands 1 : ℕ) := by exact_mod_cast hm.trans (le_max_left _ _)
    refine Or.inr ⟨_, E.ratio_num m hcommands, ?_, ?_⟩
    · exact div_nonneg (Nat.cast_nonneg _) (Nat.cast_nonneg _)
    · exact div_le_one_of_le₀ hle (Nat.cast_nonneg _)
  have hdeliveries := h.deliveries
  rw [SessionAccumulator.features] at hf
  split at hf
  · cases hf
  rw [has, hgs, hastats, hgstats] at hf
  dsimp only at hf
  rw [hc, hv, hr] at hf
  cases hf
  constructor
  case keystrokeCv => exact Or.inr ⟨c, rfl, hcpos⟩
  case pasteRatio =>
    exact Or.inr ⟨_, E.ratio_num _ hcommands, div_nonneg (Nat.cast_nonneg _) (Nat.cast_nonneg _)⟩
  case meanInterCommandMs => exact Or.inr ⟨gm, rfl, hgm⟩
  case backspaceRatio => exact hfraction h.backspaces
  case entropyMean =>
    right
    dsimp only
    rw [hes]
    split_ifs with hnone
    · exact ⟨0, E.zero, trivial⟩
    · exact ⟨_, E.mean_num (by simpa using hnone), trivial⟩
  case cadenceRegularity => exact Or.inr ⟨r, rfl, hrange⟩
  case gapAutocorr =>
    dsimp only
    split_ifs
    · exact Or.inr (E.lag1Autocorr_num gs)
    · exact Or.inl rfl
  case thinkTailRatio =>
    dsimp only
    split_ifs
    · exact E.thinkTailRatio_num gs
    · exact Or.inl rfl
  case throughputDecay =>
    dsimp only
    split_ifs
    · exact Or.inr (E.decaySlope_num hgaps)
    · exact Or.inl rfl
  case reactionFloorHits => exact hfraction (by omega)
  case wholeLinePasteRatio => exact hfraction (by omega)
  case keystrokeBurstCv => exact E.keystrokeBurstCv_num hpositive

/-- After any calls with finite entropies the features divide by nothing that is zero and are in
their ranges or missing; and quantiles rise with their rank, between the smallest sample and the
largest. -/
theorem features_inRange (calls : List (Recording F))
    (hfinite : ∀ r ∈ calls, ∀ e ∈ r.entropy?, JsonFloat.finite e = true) :
    (∀ atZero : F → F, @SessionAccumulator.features F (F64.withZeroDivision atZero)
        (accumulate calls) = (accumulate calls).features) ∧
      (∀ f, (accumulate calls).features = some f → E.InRange f) ∧
      ∀ xs : List F, (∀ x ∈ xs, JsonFloat.finite x = true) → ∀ q q', F64.le q q' = true →
        F64.le (percentile xs q) (percentile xs q') = true ∧
        (xs ≠ [] → (∃ x ∈ xs, F64.le x (percentile xs q) = true) ∧
          ∃ x ∈ xs, F64.le (percentile xs q) x = true) := by
  have hsampled := E.accumulate_sampled hfinite
  refine ⟨fun atZero => E.features_same hsampled atZero, fun f hf => Sampled.inRange E hsampled hf,
    fun xs hxs q q' hqq' => E.percentile_bounds hxs hqq'⟩

end ExactStatistics

/-- Increasing, with values between minus one and one, and zero at zero. -/
def squash (x : ℚ) : ℚ := x / (1 + |x|)

def Measured : Type := Exact

instance : JsonFloat Measured := inferInstanceAs (JsonFloat Exact)

instance : F64 Measured :=
  { (inferInstance : F64 Exact) with tanh := fun x => Option.map squash x }

theorem squash_divisor (x : ℚ) : 0 < 1 + |x| := add_pos_of_pos_of_nonneg one_pos (abs_nonneg x)

theorem squash_bounds (x : ℚ) : -1 < squash x ∧ squash x < 1 := by
  have hlow := neg_abs_le x
  have hhigh := le_abs_self x
  rw [squash, lt_div_iff₀ (squash_divisor x), div_lt_one (squash_divisor x)]
  constructor
  · linarith
  · linarith

theorem squash_strictMono : StrictMono squash := by
  intro x y hxy
  rw [squash, squash, div_lt_div_iff₀ (squash_divisor x) (squash_divisor y)]
  rcases abs_cases x with ⟨hx, hx0⟩ | ⟨hx, hx0⟩
  · rw [hx, abs_of_nonneg (hx0.trans hxy.le)]
    linarith
  · rcases abs_cases y with ⟨hy, hy0⟩ | ⟨hy, hy0⟩
    · rw [hx, hy]
      nlinarith
    · rw [hx, hy]
      linarith

theorem rat_brackets {a : ℚ} (h : 0 ≤ a) : Sample.Brackets a a.floor.toNat a.ceil.toNat := by
  have hfloor : 0 ≤ a.floor := Rat.le_floor_iff.mpr (by simpa using h)
  have hceil : 0 ≤ a.ceil := by exact_mod_cast h.trans Rat.le_ceil
  have hfloor' : ((a.floor.toNat : ℕ) : ℚ) = a.floor := by
    exact_mod_cast congrArg (Int.cast : ℤ → ℚ) (Int.toNat_of_nonneg hfloor)
  have hceil' : ((a.ceil.toNat : ℕ) : ℚ) = a.ceil := by
    exact_mod_cast congrArg (Int.cast : ℤ → ℚ) (Int.toNat_of_nonneg hceil)
  constructor
  · rw [hfloor']
    exact Rat.le_floor_iff.mp le_rfl
  · rw [hfloor']
    exact_mod_cast Rat.lt_floor_add_one a
  · rw [hceil']
    exact Rat.le_ceil
  · rw [hceil']
    exact Rat.ceil_lt

def exactStatistics : ExactStatistics Measured ℚ where
  num := exactModel.num
  finite_num := exactModel.finite_num
  lit := exactModel.lit
  neg := exactModel.neg
  add := exactModel.add
  sub := exactModel.sub
  mul := exactModel.mul
  div := exactModel.div
  lt := exactModel.lt
  le := exactModel.le
  number := exactModel.number
  nan_missing := exactModel.nan_missing
  neg_missing := exactModel.neg_missing
  exp_missing := exactModel.exp_missing
  op_missing := exactModel.op_missing
  compare_missing := exactModel.compare_missing
  exp := exactModel.exp
  exp_num := exactModel.exp_num
  exp_pos := exactModel.exp_pos
  exp_strictMono := exactModel.exp_strictMono
  ofInt _ := rfl
  brackets h := rat_brackets h
  sqrt a := (a + 1) / 2
  sqrt_num _ := rfl
  sqrt_nonneg h := by linarith
  tanh := squash
  tanh_num _ := rfl
  tanh_strictMono := squash_strictMono
  tanh_zero := by simp [squash]
  tanh_bounds := squash_bounds

/-- Twelve keystrokes and sixteen commands at varied gaps. -/
def variedCalls : List (Recording Measured) :=
  .keystroke 100000000 false 12 ::
    (List.range 16).map fun i => .command (.ofNat (1000000 * (i % 5 + 1))) false (Exact.ofRat 4)

theorem features_inRange_varied :
    ∃ f, (accumulate variedCalls).features = some f ∧ exactStatistics.InRange f := by
  have hfinite : ∀ r ∈ variedCalls, ∀ e ∈ r.entropy?, JsonFloat.finite e = true := by
    intro r hr e he
    rcases List.mem_cons.mp hr with rfl | hr
    · cases he
    · obtain ⟨i, -, rfl⟩ := List.mem_map.mp hr
      cases he
      rfl
  obtain ⟨f, hf⟩ : ∃ f, (accumulate variedCalls).features = some f :=
    Option.isSome_iff_exists.mp (by decide +kernel)
  exact ⟨f, hf, (ExactStatistics.features_inRange exactStatistics variedCalls hfinite).2.1 f hf⟩

end Aegis

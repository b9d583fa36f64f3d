import Aegis.ExactArithmetic
import Aegis.FirstFall
import Aegis.SequentialReplay

/-!
# What it costs to evade detection

`cost_to_evade` sweeps the budget of an evading agent. For each of the two layers
of the detector it takes the budget at which the share of sessions caught first
falls below a target. The sequential layer catches every session that a single
assessment catches, so its budget is the higher one and the premium of the
sequential test is never clamped.
-/

namespace Aegis.Eval

section Definitions
variable {F : Type} [F64 F]

/-- The shares of a cohort caught at one budget. -/
structure EscapeCurve (F : Type) where
  budget : F
  caughtSingle : F
  caughtSeq : F

structure CostToEvade (F : Type) where
  tau : F
  eSingle : F
  eSeq : F
  seqPremium : F
  humanSeqFp : F

/-- The sessions that the generator synthesizes from each seed: of an agent that spends a
budget, and of the human. -/
structure Cohorts (F : Type) (nPerClass : ℕ) where
  agent : F → UInt64 → List (List (SynthEvent F))
  human : UInt64 → List (List (SynthEvent F))
  length_agent : ∀ budget seed, (agent budget seed).length = nPerClass
  length_human : ∀ seed, (human seed).length = nPerClass

/-- The sessions of a cohort that one of the two layers catches. -/
def caught (layer : Verdict × Verdict → Verdict) (model : Model F)
    (cohort : List (List (SynthEvent F))) : ℕ :=
  let cfg : DetectConfig F := .default
  cohort.countP fun events => layer
    (runSessionSequential model cfg.ewmaAlpha cfg.escalateLogit cfg.assessEvery events) = .agent

def agentCaughtFractions (model : Model F) (cohort : List (List (SynthEvent F))) : F × F :=
  (F64.ofNat (caught Prod.fst model cohort) / F64.ofNat cohort.length,
    F64.ofNat (caught Prod.snd model cohort) / F64.ofNat cohort.length)

variable {nPerClass : ℕ} (model : Model F) (cohorts : Cohorts F nPerClass) (seeds : List UInt64)

def escapeCurves (grid : List F) : List (EscapeCurve F) :=
  grid.map fun e =>
    let e := F64.clamp e (F64.lit 0) (F64.lit 1)
    let caught := seeds.map fun seed => agentCaughtFractions model (cohorts.agent e seed)
    { budget := e
      caughtSingle := F64.sum (caught.map Prod.fst) / F64.ofNat seeds.length
      caughtSeq := F64.sum (caught.map Prod.snd) / F64.ofNat seeds.length }

def humanSeqFpRate : F :=
  F64.sum (seeds.map fun seed => (agentCaughtFractions model (cohorts.human seed)).2) /
    F64.ofNat seeds.length

/-- The loop over the windows of two neighboring points. -/
def crossWindows (tau : F) : List ((F × F) × (F × F)) → F
  | [] => F64.lit 1
  | ((e0, c0), (e1, c1)) :: rest =>
      if F64.lt c1 tau then
        let denom := c0 - c1
        let frac := if F64.lt (F64.lit (1 / 10 ^ 12)) (F64.abs denom) then
          F64.clamp ((c0 - tau) / denom) (F64.lit 0) (F64.lit 1) else F64.lit 0
        e0 + (e1 - e0) * frac
      else crossWindows tau rest

def crossing (curve : List (F × F)) (tau : F) : F :=
  match curve with
  | [] => F64.lit 1
  | p :: rest => if F64.lt p.2 tau then p.1 else crossWindows tau ((p :: rest).zip rest)

/-- What `cost_to_evade` computes for one target. -/
def costRow (single seq : List (F × F)) (humanSeqFp tau : F) : CostToEvade F :=
  let eSingle := crossing single tau
  let eSeq := crossing seq tau
  { tau := tau
    eSingle := eSingle
    eSeq := eSeq
    seqPremium := F64.max (eSeq - eSingle) (F64.lit 0)
    humanSeqFp := humanSeqFp }

def costToEvade (grid taus : List F) : List (CostToEvade F) :=
  let curves := escapeCurves model cohorts seeds grid
  let single := curves.map fun c => (c.budget, c.caughtSingle)
  let seq := curves.map fun c => (c.budget, c.caughtSeq)
  taus.map (costRow single seq (humanSeqFpRate model cohorts seeds))

end Definitions

section Exact
variable {F K : Type} [F64 F] [Field K] [LinearOrder K] [IsStrictOrderedRing K]
variable (E : ExactArithmetic F K)

/-- An exact curve as the code sees it. -/
def asCurve (curve : List (K × K)) : List (F × F) := curve.map fun p => (E.num p.1, E.num p.2)

/-- Neighboring values of a curve are the same or differ by more than the tolerance. -/
def Apart (curve : List (K × K)) : Prop :=
  ∀ w ∈ curve.zip curve.tail, w.1.2 ≠ w.2.2 → (1 / 10 ^ 12 : K) < |w.1.2 - w.2.2|

/-- Budgets in the order of the sweep. -/
structure UnitGrid (grid : List K) : Prop where
  ascending : grid.Pairwise (· < ·)
  nonneg : ∀ e ∈ grid, 0 ≤ e
  le_one : ∀ e ∈ grid, e ≤ 1

variable {E}

omit [IsStrictOrderedRing K] in
theorem UnitGrid.placed {grid : List K} (h : UnitGrid grid) : FirstFall.Placed 1 grid where
  ascending := h.ascending.imp le_of_lt
  inside := h.le_one

theorem interpolation_num {tau : K} {p q : K × K} (hp : tau ≤ p.2) (hq : q.2 < tau)
    (hapart : p.2 ≠ q.2 → (1 / 10 ^ 12 : K) < |p.2 - q.2|) :
    E.num p.1 + (E.num q.1 - E.num p.1) *
        (if F64.lt (F64.lit (1 / 10 ^ 12)) (F64.abs (E.num p.2 - E.num q.2)) then
          F64.clamp ((E.num p.2 - E.num tau) / (E.num p.2 - E.num q.2)) (F64.lit 0) (F64.lit 1)
          else F64.lit 0) =
      E.num (FirstFall.meet tau p q) := by
  have hfall : q.2 < p.2 := hq.trans_le hp
  obtain ⟨hlow, hhigh⟩ := FirstFall.share_bounds hp hq
  have htolerance : F64.lt (F64.lit (1 / 10 ^ 12)) (F64.abs (E.num p.2 - E.num q.2)) = true := by
    rw [E.sub, E.abs_num, E.lit, E.lt]
    push_cast
    exact hapart hfall.ne'
  rw [if_pos htolerance, E.sub, E.sub, E.sub, E.div _ (sub_ne_zero.mpr hfall.ne'),
    E.clamp_num _ zero_le_one, Rat.cast_zero, Rat.cast_one, min_eq_left hhigh, max_eq_right hlow,
    E.mul, E.add, FirstFall.meet]

theorem crossWindows_num {tau : K} {p : K × K} {rest : List (K × K)} (hp : tau ≤ p.2)
    (hapart : Apart (p :: rest)) :
    crossWindows (E.num tau) ((asCurve E (p :: rest)).zip (asCurve E rest)) =
      E.num (FirstFall.fallFrom tau 1 p rest) := by
  induction rest generalizing p with
  | nil =>
      rw [FirstFall.fallFrom]
      exact (E.lit 1).trans (congrArg E.num Rat.cast_one)
  | cons q rest ih =>
      have hfirst : p.2 ≠ q.2 → (1 / 10 ^ 12 : K) < |p.2 - q.2| :=
        hapart (p, q) List.mem_cons_self
      have hrest : Apart (q :: rest) := fun w hw => hapart w (List.mem_cons_of_mem _ hw)
      have hlt : F64.lt (E.num q.2) (E.num tau) = true ↔ q.2 < tau := E.lt _ _
      rw [asCurve, asCurve, List.map_cons, List.map_cons, List.zip_cons_cons, crossWindows,
        FirstFall.fallFrom]
      by_cases hq : q.2 < tau
      · rw [if_pos (hlt.mpr hq), if_pos hq]
        exact interpolation_num hp hq hfirst
      · rw [if_neg (mt hlt.mp hq), if_neg hq]
        exact ih (not_lt.mp hq) hrest

theorem crossing_num {tau : K} {curve : List (K × K)} (hapart : Apart curve) :
    crossing (asCurve E curve) (E.num tau) = E.num (FirstFall.firstFall tau 1 curve) := by
  cases curve with
  | nil => exact (E.lit 1).trans (congrArg E.num Rat.cast_one)
  | cons p rest =>
      have hlt : F64.lt (E.num p.2) (E.num tau) = true ↔ p.2 < tau := E.lt _ _
      rw [asCurve, List.map_cons, crossing, FirstFall.firstFall]
      by_cases hp : p.2 < tau
      · rw [if_pos (hlt.mpr hp), if_pos hp]
      · rw [if_neg (mt hlt.mp hp), if_neg hp]
        exact crossWindows_num (not_lt.mp hp) hapart

theorem crossing_unit {tau : K} {curve : List (K × K)} (hgrid : UnitGrid (curve.map Prod.fst))
    (hapart : Apart curve) :
    ∃ e, crossing (asCurve E curve) (E.num tau) = E.num e ∧ 0 ≤ e ∧ e ≤ 1 := by
  refine ⟨_, crossing_num hapart, ?_, FirstFall.firstFall_le_last hgrid.placed⟩
  cases curve with
  | nil => exact zero_le_one
  | cons p rest =>
      exact (hgrid.nonneg p.1 List.mem_cons_self).trans (FirstFall.le_firstFall hgrid.placed)

theorem costRow_num {single seq : List (K × K)} (hgrid : UnitGrid (single.map Prod.fst))
    (hbelow : FirstFall.Below single seq) (hsingle : Apart single) (hseq : Apart seq) (tau : K)
    (humanSeqFp : F) :
    FirstFall.firstFall tau 1 single ≤ FirstFall.firstFall tau 1 seq ∧
      costRow (asCurve E single) (asCurve E seq) humanSeqFp (E.num tau) =
        { tau := E.num tau
          eSingle := E.num (FirstFall.firstFall tau 1 single)
          eSeq := E.num (FirstFall.firstFall tau 1 seq)
          seqPremium :=
            E.num (FirstFall.firstFall tau 1 seq - FirstFall.firstFall tau 1 single)
          humanSeqFp := humanSeqFp } := by
  have hmono : FirstFall.firstFall tau 1 single ≤ FirstFall.firstFall tau 1 seq :=
    FirstFall.firstFall_mono hbelow hgrid.placed
  refine ⟨hmono, ?_⟩
  rw [costRow, crossing_num hsingle, crossing_num hseq, E.sub, E.lit, E.max_num, Rat.cast_zero,
    max_eq_left (sub_nonneg.mpr hmono)]

/-- On the same grid a curve that is nowhere lower crosses no earlier, so the premium is the
difference of the crossings as it is. -/
theorem crossing_monotone (E : ExactArithmetic F K) {single seq : List (K × K)}
    (hgrid : UnitGrid (single.map Prod.fst)) (hbelow : FirstFall.Below single seq)
    (hsingle : Apart single) (hseq : Apart seq) (tau : K) (humanSeqFp : F) :
    F64.le (crossing (asCurve E single) (E.num tau)) (crossing (asCurve E seq) (E.num tau)) =
        true ∧
      (costRow (asCurve E single) (asCurve E seq) humanSeqFp (E.num tau)).seqPremium =
        crossing (asCurve E seq) (E.num tau) - crossing (asCurve E single) (E.num tau) := by
  obtain ⟨hmono, hrow⟩ := costRow_num (E := E) hgrid hbelow hsingle hseq tau humanSeqFp
  rw [hrow, crossing_num hsingle, crossing_num hseq, E.sub]
  exact ⟨(E.le _ _).mpr hmono, rfl⟩

/-- Falls below one half early and recovers. -/
def rebound : List (ℚ × ℚ) := [(0, 9 / 10), (1 / 4, 2 / 5), (1 / 2, 3 / 5), (1, 1 / 10)]

def sustained : List (ℚ × ℚ) := [(0, 9 / 10), (1 / 4, 3 / 5), (1 / 2, 3 / 5), (1, 1 / 5)]

theorem crossing_monotone_rebound :
    F64.le (crossing (asCurve ratArithmetic rebound) (1 / 2))
        (crossing (asCurve ratArithmetic sustained) (1 / 2)) = true ∧
      (costRow (asCurve ratArithmetic rebound) (asCurve ratArithmetic sustained) 0
        (1 / 2)).seqPremium =
        crossing (asCurve ratArithmetic sustained) (1 / 2) -
          crossing (asCurve ratArithmetic rebound) (1 / 2) := by
  have hgrid : UnitGrid (rebound.map Prod.fst) := by
    constructor <;> norm_num [rebound]
  have hbelow : FirstFall.Below rebound sustained := by
    norm_num [FirstFall.Below, rebound, sustained]
  have hrebound : Apart rebound := by norm_num [Apart, rebound]
  have hsustained : Apart sustained := by norm_num [Apart, sustained]
  exact crossing_monotone ratArithmetic hgrid hbelow hrebound hsustained (1 / 2) 0

end Exact

section Layers
variable {F : Type} [F64 F]

/-- What a single assessment catches, the sequential layer catches too. -/
theorem caught_mono (model : Model F) (cohort : List (List (SynthEvent F))) :
    caught Prod.fst model cohort ≤ caught Prod.snd model cohort := by
  apply List.countP_mono_left
  intro events _ hsingle
  rw [decide_eq_true_iff] at hsingle ⊢
  rw [runSessionSequential] at hsingle ⊢
  dsimp only at hsingle ⊢
  split_ifs
  · rfl
  · exact hsingle

end Layers

section Sweep
variable {F K : Type} [F64 F] [Field K] [LinearOrder K] [IsStrictOrderedRing K]
variable (E : ExactCounts F K) {nPerClass : ℕ} (model : Model F)
variable (cohorts : Cohorts F nPerClass) (seeds : List UInt64)

/-- The sessions of all seeds that a layer catches at a budget. -/
def caughtAt (layer : Verdict × Verdict → Verdict) (budget : F) : ℕ :=
  (seeds.map fun seed => caught layer model (cohorts.agent budget seed)).sum

/-- Their share of all sessions. -/
def shareAt (layer : Verdict × Verdict → Verdict) (budget : F) : K :=
  (caughtAt model cohorts seeds layer budget : K) / (nPerClass * seeds.length : ℕ)

def shareCurve (layer : Verdict × Verdict → Verdict) (grid : List K) : List (K × K) :=
  grid.map fun e => (e, shareAt model cohorts seeds layer (E.num e))

variable {E model cohorts seeds}

theorem mean_caught_num (hn : 0 < nPerClass) (hseeds : seeds ≠ [])
    (layer : Verdict × Verdict → Verdict) (budget : F) :
    F64.sum (seeds.map fun seed => (F64.ofNat (caught layer model (cohorts.agent budget seed)) /
        F64.ofNat (cohorts.agent budget seed).length : F)) / F64.ofNat seeds.length =
      E.num (shareAt model cohorts seeds layer budget) := by
  have hn' : (nPerClass : K) ≠ 0 := Nat.cast_ne_zero.mpr hn.ne'
  have hlength : (seeds.length : K) ≠ 0 :=
    Nat.cast_ne_zero.mpr (List.length_pos_iff.mpr hseeds).ne'
  have hshares : (seeds.map fun seed =>
      (F64.ofNat (caught layer model (cohorts.agent budget seed)) /
        F64.ofNat (cohorts.agent budget seed).length : F)) =
      (seeds.map fun seed =>
        (caught layer model (cohorts.agent budget seed) : K) / nPerClass).map E.num := by
    rw [List.map_map]
    apply List.map_congr_left
    intro seed _
    rw [cohorts.length_agent, E.ofNat, E.ofNat, E.div _ hn']
    rfl
  have hsum : ∀ l : List UInt64, (l.map fun seed =>
      (caught layer model (cohorts.agent budget seed) : K) / nPerClass).sum =
      ((l.map fun seed => caught layer model (cohorts.agent budget seed)).sum : ℕ) / nPerClass := by
    intro l
    induction l with
    | nil => simp
    | cons seed l ih =>
        rw [List.map_cons, List.sum_cons, ih, List.map_cons, List.sum_cons, Nat.cast_add, add_div]
  rw [hshares, E.sum_num, hsum, E.ofNat, E.div _ hlength, shareAt, caughtAt, div_div, Nat.cast_mul]

variable (model cohorts) in
theorem escapeCurves_num (hn : 0 < nPerClass) (hseeds : seeds ≠ []) {grid : List K}
    (hgrid : UnitGrid grid) :
    escapeCurves model cohorts seeds (grid.map E.num) = grid.map fun e =>
      { budget := E.num e
        caughtSingle := E.num (shareAt model cohorts seeds Prod.fst (E.num e))
        caughtSeq := E.num (shareAt model cohorts seeds Prod.snd (E.num e)) } := by
  rw [escapeCurves, List.map_map]
  apply List.map_congr_left
  intro e he
  have hclamp : F64.clamp (E.num e) (F64.lit 0) (F64.lit 1) = E.num e := by
    rw [E.clamp_num _ zero_le_one, Rat.cast_zero, Rat.cast_one, min_eq_left (hgrid.le_one e he),
      max_eq_right (hgrid.nonneg e he)]
  simp only [Function.comp_apply, hclamp, List.map_map]
  rw [EscapeCurve.mk.injEq]
  exact ⟨rfl, mean_caught_num hn hseeds Prod.fst _, mean_caught_num hn hseeds Prod.snd _⟩

theorem shareCurve_positions (layer : Verdict × Verdict → Verdict) (grid : List K) :
    (shareCurve E model cohorts seeds layer grid).map Prod.fst = grid := by
  rw [shareCurve, List.map_map]
  exact List.map_id grid

theorem asCurve_shareCurve (layer : Verdict × Verdict → Verdict) (grid : List K) :
    asCurve E.toExactArithmetic (shareCurve E model cohorts seeds layer grid) =
      grid.map fun e => (E.num e, E.num (shareAt model cohorts seeds layer (E.num e))) := by
  rw [asCurve, shareCurve, List.map_map]
  rfl

/-- The sequential layer catches at least as much at every budget. -/
theorem shareCurve_below (grid : List K) :
    FirstFall.Below (shareCurve E model cohorts seeds Prod.fst grid)
      (shareCurve E model cohorts seeds Prod.snd grid) := by
  rw [FirstFall.Below, shareCurve, shareCurve, List.forall₂_map_left_iff,
    List.forall₂_map_right_iff, List.forall₂_same]
  intro e _
  refine ⟨rfl, div_le_div_of_nonneg_right ?_ (Nat.cast_nonneg _)⟩
  have hcaught : ∀ l : List UInt64,
      (l.map fun seed => caught Prod.fst model (cohorts.agent (E.num e) seed)).sum ≤
        (l.map fun seed => caught Prod.snd model (cohorts.agent (E.num e) seed)).sum :=
    fun l => List.sum_le_sum fun seed _ => caught_mono model _
  exact Nat.cast_le.mpr (hcaught seeds)

/-- Different counts out of few enough sessions differ by more than the tolerance. -/
theorem shares_apart {a b n : ℕ} (hn : n < 10 ^ 12) (h : (a : K) / n ≠ b / n) :
    (1 / 10 ^ 12 : K) < |(a : K) / n - b / n| := by
  have hpos : (0 : K) < n := by
    refine Nat.cast_pos.mpr (Nat.pos_of_ne_zero ?_)
    rintro rfl
    simp at h
  have hcounts : (a : ℤ) - b ≠ 0 := by
    intro hab
    have heq : a = b := by omega
    exact h (by rw [heq])
  have hone : (1 : K) ≤ |(a : K) - b| := by
    have hint : (1 : ℤ) ≤ |(a : ℤ) - b| := Int.one_le_abs hcounts
    exact_mod_cast hint
  have hsmall : (n : K) < 10 ^ 12 := by exact_mod_cast hn
  rw [← sub_div, abs_div, abs_of_pos hpos]
  calc (1 / 10 ^ 12 : K) < 1 / n := one_div_lt_one_div_of_lt hpos hsmall
    _ ≤ |(a : K) - b| / n := div_le_div_of_nonneg_right hone hpos.le

/-- With fewer than a trillion sessions at each budget the tolerance plays no part. -/
theorem shareCurve_apart (hsmall : nPerClass * seeds.length < 10 ^ 12)
    (layer : Verdict × Verdict → Verdict) (grid : List K) :
    Apart (shareCurve E model cohorts seeds layer grid) := by
  intro w hw
  obtain ⟨hfirst, hsecond⟩ := List.of_mem_zip hw
  obtain ⟨e, -, he⟩ := List.mem_map.mp hfirst
  obtain ⟨e', -, he'⟩ := List.mem_map.mp (List.mem_of_mem_tail hsecond)
  rw [← he, ← he']
  exact shares_apart hsmall

/-- At every target the sequential layer costs the evader at least as much, and the premium is
what it costs more. -/
theorem costToEvade_premium (E : ExactCounts F K) (model : Model F)
    (cohorts : Cohorts F nPerClass) (hn : 0 < nPerClass) (hseeds : seeds ≠ [])
    (hsmall : nPerClass * seeds.length < 10 ^ 12) {grid : List K} (hgrid : UnitGrid grid)
    (taus : List K) : ∀ row ∈ costToEvade model cohorts seeds (grid.map E.num) (taus.map E.num),
      F64.le row.eSingle row.eSeq = true ∧ row.seqPremium = row.eSeq - row.eSingle := by
  have hcurves := escapeCurves_num (E := E) model cohorts hn hseeds hgrid
  have hsingle : ((escapeCurves model cohorts seeds (grid.map E.num)).map fun c =>
      (c.budget, c.caughtSingle)) =
      asCurve E.toExactArithmetic (shareCurve E model cohorts seeds Prod.fst grid) := by
    rw [hcurves, List.map_map, asCurve_shareCurve]
    rfl
  have hseq : ((escapeCurves model cohorts seeds (grid.map E.num)).map fun c =>
      (c.budget, c.caughtSeq)) =
      asCurve E.toExactArithmetic (shareCurve E model cohorts seeds Prod.snd grid) := by
    rw [hcurves, List.map_map, asCurve_shareCurve]
    rfl
  intro row hrow
  rw [costToEvade, hsingle, hseq, List.map_map] at hrow
  obtain ⟨tau, -, rfl⟩ := List.mem_map.mp hrow
  have hpositions : UnitGrid ((shareCurve E model cohorts seeds Prod.fst grid).map Prod.fst) := by
    rwa [shareCurve_positions]
  obtain ⟨hmono, hcost⟩ := costRow_num (E := E.toExactArithmetic) hpositions
    (shareCurve_below grid) (shareCurve_apart hsmall Prod.fst grid)
    (shareCurve_apart hsmall Prod.snd grid) tau (humanSeqFpRate model cohorts seeds)
  rw [Function.comp_apply, hcost, E.sub]
  exact ⟨(E.le _ _).mpr hmono, rfl⟩

end Sweep
end Aegis.Eval

import Aegis.AssessmentBounds
import Aegis.RealArithmetic
import Aegis.RocAuc
import Aegis.SynthSessions

/-!
# The evaluation report

`evaluate_with_evasion` of `eval.rs`: sessions of a human and of an evading
agent, scored by the model, with a confusion table at its threshold and the area
under the curve. Every session is scored, the table adds up, and the area is
bounded from both sides by what the table says.
-/

namespace Aegis.Eval
variable {F : Type} [F64 F]

def lerp (t x y : F) : F := x + (y - x) * t

def lerp2 (t : F) (x y : F × F) : F × F := (lerp t x.1 y.1, lerp t x.2 y.2)

def lerpParams (source target : ProfileParams F) (t : F) : ProfileParams F where
  keystrokeLognormal := lerp2 t source.keystrokeLognormal target.keystrokeLognormal
  thinkLognormal := lerp2 t source.thinkLognormal target.thinkLognormal
  backspaceP := lerp t source.backspaceP target.backspaceP
  pasteP := lerp t source.pasteP target.pasteP
  entropy := lerp2 t source.entropy target.entropy
  commands := lerp2 t source.commands target.commands
  keystrokesPerCmd := lerp2 t source.keystrokesPerCmd target.keystrokesPerCmd
  thinkAutocorr := lerp t source.thinkAutocorr target.thinkAutocorr
  thinkFatigue := lerp t source.thinkFatigue target.thinkFatigue

def evade (t : F) : ProfileParams F := lerpParams .agent .human t

def score (model : Model F) (acc : SessionAccumulator F) : Option F :=
  acc.features.map fun f => (model.assess f).pAgent

def safeDiv (a b : F) : F :=
  if F64.le b (F64.lit 0) && F64.le (F64.lit 0) b then F64.lit 0 else a / b

structure EvalReport (F : Type) where
  nPerClass : ℕ
  tp : ℕ
  fp : ℕ
  tn : ℕ
  fn : ℕ
  precision : F
  recallRate : F
  f1 : F
  accuracy : F
  auc : F
  uncertainRate : F

/-- The loop variables of the sampling. -/
structure Cohort (F : Type) where
  scored : List (F × Bool)
  uncertain : ℕ
  total : ℕ
  rng : Rng

structure Confusion where
  tp : ℕ
  fp : ℕ
  tn : ℕ
  fn : ℕ

def Confusion.count (agentThreshold : F) (c : Confusion) (sample : F × Bool) : Confusion :=
  match F64.le agentThreshold sample.1, sample.2 with
  | true, true => { c with tp := c.tp + 1 }
  | true, false => { c with fp := c.fp + 1 }
  | false, false => { c with tn := c.tn + 1 }
  | false, true => { c with fn := c.fn + 1 }

section Evaluate
variable (fns : Sampling F) (model : Model F)

def scoreSession (c : Cohort F) (profile : ProfileParams F × Bool) : Cohort F :=
  let (acc, rng) := synthSession fns profile.1 c.rng
  match score model acc with
  | none => { c with rng := rng }
  | some p =>
      let verdict := acc.features.map fun f => (model.assess f).verdict
      { scored := c.scored ++ [(p, profile.2)]
        uncertain := if verdict = some .uncertain then c.uncertain + 1 else c.uncertain
        total := c.total + 1
        rng := rng }

def scorePair (agent : ProfileParams F) (c : Cohort F) (_ : ℕ) : Cohort F :=
  [(ProfileParams.human, false), (agent, true)].foldl (scoreSession fns model) c

def evaluateWithEvasion (nPerClass : ℕ) (seed : UInt64) (evasion : F) : EvalReport F :=
  let agent := evade (F64.clamp evasion (F64.lit 0) (F64.lit 1))
  let c := (List.range nPerClass).foldl (scorePair fns model agent) ⟨[], 0, 0, Rng.new seed⟩
  let t := c.scored.foldl (Confusion.count model.agentThreshold) ⟨0, 0, 0, 0⟩
  let precision : F := safeDiv (F64.ofNat t.tp) (F64.ofNat (t.tp + t.fp))
  let recallRate : F := safeDiv (F64.ofNat t.tp) (F64.ofNat (t.tp + t.fn))
  { nPerClass := nPerClass
    tp := t.tp
    fp := t.fp
    tn := t.tn
    fn := t.fn
    precision := precision
    recallRate := recallRate
    f1 := safeDiv (F64.lit 2 * precision * recallRate) (precision + recallRate)
    accuracy := safeDiv (F64.ofNat (t.tp + t.tn)) (F64.ofNat c.scored.length)
    auc := RocAuc.rocAuc c.scored
    uncertainRate := safeDiv (F64.ofNat c.uncertain) (F64.ofNat c.total) }

end Evaluate

theorem count_tallies (agentThreshold : F) (scored : List (F × Bool)) (c : Confusion) :
    scored.foldl (Confusion.count agentThreshold) c =
      { tp := c.tp + scored.countP fun s => F64.le agentThreshold s.1 && s.2
        fp := c.fp + scored.countP fun s => F64.le agentThreshold s.1 && !s.2
        tn := c.tn + scored.countP fun s => !F64.le agentThreshold s.1 && !s.2
        fn := c.fn + scored.countP fun s => !F64.le agentThreshold s.1 && s.2 } := by
  induction scored generalizing c with
  | nil => rfl
  | cons s scored ih =>
      obtain ⟨x, isAgent⟩ := s
      rw [List.foldl_cons, ih, Confusion.count]
      simp only [List.countP_cons]
      cases F64.le agentThreshold x with
      | false => cases isAgent <;> simp [Nat.add_right_comm, ← Nat.add_assoc]
      | true => cases isAgent <;> simp [Nat.add_right_comm, ← Nat.add_assoc]

section Exact
variable {K : Type} [Field K] [LinearOrder K] [IsStrictOrderedRing K]
variable (E : ExactStatistics F K)
include E

theorem safeDiv_num (a b : K) : safeDiv (E.num a) (E.num b) = E.num (a / b) := by
  have hzero : (F64.le (E.num b) (F64.lit 0) && F64.le (F64.lit 0) (E.num b)) = true ↔ b = 0 := by
    rw [E.zero, Bool.and_eq_true, E.le, E.le]
    exact le_antisymm_iff.symm
  rw [safeDiv]
  split_ifs with h
  · rw [hzero.mp h, div_zero, E.zero]
  · exact E.div a (mt hzero.mpr h)

theorem rate_num (a b : ℕ) : safeDiv (F64.ofNat a) (F64.ofNat b) = E.num ((a : K) / b) := by
  rw [E.ofNat, E.ofNat, safeDiv_num E]

theorem pAgent_le_one (model : Model F) (f : FeatureVector F) :
    ∃ p : K, (model.assess f).pAgent = E.num p ∧ p ≤ 1 := by
  obtain ⟨l, -, hl, -, -, hall⟩ := ExactModel.surviving_toward fun s _ =>
    ExactModel.Signal.toward_refl (E := E.toExactModel) s f
  obtain ⟨hlo, hhi⟩ : 0 ≤ weightedMean (1 / 2) l ∧ weightedMean (1 / 2) l ≤ 1 :=
    weightedMean_bounds ⟨by norm_num, by norm_num⟩ (fun x hx => (hall x hx).1)
      fun x hx => (hall x hx).2
  exact ⟨_, E.toExactModel.pAgent_num model hl, (ExactModel.ruled_bounds f hlo hhi).2.2⟩

/-- A threshold divides numbers up to one as some number does, also if it is missing. -/
theorem exists_threshold (agentThreshold : F) :
    ∃ θ : K, ∀ p : K, p ≤ 1 → F64.le agentThreshold (E.num p) = decide (θ ≤ p) := by
  cases h : JsonFloat.finite agentThreshold with
  | true =>
      obtain ⟨θ, rfl⟩ := E.number h
      exact ⟨θ, fun p _ => Bool.eq_iff_iff.mpr ((E.le θ p).trans decide_eq_true_iff.symm)⟩
  | false =>
      refine ⟨1 + 1, fun p hp => ?_⟩
      have habove : ¬ (1 + 1 : K) ≤ p := fun h => by linarith
      rw [(E.compare_missing (Or.inl h)).2, decide_eq_false habove]

/-- After `n` rounds: the scores are numbers, `n` of a human and `n` of an agent, and only a
score that does not reach the threshold was called uncertain. -/
structure Gathered (agentThreshold : F) (n : ℕ) (c : Cohort F) (xs : List (K × Bool)) : Prop where
  scored : c.scored = RocAuc.asScored E.toExactCounts xs
  le_one : ∀ s ∈ xs, s.1 ≤ 1
  positives : (RocAuc.positives xs).length = n
  negatives : (RocAuc.negatives xs).length = n
  total : c.total = xs.length
  uncertain : c.uncertain ≤ c.scored.countP fun s => !F64.le agentThreshold s.1

variable (fns : Sampling F) (model : Model F)

theorem scoreSession_scores (c : Cohort F) (profile : ProfileParams F × Bool) :
    ∃ p : K, p ≤ 1 ∧ (scoreSession fns model c profile).scored =
        c.scored ++ [(E.num p, profile.2)] ∧
      (scoreSession fns model c profile).total = c.total + 1 ∧
      (scoreSession fns model c profile).uncertain ≤
        c.uncertain + if F64.le model.agentThreshold (E.num p) then 0 else 1 := by
  have hevidence := synthSession_evidence E fns profile.1 c.rng
  obtain ⟨f, hf⟩ : ∃ f, (synthSession fns profile.1 c.rng).1.features = some f := by
    rw [SessionAccumulator.features, hevidence]
    exact ⟨_, rfl⟩
  obtain ⟨p, hp, hone⟩ := pAgent_le_one E model f
  have hscore : score model (synthSession fns profile.1 c.rng).1 = some (E.num p) := by
    rw [score, hf, Option.map_some, hp]
  rw [scoreSession]
  dsimp only
  rw [hscore, hf, Option.map_some]
  refine ⟨p, hone, rfl, rfl, ?_⟩
  have hverdict : (model.assess f).verdict = model.verdictOf (E.num p) := by
    rw [← hp]
    rfl
  dsimp only
  rw [hverdict, Model.verdictOf]
  by_cases h : F64.le model.agentThreshold (E.num p) = true
  · simp [h]
  · rw [if_neg h]
    split_ifs <;> omega

theorem Gathered.scorePair {n : ℕ} {c : Cohort F} {xs : List (K × Bool)}
    (h : Gathered E model.agentThreshold n c xs) (agent : ProfileParams F) (i : ℕ) :
    ∃ ys, Gathered E model.agentThreshold (n + 1) (Eval.scorePair fns model agent c i) ys := by
  obtain ⟨p, hp, hscored, htotal, huncertain⟩ :=
    scoreSession_scores E fns model c (ProfileParams.human, false)
  obtain ⟨q, hq, hscored', htotal', huncertain'⟩ := scoreSession_scores E fns model
    (scoreSession fns model c (ProfileParams.human, false)) (agent, true)
  have hpair : Eval.scorePair fns model agent c i = scoreSession fns model
      (scoreSession fns model c (ProfileParams.human, false)) (agent, true) := rfl
  rw [hscored] at hscored'
  have hbefore := h.uncertain
  refine ⟨xs ++ [(p, false), (q, true)], ?_, ?_, ?_, ?_, ?_, ?_⟩
  · rw [hpair, hscored', h.scored, RocAuc.asScored, RocAuc.asScored, List.map_append,
      List.append_assoc]
    rfl
  · intro s hs
    rcases List.mem_append.mp hs with hs | hs
    · exact h.le_one s hs
    · rcases List.mem_pair.mp hs with rfl | rfl
      · exact hp
      · exact hq
  · have hn := h.positives
    rw [RocAuc.positives] at hn ⊢
    rw [List.filter_append, List.map_append, List.length_append, hn]
    rfl
  · have hn := h.negatives
    rw [RocAuc.negatives] at hn ⊢
    rw [List.filter_append, List.map_append, List.length_append, hn]
    rfl
  · rw [hpair, htotal', htotal, h.total, List.length_append]
    rfl
  · rw [hpair, hscored', List.countP_append, List.countP_append]
    have hsplit : ∀ x : F, ∀ isAgent : Bool,
        [(x, isAgent)].countP (fun s => !F64.le model.agentThreshold s.1) =
          if F64.le model.agentThreshold x then 0 else 1 := by
      intro x isAgent
      rw [List.countP_singleton]
      cases F64.le model.agentThreshold x <;> rfl
    rw [hsplit, hsplit]
    omega

theorem gathered (agent : ProfileParams F) (rng : Rng) (n : ℕ) :
    ∃ xs, Gathered E model.agentThreshold n
      ((List.range n).foldl (scorePair fns model agent) ⟨[], 0, 0, rng⟩) xs := by
  induction n with
  | zero => exact ⟨[], rfl, fun s hs => (List.not_mem_nil hs).elim, rfl, rfl, rfl, le_rfl⟩
  | succ n ih =>
      obtain ⟨xs, h⟩ := ih
      rw [List.range_succ, List.foldl_append]
      exact h.scorePair E fns model agent n

/-- What a report on `n` sessions of each class says, divisions by zero giving zero: `u` of
the sessions not taken for an agent were called uncertain. -/
structure Accounted (n : ℕ) (r : EvalReport F) : Prop where
  agents : r.tp + r.fn = n
  humans : r.fp + r.tn = n
  precision : r.precision = E.num ((r.tp : K) / (r.tp + r.fp : ℕ))
  recallRate : r.recallRate = E.num ((r.tp : K) / n)
  f1 : r.f1 = E.num (((2 * r.tp : ℕ) : K) / (2 * r.tp + r.fp + r.fn : ℕ))
  accuracy : r.accuracy = E.num (((r.tp + r.tn : ℕ) : K) / (2 * n : ℕ))
  uncertainRate : ∃ u ≤ r.fn + r.tn, r.uncertainRate = E.num ((u : K) / (2 * n : ℕ))
  auc : ∃ a : K, r.auc = E.num a ∧ (r.tp / n : K) * (r.tn / n) ≤ a ∧
    a ≤ 1 - (r.fn / n : K) * (r.fp / n)

omit E in
theorem harmonic_eq (tp fp fn : ℕ) :
    (1 + 1) * ((tp : K) / (tp + fp : ℕ)) * (tp / (tp + fn : ℕ)) /
        ((tp : K) / (tp + fp : ℕ) + tp / (tp + fn : ℕ)) =
      ((2 * tp : ℕ) : K) / (2 * tp + fp + fn : ℕ) := by
  rcases Nat.eq_zero_or_pos tp with rfl | hpos
  · simp
  · have htp : (0 : K) < tp := Nat.cast_pos.mpr hpos
    have hfp : (0 : K) ≤ fp := Nat.cast_nonneg fp
    have hfn : (0 : K) ≤ fn := Nat.cast_nonneg fn
    push_cast
    have hsum : (tp : K) / (tp + fp) + tp / (tp + fn) =
        tp * (2 * tp + fp + fn) / ((tp + fp) * (tp + fn)) := by
      field_simp
      ring
    rw [hsum]
    field_simp
    ring

/-- The area is between the rectangles below and beside the point of the table. -/
theorem auc_bounds {n : ℕ} {xs : List (K × Bool)} (hpos : (RocAuc.positives xs).length = n)
    (hneg : (RocAuc.negatives xs).length = n) (θ : K) :
    ∃ a : K, RocAuc.rocAuc (RocAuc.asScored E.toExactCounts xs) = E.num a ∧
      (((RocAuc.positives xs).countP fun a => θ ≤ a) / n : K) *
          (((RocAuc.negatives xs).countP fun b => b < θ) / n) ≤ a ∧
      a ≤ 1 - (((RocAuc.positives xs).countP fun a => a < θ) / n : K) *
          (((RocAuc.negatives xs).countP fun b => θ ≤ b) / n) := by
  rcases Nat.eq_zero_or_pos n with rfl | hn
  · have hnone : ((RocAuc.asScored E.toExactCounts xs).filter Prod.snd).length = 0 := by
      rw [RocAuc.asScored, List.filter_map, List.length_map]
      exact (List.length_map _).symm.trans hpos
    refine ⟨((1 / 2 : ℚ) : K), ?_, ?_, ?_⟩
    · rw [RocAuc.rocAuc]
      dsimp only
      rw [if_pos (Or.inl hnone), E.lit]
    · norm_num
    · norm_num
  · have hcast : (0 : K) < n := Nat.cast_pos.mpr hn
    have hwins := RankSum.countP_mul_le_wins (RocAuc.positives xs) (RocAuc.negatives xs) θ
    have hlosses := RankSum.wins_add_draws_add_le (RocAuc.positives xs) (RocAuc.negatives xs) θ
    have hnonempty : RocAuc.positives xs ≠ [] ∧ RocAuc.negatives xs ≠ [] :=
      ⟨List.length_pos_iff.mp (hpos ▸ hn), List.length_pos_iff.mp (hneg ▸ hn)⟩
    refine ⟨_, RocAuc.rocAuc_num xs hnonempty.1 hnonempty.2, ?_, ?_⟩
    · rw [RocAuc.pairShare, hpos, hneg, div_mul_div_comm]
      have hle : ((((RocAuc.positives xs).countP fun a => θ ≤ a) *
          ((RocAuc.negatives xs).countP fun b => b < θ) : ℕ) : K) ≤
            RankSum.wins (RocAuc.positives xs) (RocAuc.negatives xs) := Nat.cast_le.mpr hwins
      push_cast at hle
      apply div_le_div_of_nonneg_right _ (by positivity)
      have hdraws : (0 : K) ≤
          RankSum.draws (RocAuc.positives xs) (RocAuc.negatives xs) / 2 := by positivity
      linarith
    · rw [RocAuc.pairShare, hpos, hneg, div_mul_div_comm, le_sub_iff_add_le, ← add_div]
      rw [hpos, hneg] at hlosses
      have hle : (((RankSum.wins (RocAuc.positives xs) (RocAuc.negatives xs) +
          RankSum.draws (RocAuc.positives xs) (RocAuc.negatives xs) +
          ((RocAuc.positives xs).countP fun a => a < θ) *
            ((RocAuc.negatives xs).countP fun b => θ ≤ b) : ℕ)) : K) ≤ (n * n : ℕ) :=
        Nat.cast_le.mpr hlosses
      push_cast at hle
      apply div_le_one_of_le₀ _ (by positivity)
      have hdraws : (0 : K) ≤
          RankSum.draws (RocAuc.positives xs) (RocAuc.negatives xs) := Nat.cast_nonneg _
      linarith

omit E [Field K] [LinearOrder K] [IsStrictOrderedRing K] in
theorem countP_positives (xs : List (K × Bool)) (p : K → Bool) :
    (RocAuc.positives xs).countP p = xs.countP fun s => p s.1 && s.2 := by
  rw [RocAuc.positives, List.countP_map, List.countP_filter]
  rfl

omit E [Field K] [LinearOrder K] [IsStrictOrderedRing K] in
theorem countP_negatives (xs : List (K × Bool)) (p : K → Bool) :
    (RocAuc.negatives xs).countP p = xs.countP fun s => p s.1 && !s.2 := by
  rw [RocAuc.negatives, List.countP_map, List.countP_filter]
  rfl

theorem confusion_num {xs : List (K × Bool)} {agentThreshold : F} {θ : K}
    (hθ : ∀ p : K, p ≤ 1 → F64.le agentThreshold (E.num p) = decide (θ ≤ p))
    (hone : ∀ s ∈ xs, s.1 ≤ 1) :
    (RocAuc.asScored E.toExactCounts xs).foldl (Confusion.count agentThreshold) ⟨0, 0, 0, 0⟩ =
      { tp := (RocAuc.positives xs).countP fun a => θ ≤ a
        fp := (RocAuc.negatives xs).countP fun b => θ ≤ b
        tn := (RocAuc.negatives xs).countP fun b => b < θ
        fn := (RocAuc.positives xs).countP fun a => a < θ } := by
  have hle : ∀ s ∈ xs, F64.le agentThreshold (E.num s.1) = decide (θ ≤ s.1) := fun s hs =>
    hθ s.1 (hone s hs)
  have hlt : ∀ s ∈ xs, (!F64.le agentThreshold (E.num s.1)) = decide (s.1 < θ) := by
    intro s hs
    rw [hle s hs, ← decide_not, decide_eq_decide, not_le]
  rw [count_tallies, countP_positives, countP_positives, countP_negatives, countP_negatives]
  simp only [RocAuc.asScored, List.countP_map, Nat.zero_add, Confusion.mk.injEq]
  refine ⟨?_, ?_, ?_, ?_⟩
  · exact List.countP_congr fun s hs => by simp only [Function.comp_apply, hle s hs]
  · exact List.countP_congr fun s hs => by simp only [Function.comp_apply, hle s hs]
  · exact List.countP_congr fun s hs => by simp only [Function.comp_apply, hlt s hs]
  · exact List.countP_congr fun s hs => by simp only [Function.comp_apply, hlt s hs]

omit E [Field K] [IsStrictOrderedRing K] in
theorem countP_sides (l : List K) (θ : K) :
    (l.countP fun a => θ ≤ a) + (l.countP fun a => a < θ) = l.length := by
  have hrest : (l.countP fun a => a < θ) = l.countP fun a => ¬ θ ≤ a := by simp only [not_le]
  rw [hrest, List.length_eq_countP_add_countP fun a => decide (θ ≤ a)]
  simp only [decide_eq_true_eq]

/-- With every model, at every number of sessions, seed and evasion, also missing ones, the
report is that of a table over all sessions, with its rates and its area. -/
theorem report_accounted (n : ℕ) (seed : UInt64) (evasion : F) :
    Accounted E n (evaluateWithEvasion fns model n seed evasion) := by
  obtain ⟨xs, h⟩ := gathered E fns model
    (evade (F64.clamp evasion (F64.lit 0) (F64.lit 1))) (Rng.new seed) n
  obtain ⟨θ, hθ⟩ := exists_threshold E model.agentThreshold
  obtain ⟨c, hc⟩ : ∃ c, c = (List.range n).foldl (scorePair fns model
    (evade (F64.clamp evasion (F64.lit 0) (F64.lit 1)))) ⟨[], 0, 0, Rng.new seed⟩ := ⟨_, rfl⟩
  rw [← hc] at h
  obtain ⟨t, ht⟩ : ∃ t, t = c.scored.foldl (Confusion.count model.agentThreshold)
    ⟨0, 0, 0, 0⟩ := ⟨_, rfl⟩
  have htable := (ht.trans (by rw [h.scored])).trans (confusion_num E hθ h.le_one)
  have hagents : t.tp + t.fn = n := by
    rw [htable]
    exact (countP_sides _ θ).trans h.positives
  have hhumans : t.fp + t.tn = n := by
    rw [htable]
    exact (countP_sides _ θ).trans h.negatives
  have hlength : c.scored.length = 2 * n := by
    have hperm := (RocAuc.scores_perm xs).length_eq
    rw [List.length_map, List.length_append, h.positives, h.negatives] at hperm
    rw [h.scored, RocAuc.asScored, List.length_map, hperm, two_mul]
  have htotal : c.total = 2 * n := by
    rw [h.total, ← hlength, h.scored, RocAuc.asScored, List.length_map]
  have huncertain : c.uncertain ≤ t.fn + t.tn := by
    have hbelow := List.countP_eq_countP_filter_add c.scored
      (fun s => !F64.le model.agentThreshold s.1) Prod.snd
    rw [List.countP_filter, List.countP_filter] at hbelow
    rw [ht, count_tallies]
    exact h.uncertain.trans (hbelow.trans (by simp)).le
  have hreport : evaluateWithEvasion fns model n seed evasion =
      { nPerClass := n
        tp := t.tp
        fp := t.fp
        tn := t.tn
        fn := t.fn
        precision := safeDiv (F64.ofNat t.tp) (F64.ofNat (t.tp + t.fp))
        recallRate := safeDiv (F64.ofNat t.tp) (F64.ofNat (t.tp + t.fn))
        f1 := safeDiv (F64.lit 2 * safeDiv (F64.ofNat t.tp) (F64.ofNat (t.tp + t.fp)) *
          safeDiv (F64.ofNat t.tp) (F64.ofNat (t.tp + t.fn)))
            (safeDiv (F64.ofNat t.tp) (F64.ofNat (t.tp + t.fp)) +
              safeDiv (F64.ofNat t.tp) (F64.ofNat (t.tp + t.fn)))
        accuracy := safeDiv (F64.ofNat (t.tp + t.tn)) (F64.ofNat c.scored.length)
        auc := RocAuc.rocAuc c.scored
        uncertainRate := safeDiv (F64.ofNat c.uncertain) (F64.ofNat c.total) } := by
    rw [ht, hc]
    rfl
  rw [hreport]
  constructor
  case agents => exact hagents
  case humans => exact hhumans
  case precision => exact rate_num E _ _
  case recallRate => exact (rate_num E _ _).trans (by rw [hagents])
  case f1 =>
    have htwo : (F64.lit 2 : F) = E.num (1 + 1) := by
      rw [E.lit, Rat.cast_ofNat, one_add_one_eq_two]
    rw [htwo, rate_num E, rate_num E, E.mul, E.mul, E.add, safeDiv_num E, harmonic_eq]
  case accuracy => exact (rate_num E _ _).trans (by rw [hlength])
  case uncertainRate => exact ⟨c.uncertain, huncertain, (rate_num E _ _).trans (by rw [htotal])⟩
  case auc =>
    rw [htable]
    dsimp only
    rw [h.scored]
    exact auc_bounds E h.positives h.negatives θ

end Exact

/-- Sampling with real functions; halves are rounded away from zero. -/
noncomputable def realSampling : Sampling RealOrMissing where
  cos x := Option.map Real.cos x
  round x := x.map fun a : ℝ =>
    if a < 0 then -(⌊((1 / 2 : ℚ) : ℝ) - a⌋ : ℝ) else ⌊a + ((1 / 2 : ℚ) : ℝ)⌋

theorem report_accounted_once :
    Accounted RealOrMissing.statistics 1
      (evaluateWithEvasion realSampling .default 1 7 (F64.lit (1 / 2))) :=
  report_accounted RealOrMissing.statistics realSampling .default 1 7 (F64.lit (1 / 2))

end Aegis.Eval

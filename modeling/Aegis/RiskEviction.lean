import Aegis.ExactArithmetic
import Aegis.Scoring

/-!
# What eviction forgoes

Next to the risk state runs one that never evicts. A bump carries the difference
of the two on, decayed, and an eviction adds the score that it forgets. The
difference is negligible for as long as no eviction finds more than a negligible
score in the other state.
-/

namespace Aegis

section Score
variable {K : Type} [Field K] [LinearOrder K] [IsStrictOrderedRing K]

/-- The score after a bump. -/
def bumped (decay delta x : K) : K := max 0 (min (x * decay + delta) 100)

omit [IsStrictOrderedRing K] in
theorem bumped_nonneg (decay delta x : K) : 0 ≤ bumped decay delta x := le_max_left _ _

theorem bumped_le (decay delta x : K) : bumped decay delta x ≤ 100 :=
  max_le (by norm_num) (min_le_right _ _)

theorem bumped_mono {decay : K} (hdecay : 0 ≤ decay) (delta : K) {x y : K} (h : x ≤ y) :
    bumped decay delta x ≤ bumped decay delta y := by
  have hscaled := mul_le_mul_of_nonneg_right h hdecay
  exact max_le_max le_rfl (min_le_min (by linarith) le_rfl)

theorem bumped_sub_le {decay : K} (hone : decay ≤ 1) (delta : K) {x y : K} (h : x ≤ y) :
    bumped decay delta y - bumped decay delta x ≤ y - x := by
  have hscaled : (y - x) * decay ≤ y - x := mul_le_of_le_one_right (sub_nonneg.mpr h) hone
  have hsum : y * decay + delta ≤ x * decay + delta + (y - x) := by linarith
  have hclamp : bumped decay delta y ≤ bumped decay delta x + (y - x) := by
    have hnonneg : 0 ≤ y - x := sub_nonneg.mpr h
    unfold bumped
    refine max_le (add_nonneg (le_max_left _ _) hnonneg) ?_
    rw [max_add, min_add]
    exact le_max_of_le_right (min_le_min hsum (by linarith))
  linarith

omit [IsStrictOrderedRing K] in
/-- The upper clamp does not decide whether a score is small. -/
theorem bumped_le_iff {decay delta x bound : K} (hpos : 0 ≤ bound) (hbound : bound < 100) :
    bumped decay delta x ≤ bound ↔ x * decay + delta ≤ bound := by
  simp [bumped, hpos, not_le.mpr hbound]

end Score

variable {F K : Type} [F64 F]

namespace RiskState

/-- A bump of a state that keeps every score. -/
def raise (s : RiskState F) (subject : String) (delta decay : F) : F × RiskState F :=
  let newScore := F64.clamp (get s subject * decay + delta) (F64.lit 0) (F64.lit 100)
  (newScore, s.insert subject newScore)

def bumps (decay : F) (calls : List (String × F)) : RiskState F :=
  calls.foldl (fun s call => (bump s call.1 call.2 decay).2) .empty

def raises (decay : F) (calls : List (String × F)) : RiskState F :=
  calls.foldl (fun s call => (raise s call.1 call.2 decay).2) .empty

/-- Two scores that differ by a negligible score at most. -/
def Close (x y : F) : Prop := F64.le (F64.abs (x - y)) negligibleScore = true

/-- Decayed and raised, what the state holds for the subject is negligible. -/
def Negligible (decay : F) (s : RiskState F) (call : String × F) : Prop :=
  F64.le (get s call.1 * decay + call.2) negligibleScore = true

instance (x y : F) : Decidable (Close x y) := inferInstanceAs (Decidable (_ = true))

instance (decay : F) (s : RiskState F) (call : String × F) : Decidable (Negligible decay s call) :=
  inferInstanceAs (Decidable (_ = true))

/-- No bump evicts a score of which the state that keeps every score has more. -/
def Settled (decay : F) (calls : List (String × F)) : Prop :=
  ∀ before call after, calls = before ++ call :: after →
    Negligible decay (bumps decay before) call → Negligible decay (raises decay before) call

/-- Each bump returns nearly the same score in both states, and then every subject has nearly
the same score in both; and a stored score is above the negligible one and up to 100. -/
def Unobservable (decay : F) (calls : List (String × F)) : Prop :=
  ∀ before call after, calls = before ++ call :: after →
    Close (bump (bumps decay before) call.1 call.2 decay).1
        (raise (raises decay before) call.1 call.2 decay).1 ∧
      ∀ subject,
        Close (get (bumps decay (before ++ [call])) subject)
            (get (raises decay (before ++ [call])) subject) ∧
          ∀ score ∈ (bumps decay (before ++ [call])).get? subject,
            F64.lt negligibleScore score = true ∧ F64.le score (F64.lit 100) = true

theorem bumps_concat (decay : F) (calls : List (String × F)) (call : String × F) :
    bumps decay (calls ++ [call]) = (bump (bumps decay calls) call.1 call.2 decay).2 := by
  simp [bumps]

theorem raises_concat (decay : F) (calls : List (String × F)) (call : String × F) :
    raises decay (calls ++ [call]) = (raise (raises decay calls) call.1 call.2 decay).2 := by
  simp [raises]

theorem get?_raise (s : RiskState F) (subject : String) (delta decay : F) (other : String) :
    (raise s subject delta decay).2.get? other =
      if other = subject then some (raise s subject delta decay).1 else s.get? other :=
  OrderedTable.get?_insert _ _ _ _

variable [Field K] [LinearOrder K] [IsStrictOrderedRing K] (E : ExactArithmetic F K)

/-- Numbers for every subject, the one of the evicting state not above the other. -/
def Shadows (s s' : RiskState F) : Prop :=
  ∀ subject, ∃ x y, get s subject = E.num x ∧ get s' subject = E.num y ∧ x ≤ y

include E

theorem close_num (x y : K) : Close (E.num x) (E.num y) ↔ |x - y| ≤ 1 / 100 := by
  rw [Close, E.sub, E.abs_num, negligibleScore, E.lit, E.le]
  norm_num

theorem clamped_num (decay delta x : K) :
    F64.clamp (E.num x * E.num decay + E.num delta) (F64.lit 0) (F64.lit 100) =
      E.num (bumped decay delta x) := by
  rw [E.mul, E.add, E.clamp_num _ (by norm_num)]
  norm_num [bumped]

theorem negligible_num {s : RiskState F} {subject : String} {x : K}
    (h : get s subject = E.num x) (decay delta : K) :
    Negligible (E.num decay) s (subject, E.num delta) ↔ bumped decay delta x ≤ 1 / 100 := by
  rw [Negligible, h, E.mul, E.add, negligibleScore, E.lit, E.le,
    bumped_le_iff (by norm_num) (by norm_num)]
  norm_num

theorem get_bump {s : RiskState F} {subject : String} {x : K} (h : get s subject = E.num x)
    (decay delta : K) (other : String) :
    get (bump s subject (E.num delta) (E.num decay)).2 other =
      if other = subject then
        E.num (if bumped decay delta x ≤ 1 / 100 then 0 else bumped decay delta x)
      else get s other := by
  have hle : F64.le (E.num (bumped decay delta x)) negligibleScore = true ↔
      bumped decay delta x ≤ 1 / 100 := by
    rw [negligibleScore, E.lit, E.le]
    norm_num
  have hlit : (F64.lit 0 : F) = E.num 0 := by rw [E.lit, Rat.cast_zero]
  simp only [get, bump] at h ⊢
  rw [get?_settle, h, clamped_num E]
  split_ifs with hsame hnegligible hsmall hsmall
  · exact hlit
  · exact absurd (hle.mp hnegligible) hsmall
  · exact absurd (hle.mpr hsmall) hnegligible
  · rfl
  · rfl

theorem get_raise {s : RiskState F} {subject : String} {x : K} (h : get s subject = E.num x)
    (decay delta : K) (other : String) :
    get (raise s subject (E.num delta) (E.num decay)).2 other =
      if other = subject then E.num (bumped decay delta x) else get s other := by
  simp only [get] at h ⊢
  rw [get?_raise]
  simp only [raise, get, h, clamped_num E]
  split_ifs <;> rfl

theorem Shadows.step {s s' : RiskState F} (hs : Shadows E s s') {decay : K} (hdecay : 0 ≤ decay)
    (subject : String) (delta : K) :
    Shadows E (bump s subject (E.num delta) (E.num decay)).2
      (raise s' subject (E.num delta) (E.num decay)).2 := by
  obtain ⟨x, y, hx, hy, hle⟩ := hs subject
  have hmono := bumped_mono hdecay delta hle
  have hnonneg := bumped_nonneg decay delta y
  intro other
  rw [get_bump E hx, get_raise E hy]
  split_ifs with hsame hsmall
  · exact ⟨_, _, rfl, rfl, hnonneg⟩
  · exact ⟨_, _, rfl, rfl, hmono⟩
  · exact hs other

/-- A bump keeps close scores close unless it evicts where the other state has more. -/
theorem close_step {s s' : RiskState F} (hs : Shadows E s s')
    (hclose : ∀ other, Close (get s other) (get s' other)) {decay : K} (hdecay : 0 ≤ decay)
    (hone : decay ≤ 1) {subject : String} {delta : K}
    (hsettled : Negligible (E.num decay) s (subject, E.num delta) →
      Negligible (E.num decay) s' (subject, E.num delta)) :
    Close (bump s subject (E.num delta) (E.num decay)).1
        (raise s' subject (E.num delta) (E.num decay)).1 ∧
      ∀ other, Close (get (bump s subject (E.num delta) (E.num decay)).2 other)
        (get (raise s' subject (E.num delta) (E.num decay)).2 other) := by
  obtain ⟨x, y, hx, hy, hle⟩ := hs subject
  have hdiff := hclose subject
  rw [hx, hy, close_num E, abs_le] at hdiff
  have hmono := bumped_mono hdecay delta hle
  have hsub := bumped_sub_le hone delta hle
  have hreturned : |bumped decay delta x - bumped decay delta y| ≤ 1 / 100 :=
    abs_le.mpr ⟨by linarith [hdiff.1], by linarith⟩
  constructor
  · rw [bump, raise, hx, hy, clamped_num E, clamped_num E, close_num E]
    exact hreturned
  · intro other
    rw [get_bump E hx, get_raise E hy]
    split_ifs with hsame hsmall
    · have hlow := (negligible_num E hy decay delta).mp
        (hsettled ((negligible_num E hx decay delta).mpr hsmall))
      have hnonneg := bumped_nonneg decay delta y
      rw [close_num E, zero_sub, abs_neg, abs_of_nonneg hnonneg]
      exact hlow
    · exact (close_num E _ _).mpr hreturned
    · exact hclose other

/-- Where the subject's scores are close after an eviction, the other state has no more. -/
theorem negligible_of_close {s s' : RiskState F} (hs : Shadows E s s') {decay : K}
    {subject : String} {delta : K}
    (hclose : Close (get (bump s subject (E.num delta) (E.num decay)).2 subject)
      (get (raise s' subject (E.num delta) (E.num decay)).2 subject))
    (h : Negligible (E.num decay) s (subject, E.num delta)) :
    Negligible (E.num decay) s' (subject, E.num delta) := by
  obtain ⟨x, y, hx, hy, -⟩ := hs subject
  have hsmall := (negligible_num E hx decay delta).mp h
  rw [get_bump E hx, get_raise E hy, if_pos rfl, if_pos rfl, if_pos hsmall, close_num E,
    zero_sub, abs_neg, abs_of_nonneg (bumped_nonneg decay delta y)] at hclose
  exact (negligible_num E hy decay delta).mpr hclose

theorem get_empty (subject : String) : get (.empty : RiskState F) subject = E.num 0 := by
  rw [get, OrderedTable.get?_empty, Option.getD_none, E.lit, Rat.cast_zero]

theorem shadows_run {decay : K} (hdecay : 0 ≤ decay) {calls : List (String × F)}
    (hdeltas : ∀ call ∈ calls, ∃ delta, call.2 = E.num delta) :
    Shadows E (bumps (E.num decay) calls) (raises (E.num decay) calls) := by
  induction calls using List.reverseRecOn with
  | nil => exact fun subject => ⟨0, 0, get_empty E subject, get_empty E subject, le_rfl⟩
  | append_singleton calls call ih =>
      obtain ⟨delta, hdelta⟩ := hdeltas call (by simp)
      rw [bumps_concat, raises_concat, hdelta]
      exact (ih fun c hc => hdeltas c (List.mem_append_left _ hc)).step E hdecay call.1 delta

/-- While nothing but what is negligible in both states is evicted, all scores are close. -/
theorem close_run {decay : K} (hdecay : 0 ≤ decay) (hone : decay ≤ 1) {calls : List (String × F)}
    (hdeltas : ∀ call ∈ calls, ∃ delta, call.2 = E.num delta)
    (hsettled : Settled (E.num decay) calls) (subject : String) :
    Close (get (bumps (E.num decay) calls) subject)
      (get (raises (E.num decay) calls) subject) := by
  induction calls using List.reverseRecOn generalizing subject with
  | nil =>
      change Close (get .empty subject) (get .empty subject)
      rw [get_empty E, close_num E]
      norm_num
  | append_singleton calls call ih =>
      obtain ⟨delta, hdelta⟩ := hdeltas call (by simp)
      have hearlier : ∀ c ∈ calls, ∃ delta, c.2 = E.num delta :=
        fun c hc => hdeltas c (List.mem_append_left _ hc)
      have hprefix : Settled (E.num decay) calls := fun before c after hsplit =>
        hsettled before c (after ++ [call]) (by rw [hsplit]; simp)
      have hlast := hsettled calls call [] rfl
      have hcall : call = (call.1, E.num delta) := by rw [← hdelta]
      rw [hcall] at hlast
      rw [bumps_concat, raises_concat, hdelta]
      exact (close_step E (shadows_run E hdecay hearlier) (ih hearlier hprefix) hdecay hone
        hlast).2 subject

theorem stored_run {decay : K} (hdecay : 0 ≤ decay) {calls : List (String × F)}
    (hdeltas : ∀ call ∈ calls, ∃ delta, call.2 = E.num delta) (subject : String) :
    ∀ score ∈ (bumps (E.num decay) calls).get? subject,
      F64.lt negligibleScore score = true ∧ F64.le score (F64.lit 100) = true := by
  induction calls using List.reverseRecOn with
  | nil =>
      intro score hscore
      cases hscore
  | append_singleton calls call ih =>
      have hearlier : ∀ c ∈ calls, ∃ delta, c.2 = E.num delta :=
        fun c hc => hdeltas c (List.mem_append_left _ hc)
      obtain ⟨delta, hdelta⟩ := hdeltas call (by simp)
      obtain ⟨x, -, hx, -, -⟩ := shadows_run E hdecay hearlier call.1
      intro score hscore
      rw [bumps_concat, bump, get?_settle, hdelta, hx, clamped_num E] at hscore
      split_ifs at hscore with hsame hsmall
      · cases hscore
      · cases hscore
        rw [negligibleScore, E.lit, E.le, not_le] at hsmall
        rw [negligibleScore, E.lit, E.lit, E.lt, E.le]
        exact ⟨hsmall, by simpa using bumped_le decay delta x⟩
      · exact ih hearlier score hscore

/-- The eviction is not observed in exactly the runs in which no bump evicts a score of which the
state that keeps every score has more than a negligible one. -/
theorem unobservable_iff {decay : K} (hdecay : 0 < decay) (hone : decay ≤ 1)
    (calls : List (String × F)) (hdeltas : ∀ call ∈ calls, ∃ delta, 0 ≤ delta ∧
      call.2 = E.num delta) :
    Unobservable (E.num decay) calls ↔ Settled (E.num decay) calls := by
  have hnumbers : ∀ call ∈ calls, ∃ delta, call.2 = E.num delta :=
    fun call hcall => (hdeltas call hcall).imp fun _ h => h.2
  constructor
  · intro h before call after hsplit hnegligible
    obtain ⟨delta, hdelta⟩ := hnumbers call (by simp [hsplit])
    have hbefore : ∀ c ∈ before, ∃ delta, c.2 = E.num delta :=
      fun c hc => hnumbers c (by simp [hsplit, hc])
    have hclose := ((h before call after hsplit).2 call.1).1
    have hcall : call = (call.1, E.num delta) := by rw [← hdelta]
    rw [bumps_concat, raises_concat, hdelta] at hclose
    rw [hcall] at hnegligible ⊢
    exact negligible_of_close E (shadows_run E hdecay.le hbefore) hclose hnegligible
  · intro hsettled before call after hsplit
    obtain ⟨delta, hdelta⟩ := hnumbers call (by simp [hsplit])
    have hbefore : ∀ c ∈ before, ∃ delta, c.2 = E.num delta :=
      fun c hc => hnumbers c (by simp [hsplit, hc])
    have hthrough : ∀ c ∈ before ++ [call], ∃ delta, c.2 = E.num delta := by
      intro c hc
      rw [hsplit, ← List.singleton_append, ← List.append_assoc] at hnumbers
      exact hnumbers c (List.mem_append_left _ hc)
    have hprefix : Settled (E.num decay) before := fun earlier c later hearlier =>
      hsettled earlier c (later ++ call :: after) (by rw [hsplit, hearlier]; simp)
    have hlast := hsettled before call after hsplit
    have hcall : call = (call.1, E.num delta) := by rw [← hdelta]
    rw [hcall] at hlast
    have hstep := close_step E (shadows_run E hdecay.le hbefore)
      (close_run E hdecay.le hone hbefore hprefix) hdecay.le hone hlast
    rw [← hdelta] at hstep
    refine ⟨hstep.1, fun subject => ⟨?_, stored_run E hdecay.le hthrough subject⟩⟩
    rw [bumps_concat, raises_concat]
    exact hstep.2 subject

omit E

/-- A score that the first bump evicts, another subject between, and a decayed score on top. -/
def lateScores : List (String × ℚ) := [("uid:1000", 1 / 200), ("uid:1001", 5), ("uid:1000", 5)]

theorem unobservable_lateScores :
    Unobservable (98 / 100 : ℚ) lateScores ∧
      get (bumps (98 / 100 : ℚ) (lateScores.take 1)) "uid:1000" = 0 ∧
      get (raises (98 / 100 : ℚ) (lateScores.take 1)) "uid:1000" = 1 / 200 ∧
      get (bumps (98 / 100 : ℚ) lateScores) "uid:1000" = 5 ∧
      get (raises (98 / 100 : ℚ) lateScores) "uid:1000" = 50049 / 10000 := by
  have hdeltas : ∀ call ∈ lateScores, ∃ delta, 0 ≤ delta ∧ call.2 = ratArithmetic.num delta := by
    have hnonneg : ∀ call ∈ lateScores, 0 ≤ call.2 := by decide +kernel
    exact fun call hcall => ⟨call.2, hnonneg call hcall, rfl⟩
  have hsteps : ∀ n < 3, ∀ call ∈ lateScores[n]?,
      Negligible (98 / 100 : ℚ) (bumps (98 / 100) (lateScores.take n)) call →
        Negligible (98 / 100 : ℚ) (raises (98 / 100) (lateScores.take n)) call := by
    decide +kernel
  have hsettled : Settled (98 / 100 : ℚ) lateScores := by
    intro before call after hsplit
    have htake : lateScores.take before.length = before := by rw [hsplit, List.take_left]
    have hlength : before.length < 3 := by
      have : lateScores.length = 3 := rfl
      rw [hsplit, List.length_append, List.length_cons] at this
      omega
    have hcall : call ∈ lateScores[before.length]? := by simp [hsplit]
    simpa only [htake] using hsteps before.length hlength call hcall
  refine ⟨(unobservable_iff ratArithmetic (by norm_num) (by norm_num) _ hdeltas).mpr hsettled, ?_⟩
  decide +kernel

/-- Three small increments are evicted one by one, and the third returns a third of what the
other state holds. -/
theorem evicted_three_times :
    ¬ ∀ (decay : ℚ) (calls : List (String × ℚ)), 0 < decay → decay ≤ 1 →
      (∀ call ∈ calls, 0 ≤ call.2) → Unobservable decay calls := by
  intro h
  have hrun := h 1 (List.replicate 3 ("uid:1000", 1 / 100)) (by norm_num) le_rfl (by simp)
    (List.replicate 2 ("uid:1000", 1 / 100)) ("uid:1000", 1 / 100) [] rfl
  exact absurd hrun.1 (by decide +kernel)

end RiskState
end Aegis

import Aegis.ExactArithmetic
import Aegis.RankSum
import Mathlib.Data.List.TakeWhile

/-!
# The area under the ROC curve

`roc_auc` sweeps an index sorted by score, gives each group of ties the mean of
its ranks and sums the ranks of the positives. Without rounding that is the share
of the pairs of a positive and a negative sample that the positive wins, with
half of each draw.
-/

namespace Aegis
namespace RocAuc

section Definitions
variable {F : Type} [F64 F]

/-- `==` on doubles. -/
def sameScore (x y : F) : Bool := F64.le x y && F64.le y x

def scoreAt (scored : List (F × Bool)) (k : ℕ) : F := (scored.getD k (F64.lit 0, false)).1

/-- The index sorted by score, ascending. -/
def sortedIndex (scored : List (F × Bool)) : List ℕ :=
  (List.range scored.length).mergeSort fun a b =>
    !F64.lt (scoreAt scored b) (scoreAt scored a)

/-- The sweep from position `i` on: the ties with the first of the remaining indices end at
`j`, and all of the group get the mean of the ranks from `i + 1` to `j`. -/
def assignRanks (scored : List (F × Bool)) (i : ℕ) (remaining : List ℕ) (ranks : List F) :
    List F :=
  match remaining with
  | [] => ranks
  | k :: rest =>
      let ties := rest.takeWhile fun m => sameScore (scoreAt scored m) (scoreAt scored k)
      let j := i + 1 + ties.length
      let avg := F64.ofNat (i + 1 + j) / F64.lit 2
      assignRanks scored j (rest.drop ties.length)
        ((k :: ties).foldl (fun r m => r.set m avg) ranks)
termination_by remaining.length
decreasing_by
  rw [List.length_drop, List.length_cons]
  omega

def rocAuc (scored : List (F × Bool)) : F :=
  let nPos := (scored.filter Prod.snd).length
  let nNeg := scored.length - nPos
  if nPos = 0 ∨ nNeg = 0 then F64.lit (1 / 2) else
    let ranks := assignRanks scored 0 (sortedIndex scored)
      (List.replicate scored.length (F64.lit 0))
    let sumRanksPos := F64.sum (((scored.zip ranks).filter fun r => r.1.2).map Prod.snd)
    let u := sumRanksPos - F64.ofNat (nPos * (nPos + 1)) / F64.lit 2
    u / (F64.ofNat nPos * F64.ofNat nNeg)

end Definitions

theorem getElem?_foldl_set {β : Type} (ks : List ℕ) (v : β) (r : List β) (m : ℕ) :
    (ks.foldl (fun r k => r.set k v) r)[m]? =
      if m ∈ ks ∧ m < r.length then some v else r[m]? := by
  induction ks generalizing r with
  | nil => simp
  | cons k ks ih =>
      rw [List.foldl_cons, ih, List.length_set, List.getElem?_set]
      by_cases hlt : m < r.length
      · by_cases hm : m ∈ ks
        · simp [hm, hlt]
        · by_cases hk : k = m
          · subst hk
            simp [hm, hlt]
          · simp [hm, hk, Ne.symm hk]
      · have hnone : r[m]? = none := List.getElem?_eq_none (not_lt.mp hlt)
        by_cases hk : k = m
        · subst hk
          simp [hlt]
        · simp [hlt, hk]

theorem length_foldl_set {β : Type} (ks : List ℕ) (v : β) (r : List β) :
    (ks.foldl (fun r k => r.set k v) r).length = r.length := by
  induction ks generalizing r with
  | nil => rfl
  | cons k ks ih => rw [List.foldl_cons, ih, List.length_set]

theorem assigned_group {β : Type} {done group : List ℕ} {r : List β} {value : ℕ → β} {v : β}
    (hlt : ∀ m ∈ done ++ group, m < r.length) (hdone : ∀ m ∈ done, r[m]? = some (value m))
    (hgroup : ∀ m ∈ group, value m = v) :
    ∀ m ∈ done ++ group, (group.foldl (fun r k => r.set k v) r)[m]? = some (value m) := by
  intro m hm
  rw [getElem?_foldl_set]
  by_cases hin : m ∈ group
  · rw [if_pos ⟨hin, hlt m hm⟩, hgroup m hin]
  · rw [if_neg fun h => hin h.1]
    exact hdone m ((List.mem_append.mp hm).resolve_right hin)

section Exact
variable {F K : Type} [F64 F] [Field K] [LinearOrder K] [IsStrictOrderedRing K]
variable (E : ExactCounts F K)

/-- Exact scores as the code sees them. -/
def asScored (xs : List (K × Bool)) : List (F × Bool) := xs.map fun s => (E.num s.1, s.2)

def valueAt (xs : List (K × Bool)) (k : ℕ) : K := (xs.getD k (0, false)).1

/-- The mean rank of a value among others. -/
def rankAmong (scores : List K) (a : K) : K := (RankSum.doubleRank scores a : K) / 2

variable {E}

theorem scoreAt_asScored (xs : List (K × Bool)) (k : ℕ) :
    scoreAt (asScored E xs) k = E.num (valueAt xs k) := by
  rw [scoreAt, asScored, valueAt, List.getD_eq_getElem?_getD, List.getD_eq_getElem?_getD,
    List.getElem?_map]
  cases xs[k]? with
  | none => simp [E.lit]
  | some s => rfl

theorem sameScore_num (a b : K) : sameScore (E.num a) (E.num b) = decide (a = b) := by
  have hiff : sameScore (E.num a) (E.num b) = true ↔ a = b := by
    rw [sameScore, Bool.and_eq_true, E.le, E.le]
    exact le_antisymm_iff.symm
  rw [Bool.eq_iff_iff, hiff, decide_eq_true_iff]

theorem sortedIndex_perm (scored : List (F × Bool)) :
    (sortedIndex scored).Perm (List.range scored.length) :=
  List.mergeSort_perm _ _

theorem sortedIndex_sorted (xs : List (K × Bool)) :
    (sortedIndex (asScored E xs)).Pairwise fun a b => valueAt xs a ≤ valueAt xs b := by
  have hle : ∀ a b, (!F64.lt (scoreAt (asScored E xs) b) (scoreAt (asScored E xs) a)) = true ↔
      valueAt xs a ≤ valueAt xs b := by
    intro a b
    rw [scoreAt_asScored, scoreAt_asScored, Bool.not_eq_true', ← Bool.not_eq_true, E.lt, not_lt]
  have hsorted : (sortedIndex (asScored E xs)).Pairwise fun a b =>
      (!F64.lt (scoreAt (asScored E xs) b) (scoreAt (asScored E xs) a)) = true := by
    refine List.pairwise_mergeSort ?_ ?_ _
    · intro a b c hab hbc
      rw [hle] at hab hbc ⊢
      exact hab.trans hbc
    · intro a b
      rw [Bool.or_eq_true, hle, hle]
      exact le_total _ _
  exact hsorted.imp fun h => (hle _ _).mp h

theorem avg_eq_rank (xs : List (K × Bool)) {done ties later : List ℕ} {k : ℕ}
    (hbefore : ∀ a ∈ done, valueAt xs a < valueAt xs k)
    (hties : ∀ m ∈ k :: ties, valueAt xs m = valueAt xs k)
    (hlater : ∀ b ∈ later, valueAt xs k < valueAt xs b) :
    (F64.ofNat (done.length + 1 + (done.length + 1 + ties.length)) / F64.lit 2 : F) =
      E.num (rankAmong (((done ++ k :: ties) ++ later).map (valueAt xs)) (valueAt xs k)) := by
  have hdouble : RankSum.doubleRank (((done ++ k :: ties) ++ later).map (valueAt xs))
      (valueAt xs k) = done.length + 1 + (done.length + 1 + ties.length) := by
    rw [List.append_assoc, List.map_append, List.map_append, RankSum.doubleRank_of_group]
    · rw [List.length_map, List.length_map, List.length_cons]
      omega
    · exact List.forall_mem_map.mpr hbefore
    · exact List.forall_mem_map.mpr hties
    · exact List.forall_mem_map.mpr hlater
  have htwo : ((2 : ℚ) : K) ≠ 0 := by
    rw [Rat.cast_ofNat]
    exact two_ne_zero
  rw [rankAmong, hdouble, E.ofNat, E.lit, E.div _ htwo, Rat.cast_ofNat]

omit [IsStrictOrderedRing K] in
/-- One group: what comes before it is lower, it is tied, and what follows is higher. -/
theorem mem_drop_takeWhile_lt {xs : List (K × Bool)} {k : ℕ} {rest : List ℕ}
    (hsorted : (k :: rest).Pairwise fun a b => valueAt xs a ≤ valueAt xs b) :
    ∀ b ∈ rest.dropWhile (fun m => decide (valueAt xs m = valueAt xs k)),
      valueAt xs k < valueAt xs b := by
  induction rest with
  | nil => simp
  | cons m rest ih =>
      have hhead := List.pairwise_cons.mp hsorted
      by_cases hm : valueAt xs m = valueAt xs k
      · rw [List.dropWhile_cons_of_pos (by simpa using hm)]
        refine ih (List.pairwise_cons.mpr ⟨?_, (List.pairwise_cons.mp hhead.2).2⟩)
        exact fun b hb => hhead.1 b (List.mem_cons_of_mem _ hb)
      · rw [List.dropWhile_cons_of_neg (by simpa using hm)]
        have hlt : valueAt xs k < valueAt xs m :=
          lt_of_le_of_ne (hhead.1 m List.mem_cons_self) (Ne.symm hm)
        intro b hb
        rcases List.mem_cons.mp hb with rfl | hb
        · exact hlt
        · exact hlt.trans_le ((List.pairwise_cons.mp hhead.2).1 b hb)

/-- The group that the sweep takes off is tied with its first index and lower than the rest. -/
theorem exists_group (xs : List (K × Bool)) {k : ℕ} {rest : List ℕ}
    (hsorted : (k :: rest).Pairwise fun a b => valueAt xs a ≤ valueAt xs b) :
    ∃ ties later, rest = ties ++ later ∧
      (rest.takeWhile fun m =>
        sameScore (scoreAt (asScored E xs) m) (scoreAt (asScored E xs) k)) = ties ∧
      (∀ m ∈ k :: ties, valueAt xs m = valueAt xs k) ∧
      ∀ b ∈ later, valueAt xs k < valueAt xs b := by
  have hcode : (fun m => sameScore (scoreAt (asScored E xs) m) (scoreAt (asScored E xs) k)) =
      fun m => decide (valueAt xs m = valueAt xs k) := by
    funext m
    rw [scoreAt_asScored, scoreAt_asScored, sameScore_num]
  rw [hcode]
  refine ⟨_, _, List.takeWhile_append_dropWhile.symm, rfl, ?_, mem_drop_takeWhile_lt hsorted⟩
  intro m hm
  rcases List.mem_cons.mp hm with rfl | hm
  · rfl
  · have htie := List.mem_takeWhile_imp hm
    exact of_decide_eq_true htie

/-- The ranks that have been assigned are the mean ranks among all scores, and the rest of
the sweep assigns the others. -/
theorem assignRanks_spec (xs : List (K × Bool)) {done remaining : List ℕ} {ranks : List F}
    (hsorted : (done ++ remaining).Pairwise fun a b => valueAt xs a ≤ valueAt xs b)
    (hgap : ∀ a ∈ done, ∀ b ∈ remaining, valueAt xs a < valueAt xs b)
    (hlt : ∀ k ∈ done ++ remaining, k < ranks.length)
    (hdone : ∀ k ∈ done, ranks[k]? =
      some (E.num (rankAmong ((done ++ remaining).map (valueAt xs)) (valueAt xs k)))) :
    (assignRanks (asScored E xs) done.length remaining ranks).length = ranks.length ∧
      ∀ k ∈ done ++ remaining,
        (assignRanks (asScored E xs) done.length remaining ranks)[k]? =
          some (E.num (rankAmong ((done ++ remaining).map (valueAt xs)) (valueAt xs k))) := by
  induction hn : remaining.length using Nat.strong_induction_on
    generalizing done remaining ranks with
  | h n ih =>
      cases remaining with
      | nil =>
          rw [assignRanks]
          exact ⟨rfl, fun k hk => hdone k (by simpa using hk)⟩
      | cons k rest =>
          obtain ⟨ties, later, hrest, hties, hsame, hhigher⟩ :=
            exists_group (E := E) xs (List.pairwise_append.mp hsorted).2.1
          have hbefore : ∀ a ∈ done, valueAt xs a < valueAt xs k := fun a ha =>
            hgap a ha k List.mem_cons_self
          have hgap' : ∀ a ∈ done ++ k :: ties, ∀ b ∈ later, valueAt xs a < valueAt xs b := by
            intro a ha b hb
            rcases List.mem_append.mp ha with ha | ha
            · exact (hbefore a ha).trans (hhigher b hb)
            · rw [hsame a ha]
              exact hhigher b hb
          have hdrop : rest.drop ties.length = later := by rw [hrest, List.drop_left]
          have hposition : done.length + 1 + ties.length = (done ++ k :: ties).length := by
            rw [List.length_append, List.length_cons]
            omega
          rw [assignRanks, hties, hdrop, avg_eq_rank (E := E) xs hbefore hsame hhigher, hposition]
          have hshorter : later.length < n := by
            rw [← hn, hrest, List.length_cons, List.length_append]
            omega
          have hsplit : done ++ k :: rest = (done ++ k :: ties) ++ later := by
            rw [hrest]
            simp
          rw [hsplit] at hsorted hlt hdone ⊢
          have hassigned := assigned_group (fun m hm => hlt m (List.mem_append_left _ hm)) hdone
            fun m hm => by rw [hsame m hm]
          have hstep := ih later.length hshorter hsorted hgap'
            (by simpa only [length_foldl_set] using hlt) hassigned rfl
          rw [length_foldl_set] at hstep
          exact hstep

omit [LinearOrder K] [IsStrictOrderedRing K] in
theorem map_valueAt_range (xs : List (K × Bool)) :
    (List.range xs.length).map (valueAt xs) = xs.map Prod.fst := by
  refine List.ext_getElem (by simp) ?_
  intro i hi hi'
  have hlt : i < xs.length := by simpa using hi
  simp [valueAt, hlt]

theorem assignRanks_all (xs : List (K × Bool)) :
    assignRanks (asScored E xs) 0 (sortedIndex (asScored E xs))
        (List.replicate (asScored E xs).length (F64.lit 0)) =
      xs.map fun s => E.num (rankAmong (xs.map Prod.fst) s.1) := by
  have hlength : (asScored E xs).length = xs.length := List.length_map _
  have hperm := sortedIndex_perm (asScored E xs)
  rw [hlength] at hperm ⊢
  have hscores : ((sortedIndex (asScored E xs)).map (valueAt xs)).Perm (xs.map Prod.fst) := by
    rw [← map_valueAt_range]
    exact hperm.map _
  have hlt : ∀ k ∈ [] ++ sortedIndex (asScored E xs),
      k < (List.replicate xs.length (F64.lit 0 : F)).length := by
    intro k hk
    rw [List.length_replicate]
    exact List.mem_range.mp (hperm.mem_iff.mp hk)
  have hspec := assignRanks_spec (E := E) xs (sortedIndex_sorted xs) (by simp) hlt (by simp)
  rw [List.length_replicate] at hspec
  refine List.ext_getElem? fun k => ?_
  by_cases hk : k < xs.length
  · have hmem : k ∈ [] ++ sortedIndex (asScored E xs) := hperm.mem_iff.mpr (List.mem_range.mpr hk)
    have hrank := hspec.2 k hmem
    rw [List.nil_append, rankAmong, RankSum.doubleRank_perm hscores] at hrank
    rw [List.getElem?_map, List.getElem?_eq_getElem hk, Option.map_some]
    refine hrank.trans ?_
    simp [valueAt, rankAmong, hk]
  · have hend : (xs.map fun s => E.num (rankAmong (xs.map Prod.fst) s.1)).length ≤ k := by
      rw [List.length_map]
      exact not_lt.mp hk
    rw [List.getElem?_eq_none hend]
    exact List.getElem?_eq_none (hspec.1.trans_le (not_lt.mp hk))

/-- The scores of the positive samples. -/
def positives (xs : List (K × Bool)) : List K := (xs.filter Prod.snd).map Prod.fst

def negatives (xs : List (K × Bool)) : List K := (xs.filter fun s => !s.2).map Prod.fst

/-- The pairs that the positive sample wins, with half of the draws, among all pairs. -/
def pairShare (xs : List (K × Bool)) : K :=
  ((RankSum.wins (positives xs) (negatives xs) : K) +
      (RankSum.draws (positives xs) (negatives xs) : K) / 2) /
    ((positives xs).length * (negatives xs).length)

omit [Field K] [LinearOrder K] [IsStrictOrderedRing K] in
theorem scores_perm (xs : List (K × Bool)) :
    (xs.map Prod.fst).Perm (positives xs ++ negatives xs) := by
  rw [positives, negatives, ← List.map_append]
  exact ((List.filter_append_perm _ xs).map _).symm

theorem sum_ranks_positives (xs : List (K × Bool)) :
    ((positives xs).map (rankAmong (xs.map Prod.fst))).sum =
      (RankSum.wins (positives xs) (negatives xs) : K) +
        (RankSum.draws (positives xs) (negatives xs) : K) / 2 +
        ((positives xs).length * ((positives xs).length + 1) : ℕ) / 2 := by
  have hhalves : ∀ l : List K, (l.map (rankAmong (xs.map Prod.fst))).sum =
      ((l.map (RankSum.doubleRank (xs.map Prod.fst))).sum : K) / 2 := by
    intro l
    induction l with
    | nil => simp
    | cons a l ih =>
        rw [List.map_cons, List.sum_cons, ih, List.map_cons, List.sum_cons, Nat.cast_add, rankAmong]
        ring
  rw [hhalves, RankSum.sum_doubleRank (scores_perm xs)]
  push_cast
  ring

theorem sumRanksPos_eq (xs : List (K × Bool)) (rank : K → K) :
    F64.sum ((((asScored E xs).zip (xs.map fun s => E.num (rank s.1))).filter
      fun r => r.1.2).map Prod.snd) = E.num ((positives xs).map rank).sum := by
  have hlist : (((asScored E xs).zip (xs.map fun s => E.num (rank s.1))).filter
      fun r => r.1.2).map Prod.snd = ((positives xs).map rank).map E.num := by
    rw [asScored, positives]
    induction xs with
    | nil => rfl
    | cons s xs ih =>
        cases hs : s.2 with
        | true => simpa [hs] using ih
        | false => simpa [hs] using ih
  rw [hlist, E.sum_num]

theorem rocAuc_num (xs : List (K × Bool)) (hpos : positives xs ≠ []) (hneg : negatives xs ≠ []) :
    rocAuc (asScored E xs) = E.num (pairShare xs) := by
  have hnPos : ((asScored E xs).filter Prod.snd).length = (positives xs).length := by
    rw [asScored, positives, List.filter_map, List.length_map, List.length_map]
    rfl
  have hnNeg : (asScored E xs).length - (positives xs).length = (negatives xs).length := by
    have hlength := (scores_perm xs).length_eq
    rw [List.length_append, List.length_map] at hlength
    rw [asScored, List.length_map]
    omega
  have hpos' : (positives xs).length ≠ 0 := fun h => hpos (List.length_eq_zero_iff.mp h)
  have hneg' : (negatives xs).length ≠ 0 := fun h => hneg (List.length_eq_zero_iff.mp h)
  have hboth : ((positives xs).length : K) * ((negatives xs).length : K) ≠ 0 :=
    mul_ne_zero (Nat.cast_ne_zero.mpr hpos') (Nat.cast_ne_zero.mpr hneg')
  have hpresent : ¬ ((positives xs).length = 0 ∨ (negatives xs).length = 0) := by
    rintro (h | h)
    · exact hpos' h
    · exact hneg' h
  simp only [rocAuc, hnPos, hnNeg]
  rw [if_neg hpresent, assignRanks_all, sumRanksPos_eq, sum_ranks_positives, E.ofNat, E.ofNat,
    E.ofNat, E.lit, Rat.cast_ofNat, E.div _ two_ne_zero, E.sub, E.mul, E.div _ hboth,
    add_sub_cancel_right, pairShare]

omit [Field K] [LinearOrder K] [IsStrictOrderedRing K] in
theorem positives_perm {xs ys : List (K × Bool)} (h : xs.Perm ys) :
    (positives xs).Perm (positives ys) := (h.filter _).map _

omit [Field K] [LinearOrder K] [IsStrictOrderedRing K] in
theorem negatives_perm {xs ys : List (K × Bool)} (h : xs.Perm ys) :
    (negatives xs).Perm (negatives ys) := (h.filter _).map _

omit [IsStrictOrderedRing K] in
theorem pairShare_perm {xs ys : List (K × Bool)} (h : xs.Perm ys) :
    pairShare xs = pairShare ys := by
  rw [pairShare, pairShare, RankSum.wins_perm (positives_perm h) (negatives_perm h),
    RankSum.draws_perm (positives_perm h) (negatives_perm h), (positives_perm h).length_eq,
    (negatives_perm h).length_eq]

theorem pairShare_fraction (xs : List (K × Bool)) : 0 ≤ pairShare xs ∧ pairShare xs ≤ 1 := by
  have hle := RankSum.wins_add_draws_le (positives xs) (negatives xs)
  have hcast : (2 : K) * RankSum.wins (positives xs) (negatives xs) +
      RankSum.draws (positives xs) (negatives xs) ≤
        2 * ((positives xs).length * (negatives xs).length) := by
    exact_mod_cast hle
  rw [pairShare]
  constructor
  · positivity
  · refine div_le_one_of_le₀ ?_ (by positivity)
    linarith

/-- With both classes present the code computes the share of won pairs, half a draw
counting as half a win; so the order of the samples does not matter, and the result lies
between zero and one. -/
theorem rocAuc_eq_pairShare (E : ExactCounts F K) (xs : List (K × Bool))
    (hpos : positives xs ≠ []) (hneg : negatives xs ≠ []) :
    rocAuc (asScored E xs) = E.num (((RankSum.wins (positives xs) (negatives xs) : K) +
        (RankSum.draws (positives xs) (negatives xs) : K) / 2) /
          ((positives xs).length * (negatives xs).length)) ∧
      (∀ ys, ys.Perm xs → rocAuc (asScored E ys) = rocAuc (asScored E xs)) ∧
      ∃ a, rocAuc (asScored E xs) = E.num a ∧ 0 ≤ a ∧ a ≤ 1 := by
  have hshare := rocAuc_num (E := E) xs hpos hneg
  refine ⟨hshare, ?_, pairShare xs, hshare, pairShare_fraction xs⟩
  intro ys hperm
  have hpos' : positives ys ≠ [] := fun h => hpos ((h ▸ positives_perm hperm).nil_eq).symm
  have hneg' : negatives ys ≠ [] := fun h => hneg ((h ▸ negatives_perm hperm).nil_eq).symm
  rw [hshare, rocAuc_num ys hpos' hneg', pairShare_perm hperm]

theorem rocAuc_eq_pairShare_at :
    rocAuc (asScored ratCounts [(4, true), (1, false), (4, false), (2, true)]) = 5 / 8 ∧
      ∀ ys, ys.Perm [(4, true), (1, false), (4, false), (2, true)] →
        rocAuc (asScored ratCounts ys) =
          rocAuc (asScored ratCounts [(4, true), (1, false), (4, false), (2, true)]) := by
  have hall := rocAuc_eq_pairShare ratCounts [(4, true), (1, false), (4, false), (2, true)]
    (by decide +kernel) (by decide +kernel)
  exact ⟨hall.1.trans (by decide +kernel), hall.2.1⟩

end Exact
end RocAuc
end Aegis

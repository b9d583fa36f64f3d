import Mathlib.Algebra.Order.Field.Basic
import Mathlib.Data.List.Forall2
import Mathlib.Tactic.Linarith
import Mathlib.Tactic.SplitIfs

/-!
# Where a curve first falls below a level

A curve is a list of points, with straight lines between them. It falls below a
level on the line to its first point below, and a higher curve over the same
positions falls no earlier, however often either of them rises again.
-/

namespace Aegis.FirstFall
variable {K : Type} [Field K] [LinearOrder K]

/-- Where the line from one point to another meets a level. -/
def meet (level : K) (p q : K × K) : K := p.1 + (q.1 - p.1) * ((p.2 - level) / (p.2 - q.2))

/-- Where the curve falls after a point that is not below the level. -/
def fallFrom (level last : K) (p : K × K) : List (K × K) → K
  | [] => last
  | q :: rest => if q.2 < level then meet level p q else fallFrom level last q rest

/-- Where the curve starts if it is below from the start, and `last` if it never falls. -/
def firstFall (level last : K) : List (K × K) → K
  | [] => last
  | p :: rest => if p.2 < level then p.1 else fallFrom level last p rest

/-- Ascending positions, none of them beyond the last. -/
structure Placed (last : K) (grid : List K) : Prop where
  ascending : grid.Pairwise (· ≤ ·)
  inside : ∀ e ∈ grid, e ≤ last

/-- The same positions, and the value on the left is nowhere higher. -/
def Below (curve curve' : List (K × K)) : Prop :=
  List.Forall₂ (fun p q => p.1 = q.1 ∧ p.2 ≤ q.2) curve curve'

omit [Field K] in
theorem Placed.tail {last e : K} {grid : List K} (h : Placed last (e :: grid)) :
    Placed last grid where
  ascending := (List.pairwise_cons.mp h.ascending).2
  inside e' he' := h.inside e' (List.mem_cons_of_mem _ he')

omit [Field K] in
theorem Placed.next {last e e' : K} {grid : List K} (h : Placed last (e :: e' :: grid)) :
    e ≤ e' :=
  (List.pairwise_cons.mp h.ascending).1 e' List.mem_cons_self

omit [Field K] in
theorem Below.positions {curve curve' : List (K × K)} (h : Below curve curve') :
    curve.map Prod.fst = curve'.map Prod.fst := by
  induction h with
  | nil => rfl
  | cons hp _ ih => rw [List.map_cons, List.map_cons, hp.1, ih]

section Meet
variable [IsStrictOrderedRing K] {level : K} {p q p' q' : K × K}

theorem share_bounds (hp : level ≤ p.2) (hq : q.2 < level) :
    0 ≤ (p.2 - level) / (p.2 - q.2) ∧ (p.2 - level) / (p.2 - q.2) ≤ 1 := by
  have hfall : 0 < p.2 - q.2 := sub_pos.mpr (hq.trans_le hp)
  refine ⟨div_nonneg (sub_nonneg.mpr hp) hfall.le, (div_le_one hfall).mpr ?_⟩
  exact sub_le_sub_left hq.le _

theorem share_mono (hp : level ≤ p.2) (hpp' : p.2 ≤ p'.2) (hqq' : q.2 ≤ q'.2)
    (hq' : q'.2 < level) :
    (p.2 - level) / (p.2 - q.2) ≤ (p'.2 - level) / (p'.2 - q'.2) := by
  have hfall : 0 < p.2 - q.2 := sub_pos.mpr ((hqq'.trans_lt hq').trans_le hp)
  have hfall' : 0 < p'.2 - q'.2 := sub_pos.mpr (hq'.trans_le (hp.trans hpp'))
  rw [div_le_div_iff₀ hfall hfall']
  -- the part above the level only grows, the part below only shrinks
  have hparts : (p.2 - level) * (level - q'.2) ≤ (p'.2 - level) * (level - q.2) :=
    mul_le_mul (sub_le_sub_right hpp' _) (sub_le_sub_left hqq' _) (sub_nonneg.mpr hq'.le)
      (sub_nonneg.mpr (hp.trans hpp'))
  linarith

theorem meet_bounds (hnext : p.1 ≤ q.1) (hp : level ≤ p.2) (hq : q.2 < level) :
    p.1 ≤ meet level p q ∧ meet level p q ≤ q.1 := by
  obtain ⟨hnonneg, hone⟩ := share_bounds hp hq
  have hway : 0 ≤ q.1 - p.1 := sub_nonneg.mpr hnext
  have hlow := mul_nonneg hway hnonneg
  have hhigh := mul_le_of_le_one_right hway hone
  rw [meet]
  constructor
  · linarith
  · linarith

/-- Between the same positions, a higher line meets the level no earlier. -/
theorem meet_mono (hnext : p.1 ≤ q.1) (hfrom : p.1 = p'.1 ∧ p.2 ≤ p'.2)
    (hto : q.1 = q'.1 ∧ q.2 ≤ q'.2) (hp : level ≤ p.2) (hq' : q'.2 < level) :
    meet level p q ≤ meet level p' q' := by
  rw [meet, meet, ← hfrom.1, ← hto.1]
  exact add_le_add le_rfl (mul_le_mul_of_nonneg_left (share_mono hp hfrom.2 hto.2 hq')
    (sub_nonneg.mpr hnext))

end Meet

section Fall
variable [IsStrictOrderedRing K] {level last : K}

theorem fallFrom_bounds {p : K × K} {rest : List (K × K)}
    (h : Placed last ((p :: rest).map Prod.fst)) (hp : level ≤ p.2) :
    p.1 ≤ fallFrom level last p rest ∧ fallFrom level last p rest ≤ last := by
  induction rest generalizing p with
  | nil => exact ⟨h.inside p.1 List.mem_cons_self, le_rfl⟩
  | cons q rest ih =>
      rw [fallFrom]
      split_ifs with hq
      · obtain ⟨hlow, hhigh⟩ := meet_bounds h.next hp hq
        exact ⟨hlow, hhigh.trans (h.tail.inside q.1 List.mem_cons_self)⟩
      · obtain ⟨hlow, hhigh⟩ := ih h.tail (not_lt.mp hq)
        exact ⟨h.next.trans hlow, hhigh⟩

/-- Either both curves go on, or one falls where the other may still be above. -/
theorem fallFrom_mono {p p' : K × K} {rest rest' : List (K × K)} (h : Below rest rest')
    (hpp' : p.1 = p'.1 ∧ p.2 ≤ p'.2) (hplaced : Placed last ((p :: rest).map Prod.fst))
    (hp : level ≤ p.2) :
    fallFrom level last p rest ≤ fallFrom level last p' rest' := by
  induction h generalizing p p' with
  | nil => exact le_rfl
  | @cons q q' rest rest' hqq' hrest ih =>
      rw [fallFrom, fallFrom]
      by_cases hq : q.2 < level
      · rw [if_pos hq]
        split_ifs with hq'
        · exact meet_mono hplaced.next hpp' hqq' hp hq'
        · have hplaced' : Placed last ((q' :: rest').map Prod.fst) := by
            rw [← Below.positions (.cons hqq' hrest)]
            exact hplaced.tail
          calc meet level p q ≤ q.1 := (meet_bounds hplaced.next hp hq).2
            _ = q'.1 := hqq'.1
            _ ≤ fallFrom level last q' rest' := (fallFrom_bounds hplaced' (not_lt.mp hq')).1
      · have hq' : ¬q'.2 < level := not_lt.mpr ((not_lt.mp hq).trans hqq'.2)
        rw [if_neg hq, if_neg hq']
        exact ih hqq' hplaced.tail (not_lt.mp hq)

theorem firstFall_le_last {curve : List (K × K)} (h : Placed last (curve.map Prod.fst)) :
    firstFall level last curve ≤ last := by
  cases curve with
  | nil => exact le_rfl
  | cons p rest =>
      rw [firstFall]
      split_ifs with hp
      · exact h.inside p.1 List.mem_cons_self
      · exact (fallFrom_bounds h (not_lt.mp hp)).2

theorem le_firstFall {p : K × K} {rest : List (K × K)}
    (h : Placed last ((p :: rest).map Prod.fst)) :
    p.1 ≤ firstFall level last (p :: rest) := by
  rw [firstFall]
  split_ifs with hp
  · exact le_rfl
  · exact (fallFrom_bounds h (not_lt.mp hp)).1

theorem firstFall_mono {curve curve' : List (K × K)} (h : Below curve curve')
    (hplaced : Placed last (curve.map Prod.fst)) :
    firstFall level last curve ≤ firstFall level last curve' := by
  cases h with
  | nil => exact le_rfl
  | @cons p p' rest rest' hpp' hrest =>
      by_cases hp : p.2 < level
      · have hplaced' : Placed last ((p' :: rest').map Prod.fst) := by
          rwa [← Below.positions (.cons hpp' hrest)]
        rw [firstFall, if_pos hp, hpp'.1]
        exact le_firstFall hplaced'
      · have hp' : ¬p'.2 < level := not_lt.mpr ((not_lt.mp hp).trans hpp'.2)
        rw [firstFall, firstFall, if_neg hp, if_neg hp']
        exact fallFrom_mono hrest hpp' hplaced (not_lt.mp hp)

end Fall
end Aegis.FirstFall

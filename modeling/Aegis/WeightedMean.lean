import Mathlib.Algebra.Order.BigOperators.Group.List
import Mathlib.Algebra.Order.Field.Basic
import Mathlib.Tactic.Linarith

/-!
# Weighted means

The mean of values with positive weights, a neutral value where there are none.
It stays between the bounds of the values and is monotone in each of them.
-/

namespace Aegis
variable {K : Type*} [Field K] [LinearOrder K] [IsStrictOrderedRing K]

/-- A value and its weight. -/
structure Weighted (K : Type*) where
  weight : K
  value : K

def totalWeight (l : List (Weighted K)) : K := (l.map Weighted.weight).sum

def weightedSum (l : List (Weighted K)) : K := (l.map fun x => x.weight * x.value).sum

def weightedMean (neutral : K) (l : List (Weighted K)) : K :=
  if 0 < totalWeight l then weightedSum l / totalWeight l else neutral

theorem totalWeight_pos {l : List (Weighted K)} (h : ∀ x ∈ l, 0 < x.weight) (hne : l ≠ []) :
    0 < totalWeight l := by
  cases l with
  | nil => exact absurd rfl hne
  | cons x l =>
      have hrest : 0 ≤ (l.map Weighted.weight).sum := List.sum_nonneg fun w hw => by
        obtain ⟨y, hy, rfl⟩ := List.mem_map.mp hw
        exact (h y (List.mem_cons_of_mem _ hy)).le
      rw [totalWeight, List.map_cons, List.sum_cons]
      exact add_pos_of_pos_of_nonneg (h x List.mem_cons_self) hrest

theorem weightedSum_bounds {l : List (Weighted K)} {lo hi : K} (hpos : ∀ x ∈ l, 0 < x.weight)
    (h : ∀ x ∈ l, lo ≤ x.value ∧ x.value ≤ hi) :
    totalWeight l * lo ≤ weightedSum l ∧ weightedSum l ≤ totalWeight l * hi := by
  induction l with
  | nil => simp [totalWeight, weightedSum]
  | cons x l ih =>
      obtain ⟨hbelow, habove⟩ := ih (fun y hy => hpos y (List.mem_cons_of_mem _ hy))
        fun y hy => h y (List.mem_cons_of_mem _ hy)
      obtain ⟨hlo, hhi⟩ := h x List.mem_cons_self
      have hweight := (hpos x List.mem_cons_self).le
      have hxlo := mul_le_mul_of_nonneg_left hlo hweight
      have hxhi := mul_le_mul_of_nonneg_left hhi hweight
      simp only [totalWeight, weightedSum, List.map_cons, List.sum_cons, add_mul]
        at hbelow habove ⊢
      exact ⟨add_le_add hxlo hbelow, add_le_add hxhi habove⟩

theorem weightedMean_bounds {l : List (Weighted K)} {neutral lo hi : K}
    (hneutral : lo ≤ neutral ∧ neutral ≤ hi) (hpos : ∀ x ∈ l, 0 < x.weight)
    (h : ∀ x ∈ l, lo ≤ x.value ∧ x.value ≤ hi) :
    lo ≤ weightedMean neutral l ∧ weightedMean neutral l ≤ hi := by
  obtain ⟨hbelow, habove⟩ := weightedSum_bounds hpos h
  unfold weightedMean
  split_ifs with htotal
  · rw [le_div_iff₀ htotal, div_le_iff₀ htotal, mul_comm lo, mul_comm hi]
    exact ⟨hbelow, habove⟩
  · exact hneutral

/-- The same weights, and values not below. -/
def Weighted.AtMost (x y : Weighted K) : Prop := x.weight = y.weight ∧ x.value ≤ y.value

omit [IsStrictOrderedRing K] in
theorem totalWeight_eq {l l' : List (Weighted K)} (h : List.Forall₂ Weighted.AtMost l l') :
    totalWeight l = totalWeight l' := by
  induction h with
  | nil => rfl
  | cons hx _ ih =>
      simp only [totalWeight, List.map_cons, List.sum_cons] at ih ⊢
      rw [hx.1, ih]

theorem weightedSum_mono {l l' : List (Weighted K)} (h : List.Forall₂ Weighted.AtMost l l')
    (hpos : ∀ x ∈ l, 0 < x.weight) : weightedSum l ≤ weightedSum l' := by
  induction h with
  | nil => exact le_rfl
  | cons hx _ ih =>
      have hrest := ih fun y hy => hpos y (List.mem_cons_of_mem _ hy)
      have hfirst := mul_le_mul_of_nonneg_left hx.2 (hpos _ List.mem_cons_self).le
      simp only [weightedSum, List.map_cons, List.sum_cons] at hrest ⊢
      rw [← hx.1]
      exact add_le_add hfirst hrest

theorem weightedMean_mono {l l' : List (Weighted K)} (neutral : K)
    (h : List.Forall₂ Weighted.AtMost l l') (hpos : ∀ x ∈ l, 0 < x.weight) :
    weightedMean neutral l ≤ weightedMean neutral l' := by
  have htotal := totalWeight_eq h
  have hsum := weightedSum_mono h hpos
  unfold weightedMean
  rw [← htotal]
  split_ifs with hw
  · exact div_le_div_of_nonneg_right hsum hw.le
  · exact le_rfl

end Aegis

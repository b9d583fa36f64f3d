import Mathlib.Algebra.BigOperators.Ring.List
import Mathlib.Algebra.Order.BigOperators.Group.List
import Mathlib.Algebra.Order.Field.Basic
import Mathlib.Data.List.GetD
import Mathlib.Tactic.Linarith
import Mathlib.Tactic.Ring

/-!
# Statistics of samples

The products of neighbors in a list are dominated by the squares of its entries,
and linear interpolation in a sorted list rises with the position and stays
between the two entries around it. Both are homogeneous in the entries.
-/

namespace Aegis.Sample
variable {K : Type} [Field K] [LinearOrder K] [IsStrictOrderedRing K]

/-- The sum of the products of neighbors. -/
def neighbors (ys : List K) : K := ((ys.zip ys.tail).map fun w => w.1 * w.2).sum

def squares (ys : List K) : K := (ys.map fun y => y * y).sum

omit [LinearOrder K] [IsStrictOrderedRing K] in
theorem neighbors_cons_cons (y z : K) (zs : List K) :
    neighbors (y :: z :: zs) = y * z + neighbors (z :: zs) := rfl

omit [LinearOrder K] [IsStrictOrderedRing K] in
theorem squares_cons (y : K) (ys : List K) : squares (y :: ys) = y * y + squares ys := rfl

theorem squares_nonneg (ys : List K) : 0 ≤ squares ys := by
  apply List.sum_nonneg
  intro x hx
  obtain ⟨y, -, rfl⟩ := List.mem_map.mp hx
  exact mul_self_nonneg y

theorem two_mul_abs_le (y z : K) : 2 * |y * z| ≤ y * y + z * z := by
  have hminus : 0 ≤ (y - z) * (y - z) := mul_self_nonneg _
  have hplus : 0 ≤ (y + z) * (y + z) := mul_self_nonneg _
  rcases abs_cases (y * z) with ⟨h, -⟩ | ⟨h, -⟩
  · rw [h]
    linarith
  · rw [h]
    linarith

theorem two_mul_neighbors_le (y : K) (ys : List K) :
    2 * |neighbors (y :: ys)| ≤ 2 * squares (y :: ys) - y * y := by
  induction ys generalizing y with
  | nil =>
      have hnone : neighbors [y] = 0 := rfl
      have hone : squares [y] = y * y := by simp [squares]
      have hy : 0 ≤ y * y := mul_self_nonneg y
      rw [hnone, hone, abs_zero]
      linarith
  | cons z zs ih =>
      have hfirst := two_mul_abs_le y z
      have hrest := ih z
      have htriangle := abs_add_le (y * z) (neighbors (z :: zs))
      rw [neighbors_cons_cons, squares_cons]
      linarith

theorem neighbors_le_squares (ys : List K) : |neighbors ys| ≤ squares ys := by
  cases ys with
  | nil =>
      have hnone : neighbors ([] : List K) = 0 := rfl
      rw [hnone, abs_zero]
      exact squares_nonneg []
  | cons y ys =>
      have hbound := two_mul_neighbors_le y ys
      have hy : 0 ≤ y * y := mul_self_nonneg y
      linarith

/-- The whole numbers next to a position. -/
structure Brackets (p : K) (lo hi : ℕ) : Prop where
  lo_le : (lo : K) ≤ p
  lt_lo : p < lo + 1
  le_hi : p ≤ hi
  hi_lt : (hi : K) < p + 1

theorem Brackets.cases {p : K} {lo hi : ℕ} (h : Brackets p lo hi) :
    (hi = lo ∧ p = lo) ∨ (hi = lo + 1 ∧ (lo : K) < p) := by
  have hle : lo ≤ hi := by exact_mod_cast h.lo_le.trans h.le_hi
  have hlt : (hi : K) < lo + 2 := by linarith [h.hi_lt, h.lt_lo]
  have hlt' : hi < lo + 2 := by exact_mod_cast hlt
  rcases Nat.lt_or_ge lo hi with hnext | hsame
  · have hhi : hi = lo + 1 := by omega
    refine Or.inr ⟨hhi, ?_⟩
    have hbelow := h.hi_lt
    rw [hhi, Nat.cast_add, Nat.cast_one] at hbelow
    linarith
  · have hhi : hi = lo := by omega
    refine Or.inl ⟨hhi, le_antisymm ?_ h.lo_le⟩
    rw [← hhi]
    exact h.le_hi

def interpolate (v : List K) (lo hi : ℕ) (p : K) : K :=
  if lo = hi then v.getD lo 0 else v.getD lo 0 * (1 - (p - lo)) + v.getD hi 0 * (p - lo)

omit [IsStrictOrderedRing K] in
theorem getD_mono {v : List K} (sorted : v.Pairwise (· ≤ ·)) {i j : ℕ} (hij : i ≤ j)
    (hj : j < v.length) : v.getD i 0 ≤ v.getD j 0 := by
  rw [List.getD_eq_getElem v 0 (hij.trans_lt hj), List.getD_eq_getElem v 0 hj]
  rcases hij.eq_or_lt with rfl | hlt
  · exact le_rfl
  · exact List.pairwise_iff_getElem.mp sorted i j _ _ hlt

theorem interpolate_bounds {v : List K} (sorted : v.Pairwise (· ≤ ·)) {p : K} {lo hi : ℕ}
    (h : Brackets p lo hi) (hhi : hi < v.length) :
    v.getD lo 0 ≤ interpolate v lo hi p ∧ interpolate v lo hi p ≤ v.getD hi 0 := by
  unfold interpolate
  split_ifs with hsame
  · rw [hsame]
    exact ⟨le_rfl, le_rfl⟩
  · have hle : lo ≤ hi := by exact_mod_cast h.lo_le.trans h.le_hi
    have hentries := getD_mono sorted hle hhi
    have hstart : 0 ≤ p - lo := sub_nonneg.mpr h.lo_le
    have hend : 0 ≤ 1 - (p - lo) := by linarith [h.lt_lo]
    have hlow := mul_le_mul_of_nonneg_right hentries hstart
    have hhigh := mul_le_mul_of_nonneg_right hentries hend
    constructor
    · linarith
    · linarith

theorem interpolate_mono {v : List K} (sorted : v.Pairwise (· ≤ ·)) {p p' : K} {lo hi lo' hi' : ℕ}
    (h : Brackets p lo hi) (h' : Brackets p' lo' hi') (hpp' : p ≤ p') (hhi' : hi' < v.length) :
    interpolate v lo hi p ≤ interpolate v lo' hi' p' := by
  have hlo : (lo : K) < lo' + 1 := by linarith [h.lo_le, h'.lt_lo]
  have hlo' : lo < lo' + 1 := by exact_mod_cast hlo
  have hle' : lo' ≤ hi' := by exact_mod_cast h'.lo_le.trans h'.le_hi
  have hupper := (interpolate_bounds sorted h' hhi').1
  rcases Nat.lt_or_ge lo lo' with hbefore | hsame
  · -- the next whole number is between the positions
    have hhi : hi ≤ lo' := by
      rcases h.cases with ⟨rfl, -⟩ | ⟨rfl, -⟩
      · exact hbefore.le
      · exact hbefore
    have hlower := (interpolate_bounds sorted h (hhi.trans_lt (hle'.trans_lt hhi'))).2
    exact hlower.trans ((getD_mono sorted hhi (hle'.trans_lt hhi')).trans hupper)
  · obtain rfl : lo = lo' := by omega
    rcases h.cases with ⟨hwhole, -⟩ | ⟨rfl, hinside⟩
    · have hexact : interpolate v lo hi p = v.getD lo 0 := if_pos hwhole.symm
      rw [hexact]
      exact hupper
    · obtain rfl : hi' = lo + 1 := by
        rcases h'.cases with ⟨-, hwhole⟩ | ⟨hnext, -⟩
        · linarith
        · exact hnext
      have hentries := getD_mono sorted (Nat.le_succ lo) hhi'
      have hmoved := mul_le_mul_of_nonneg_right hentries (sub_nonneg.mpr hpp')
      have hne : lo ≠ lo + 1 := by omega
      rw [interpolate, interpolate, if_neg hne, if_neg hne]
      linarith

theorem Brackets.unique {p : K} {lo hi lo' hi' : ℕ} (h : Brackets p lo hi)
    (h' : Brackets p lo' hi') : lo = lo' ∧ hi = hi' := by
  have hlo : (lo : K) < lo' + 1 := h.lo_le.trans_lt h'.lt_lo
  have hlo' : (lo' : K) < lo + 1 := h'.lo_le.trans_lt h.lt_lo
  have hhi : (hi : K) < hi' + 1 := h.hi_lt.trans_le (add_le_add h'.le_hi le_rfl)
  have hhi' : (hi' : K) < hi + 1 := h'.hi_lt.trans_le (add_le_add h.le_hi le_rfl)
  norm_cast at hlo hlo' hhi hhi'
  omega

section Scaled
omit [LinearOrder K] [IsStrictOrderedRing K]
variable (c : K)

theorem sum_scaled (ys : List K) : (ys.map fun y => c * y).sum = c * ys.sum := by
  rw [List.sum_map_mul_left, List.map_id']

theorem squares_scaled (ys : List K) :
    squares (ys.map fun y => c * y) = c * c * squares ys := by
  rw [squares, squares, List.map_map, ← List.sum_map_mul_left]
  congr 1
  apply List.map_congr_left
  intro y _
  exact mul_mul_mul_comm c y c y

theorem neighbors_scaled (ys : List K) :
    neighbors (ys.map fun y => c * y) = c * c * neighbors ys := by
  rw [neighbors, neighbors, ← List.map_tail, List.zip_map, List.map_map, ← List.sum_map_mul_left]
  congr 1
  apply List.map_congr_left
  intro w _
  exact mul_mul_mul_comm c w.1 c w.2

theorem interpolate_scaled (v : List K) (lo hi : ℕ) (p : K) :
    interpolate (v.map fun y => c * y) lo hi p = c * interpolate v lo hi p := by
  have hentry : ∀ i, (v.map fun y => c * y).getD i 0 = c * v.getD i 0 := by
    intro i
    have hmap := List.getD_map (n := i) v 0 fun y => c * y
    rwa [mul_zero] at hmap
  rw [interpolate, interpolate, hentry, hentry]
  split_ifs
  · rfl
  · ring

end Scaled
end Aegis.Sample

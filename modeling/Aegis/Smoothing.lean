import Mathlib.Algebra.Order.Field.Basic
import Mathlib.Data.List.Induction
import Mathlib.Tactic.Linarith
import Mathlib.Tactic.Ring

/-!
# Exponential smoothing

An average that starts at the first value and then moves toward each new value
by a fixed share of the distance. For a share in the unit interval it never
leaves the range of the values fed.
-/

namespace Aegis.Smoothing
variable {K : Type} [Field K]

def blend (share x average : K) : K := share * x + (1 - share) * average

/-- The average with a new value; there is none before the first. -/
def feed (share : K) : Option K → K → Option K
  | none, x => some x
  | some average, x => some (blend share x average)

def average (share : K) (xs : List K) : Option K := xs.foldl (feed share) none

@[simp] theorem average_nil (share : K) : average share [] = none := rfl

theorem average_snoc (share : K) (xs : List K) (x : K) :
    average share (xs ++ [x]) = feed share (average share xs) x := by
  rw [average, List.foldl_append]
  rfl

variable [LinearOrder K] [IsStrictOrderedRing K]

theorem blend_le {share x average bound : K} (hlo : 0 ≤ share) (hhi : share ≤ 1)
    (hx : x ≤ bound) (haverage : average ≤ bound) : blend share x average ≤ bound := by
  have hnew : share * x ≤ share * bound := mul_le_mul_of_nonneg_left hx hlo
  have hold : (1 - share) * average ≤ (1 - share) * bound :=
    mul_le_mul_of_nonneg_left haverage (sub_nonneg.mpr hhi)
  calc share * x + (1 - share) * average
      ≤ share * bound + (1 - share) * bound := add_le_add hnew hold
    _ = bound := by ring

theorem le_blend {share x average bound : K} (hlo : 0 ≤ share) (hhi : share ≤ 1)
    (hx : bound ≤ x) (haverage : bound ≤ average) : bound ≤ blend share x average := by
  have hnew : share * bound ≤ share * x := mul_le_mul_of_nonneg_left hx hlo
  have hold : (1 - share) * bound ≤ (1 - share) * average :=
    mul_le_mul_of_nonneg_left haverage (sub_nonneg.mpr hhi)
  calc bound = share * bound + (1 - share) * bound := by ring
    _ ≤ share * x + (1 - share) * average := add_le_add hnew hold

theorem average_between {share : K} (hlo : 0 ≤ share) (hhi : share ≤ 1) {xs : List K} {w : K}
    (h : average share xs = some w) : (∃ x ∈ xs, x ≤ w) ∧ ∃ x ∈ xs, w ≤ x := by
  induction xs using List.reverseRecOn generalizing w with
  | nil => cases h
  | append_singleton xs x ih =>
      have hlast : x ∈ xs ++ [x] := List.mem_append_right _ (List.mem_singleton_self x)
      rw [average_snoc] at h
      cases hbefore : average share xs with
      | none =>
          rw [hbefore] at h
          cases h
          exact ⟨⟨x, hlast, le_rfl⟩, ⟨x, hlast, le_rfl⟩⟩
      | some v =>
          rw [hbefore] at h
          cases h
          obtain ⟨⟨lo, hmem, hlov⟩, ⟨hi, hmem', hvhi⟩⟩ := ih hbefore
          constructor
          · rcases le_total lo x with hlox | hxlo
            · exact ⟨lo, List.mem_append_left _ hmem, le_blend hlo hhi hlox hlov⟩
            · exact ⟨x, hlast, le_blend hlo hhi le_rfl (hxlo.trans hlov)⟩
          · rcases le_total x hi with hxhi | hhix
            · exact ⟨hi, List.mem_append_left _ hmem', blend_le hlo hhi hxhi hvhi⟩
            · exact ⟨x, hlast, blend_le hlo hhi le_rfl (hvhi.trans hhix)⟩

end Aegis.Smoothing

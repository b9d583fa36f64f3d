import Aegis.Magnitudes
import Mathlib.Algebra.Order.BigOperators.Group.List
import Mathlib.Data.Rat.Cast.Order

/-!
# Doubles without rounding

Arithmetic that is exact on the numbers of an ordered field. Where there is
nothing but these numbers and missing values, a missing operand makes a missing
result and compares to nothing, and the exponential is positive and increasing.
-/

namespace Aegis

/-- The numbers of a field among the doubles, computed with exactly. -/
structure ExactArithmetic (F K : Type) [F64 F] [Field K] [LinearOrder K]
    [IsStrictOrderedRing K] where
  num : K → F
  finite_num : ∀ a, JsonFloat.finite (num a) = true
  lit : ∀ q : ℚ, F64.lit q = num q
  neg : ∀ a, -num a = num (-a)
  add : ∀ a b, num a + num b = num (a + b)
  sub : ∀ a b, num a - num b = num (a - b)
  mul : ∀ a b, num a * num b = num (a * b)
  div : ∀ a {b}, b ≠ 0 → num a / num b = num (a / b)
  lt : ∀ a b, F64.lt (num a) (num b) = true ↔ a < b
  le : ∀ a b, F64.le (num a) (num b) = true ↔ a ≤ b

namespace ExactArithmetic
variable {F K : Type} [F64 F] [Field K] [LinearOrder K] [IsStrictOrderedRing K]
variable (E : ExactArithmetic F K)
include E

theorem num_injective : Function.Injective E.num := by
  intro a b h
  have hle := (E.le a a).mpr le_rfl
  have hab : a ≤ b := (E.le a b).mp (h ▸ hle)
  have hba : b ≤ a := (E.le b a).mp (h ▸ hle)
  exact le_antisymm hab hba

theorem clamp_num (a : K) {lo hi : ℚ} (h : lo ≤ hi) :
    F64.clamp (E.num a) (F64.lit lo) (F64.lit hi) = E.num (max lo (min a hi)) := by
  have hcast : (lo : K) ≤ hi := Rat.cast_le.mpr h
  simp only [F64.clamp, E.lit, E.lt]
  split_ifs with hlo hhi
  · rw [max_eq_left (min_le_of_left_le hlo.le)]
  · rw [min_eq_right hhi.le, max_eq_right hcast]
  · rw [min_eq_left (not_lt.mp hhi), max_eq_right (not_lt.mp hlo)]

theorem abs_num (a : K) : F64.abs (E.num a) = E.num |a| := by
  simp only [F64.abs, E.lit, E.lt, Rat.cast_zero, E.neg]
  split_ifs with h
  · rw [abs_of_neg h]
  · rw [abs_of_nonneg (not_lt.mp h)]

theorem isNaN_num (a : K) : F64.isNaN (E.num a) = false := by
  rw [F64.isNaN, (E.le a a).mpr le_rfl]
  rfl

theorem max_num (a b : K) : F64.max (E.num a) (E.num b) = E.num (max a b) := by
  simp only [F64.max, E.isNaN_num, Bool.false_eq_true, if_false, E.lt]
  split_ifs with h
  · rw [max_eq_right h.le]
  · rw [max_eq_left (not_lt.mp h)]

theorem min_num (a b : K) : F64.min (E.num a) (E.num b) = E.num (min a b) := by
  simp only [F64.min, E.isNaN_num, Bool.false_eq_true, if_false, E.lt]
  split_ifs with h
  · rw [min_eq_right h.le]
  · rw [min_eq_left (not_lt.mp h)]

theorem sum_num (xs : List K) : F64.sum (xs.map E.num) = E.num xs.sum := by
  have hfold : ∀ (xs : List K) (acc : K),
      (xs.map E.num).foldl (· + ·) (E.num acc) = E.num (acc + xs.sum) := by
    intro xs
    induction xs with
    | nil => simp
    | cons x xs ih =>
        intro acc
        rw [List.map_cons, List.foldl_cons, E.add, ih, List.sum_cons, add_assoc]
  rw [F64.sum, E.lit, hfold, Rat.cast_zero, zero_add]

end ExactArithmetic

/-- The rationals are computed with exactly. -/
def ratArithmetic : ExactArithmetic ℚ ℚ where
  num := id
  finite_num _ := rfl
  lit _ := rfl
  neg _ := rfl
  add _ _ := rfl
  sub _ _ := rfl
  mul _ _ := rfl
  div _ _ _ := rfl
  lt _ _ := decide_eq_true_iff
  le _ _ := decide_eq_true_iff

/-- Counts are converted exactly too. -/
structure ExactCounts (F K : Type) [F64 F] [Field K] [LinearOrder K] [IsStrictOrderedRing K]
    extends ExactArithmetic F K where
  ofInt : ∀ n : ℤ, JsonFloat.ofInt n = num n

theorem ExactCounts.ofNat {F K : Type} [F64 F] [Field K] [LinearOrder K] [IsStrictOrderedRing K]
    (E : ExactCounts F K) (n : ℕ) : F64.ofNat n = E.num n := by
  rw [F64.ofNat, E.ofInt, Int.cast_natCast]

def ratCounts : ExactCounts ℚ ℚ where
  toExactArithmetic := ratArithmetic
  ofInt _ := rfl

/-- Nothing but numbers and missing values. -/
structure ExactModel (F K : Type) [F64 F] [Field K] [LinearOrder K] [IsStrictOrderedRing K]
    extends ExactArithmetic F K where
  number : ∀ {x : F}, JsonFloat.finite x = true → ∃ a, x = num a
  nan_missing : JsonFloat.finite (F64.nan : F) = false
  neg_missing : ∀ {x : F}, JsonFloat.finite x = false → JsonFloat.finite (-x) = false
  exp_missing : ∀ {x : F}, JsonFloat.finite x = false → JsonFloat.finite (F64.exp x) = false
  op_missing : ∀ {x y : F}, JsonFloat.finite x = false ∨ JsonFloat.finite y = false →
    JsonFloat.finite (x + y) = false ∧ JsonFloat.finite (x - y) = false ∧
      JsonFloat.finite (x * y) = false ∧ JsonFloat.finite (x / y) = false
  compare_missing : ∀ {x y : F}, JsonFloat.finite x = false ∨ JsonFloat.finite y = false →
    F64.lt x y = false ∧ F64.le x y = false
  exp : K → K
  exp_num : ∀ a, F64.exp (num a) = num (exp a)
  exp_pos : ∀ a, 0 < exp a
  exp_strictMono : StrictMono exp

namespace ExactModel
variable {F K : Type} [F64 F] [Field K] [LinearOrder K] [IsStrictOrderedRing K]
variable (E : ExactModel F K)

/-- Both missing, or numbers in order. -/
def AtMost (x y : F) : Prop :=
  (JsonFloat.finite x = false ∧ JsonFloat.finite y = false) ∨
    ∃ a b, x = E.num a ∧ y = E.num b ∧ a ≤ b

include E

theorem numbers_of_le {x y : F} (h : F64.le x y = true) :
    ∃ a b, x = E.num a ∧ y = E.num b ∧ a ≤ b := by
  cases hx : JsonFloat.finite x with
  | false => exact absurd h (by simp [(E.compare_missing (Or.inl hx)).2])
  | true =>
      cases hy : JsonFloat.finite y with
      | false => exact absurd h (by simp [(E.compare_missing (Or.inr hy)).2])
      | true =>
          obtain ⟨a, rfl⟩ := E.number hx
          obtain ⟨b, rfl⟩ := E.number hy
          exact ⟨a, b, rfl, rfl, (E.le a b).mp h⟩

theorem numbers_of_lt {x y : F} (h : F64.lt x y = true) :
    ∃ a b, x = E.num a ∧ y = E.num b ∧ a < b := by
  cases hx : JsonFloat.finite x with
  | false => exact absurd h (by simp [(E.compare_missing (Or.inl hx)).1])
  | true =>
      cases hy : JsonFloat.finite y with
      | false => exact absurd h (by simp [(E.compare_missing (Or.inr hy)).1])
      | true =>
          obtain ⟨a, rfl⟩ := E.number hx
          obtain ⟨b, rfl⟩ := E.number hy
          exact ⟨a, b, rfl, rfl, (E.lt a b).mp h⟩

theorem clamp_missing {x : F} (h : JsonFloat.finite x = false) (lo hi : F) :
    JsonFloat.finite (F64.clamp x lo hi) = false := by
  rw [F64.clamp, (E.compare_missing (Or.inl h)).1, (E.compare_missing (Or.inr h)).1]
  simpa using h

variable {E}

theorem AtMost.refl (x : F) : E.AtMost x x := by
  cases hx : JsonFloat.finite x with
  | false => exact Or.inl ⟨hx, hx⟩
  | true =>
      obtain ⟨a, rfl⟩ := E.number hx
      exact Or.inr ⟨a, a, rfl, rfl, le_rfl⟩

theorem AtMost.finite_eq {x y : F} (h : E.AtMost x y) :
    JsonFloat.finite x = JsonFloat.finite y := by
  rcases h with ⟨hx, hy⟩ | ⟨a, b, rfl, rfl, -⟩
  · rw [hx, hy]
  · rw [E.finite_num, E.finite_num]

/-- Next to a number there is a number in order. -/
theorem AtMost.exists_above {a : K} {y : F} (h : E.AtMost (E.num a) y) :
    ∃ b, y = E.num b ∧ a ≤ b := by
  rcases h with ⟨hmissing, -⟩ | ⟨a', b, ha, rfl, hab⟩
  · exact absurd (E.finite_num a) (by simp [hmissing])
  · rw [E.num_injective ha]
    exact ⟨b, rfl, hab⟩

theorem AtMost.exists_below {x : F} {b : K} (h : E.AtMost x (E.num b)) :
    ∃ a, x = E.num a ∧ a ≤ b := by
  rcases h with ⟨-, hmissing⟩ | ⟨a, b', rfl, hb, hab⟩
  · exact absurd (E.finite_num b) (by simp [hmissing])
  · rw [E.num_injective hb]
    exact ⟨a, rfl, hab⟩

theorem AtMost.le_of_le {x y z : F} (h : E.AtMost x y) (hx : F64.le z x = true) :
    F64.le z y = true := by
  obtain ⟨c, a, rfl, rfl, hca⟩ := E.numbers_of_le hx
  obtain ⟨b, rfl, hab⟩ := h.exists_above
  exact (E.le c b).mpr (hca.trans hab)

theorem AtMost.lt_of_lt {x y z : F} (h : E.AtMost x y) (hx : F64.lt z x = true) :
    F64.lt z y = true := by
  obtain ⟨c, a, rfl, rfl, hca⟩ := E.numbers_of_lt hx
  obtain ⟨b, rfl, hab⟩ := h.exists_above
  exact (E.lt c b).mpr (hca.trans_le hab)

theorem AtMost.le_of_ge {x y z : F} (h : E.AtMost x y) (hy : F64.le y z = true) :
    F64.le x z = true := by
  obtain ⟨b, c, rfl, rfl, hbc⟩ := E.numbers_of_le hy
  obtain ⟨a, rfl, hab⟩ := h.exists_below
  exact (E.le a c).mpr (hab.trans hbc)

theorem AtMost.lt_of_gt {x y z : F} (h : E.AtMost x y) (hy : F64.lt y z = true) :
    F64.lt x z = true := by
  obtain ⟨b, c, rfl, rfl, hbc⟩ := E.numbers_of_lt hy
  obtain ⟨a, rfl, hab⟩ := h.exists_below
  exact (E.lt a c).mpr (hab.trans_lt hbc)

end ExactModel

/-- Positive and increasing, with rational values, and the exponential in that. -/
def growth (x : ℚ) : ℚ := if 0 ≤ x then 1 + x else 1 / (1 - x)

theorem growth_pos (x : ℚ) : 0 < growth x := by
  unfold growth
  split_ifs with h
  · linarith
  · exact one_div_pos.mpr (by linarith)

theorem growth_strictMono : StrictMono growth := by
  intro x y hxy
  unfold growth
  split_ifs with hx hy hy
  · linarith
  · linarith
  · have hlow : 1 / (1 - x) < 1 := (div_lt_one (by linarith)).mpr (by linarith)
    linarith
  · exact one_div_lt_one_div_of_lt (by linarith) (by linarith)

theorem none_div (y : Option ℚ) : (none / y : Option ℚ) = none := by
  show (if y = some 0 then none else liftMissing (· / ·) none y) = none
  split_ifs
  · rfl
  · rfl

def Exact : Type := Option ℚ

instance : JsonFloat Exact := inferInstanceAs (JsonFloat (Option ℚ))

instance : F64 Exact :=
  { (inferInstance : F64 (Option ℚ)) with exp := fun x => Option.map growth x }

def Exact.ofRat (a : ℚ) : Exact := some a

theorem Exact.eq_none {x : Exact} (h : JsonFloat.finite x = false) : x = none :=
  Option.not_isSome_iff_eq_none.mp (Bool.not_eq_true _ ▸ h)

def exactModel : ExactModel Exact ℚ where
  num := Exact.ofRat
  finite_num _ := rfl
  lit _ := rfl
  neg _ := rfl
  add _ _ := rfl
  sub _ _ := rfl
  mul _ _ := rfl
  div a _ hb := div_some a hb
  lt a b := by
    have h : F64.lt (Exact.ofRat a) (Exact.ofRat b) = decide (a < b) := lt_some a b
    rw [h, decide_eq_true_iff]
  le a b := by
    have h : F64.le (Exact.ofRat a) (Exact.ofRat b) = decide (a ≤ b) := le_some a b
    rw [h, decide_eq_true_iff]
  number := by
    intro x hx
    cases x with
    | none => cases hx
    | some a => exact ⟨a, rfl⟩
  nan_missing := rfl
  neg_missing := by
    intro x hx
    obtain rfl := Exact.eq_none hx
    rfl
  exp_missing := by
    intro x hx
    obtain rfl := Exact.eq_none hx
    rfl
  op_missing := by
    intro x y h
    rcases h with hx | hy
    · obtain rfl := Exact.eq_none hx
      exact ⟨rfl, rfl, rfl, congrArg Option.isSome (none_div y)⟩
    · obtain rfl := Exact.eq_none hy
      cases x with
      | none => exact ⟨rfl, rfl, rfl, rfl⟩
      | some a => exact ⟨rfl, rfl, rfl, rfl⟩
  compare_missing := by
    intro x y h
    rcases h with hx | hy
    · obtain rfl := Exact.eq_none hx
      exact ⟨rfl, rfl⟩
    · obtain rfl := Exact.eq_none hy
      cases x with
      | none => exact ⟨rfl, rfl⟩
      | some a => exact ⟨rfl, rfl⟩
  exp := growth
  exp_num _ := rfl
  exp_pos := growth_pos
  exp_strictMono := growth_strictMono

end Aegis

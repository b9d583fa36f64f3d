import Aegis.FeatureRanges
import Mathlib.Analysis.SpecialFunctions.Artanh

/-!
# Real arithmetic

The real numbers and a missing value, with the real square root, exponential,
logarithm and hyperbolic tangent: an arithmetic without rounding.
-/

namespace Aegis

def RealOrMissing : Type := Option ℝ

namespace RealOrMissing
open Classical

def ofReal (a : ℝ) : RealOrMissing := some a

def lift (f : ℝ → ℝ → ℝ) (x y : RealOrMissing) : RealOrMissing :=
  Option.bind x fun a => Option.map (f a) y

def missing : RealOrMissing := none

noncomputable def quotient (x y : RealOrMissing) : RealOrMissing :=
  if y = ofReal 0 then missing else lift (· / ·) x y

/-- A comparison, which fails next to a missing value. -/
noncomputable def compare (r : ℝ → ℝ → Prop) (x y : RealOrMissing) : Bool :=
  decide (∃ a b, x = ofReal a ∧ y = ofReal b ∧ r a b)

instance : JsonFloat RealOrMissing where
  finite x := Option.isSome x
  reparse := id
  ofInt z := ofReal z
  textLen _ := 0

noncomputable instance : F64 RealOrMissing where
  add := lift (· + ·)
  sub := lift (· - ·)
  mul := lift (· * ·)
  div := quotient
  neg x := Option.map (fun a => -a) x
  lt := compare (· < ·)
  le := compare (· ≤ ·)
  lit q := ofReal q
  sqrt x := Option.map Real.sqrt x
  exp x := Option.map Real.exp x
  ln x := Option.map Real.log x
  tanh x := Option.map Real.tanh x
  floor x := (Option.map Nat.floor x).getD 0
  ceil x := (Option.map Nat.ceil x).getD 0
  nan := missing
  fixed1 _ := ""

theorem ofReal_injective : Function.Injective ofReal := fun _ _ h => Option.some.inj h

theorem eq_none {x : RealOrMissing} (h : JsonFloat.finite x = false) : x = none :=
  Option.not_isSome_iff_eq_none.mp (Bool.not_eq_true _ ▸ h)

theorem compare_ofReal (r : ℝ → ℝ → Prop) (a b : ℝ) :
    compare r (ofReal a) (ofReal b) = true ↔ r a b := by
  rw [compare, decide_eq_true_iff]
  constructor
  · rintro ⟨a', b', ha, hb, h⟩
    rwa [ofReal_injective ha, ofReal_injective hb]
  · exact fun h => ⟨a, b, rfl, rfl, h⟩

theorem compare_missing (r : ℝ → ℝ → Prop) {x y : RealOrMissing}
    (h : JsonFloat.finite x = false ∨ JsonFloat.finite y = false) : compare r x y = false := by
  rw [compare, decide_eq_false_iff_not]
  rintro ⟨a, b, rfl, rfl, -⟩
  rcases h with h | h
  · cases h
  · cases h

theorem lift_missing (f : ℝ → ℝ → ℝ) {x y : RealOrMissing}
    (h : JsonFloat.finite x = false ∨ JsonFloat.finite y = false) :
    JsonFloat.finite (lift f x y) = false := by
  rcases h with h | h
  · rw [eq_none h]
    rfl
  · rw [eq_none h]
    cases x <;> rfl

theorem quotient_missing {x y : RealOrMissing}
    (h : JsonFloat.finite x = false ∨ JsonFloat.finite y = false) :
    JsonFloat.finite (quotient x y) = false := by
  unfold quotient
  split_ifs
  · rfl
  · exact lift_missing _ h

theorem tanh_strictMono : StrictMono Real.tanh := by
  intro x y hxy
  by_contra hle
  have hx := Real.tanh_bijOn.mapsTo (Set.mem_univ x)
  have hy := Real.tanh_bijOn.mapsTo (Set.mem_univ y)
  have hback := Real.artanh_le_artanh hy.1 hx.2 (not_lt.mp hle)
  rw [Real.artanh_tanh, Real.artanh_tanh] at hback
  exact absurd hxy (not_lt.mpr hback)

theorem brackets {a : ℝ} (h : 0 ≤ a) : Sample.Brackets a (Nat.floor a) (Nat.ceil a) where
  lo_le := Nat.floor_le h
  lt_lo := Nat.lt_floor_add_one a
  le_hi := Nat.le_ceil a
  hi_lt := Nat.ceil_lt_add_one h

noncomputable def model : ExactModel RealOrMissing ℝ where
  num := ofReal
  finite_num _ := rfl
  lit _ := rfl
  neg _ := rfl
  add _ _ := rfl
  sub _ _ := rfl
  mul _ _ := rfl
  div _ _ hb := if_neg fun h => hb (ofReal_injective h)
  lt := compare_ofReal _
  le := compare_ofReal _
  number := by
    intro x hx
    cases x with
    | none => cases hx
    | some a => exact ⟨a, rfl⟩
  nan_missing := rfl
  neg_missing := by
    intro x hx
    rw [eq_none hx]
    rfl
  exp_missing := by
    intro x hx
    rw [eq_none hx]
    rfl
  op_missing := by
    intro x y h
    exact ⟨lift_missing _ h, lift_missing _ h, lift_missing _ h, quotient_missing h⟩
  compare_missing h := ⟨compare_missing _ h, compare_missing _ h⟩
  exp := Real.exp
  exp_num _ := rfl
  exp_pos := Real.exp_pos
  exp_strictMono := Real.exp_strictMono

/-- The functions of the statistics are the real ones. -/
noncomputable def statistics : ExactStatistics RealOrMissing ℝ where
  toExactModel := model
  ofInt _ := rfl
  brackets h := brackets h
  sqrt := Real.sqrt
  sqrt_num _ := rfl
  sqrt_nonneg _ := Real.sqrt_nonneg _
  tanh := Real.tanh
  tanh_num _ := rfl
  tanh_strictMono := tanh_strictMono
  tanh_zero := Real.tanh_zero
  tanh_bounds a := Real.tanh_bijOn.mapsTo (Set.mem_univ a)

end RealOrMissing
end Aegis

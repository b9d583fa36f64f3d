import Aegis.Scalar
import Mathlib.Algebra.Order.Field.Basic
import Mathlib.Tactic.Linarith
import Mathlib.Tactic.Positivity
import Mathlib.Tactic.GCongr

/-!
# Magnitudes of doubles

Bounds on doubles by powers of two, which no rounding takes a result across. A
number with such a bound is not the missing value, and as long as the exponents
stay in the range of doubles a sum, a difference, a product and a quotient by a
positive number have bounds again or are numbers at least. Exact arithmetic with
a missing value has these laws, and runs evaluate in it.
-/

namespace Aegis

/-- What is known of double arithmetic whatever it rounds to. -/
structure Magnitudes (F : Type) [F64 F] where
  within : ℕ → F → Prop
  nan : F64.isNaN (F64.nan : F) = true
  nan_infinite : JsonFloat.finite (F64.nan : F) = false
  number : ∀ {k x}, within k x → F64.isNaN x = false
  mono : ∀ {j k x}, j ≤ k → within j x → within k x
  zero : within 0 (F64.lit 0)
  between : ∀ {k x} {hi : ℚ}, hi ≤ 2 ^ k → F64.lt (F64.lit 0) x = true →
    F64.lt x (F64.lit hi) = true → within k x
  add : ∀ {k x y}, k < 1023 → within k x → within k y → within (k + 1) (x + y)
  sub : ∀ {k x y}, k < 1023 → within k x → within k y → within (k + 1) (x - y)
  mul : ∀ {j k x y}, j + k ≤ 1023 → within j x → within k y → within (j + k) (x * y)
  divNat : ∀ {k x n}, 0 < n → within k x → within k (x / F64.ofNat n)
  positive : ∀ {k x}, within k x → F64.le x (F64.lit 0) = false → F64.lt (F64.lit 0) x = true
  div : ∀ {j k x y}, within j x → within k y → F64.lt (F64.lit 0) y = true →
    F64.isNaN (x / y) = false

namespace Magnitudes
variable {F : Type} [F64 F] (m : Magnitudes F)
include m

theorem foldl {k : ℕ} {xs : List F} (h : ∀ x ∈ xs, m.within k x) {n : ℕ}
    (hn : k + n + xs.length ≤ 1023) {acc : F} (hacc : m.within (k + n) acc) :
    m.within (k + n + xs.length) (xs.foldl (· + ·) acc) := by
  induction xs generalizing acc n with
  | nil => exact hacc
  | cons x xs ih =>
      rw [List.length_cons] at hn ⊢
      have hx : m.within (k + n) x := m.mono (by omega) (h x List.mem_cons_self)
      have hroom : k + n < 1023 := by omega
      have hsum : m.within (k + (n + 1)) (acc + x) := m.add hroom hacc hx
      have hrest := ih (fun y hy => h y (List.mem_cons_of_mem _ hy)) (by omega) hsum
      rw [List.foldl_cons]
      exact m.mono (by omega) hrest

/-- Each summand doubles the bound at most. -/
theorem sum {k n : ℕ} {xs : List F} (h : ∀ x ∈ xs, m.within k x) (hlen : xs.length ≤ n)
    (hn : k + n ≤ 1023) : m.within (k + n) (F64.sum xs) := by
  have hzero : m.within (k + 0) (F64.lit 0) := m.mono (Nat.zero_le _) m.zero
  exact m.mono (by omega) (m.foldl h (by omega) hzero)

end Magnitudes

def liftMissing (f : ℚ → ℚ → ℚ) (x y : Option ℚ) : Option ℚ := x.bind fun a => y.map (f a)

instance : JsonFloat (Option ℚ) where
  finite x := x.isSome
  reparse := id
  ofInt z := some z
  textLen x := (x.map JsonFloat.textLen).getD 4

/-- A division by zero gives the missing value, and a missing value compares to nothing. -/
instance : F64 (Option ℚ) where
  add := liftMissing (· + ·)
  sub := liftMissing (· - ·)
  mul := liftMissing (· * ·)
  div x y := if y = some 0 then none else liftMissing (· / ·) x y
  neg x := x.map fun a => -a
  lt x y := (liftMissing (fun a b => if a < b then 1 else 0) x y) == some 1
  le x y := (liftMissing (fun a b => if a ≤ b then 1 else 0) x y) == some 1
  lit x := some x
  sqrt x := x.map F64.sqrt
  exp x := x.map F64.exp
  ln x := x.map F64.ln
  tanh x := x.map F64.tanh
  floor x := (x.map F64.floor).getD 0
  ceil x := (x.map F64.ceil).getD 0
  nan := none
  fixed1 x := (x.map ratFixed1).getD "NaN"

theorem lt_some (a b : ℚ) : F64.lt (some a) (some b) = decide (a < b) := by
  show (some (if a < b then (1 : ℚ) else 0) == some 1) = _
  split_ifs with h <;> simp [h]

theorem le_some (a b : ℚ) : F64.le (some a) (some b) = decide (a ≤ b) := by
  show (some (if a ≤ b then (1 : ℚ) else 0) == some 1) = _
  split_ifs with h <;> simp [h]

theorem div_some (a : ℚ) {b : ℚ} (hb : b ≠ 0) : (some a / some b : Option ℚ) = some (a / b) := by
  show (if some b = some 0 then none else liftMissing (· / ·) (some a) (some b)) = _
  rw [if_neg (by simpa using hb)]
  rfl

def exactMagnitudes : Magnitudes (Option ℚ) where
  within k x := ∃ a : ℚ, x = some a ∧ |a| ≤ 2 ^ k
  nan := rfl
  nan_infinite := rfl
  number := by
    rintro k x ⟨a, rfl, -⟩
    rw [F64.isNaN, le_some, decide_eq_true le_rfl]
    rfl
  mono := by
    rintro j k x hjk ⟨a, rfl, ha⟩
    refine ⟨a, rfl, ha.trans ?_⟩
    gcongr
    exact one_le_two
  zero := ⟨0, rfl, by norm_num⟩
  between := by
    rintro k x hi hhi hlo hlt
    cases x with
    | none => cases hlo
    | some a =>
        have hpos : 0 < a := of_decide_eq_true ((lt_some 0 a).symm.trans hlo)
        have hbelow : a < hi := of_decide_eq_true ((lt_some a hi).symm.trans hlt)
        refine ⟨a, rfl, ?_⟩
        rw [abs_of_pos hpos]
        exact (hbelow.le).trans hhi
  add := by
    rintro k x y - ⟨a, rfl, ha⟩ ⟨b, rfl, hb⟩
    refine ⟨a + b, rfl, (abs_add_le a b).trans ?_⟩
    rw [pow_succ]
    linarith
  sub := by
    rintro k x y - ⟨a, rfl, ha⟩ ⟨b, rfl, hb⟩
    refine ⟨a - b, rfl, (abs_sub a b).trans ?_⟩
    rw [pow_succ]
    linarith
  mul := by
    rintro j k x y - ⟨a, rfl, ha⟩ ⟨b, rfl, hb⟩
    refine ⟨a * b, rfl, ?_⟩
    rw [abs_mul, pow_add]
    gcongr
  divNat := by
    rintro k x n hn ⟨a, rfl, ha⟩
    have hone : (1 : ℚ) ≤ ((n : ℤ) : ℚ) := by exact_mod_cast hn
    have hne : ((n : ℤ) : ℚ) ≠ 0 := by linarith
    refine ⟨a / ((n : ℤ) : ℚ), div_some a hne, ?_⟩
    rw [abs_div, abs_of_pos (by linarith : (0 : ℚ) < ((n : ℤ) : ℚ))]
    exact (div_le_self (abs_nonneg a) hone).trans ha
  positive := by
    rintro k x ⟨a, rfl, -⟩ hle
    have hnot : ¬a ≤ 0 := of_decide_eq_false ((le_some a 0).symm.trans hle)
    exact (lt_some 0 a).trans (decide_eq_true (not_le.mp hnot))
  div := by
    rintro j k x y ⟨a, rfl, -⟩ ⟨b, rfl, -⟩ hpos
    have hb : 0 < b := of_decide_eq_true ((lt_some 0 b).symm.trans hpos)
    rw [div_some a hb.ne', F64.isNaN, le_some, decide_eq_true le_rfl]
    rfl

end Aegis

import Aegis.Json

/-!
# Double arithmetic

The operations that scoring and detection perform on doubles. No property of
them is assumed: what is proved about the processors here holds under any
rounding.
-/

namespace Aegis

/-- Arithmetic, comparisons, literals, the functions of `std` that are used,
conversion to an index, the missing value and the `{:.1}` format. -/
class F64 (F : Type) extends JsonFloat F, Add F, Sub F, Mul F, Div F, Neg F where
  lt : F → F → Bool
  le : F → F → Bool
  lit : ℚ → F
  sqrt : F → F
  exp : F → F
  ln : F → F
  tanh : F → F
  floor : F → ℕ
  ceil : F → ℕ
  nan : F
  fixed1 : F → String

namespace F64
variable {F : Type} [F64 F]

def ofNat (n : ℕ) : F := JsonFloat.ofInt n

def isNaN (x : F) : Bool := !le x x

def clamp (x lo hi : F) : F := if lt x lo then lo else if lt hi x then hi else x

/-- `f64::max`, which ignores a missing value. -/
def max (x y : F) : F := if isNaN x then y else if isNaN y then x else if lt x y then y else x

def min (x y : F) : F := if isNaN x then y else if isNaN y then x else if lt y x then y else x

def abs (x : F) : F := if lt x (lit 0) then -x else x

def sum (xs : List F) : F := xs.foldl (· + ·) (lit 0)

/-- `sort_by` with `partial_cmp`, where incomparable values count as equal. -/
def sort (xs : List F) : List F := xs.mergeSort fun x y => !lt y x

end F64

/-- One decimal of a nonnegative rational. -/
def ratFixed1 (x : ℚ) : String :=
  let tenths := (x * 10 + 1 / 2).floor.toNat
  toString (tenths / 10) ++ "." ++ toString (tenths % 10)

/-- Exact arithmetic for closed runs. The transcendental functions are first
approximations and there is no missing value; the runs evaluate neither. -/
instance : F64 ℚ where
  lt x y := decide (x < y)
  le x y := decide (x ≤ y)
  lit x := x
  sqrt x := (x + 1) / 2
  exp x := 1 + x
  ln x := x - 1
  tanh x := x
  floor x := x.floor.toNat
  ceil x := x.ceil.toNat
  nan := 0
  fixed1 := ratFixed1

end Aegis

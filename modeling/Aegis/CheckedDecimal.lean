import Mathlib.Data.Nat.Notation
import Mathlib.Tactic.SplitIfs

/-!
# Decimal numbers below a limit

A numeral is read digit by digit, and reading stops at the first step whose
result reaches the limit. Since a number only grows as digits are read, exactly
the numerals of the numbers below the limit are read.
-/

namespace Aegis.CheckedDecimal

def checked (limit n : ℕ) : Option ℕ := if n < limit then some n else none

def toDigit (c : Char) : Option ℕ := if c.isDigit then some (c.toNat - '0'.toNat) else none

/-- Reads digits on from a number. -/
def accumulate (limit : ℕ) : ℕ → List Char → Option ℕ
  | n, [] => some n
  | n, c :: rest => do
      let tens ← checked limit (10 * n)
      let d ← toDigit c
      let next ← checked limit (tens + d)
      accumulate limit next rest

/-- An unsigned numeral, which may have a plus sign in front. -/
def parse (limit : ℕ) : List Char → Option ℕ
  | [] => none
  | ['+'] => none
  | ['-'] => none
  | '+' :: digits => accumulate limit 0 digits
  | digits => accumulate limit 0 digits

/-- What a numeral stands for. -/
def Denotes (text : List Char) (n : ℕ) : Prop :=
  ∃ digits, digits ≠ [] ∧ (∀ c ∈ digits, c.isDigit = true) ∧
    (text = digits ∨ text = '+' :: digits) ∧ Nat.ofDigitChars 10 digits 0 = n

theorem le_ofDigitChars (n : ℕ) (cs : List Char) : n ≤ Nat.ofDigitChars 10 cs n := by
  induction cs generalizing n with
  | nil => exact Nat.le_of_eq Nat.ofDigitChars_nil.symm
  | cons c cs ih =>
      rw [Nat.ofDigitChars_cons]
      have hrest := ih (10 * n + (c.toNat - '0'.toNat))
      omega

theorem checked_of_lt {limit n : ℕ} (h : n < limit) : checked limit n = some n := if_pos h

theorem checked_of_le {limit n : ℕ} (h : limit ≤ n) : checked limit n = none :=
  if_neg (Nat.not_lt.mpr h)

theorem accumulate_iff {limit n m : ℕ} (hn : n < limit) (cs : List Char) :
    accumulate limit n cs = some m ↔
      (∀ c ∈ cs, c.isDigit = true) ∧ Nat.ofDigitChars 10 cs n = m ∧ m < limit := by
  induction cs generalizing n with
  | nil =>
      rw [accumulate, Nat.ofDigitChars_nil, Option.some.injEq]
      constructor
      · rintro rfl
        exact ⟨List.forall_mem_nil _, rfl, hn⟩
      · exact fun h => h.2.1
  | cons c cs ih =>
      rw [accumulate, Nat.ofDigitChars_cons, List.forall_mem_cons]
      by_cases hc : c.isDigit = true
      · have hdigit : toDigit c = some (c.toNat - '0'.toNat) := if_pos hc
        by_cases hnext : 10 * n + (c.toNat - '0'.toNat) < limit
        · have htens : 10 * n < limit := by omega
          rw [checked_of_lt htens, hdigit]
          simp only [Option.bind_eq_bind, Option.bind_some, checked_of_lt hnext]
          rw [ih hnext]
          exact ⟨fun h => ⟨⟨hc, h.1⟩, h.2⟩, fun h => ⟨h.1.2, h.2⟩⟩
        · -- from here on the number stays at the limit or above
          have hgrows := le_ofDigitChars (10 * n + (c.toNat - '0'.toNat)) cs
          have hnone : (checked limit (10 * n) >>= fun tens => toDigit c >>= fun d =>
              checked limit (tens + d) >>= fun next => accumulate limit next cs) = none := by
            by_cases htens : 10 * n < limit
            · rw [checked_of_lt htens, hdigit]
              simp only [Option.bind_eq_bind, Option.bind_some,
                checked_of_le (Nat.not_lt.mp hnext), Option.bind_none]
            · rw [checked_of_le (Nat.not_lt.mp htens)]
              rfl
          rw [hnone]
          constructor
          · intro h
            cases h
          · rintro ⟨-, rfl, hlt⟩
            omega
      · have hdigit : toDigit c = none := if_neg hc
        constructor
        · intro h
          rw [hdigit] at h
          cases hchecked : checked limit (10 * n) <;> rw [hchecked] at h <;> cases h
        · exact fun h => absurd h.1.1 hc

theorem denotes_signed {digits : List Char} (hne : digits ≠ []) (n : ℕ) :
    Denotes ('+' :: digits) n ↔
      (∀ c ∈ digits, c.isDigit = true) ∧ Nat.ofDigitChars 10 digits 0 = n := by
  constructor
  · rintro ⟨digits', -, hdigits, htext, hvalue⟩
    rcases htext with rfl | htext
    · exact absurd (hdigits '+' List.mem_cons_self) (by decide)
    · rw [(List.cons.inj htext).2]
      exact ⟨hdigits, hvalue⟩
  · rintro ⟨hdigits, hvalue⟩
    exact ⟨digits, hne, hdigits, Or.inr rfl, hvalue⟩

theorem denotes_unsigned {text : List Char} (hne : text ≠ []) (hsign : ∀ ds, text ≠ '+' :: ds)
    (n : ℕ) :
    Denotes text n ↔ (∀ c ∈ text, c.isDigit = true) ∧ Nat.ofDigitChars 10 text 0 = n := by
  constructor
  · rintro ⟨digits, -, hdigits, htext, hvalue⟩
    rcases htext with rfl | htext
    · exact ⟨hdigits, hvalue⟩
    · exact absurd htext (hsign digits)
  · rintro ⟨hdigits, hvalue⟩
    exact ⟨text, hne, hdigits, Or.inl rfl, hvalue⟩

/-- Exactly the numerals of numbers below the limit are read, each as its number. -/
theorem parse_iff {limit n : ℕ} (hlimit : 0 < limit) (text : List Char) :
    parse limit text = some n ↔ Denotes text n ∧ n < limit := by
  rw [parse.eq_def]
  split
  · have hnone : ¬Denotes [] n := by
      rintro ⟨digits, hne, -, htext, -⟩
      rcases htext with rfl | htext
      · exact hne rfl
      · cases htext
    exact ⟨fun h => absurd h (Option.some_ne_none n).symm, fun h => absurd h.1 hnone⟩
  · have hnone : ¬Denotes ['+'] n := by
      rintro ⟨digits, hne, hdigits, htext, -⟩
      rcases htext with rfl | htext
      · exact absurd (hdigits '+' List.mem_cons_self) (by decide)
      · exact hne (List.cons.inj htext).2.symm
    exact ⟨fun h => absurd h (Option.some_ne_none n).symm, fun h => absurd h.1 hnone⟩
  · have hnone : ¬Denotes ['-'] n := by
      rintro ⟨digits, -, hdigits, htext, -⟩
      rcases htext with rfl | htext
      · exact absurd (hdigits '-' List.mem_cons_self) (by decide)
      · exact absurd (List.cons.inj htext).1 (by decide)
    exact ⟨fun h => absurd h (Option.some_ne_none n).symm, fun h => absurd h.1 hnone⟩
  · rename_i digits hplus
    have hne : digits ≠ [] := fun hnil => hplus (by rw [hnil])
    rw [accumulate_iff hlimit, denotes_signed hne, and_assoc]
  · rename_i text hne hplus hminus hsign
    rw [accumulate_iff hlimit, denotes_unsigned hne hsign, and_assoc]

theorem denotes_toDigits (n : ℕ) : Denotes (Nat.toDigits 10 n) n :=
  ⟨Nat.toDigits 10 n, Nat.toDigits_ne_nil,
    fun _ hc => Nat.isDigit_of_mem_toDigits (by decide) (by decide) hc, Or.inl rfl,
    Nat.ofDigitChars_ten_toDigits⟩

end Aegis.CheckedDecimal

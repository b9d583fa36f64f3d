import Mathlib.Data.List.Basic
import Mathlib.Logic.Function.Basic
import Mathlib.Tactic

/-!
# Edit distance

The distance of two sequences by the recursion on their heads. It is the length
of a shortest edit script, and what a script can do, reading it backwards,
from its other end or after another script, the distance inherits.
-/

namespace Aegis
variable {α β : Type*} [DecidableEq α] [DecidableEq β]

def substitutionCost (x y : α) : ℕ := if x = y then 0 else 1

theorem substitutionCost_comm (x y : α) : substitutionCost x y = substitutionCost y x := by
  simp [substitutionCost, eq_comm]

theorem substitutionCost_eq_zero {x y : α} : substitutionCost x y = 0 ↔ x = y := by
  simp [substitutionCost]

theorem substitutionCost_triangle (x y z : α) :
    substitutionCost x z ≤ substitutionCost x y + substitutionCost y z := by
  unfold substitutionCost
  by_cases hxy : x = y
  · simp [hxy]
  · simp only [hxy]
    split <;> simp

theorem substitutionCost_map {f : α → β} (hf : Function.Injective f) (x y : α) :
    substitutionCost (f x) (f y) = substitutionCost x y := by
  simp [substitutionCost, hf.eq_iff]

/-- Levenshtein distance. -/
def editDistance : List α → List α → ℕ
  | [], ys => ys.length
  | x :: xs, [] => (x :: xs).length
  | x :: xs, y :: ys =>
      min (editDistance xs (y :: ys) + 1)
        (min (editDistance (x :: xs) ys + 1) (editDistance xs ys + substitutionCost x y))

/-- Scripts that substitute, delete and insert from the front, with their cost. -/
inductive Edits : List α → List α → ℕ → Prop
  | nil : Edits [] [] 0
  | substitute (x y : α) {xs ys : List α} {n : ℕ} :
      Edits xs ys n → Edits (x :: xs) (y :: ys) (n + substitutionCost x y)
  | delete (x : α) {xs ys : List α} {n : ℕ} : Edits xs ys n → Edits (x :: xs) ys (n + 1)
  | insert (y : α) {xs ys : List α} {n : ℕ} : Edits xs ys n → Edits xs (y :: ys) (n + 1)

namespace Edits
variable {xs ys zs us vs : List α} {m n : ℕ}

theorem insertAll (ys : List α) : Edits [] ys ys.length := by
  induction ys with
  | nil => exact .nil
  | cons y ys ih => exact .insert y ih

theorem symm (h : Edits xs ys n) : Edits ys xs n := by
  induction h with
  | nil => exact .nil
  | substitute x y _ ih =>
      rw [substitutionCost_comm]
      exact .substitute y x ih
  | delete x _ ih => exact .insert x ih
  | insert y _ ih => exact .delete y ih

theorem deleteAll (xs : List α) : Edits xs [] xs.length := (insertAll xs).symm

theorem eq_of_zero (h : Edits xs ys 0) : xs = ys := by
  generalize hn : 0 = n at h
  induction h with
  | nil => rfl
  | substitute x y _ ih =>
      have hcost : substitutionCost x y = 0 := by omega
      rw [substitutionCost_eq_zero.mp hcost, ih (by omega)]
  | delete => omega
  | insert => omega

theorem append (h : Edits xs ys m) (hrest : Edits us vs n) :
    Edits (xs ++ us) (ys ++ vs) (m + n) := by
  induction h with
  | nil => simpa using hrest
  | substitute x y _ ih =>
      rw [Nat.add_right_comm]
      exact .substitute x y ih
  | delete x _ ih =>
      rw [Nat.add_right_comm]
      exact .delete x ih
  | insert y _ ih =>
      rw [Nat.add_right_comm]
      exact .insert y ih

/-- The same steps taken from the other end. -/
theorem reverse (h : Edits xs ys n) : Edits xs.reverse ys.reverse n := by
  induction h with
  | nil => exact .nil
  | substitute x y _ ih => simpa using ih.append (.substitute x y .nil)
  | delete x _ ih => simpa using ih.append (.delete x .nil)
  | insert y _ ih => simpa using ih.append (.insert y .nil)

/-- One script for two in a row. A character the first one writes is what the
second one starts from, so the middle sequence decides the cases. -/
theorem trans (h : Edits xs ys m) (hnext : Edits ys zs n) : ∃ k ≤ m + n, Edits xs zs k := by
  induction h generalizing zs n with
  | nil => exact ⟨n, by omega, hnext⟩
  | delete x _ ih =>
      obtain ⟨k, hk, hscript⟩ := ih hnext
      exact ⟨k + 1, by omega, .delete x hscript⟩
  | substitute x y _ ih =>
      generalize hmid : (y :: _) = mid at hnext
      induction hnext with
      | nil => cases hmid
      | substitute w z hnext =>
          cases hmid
          obtain ⟨k, hk, hscript⟩ := ih hnext
          have hcost := substitutionCost_triangle x y z
          exact ⟨k + substitutionCost x z, by omega, .substitute x z hscript⟩
      | delete w hnext =>
          cases hmid
          obtain ⟨k, hk, hscript⟩ := ih hnext
          exact ⟨k + 1, by omega, .delete x hscript⟩
      | insert z _ ihnext =>
          obtain ⟨k, hk, hscript⟩ := ihnext hmid
          exact ⟨k + 1, by omega, .insert z hscript⟩
  | insert y _ ih =>
      generalize hmid : (y :: _) = mid at hnext
      induction hnext with
      | nil => cases hmid
      | substitute w z hnext =>
          cases hmid
          obtain ⟨k, hk, hscript⟩ := ih hnext
          exact ⟨k + 1, by omega, .insert z hscript⟩
      | delete w hnext =>
          cases hmid
          obtain ⟨k, hk, hscript⟩ := ih hnext
          exact ⟨k, by omega, hscript⟩
      | insert z _ ihnext =>
          obtain ⟨k, hk, hscript⟩ := ihnext hmid
          exact ⟨k + 1, by omega, .insert z hscript⟩

end Edits

@[simp] theorem editDistance_nil_left (ys : List α) : editDistance [] ys = ys.length := by
  simp [editDistance]

@[simp] theorem editDistance_nil_right (xs : List α) : editDistance xs [] = xs.length := by
  cases xs <;> simp [editDistance]

theorem editDistance_cons (x y : α) (xs ys : List α) :
    editDistance (x :: xs) (y :: ys) =
      min (editDistance xs (y :: ys) + 1)
        (min (editDistance (x :: xs) ys + 1) (editDistance xs ys + substitutionCost x y)) := by
  rw [editDistance]

theorem editDistance_cons_left_le (x : α) (xs ys : List α) :
    editDistance (x :: xs) ys ≤ editDistance xs ys + 1 := by
  cases ys with
  | nil => simp
  | cons y ys => simp [editDistance_cons]

theorem editDistance_cons_right_le (y : α) (xs ys : List α) :
    editDistance xs (y :: ys) ≤ editDistance xs ys + 1 := by
  cases xs with
  | nil => simp
  | cons x xs => simp [editDistance_cons]

theorem Edits.editDistance_le {xs ys : List α} {n : ℕ} (h : Edits xs ys n) :
    editDistance xs ys ≤ n := by
  induction h with
  | nil => simp
  | substitute x y _ ih =>
      rw [editDistance_cons]
      omega
  | delete x _ ih => exact (editDistance_cons_left_le x _ _).trans (by omega)
  | insert y _ ih => exact (editDistance_cons_right_le y _ _).trans (by omega)

theorem edits_editDistance (xs ys : List α) : Edits xs ys (editDistance xs ys) := by
  induction xs, ys using editDistance.induct with
  | case1 ys =>
      rw [editDistance_nil_left]
      exact .insertAll ys
  | case2 x xs =>
      rw [editDistance_nil_right]
      exact .deleteAll (x :: xs)
  | case3 x xs y ys ihdelete ihinsert ihsubstitute =>
      rw [editDistance_cons]
      rcases min_choice (editDistance xs (y :: ys) + 1)
        (min (editDistance (x :: xs) ys + 1) (editDistance xs ys + substitutionCost x y))
        with hmin | hmin
      · rw [hmin]
        exact .delete x ihdelete
      · rw [hmin]
        rcases min_choice (editDistance (x :: xs) ys + 1)
          (editDistance xs ys + substitutionCost x y) with hmin | hmin
        · rw [hmin]
          exact .insert y ihinsert
        · rw [hmin]
          exact .substitute x y ihsubstitute

theorem editDistance_comm (xs ys : List α) : editDistance xs ys = editDistance ys xs :=
  le_antisymm (edits_editDistance ys xs).symm.editDistance_le
    (edits_editDistance xs ys).symm.editDistance_le

theorem editDistance_self (xs : List α) : editDistance xs xs = 0 := by
  induction xs with
  | nil => simp
  | cons x xs ih => simp [editDistance_cons, ih, substitutionCost]

theorem editDistance_eq_zero {xs ys : List α} : editDistance xs ys = 0 ↔ xs = ys := by
  constructor
  · intro hzero
    have hscript := edits_editDistance xs ys
    rw [hzero] at hscript
    exact hscript.eq_of_zero
  · rintro rfl
    exact editDistance_self xs

theorem editDistance_triangle (xs ys zs : List α) :
    editDistance xs zs ≤ editDistance xs ys + editDistance ys zs := by
  obtain ⟨k, hk, hscript⟩ := (edits_editDistance xs ys).trans (edits_editDistance ys zs)
  exact hscript.editDistance_le.trans hk

theorem editDistance_reverse (xs ys : List α) :
    editDistance xs.reverse ys.reverse = editDistance xs ys := by
  apply le_antisymm (edits_editDistance xs ys).reverse.editDistance_le
  simpa using (edits_editDistance xs.reverse ys.reverse).reverse.editDistance_le

/-- The recursion on the last characters. -/
theorem editDistance_concat (xs ys : List α) (x y : α) :
    editDistance (xs ++ [x]) (ys ++ [y]) =
      min (editDistance xs (ys ++ [y]) + 1)
        (min (editDistance (xs ++ [x]) ys + 1) (editDistance xs ys + substitutionCost x y)) := by
  rw [← editDistance_reverse, ← editDistance_reverse xs, ← editDistance_reverse _ ys,
    ← editDistance_reverse xs ys]
  simp only [List.reverse_append, List.reverse_cons, List.reverse_nil, List.nil_append,
    List.singleton_append]
  exact editDistance_cons x y xs.reverse ys.reverse

theorem editDistance_map {f : α → β} (hf : Function.Injective f) (xs ys : List α) :
    editDistance (xs.map f) (ys.map f) = editDistance xs ys := by
  induction xs, ys using editDistance.induct with
  | case1 ys => simp
  | case2 x xs => simp
  | case3 x xs y ys ihdelete ihinsert ihsubstitute =>
      simp only [List.map_cons] at ihdelete ihinsert ⊢
      rw [editDistance_cons, editDistance_cons, ihdelete, ihinsert, ihsubstitute,
        substitutionCost_map hf]

end Aegis

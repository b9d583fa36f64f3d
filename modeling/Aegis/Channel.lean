import Mathlib.Data.List.Basic
import Mathlib.Tactic.Common

/-!
# Bounded channels

A channel of a given depth holds no more items than that; a value whose items
would not fit cannot be built. It takes items at one end while it has room and
gives them at the other in the same order.
-/

namespace Aegis

structure Channel (α : Type) (depth : ℕ) where
  items : List α
  fits : items.length ≤ depth

namespace Channel
variable {α : Type} {depth : ℕ}

def empty : Channel α depth := ⟨[], Nat.zero_le depth⟩

/-- The channel with one more item, where it has room. -/
def trySend (c : Channel α depth) (a : α) : Option (Channel α depth) :=
  if h : c.items.length < depth then
    some ⟨c.items ++ [a], by rw [List.length_append, List.length_singleton]; exact h⟩
  else none

/-- The oldest item, and the channel without it. -/
def recv (c : Channel α depth) : Option (α × Channel α depth) :=
  match h : c.items with
  | [] => none
  | a :: rest => some (a, ⟨rest, by
      have hfits := c.fits
      rw [h, List.length_cons] at hfits
      exact Nat.le_of_succ_le hfits⟩)

@[simp] theorem empty_items : (empty : Channel α depth).items = [] := rfl

theorem trySend_some {c d : Channel α depth} {a : α} (h : c.trySend a = some d) :
    d.items = c.items ++ [a] ∧ c.items.length < depth := by
  unfold trySend at h
  split_ifs at h with hroom
  cases h
  exact ⟨rfl, hroom⟩

theorem trySend_none {c : Channel α depth} {a : α} :
    c.trySend a = none ↔ c.items.length = depth := by
  have hfits := c.fits
  unfold trySend
  split_ifs with hroom
  · simp only [false_iff]
    omega
  · simp only [true_iff]
    omega

theorem recv_some {c d : Channel α depth} {a : α} (h : c.recv = some (a, d)) :
    c.items = a :: d.items := by
  unfold recv at h
  split at h
  · cases h
  · rename_i hitems
    cases h
    exact hitems

theorem recv_none {c : Channel α depth} : c.recv = none ↔ c.items = [] := by
  unfold recv
  split
  · rename_i hitems
    simp only [hitems]
  · rename_i hitems
    simp only [hitems, reduceCtorEq]

theorem room_of_recv {c d : Channel α depth} {a b : α} (h : c.recv = some (a, d)) :
    ∃ d', d.trySend b = some d' := by
  have hfits := c.fits
  rw [recv_some h, List.length_cons] at hfits
  cases hsend : d.trySend b with
  | some d' => exact ⟨d', rfl⟩
  | none =>
      have hfull := trySend_none.mp hsend
      omega

end Channel
end Aegis

import Mathlib.Data.List.Basic
import Mathlib.Tactic.Linarith

/-!
# The in-memory front buffer

`ring.rs`: a bounded queue that evicts its oldest event when a new one is
offered to a full buffer. `offer` and `drain` each run under one lock, so each
is one step.
-/

namespace Aegis

/-- Buffered events, oldest first, with the lifetime count of evictions. -/
structure Ring (ε : Type) where
  inner : List ε
  capacity : ℕ
  dropped : ℕ
deriving DecidableEq, Repr

namespace Ring
variable {ε : Type}

def new (capacity : ℕ) : Ring ε := ⟨[], max capacity 1, 0⟩

/-- What `offer` pops from a buffer at capacity. -/
def evicted (r : Ring ε) : List ε := if r.capacity ≤ r.inner.length then r.inner.take 1 else []

def offer (r : Ring ε) (event : ε) : Ring ε :=
  if r.capacity ≤ r.inner.length then
    { r with inner := r.inner.drop 1 ++ [event], dropped := r.dropped + 1 }
  else { r with inner := r.inner ++ [event] }

/-- Pops up to `max` events from the front. -/
def drain (r : Ring ε) (max : ℕ) : List ε × Ring ε :=
  (r.inner.take max, { r with inner := r.inner.drop max })

theorem evicted_append_offer (r : Ring ε) (event : ε) :
    r.evicted ++ (r.offer event).inner = r.inner ++ [event] := by
  unfold evicted offer
  split_ifs
  · rw [← List.append_assoc, List.take_append_drop]
  · rfl

theorem offer_dropped (r : Ring ε) (event : ε) (h : 0 < r.capacity) :
    (r.offer event).dropped = r.dropped + r.evicted.length := by
  unfold evicted offer
  split_ifs with hfull
  · have : 1 ≤ r.inner.length := by omega
    simp [List.length_take, this]
  · rfl

@[simp] theorem offer_capacity (r : Ring ε) (event : ε) :
    (r.offer event).capacity = r.capacity := by
  unfold offer
  split_ifs <;> rfl

@[simp] theorem drain_append (r : Ring ε) (max : ℕ) :
    (r.drain max).1 ++ (r.drain max).2.inner = r.inner := List.take_append_drop max r.inner

@[simp] theorem drain_dropped (r : Ring ε) (max : ℕ) : (r.drain max).2.dropped = r.dropped := rfl

@[simp] theorem drain_capacity (r : Ring ε) (max : ℕ) : (r.drain max).2.capacity = r.capacity := rfl

end Ring
end Aegis

import Mathlib.Data.Finset.Dedup
import Mathlib.Data.Finset.Erase
import Mathlib.Data.Finset.Basic

/-!
# Bounded windows of remembered keys

A set paired with the order of insertion, which evicts its oldest key when it
is full. That the set holds exactly the queued keys is part of the structure.
-/

namespace Aegis

structure DedupWindow (κ : Type) [DecidableEq κ] where
  set : Finset κ
  order : List κ
  capacity : ℕ
  agrees : set = order.toFinset
  nodup : order.Nodup
  positive : 0 < capacity
  bounded : order.length ≤ capacity

namespace DedupWindow
variable {κ : Type} [DecidableEq κ]

def new (capacity : ℕ) : DedupWindow κ where
  set := ∅
  order := []
  capacity := max capacity 1
  agrees := rfl
  nodup := List.nodup_nil
  positive := by omega
  bounded := Nat.zero_le _

/-- What stays when room is made for one more key. -/
def evict (w : DedupWindow κ) : Finset κ × List κ :=
  if w.capacity ≤ w.order.length then
    match w.order with
    | oldest :: rest => (w.set.erase oldest, rest)
    | [] => (w.set, [])
  else (w.set, w.order)

theorem evict_agrees (w : DedupWindow κ) : w.evict.1 = w.evict.2.toFinset := by
  obtain ⟨set, order, capacity, rfl, hnodup, hpos, hle⟩ := w
  unfold evict
  split_ifs
  · cases order with
    | nil => rfl
    | cons oldest rest =>
        have hout : oldest ∉ rest.toFinset := by
          simpa using (List.nodup_cons.mp hnodup).1
        simp [Finset.erase_insert hout]
  · rfl

theorem evict_sublist (w : DedupWindow κ) : w.evict.2.Sublist w.order := by
  unfold evict
  split_ifs
  · cases w.order with
    | nil => exact List.Sublist.refl _
    | cons oldest rest => exact List.sublist_cons_self oldest rest
  · exact List.Sublist.refl _

theorem evict_length (w : DedupWindow κ) : w.evict.2.length + 1 ≤ w.capacity := by
  have hle := w.bounded
  have hpos := w.positive
  unfold evict
  split_ifs with hfull
  · cases horder : w.order with
    | nil =>
        simp only [List.length_nil]
        omega
    | cons oldest rest =>
        rw [horder] at hle
        simpa using hle
  · exact not_le.mp hfull

/-- Records a key; `false` when it was remembered already. -/
def insert (w : DedupWindow κ) (id : κ) : Bool × DedupWindow κ :=
  if h : id ∈ w.set then (false, w) else
    (true,
      { set := Insert.insert id w.evict.1
        order := w.evict.2 ++ [id]
        capacity := w.capacity
        agrees := by
          rw [evict_agrees]
          ext x
          rw [Finset.mem_insert, List.mem_toFinset, List.mem_toFinset, List.mem_append,
            List.mem_singleton, or_comm]
        nodup := by
          have hout : id ∉ w.evict.2 := fun hid =>
            h (by rw [w.agrees]; exact List.mem_toFinset.mpr (w.evict_sublist.subset hid))
          exact List.nodup_append.mpr ⟨w.nodup.sublist w.evict_sublist, by simp,
            fun a ha b hb hab => hout (by rw [← List.mem_singleton.mp hb, ← hab]; exact ha)⟩
        positive := w.positive
        bounded := by simpa using w.evict_length })

instance : Membership κ (DedupWindow κ) := ⟨fun w id => id ∈ w.order⟩

instance (id : κ) (w : DedupWindow κ) : Decidable (id ∈ w) :=
  inferInstanceAs (Decidable (id ∈ w.order))

theorem mem_set {w : DedupWindow κ} {id : κ} : id ∈ w.set ↔ id ∈ w := by
  rw [w.agrees]
  exact List.mem_toFinset

theorem not_mem_new (capacity : ℕ) (id : κ) : id ∉ (new capacity : DedupWindow κ) :=
  List.not_mem_nil

@[simp] theorem insert_of_mem {w : DedupWindow κ} {id : κ} (h : id ∈ w) :
    w.insert id = (false, w) := by
  simp [insert, mem_set.mpr h]

@[simp] theorem insert_fst {w : DedupWindow κ} {id : κ} : (w.insert id).1 = decide (id ∉ w) := by
  by_cases h : id ∈ w
  · simp [h]
  · simp [insert, mem_set, h]

theorem mem_insert_self (w : DedupWindow κ) (id : κ) : id ∈ (w.insert id).2 := by
  by_cases h : id ∈ w
  · rwa [insert_of_mem h]
  · have hset : id ∉ w.set := fun hid => h (mem_set.mp hid)
    simp only [insert, hset, dif_neg, not_false_eq_true]
    exact List.mem_append_right _ List.mem_cons_self

theorem mem_of_mem_insert {w : DedupWindow κ} {id x : κ} (h : x ∈ (w.insert id).2) :
    x = id ∨ x ∈ w := by
  by_cases hid : id ∈ w
  · rw [insert_of_mem hid] at h
    exact Or.inr h
  · have hset : id ∉ w.set := fun hmem => hid (mem_set.mp hmem)
    simp only [insert, hset, dif_neg, not_false_eq_true] at h
    rcases List.mem_append.mp h with hx | hx
    · exact Or.inr (w.evict_sublist.subset hx)
    · exact Or.inl (List.mem_singleton.mp hx)

end DedupWindow
end Aegis

import Aegis.DedupWindow
import Mathlib.Data.Finset.Card

/-!
# The history of a window

The keys a window took in, in order. The window holds the last of them, as many
as it has room for, so a key comes back only after that many others.
-/

namespace Aegis
namespace DedupWindow
variable {κ : Type} [DecidableEq κ]

theorem insert_order (w : DedupWindow κ) (id : κ) :
    (w.insert id).2.order =
      if id ∈ w then w.order else w.order.drop (w.order.length + 1 - w.capacity) ++ [id] := by
  by_cases h : id ∈ w
  · rw [insert_of_mem h, if_pos h]
  · have hset : id ∉ w.set := fun hid => h (mem_set.mp hid)
    have hle := w.bounded
    simp only [insert, hset, dif_neg, not_false_eq_true, if_neg h, evict]
    split_ifs with hfull
    · have hone : w.order.length + 1 - w.capacity = 1 := by omega
      rw [hone]
      cases w.order <;> rfl
    · have hzero : w.order.length + 1 - w.capacity = 0 := by omega
      rw [hzero, List.drop_zero]

@[simp] theorem insert_capacity (w : DedupWindow κ) (id : κ) :
    (w.insert id).2.capacity = w.capacity := by
  unfold insert
  split_ifs <;> rfl

/-- No key of a history is among the `c` keys before it. -/
def Spaced (c : ℕ) (history : List κ) : Prop :=
  ∀ before id after, history = before ++ id :: after → id ∉ before.drop (before.length - c)

omit [DecidableEq κ] in
theorem Spaced.snoc {c : ℕ} {history : List κ} (h : Spaced c history) {id : κ}
    (hid : id ∉ history.drop (history.length - c)) : Spaced c (history ++ [id]) := by
  intro before x after heq
  rcases List.append_eq_append_iff.mp heq with ⟨rest, rfl, hrest⟩ | ⟨rest, rfl, hrest⟩
  · cases rest with
    | nil =>
        cases hrest
        simpa using hid
    | cons y rest => simp at hrest
  · cases rest with
    | nil =>
        cases hrest
        simpa using hid
    | cons y rest =>
        obtain ⟨rfl, -⟩ := List.cons.inj hrest
        exact h before x rest rfl

omit [DecidableEq κ] in
theorem Spaced.nodup {c : ℕ} {before part after : List κ}
    (h : Spaced c (before ++ part ++ after)) (hlen : part.length ≤ c) : part.Nodup := by
  induction part using List.reverseRecOn generalizing after with
  | nil => exact List.nodup_nil
  | append_singleton part x ih =>
      have heq : before ++ (part ++ [x]) ++ after = before ++ part ++ x :: after := by simp
      rw [heq] at h
      simp only [List.length_append, List.length_singleton] at hlen
      have hx := h (before ++ part) x after rfl
      rw [List.drop_append, List.mem_append, not_or] at hx
      have hpart : (before ++ part).length - c - before.length = 0 := by
        rw [List.length_append]
        omega
      rw [hpart, List.drop_zero] at hx
      rw [List.nodup_append]
      refine ⟨ih h (by omega), List.nodup_singleton x, ?_⟩
      rintro y hy _ hx' rfl
      rw [List.mem_singleton.mp hx'] at hy
      exact hx.2 hy

/-- Between two occurrences of a key lie at least `c` distinct other keys. -/
theorem Spaced.between {c : ℕ} {before between after : List κ} {id : κ}
    (h : Spaced c (before ++ id :: between ++ id :: after)) :
    c ≤ (between.toFinset.erase id).card := by
  have hid := h (before ++ id :: between) id after rfl
  have hlen : c ≤ between.length := by
    by_contra hlt
    apply hid
    rw [List.drop_append, List.mem_append]
    right
    have hzero : (before ++ id :: between).length - c - before.length = 0 := by
      simp only [List.length_append, List.length_cons]
      omega
    rw [hzero, List.drop_zero]
    exact List.mem_cons_self
  obtain ⟨early, recent, hsplit, hrecent⟩ : ∃ early recent, between = early ++ recent ∧
      recent.length = c := by
    use between.take (between.length - c), between.drop (between.length - c)
    rw [List.take_append_drop, List.length_drop]
    exact ⟨rfl, by omega⟩
  subst hsplit
  have hassoc : before ++ id :: (early ++ recent) ++ id :: after =
      (before ++ id :: early) ++ recent ++ id :: after := by simp
  rw [hassoc] at h
  have hnodup : recent.Nodup := h.nodup hrecent.le
  have hout : id ∉ recent := by
    have hlast := h ((before ++ id :: early) ++ recent) id after rfl
    rw [List.drop_append, List.mem_append, not_or] at hlast
    have hzero : ((before ++ id :: early) ++ recent).length - c -
        (before ++ id :: early).length = 0 := by
      rw [List.length_append]
      omega
    rw [hzero, List.drop_zero] at hlast
    exact hlast.2
  calc c = recent.toFinset.card := by rw [List.toFinset_card_of_nodup hnodup, hrecent]
    _ ≤ ((early ++ recent).toFinset.erase id).card := by
        apply Finset.card_le_card
        intro x hx
        rw [Finset.mem_erase, List.mem_toFinset]
        rw [List.mem_toFinset] at hx
        refine ⟨?_, List.mem_append_right _ hx⟩
        rintro rfl
        exact hout hx

/-- The window holds the last keys of a history, as many as it has room for. -/
structure Follows (w : DedupWindow κ) (history : List κ) : Prop where
  recent : w.order = history.drop (history.length - w.capacity)
  spaced : Spaced w.capacity history

theorem new_follows (capacity : ℕ) : (new capacity : DedupWindow κ).Follows [] where
  recent := by
    rw [List.drop_nil]
    rfl
  spaced := by
    intro before id after h
    simp at h

theorem Follows.insert {w : DedupWindow κ} {history : List κ} (h : w.Follows history) {id : κ}
    (hid : id ∉ w) : (w.insert id).2.Follows (history ++ [id]) where
  recent := by
    have hpos := w.positive
    rw [insert_order, if_neg hid, insert_capacity, h.recent, List.drop_drop, List.length_drop,
      List.length_append, List.length_singleton, List.drop_append_of_le_length (by omega)]
    congr 2
    omega
  spaced := by
    rw [insert_capacity]
    apply h.spaced.snoc
    rw [← h.recent]
    exact hid

end DedupWindow
end Aegis

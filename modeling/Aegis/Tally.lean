import Aegis.OrderedTable
import Mathlib.Data.List.Dedup
import Mathlib.Data.List.Sort

/-!
# Counting occurrences

A table of how often each element of a sequence occurs, filled in one pass. The
counts in ascending order do not depend on what the elements are called.
-/

namespace Aegis
variable {κ μ : Type} [LinearOrder κ] [LinearOrder μ]

def tally (cs : List κ) : OrderedTable κ ℕ :=
  cs.foldl (fun counts c => counts.insert c ((counts.get? c).getD 0 + 1)) .empty

theorem tally_concat (cs : List κ) (c : κ) :
    tally (cs ++ [c]) = (tally cs).insert c (((tally cs).get? c).getD 0 + 1) := by
  simp [tally, List.foldl_append]

theorem get?_tally (cs : List κ) (k : κ) :
    (tally cs).get? k = if k ∈ cs then some (cs.count k) else none := by
  induction cs using List.reverseRecOn with
  | nil => rfl
  | append_singleton cs c ih =>
      rw [tally_concat]
      by_cases hk : k = c
      · subst hk
        rw [OrderedTable.get?_insert_self, ih]
        by_cases hmem : k ∈ cs
        · simp [hmem]
        · simp [hmem, List.count_eq_zero_of_not_mem hmem]
      · rw [OrderedTable.get?_insert_ne _ _ hk, ih]
        simp [hk, Ne.symm hk]

theorem mem_tally {cs : List κ} {r : κ × ℕ} :
    r ∈ (tally cs).rows ↔ r.1 ∈ cs ∧ r.2 = cs.count r.1 := by
  rw [← OrderedTable.get?_eq_some_iff, get?_tally]
  by_cases hmem : r.1 ∈ cs
  · simp [hmem, eq_comm]
  · simp [hmem]

theorem tally_keys_perm (cs : List κ) : ((tally cs).rows.map Prod.fst).Perm cs.dedup := by
  rw [List.perm_ext_iff_of_nodup (tally cs).keys_nodup cs.nodup_dedup]
  intro k
  simp [mem_tally]

theorem tally_counts_perm (cs : List κ) :
    ((tally cs).rows.map Prod.snd).Perm (cs.dedup.map (cs.count ·)) := by
  have hcounts : (tally cs).rows.map Prod.snd =
      ((tally cs).rows.map Prod.fst).map (cs.count ·) := by
    rw [List.map_map]
    exact List.map_congr_left fun r hr => (mem_tally.mp hr).2
  rw [hcounts]
  exact (tally_keys_perm cs).map _

/-- The counts in ascending order. -/
def sortedCounts (cs : List κ) : List ℕ := ((tally cs).rows.map Prod.snd).mergeSort

section Labels
variable {α : Type} [DecidableEq α]

theorem tally_map_counts_perm {f : α → κ} (hf : Function.Injective f) (xs : List α) :
    ((tally (xs.map f)).rows.map Prod.snd).Perm (xs.dedup.map (xs.count ·)) := by
  apply (tally_counts_perm _).trans
  rw [List.dedup_map_of_injective hf, List.map_map]
  simp [Function.comp_def, List.count_map_of_injective _ f hf]

theorem sortedCounts_map_eq {f : α → κ} {g : α → μ} (hf : Function.Injective f)
    (hg : Function.Injective g) (xs : List α) :
    sortedCounts (xs.map f) = sortedCounts (xs.map g) := by
  have hperm := (tally_map_counts_perm hf xs).trans (tally_map_counts_perm hg xs).symm
  exact List.Perm.eq_of_sortedLE List.sortedLE_mergeSort List.sortedLE_mergeSort
    (((List.mergeSort_perm _ _).trans hperm).trans (List.mergeSort_perm _ _).symm)

end Labels
end Aegis

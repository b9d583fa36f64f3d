import Mathlib.Data.List.Nodup
import Mathlib.Tactic

/-!
# Runs that cover a sequence in order

A party sends runs of a sequence, possibly repeating what it sent before. The
runs are in order when none of them starts past the first position that was not
sent yet; the elements then arrive for the first time in the order of the
sequence.
-/

namespace Aegis

variable {ι : Type}

/-- The runs sent so far, and the number of leading positions they cover. -/
inductive InOrder (total : List ι) : List (List ι) → ℕ → Prop
  | nil : InOrder total [] 0
  | snoc {sent : List (List ι)} {n o : ℕ} {run : List ι} : InOrder total sent n → o ≤ n →
      run <+: total.drop o → InOrder total (sent ++ [run]) (max n (o + run.length))

/-- Elements in the order of their first arrival. -/
def firstReached [DecidableEq ι] (sent : List (List ι)) : List ι :=
  sent.foldl (fun reached run => reached ++ run.filter fun x => x ∉ reached) []

namespace InOrder
variable {total : List ι} {sent : List (List ι)} {n : ℕ}

theorem extend (h : InOrder total sent n) (more : List ι) (hn : n ≤ total.length) :
    InOrder (total ++ more) sent n := by
  induction h with
  | nil => exact .nil
  | snoc _ ho hrun ih =>
      rename_i n o run _
      have hle : n ≤ total.length := (le_max_left _ _).trans hn
      refine .snoc (ih hle) ho ?_
      rw [List.drop_append_of_le_length (ho.trans hle)]
      exact hrun.trans (List.prefix_append _ _)

theorem firstReached_snoc [DecidableEq ι] (sent : List (List ι)) (run : List ι) :
    firstReached (sent ++ [run]) =
      firstReached sent ++ run.filter fun x => x ∉ firstReached sent := by
  simp [firstReached, List.foldl_append]

/-- In a sequence without repetitions, what is new in a run starting within the
first `n` positions is what lies beyond them. -/
theorem take_append_filter [DecidableEq ι] (hnodup : total.Nodup) {o m : ℕ} (ho : o ≤ n) :
    total.take n ++ ((total.drop o).take m).filter (fun x => x ∉ total.take n) =
      total.take (max n (o + m)) := by
  have hsplit : (total.drop o).take m =
      ((total.take n).drop o).take m ++ (total.drop n).take (o + m - n) := by
    have hdrop : total.drop o = (total.take n).drop o ++ total.drop n := by
      conv_lhs => rw [← List.take_append_drop n total]
      rcases Nat.le_total n total.length with hn | hn
      · rw [List.drop_append_of_le_length (by simpa [hn] using ho)]
      · rw [List.drop_of_length_le hn, List.append_nil, List.append_nil]
    rw [hdrop, List.take_append]
    rcases Nat.le_total n total.length with hn | hn
    · simp only [List.length_drop, List.length_take, min_eq_left hn]
      congr 2
      omega
    · simp [List.drop_of_length_le hn]
  have hold : (((total.take n).drop o).take m).filter (fun x => x ∉ total.take n) = [] := by
    refine List.filter_eq_nil_iff.mpr fun x hx => ?_
    simpa using List.mem_of_mem_drop (List.mem_of_mem_take hx)
  have hnew : ((total.drop n).take (o + m - n)).filter (fun x => x ∉ total.take n) =
      (total.drop n).take (o + m - n) := by
    refine List.filter_eq_self.mpr fun x hx => ?_
    have hdisjoint := List.disjoint_take_drop hnodup (Nat.le_refl n)
    simpa using fun hmem => hdisjoint hmem (List.mem_of_mem_take hx)
  rw [hsplit, List.filter_append, hold, hnew, List.nil_append, ← List.take_add]
  congr 1
  omega

theorem firstReached_eq [DecidableEq ι] (h : InOrder total sent n) (hnodup : total.Nodup) :
    firstReached sent = total.take n := by
  induction h with
  | nil => rfl
  | snoc _ ho hrun ih =>
      rename_i n o run _
      have hrun' : run = (total.drop o).take run.length := List.prefix_iff_eq_take.mp hrun
      rw [firstReached_snoc, ih]
      conv_lhs => rw [hrun']
      exact take_append_filter hnodup ho

end InOrder
end Aegis

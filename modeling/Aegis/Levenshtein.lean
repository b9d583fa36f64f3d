import Aegis.EditDistance
import Mathlib.Data.List.FinRange

/-!
# The two-row edit distance

`levenshtein.rs` keeps two rows of the table of distances between prefixes, as
wide as the shorter string, and fills one of them from the other.
-/

namespace Aegis

/-- What a loop over `0..n` preserves from one index to the next holds after it. -/
theorem foldl_finRange_invariant {σ : Type*} {n : ℕ} {f : σ → Fin n → σ} {P : ℕ → σ → Prop}
    {s : σ} (hinit : P 0 s) (hstep : ∀ (i : Fin n) (s : σ), P i s → P (i + 1) (f s i)) :
    P n ((List.finRange n).foldl f s) := by
  induction n with
  | zero => simpa using hinit
  | succ n ih =>
      rw [List.finRange_succ_last, List.foldl_concat, List.foldl_map]
      apply hstep (Fin.last n)
      exact ih fun i s hs => hstep i.castSucc s hs

section Rows
variable {α : Type*} [DecidableEq α]

/-- A row of distances, one for each prefix of the inner string. -/
abbrev Row (b : List α) : Type := Vector ℕ (b.length + 1)

variable {b : List α}

/-- The next entry of `curr`: deletion, insertion or substitution. -/
def fillEntry (prev : Row b) (ca : α) (curr : Row b) (j : Fin b.length) : Row b :=
  let cost := if ca = b[j] then 0 else 1
  curr.set (j + 1) (min (min (prev[j.val + 1] + 1) (curr[j.val] + 1)) (prev[j.val] + cost))

def fillRow (prev : Row b) (ca : α) (curr : Row b) : Row b :=
  (List.finRange b.length).foldl (fillEntry prev ca) curr

/-- One pass of the outer loop over the rows `prev` and `curr`, which it swaps. -/
def outerStep (a : List α) (rows : Row b × Row b) (i : Fin a.length) : Row b × Row b :=
  (fillRow rows.1 a[i] (rows.2.set 0 (i + 1)), rows.1)

def twoRows (a b : List α) : ℕ :=
  let prev : Row b := Vector.ofFn fun j => j
  let curr : Row b := Vector.replicate _ 0
  ((List.finRange a.length).foldl (outerStep a) (prev, curr)).1[b.length]

end Rows

/-- Distance over Unicode scalar values, the shorter string on the inner axis. -/
def levenshtein (a b : String) : ℕ :=
  let a := a.toList
  let b := b.toList
  if a.isEmpty then b.length
  else if b.isEmpty then a.length
  else
    let (a, b) := if a.length < b.length then (b, a) else (a, b)
    twoRows a b

section Rows
variable {α : Type*} [DecidableEq α] {a b : List α}

/-- The entries up to the prefix of length `j` are the distances of a fixed prefix of
the outer string. -/
def FilledTo (xs : List α) (j : ℕ) (row : Row b) : Prop :=
  ∀ (k : ℕ) (hk : k < b.length + 1), k ≤ j → row[k] = editDistance xs (b.take k)

theorem filledTo_set_zero (xs : List α) (row : Row b) :
    FilledTo xs 0 (row.set 0 xs.length) := by
  intro k hk hle
  obtain rfl : k = 0 := by omega
  simp

theorem FilledTo.fillEntry {xs : List α} {ca : α} {prev curr : Row b} {j : Fin b.length}
    (hprev : FilledTo xs b.length prev) (hcurr : FilledTo (xs ++ [ca]) j curr) :
    FilledTo (xs ++ [ca]) (j + 1) (fillEntry prev ca curr j) := by
  intro k hk hle
  unfold Aegis.fillEntry
  rcases Nat.lt_or_eq_of_le hle with hlt | rfl
  · rw [Vector.getElem_set_ne _ _ (by omega)]
    exact hcurr k hk (by omega)
  · have htake : b.take (j + 1) = b.take j ++ [b[j]] := by simp
    rw [Vector.getElem_set_self, hprev _ (by omega) (by omega), hprev _ (by omega) (by omega),
      hcurr _ (by omega) (by omega), htake, editDistance_concat, min_assoc]
    rfl

theorem FilledTo.fillRow {xs : List α} {ca : α} {prev curr : Row b}
    (hprev : FilledTo xs b.length prev) (hcurr : FilledTo (xs ++ [ca]) 0 curr) :
    FilledTo (xs ++ [ca]) b.length (fillRow prev ca curr) :=
  foldl_finRange_invariant (P := FilledTo (xs ++ [ca])) hcurr
    fun _ _ hfilled => hprev.fillEntry hfilled

/-- Before each pass the first row holds the distances of the prefix that was read. -/
theorem FilledTo.outerStep {rows : Row b × Row b} {i : Fin a.length}
    (hrows : FilledTo (a.take i) b.length rows.1) :
    FilledTo (a.take (i + 1)) b.length (outerStep a rows i).1 := by
  have htake : a.take (i + 1) = a.take i ++ [a[i]] := by simp
  have hlength : (a.take i ++ [a[i]]).length = i + 1 := by simp
  rw [htake]
  apply hrows.fillRow
  rw [← hlength]
  exact filledTo_set_zero _ rows.2

theorem twoRows_eq (a b : List α) : twoRows a b = editDistance a b := by
  have hrows := foldl_finRange_invariant
    (P := fun i (rows : Row b × Row b) => FilledTo (a.take i) b.length rows.1)
    (s := (Vector.ofFn fun j => j, Vector.replicate _ 0)) (f := outerStep a)
    (by intro k hk _; simp; omega) fun _ _ hrows => hrows.outerStep
  unfold twoRows
  simpa using hrows b.length (Nat.lt_succ_self _) le_rfl

end Rows

theorem levenshtein_eq (a b : String) : levenshtein a b = editDistance a.toList b.toList := by
  unfold levenshtein
  by_cases ha : a.toList = []
  · simp [ha]
  by_cases hb : b.toList = []
  · simp only [List.isEmpty_iff, ha, hb, if_true, if_false, editDistance_nil_right]
  simp only [List.isEmpty_iff, ha, hb, if_false]
  split
  · rw [twoRows_eq, editDistance_comm]
  · exact twoRows_eq _ _

theorem levenshtein_comm (a b : String) : levenshtein a b = levenshtein b a := by
  rw [levenshtein_eq, levenshtein_eq, editDistance_comm]

theorem levenshtein_eq_zero {a b : String} : levenshtein a b = 0 ↔ a = b := by
  rw [levenshtein_eq, editDistance_eq_zero, String.toList_inj]

theorem levenshtein_triangle (a b c : String) :
    levenshtein a c ≤ levenshtein a b + levenshtein b c := by
  simp only [levenshtein_eq]
  exact editDistance_triangle _ _ _

/-- The two rows compute the recursive distance, and with it a metric on strings. -/
theorem two_rows_edit_distance (a b : String) :
    levenshtein a b = editDistance a.toList b.toList ∧
    levenshtein a b = levenshtein b a ∧
    (levenshtein a b = 0 ↔ a = b) ∧
    ∀ c : String, levenshtein a c ≤ levenshtein a b + levenshtein b c :=
  ⟨levenshtein_eq a b, levenshtein_comm a b, levenshtein_eq_zero, levenshtein_triangle a b⟩

example : levenshtein "kitten" "sitting" = 3 := by decide +kernel

end Aegis

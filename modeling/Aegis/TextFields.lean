import Mathlib.Algebra.GroupWithZero.Nat
import Mathlib.Data.List.Basic

/-!
# Fields of a text

Positions in a text are counted by the sizes of its items, so a slice may begin
inside an item and then is none. Fields are the runs between separating items,
however many of these there are between two of them.
-/

namespace Aegis.TextFields
variable {α : Type}

section Positions
variable (size : α → ℕ)

def extent (xs : List α) : ℕ := (xs.map size).sum

/-- Where the last item of a kind begins. -/
def lastAt (marks : α → Bool) : List α → Option ℕ
  | [] => none
  | x :: rest =>
      match lastAt marks rest with
      | some n => some (size x + n)
      | none => if marks x then some 0 else none

/-- What begins at a position; none beyond the end or inside an item. -/
def sliceFrom : List α → ℕ → Option (List α)
  | xs, 0 => some xs
  | [], _ + 1 => none
  | x :: rest, n + 1 => if size x ≤ n + 1 then sliceFrom rest (n + 1 - size x) else none

variable {size} {marks : α → Bool}

@[simp] theorem extent_nil : extent size ([] : List α) = 0 := rfl

@[simp] theorem extent_cons (x : α) (xs : List α) :
    extent size (x :: xs) = size x + extent size xs := by
  rw [extent, List.map_cons, List.sum_cons, extent]

@[simp] theorem extent_append (xs ys : List α) :
    extent size (xs ++ ys) = extent size xs + extent size ys := by
  rw [extent, List.map_append, List.sum_append, extent, extent]

theorem lastAt_eq_none {xs : List α} (h : ∀ x ∈ xs, marks x = false) :
    lastAt size marks xs = none := by
  induction xs with
  | nil => rfl
  | cons x rest ih =>
      rw [lastAt, ih fun y hy => h y (List.mem_cons_of_mem _ hy), h x List.mem_cons_self]
      rfl

theorem lastAt_append_cons {before after : List α} {mark : α} (hmark : marks mark = true)
    (hafter : ∀ x ∈ after, marks x = false) :
    lastAt size marks (before ++ mark :: after) = some (extent size before) := by
  induction before with
  | nil =>
      rw [List.nil_append, lastAt, lastAt_eq_none hafter, hmark]
      rfl
  | cons x rest ih =>
      rw [List.cons_append, lastAt, ih, extent_cons]

theorem exists_last_mark {xs : List α} (h : ∃ x ∈ xs, marks x = true) :
    ∃ before mark after, xs = before ++ mark :: after ∧ marks mark = true ∧
      ∀ x ∈ after, marks x = false := by
  induction xs with
  | nil => obtain ⟨x, hx, -⟩ := h; cases hx
  | cons x rest ih =>
      by_cases hrest : ∃ y ∈ rest, marks y = true
      · obtain ⟨before, mark, after, rfl, hmark, hafter⟩ := ih hrest
        exact ⟨x :: before, mark, after, rfl, hmark, hafter⟩
      · obtain ⟨y, hy, hmarks⟩ := h
        rcases List.mem_cons.mp hy with rfl | hy
        · refine ⟨[], y, rest, rfl, hmarks, fun z hz => ?_⟩
          rw [← Bool.not_eq_true]
          exact fun hz' => hrest ⟨z, hz, hz'⟩
        · exact absurd ⟨y, hy, hmarks⟩ hrest

/-- Nothing is lost where a slice begins at the end of a beginning. -/
theorem sliceFrom_append (hsize : ∀ x, 0 < size x) (before after : List α) :
    sliceFrom size (before ++ after) (extent size before) = some after := by
  induction before with
  | nil => cases after <;> rfl
  | cons x rest ih =>
      have hx := hsize x
      obtain ⟨n, hn⟩ : ∃ n, size x + extent size rest = n + 1 :=
        ⟨size x + extent size rest - 1, by omega⟩
      have hrest : n + 1 - size x = extent size rest := by omega
      rw [List.cons_append, extent_cons, hn, sliceFrom, if_pos (by omega), hrest, ih]

end Positions

section Fields
variable {separates : α → Bool}

/-- The runs of items that do not separate. -/
def fields (separates : α → Bool) (xs : List α) : List (List α) :=
  (xs.splitOnP separates).filter fun field => !field.isEmpty

theorem fields_separators {xs : List α} (h : ∀ x ∈ xs, separates x = true) :
    fields separates xs = [] := by
  induction xs with
  | nil => rfl
  | cons x rest ih =>
      have hrest := ih fun y hy => h y (List.mem_cons_of_mem _ hy)
      rw [fields, List.splitOnP_cons_eq_if_modifyHead, if_pos (h x List.mem_cons_self)]
      exact hrest

theorem fields_append_of_separators {gap : List α} (h : ∀ x ∈ gap, separates x = true)
    (xs : List α) : fields separates (gap ++ xs) = fields separates xs := by
  induction gap with
  | nil => rfl
  | cons x rest ih =>
      rw [List.cons_append, fields, List.splitOnP_cons_eq_if_modifyHead,
        if_pos (h x List.mem_cons_self)]
      exact ih fun y hy => h y (List.mem_cons_of_mem _ hy)

/-- A run that ends the text or that a separator ends is a field. -/
theorem fields_append_of_run {run rest : List α} (hne : run ≠ [])
    (hrun : ∀ x ∈ run, separates x = false) (hrest : ∀ x ∈ rest.head?, separates x = true) :
    fields separates (run ++ rest) = run :: fields separates rest := by
  have hkept : (!run.isEmpty) = true := by simp [hne]
  cases rest with
  | nil =>
      rw [List.append_nil, fields, List.splitOnP_eq_singleton hrun, List.filter_cons, if_pos hkept]
      rfl
  | cons x rest =>
      have hx := hrest x rfl
      rw [fields, List.splitOnP_append_cons_of_forall_mem hrun x hx, List.filter_cons,
        if_pos hkept, fields, List.splitOnP_cons_eq_if_modifyHead, if_pos hx]
      rfl

/-- Each field with the separators in front of it. -/
def spaced (parts : List (List α × List α)) : List α := parts.flatMap fun p => p.1 ++ p.2

theorem fields_spaced {parts : List (List α × List α)} {ending : List α}
    (hgaps : ∀ p ∈ parts, p.1 ≠ [] ∧ ∀ x ∈ p.1, separates x = true)
    (hruns : ∀ p ∈ parts, p.2 ≠ [] ∧ ∀ x ∈ p.2, separates x = false)
    (hending : ∀ x ∈ ending, separates x = true) :
    fields separates (spaced parts ++ ending) = parts.map Prod.snd := by
  induction parts with
  | nil => exact fields_separators hending
  | cons p parts ih =>
      have hgap := hgaps p List.mem_cons_self
      have hrun := hruns p List.mem_cons_self
      have hgaps' : ∀ p ∈ parts, p.1 ≠ [] ∧ ∀ x ∈ p.1, separates x = true :=
        fun q hq => hgaps q (List.mem_cons_of_mem _ hq)
      have hnext : ∀ x ∈ (spaced parts ++ ending).head?, separates x = true := by
        intro x hx
        cases parts with
        | nil => exact hending x (List.mem_of_mem_head? hx)
        | cons q parts =>
            obtain ⟨hne, hall⟩ := hgaps' q List.mem_cons_self
            have hfirst : x ∈ q.1.head? := by
              rw [spaced, List.flatMap_cons, List.append_assoc, List.append_assoc,
                List.head?_append_of_ne_nil _ hne] at hx
              exact hx
            exact hall x (List.mem_of_mem_head? hfirst)
      have hrest := ih hgaps' fun q hq => hruns q (List.mem_cons_of_mem _ hq)
      have hsplit : spaced (p :: parts) ++ ending = p.1 ++ (p.2 ++ (spaced parts ++ ending)) := by
        rw [spaced, List.flatMap_cons, List.append_assoc, List.append_assoc]
        rfl
      rw [hsplit, fields_append_of_separators hgap.2, fields_append_of_run hrun.1 hrun.2 hnext,
        hrest, List.map_cons]

end Fields
end Aegis.TextFields

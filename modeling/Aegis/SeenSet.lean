import Mathlib.Data.Finset.Card
import Mathlib.Tactic.SplitIfs

/-!
# Reporting each key once

Snapshots of keyed items come one after the other, and an item is reported if it
is admitted and its key is not in the set of keys seen before. Once that set is
over a limit, a snapshot first drops the keys it does not hold itself. What a
key's history says about its being seen is all that the rules below need.
-/

namespace Aegis
namespace SeenSet
variable {α κ : Type} [DecidableEq κ]

section OneSnapshot
variable (key : α → κ)

/-- The items whose keys are new, each key once, with the grown set. -/
def takeNew : Finset κ → List α → Finset κ × List α
  | seen, [] => (seen, [])
  | seen, x :: rest =>
      if key x ∈ seen then takeNew seen rest
      else
        let later := takeNew (insert (key x) seen) rest
        (later.1, x :: later.2)

theorem mem_takeNew_fst {seen : Finset κ} {xs : List α} {k : κ} :
    k ∈ (takeNew key seen xs).1 ↔ k ∈ seen ∨ k ∈ xs.map key := by
  induction xs generalizing seen with
  | nil => simp [takeNew]
  | cons x rest ih =>
      rw [takeNew]
      split_ifs with hx
      · rw [ih, List.map_cons, List.mem_cons]
        constructor
        · exact fun h => h.imp_right Or.inr
        · rintro (h | rfl | h)
          · exact Or.inl h
          · exact Or.inl hx
          · exact Or.inr h
      · rw [ih, Finset.mem_insert, List.map_cons, List.mem_cons]
        constructor
        · rintro ((h | h) | h)
          · exact Or.inr (Or.inl h)
          · exact Or.inl h
          · exact Or.inr (Or.inr h)
        · rintro (h | h | h)
          · exact Or.inl (Or.inr h)
          · exact Or.inl (Or.inl h)
          · exact Or.inr h

theorem mem_takeNew_snd {seen : Finset κ} {xs : List α} {k : κ} :
    k ∈ (takeNew key seen xs).2.map key ↔ k ∉ seen ∧ k ∈ xs.map key := by
  induction xs generalizing seen with
  | nil => simp [takeNew]
  | cons x rest ih =>
      rw [takeNew]
      split_ifs with hx
      · rw [ih, List.map_cons, List.mem_cons]
        constructor
        · exact fun h => ⟨h.1, Or.inr h.2⟩
        · rintro ⟨hk, rfl | h⟩
          · exact absurd hx hk
          · exact ⟨hk, h⟩
      · simp only [List.map_cons, List.mem_cons, ih, Finset.mem_insert, not_or]
        constructor
        · rintro (rfl | ⟨hk, h⟩)
          · exact ⟨hx, Or.inl rfl⟩
          · exact ⟨hk.2, Or.inr h⟩
        · rintro ⟨hk, rfl | h⟩
          · exact Or.inl rfl
          · by_cases heq : k = key x
            · exact Or.inl heq
            · exact Or.inr ⟨⟨heq, hk⟩, h⟩

theorem takeNew_nodup (seen : Finset κ) (xs : List α) :
    ((takeNew key seen xs).2.map key).Nodup := by
  induction xs generalizing seen with
  | nil => exact List.nodup_nil
  | cons x rest ih =>
      rw [takeNew]
      split_ifs with hx
      · exact ih seen
      · refine List.nodup_cons.mpr ⟨?_, ih _⟩
        intro hmem
        exact ((mem_takeNew_snd key).mp hmem).1 (Finset.mem_insert_self _ _)

theorem takeNew_sublist (seen : Finset κ) (xs : List α) :
    (takeNew key seen xs).2.Sublist xs := by
  induction xs generalizing seen with
  | nil => exact List.Sublist.slnil
  | cons x rest ih =>
      rw [takeNew]
      split_ifs with hx
      · exact (ih seen).cons x
      · exact (ih _).cons_cons x

end OneSnapshot

/-- Over the limit only the keys at hand are kept. -/
def prune (limit : ℕ) (seen : Finset κ) (live : List κ) : Finset κ :=
  if limit < seen.card then seen.filter (· ∈ live) else seen

theorem mem_prune {limit : ℕ} {seen : Finset κ} {live : List κ} {k : κ} :
    k ∈ prune limit seen live ↔ k ∈ seen ∧ (limit < seen.card → k ∈ live) := by
  rw [prune]
  split_ifs with hlimit
  · simp [hlimit]
  · simp [hlimit]

section History
variable (key : α → κ) (admits : α → Bool) (limit : ℕ)

def observe (seen : Finset κ) (snapshot : List α) : Finset κ × List α :=
  takeNew key (prune limit seen (snapshot.map key)) (snapshot.filter admits)

/-- What has been seen after some snapshots. -/
def seenAfter (history : List (List α)) : Finset κ :=
  history.foldl (fun seen snapshot => (observe key admits limit seen snapshot).1) ∅

/-- The items reported at a snapshot that follows others. -/
def reportedAt (history : List (List α)) (snapshot : List α) : List α :=
  (observe key admits limit (seenAfter key admits limit history) snapshot).2

variable {key admits limit} {history : List (List α)} {snapshot : List α} {k : κ}

theorem seenAfter_snoc (history : List (List α)) (snapshot : List α) :
    seenAfter key admits limit (history ++ [snapshot]) =
      (observe key admits limit (seenAfter key admits limit history) snapshot).1 := by
  simp [seenAfter, List.foldl_append]

theorem mem_seenAfter_snoc :
    k ∈ seenAfter key admits limit (history ++ [snapshot]) ↔
      (k ∈ seenAfter key admits limit history ∧
        (limit < (seenAfter key admits limit history).card → k ∈ snapshot.map key)) ∨
      k ∈ (snapshot.filter admits).map key := by
  rw [seenAfter_snoc, observe, mem_takeNew_fst, mem_prune]

omit [DecidableEq κ] in
theorem mem_map_of_filter (h : k ∈ (snapshot.filter admits).map key) : k ∈ snapshot.map key := by
  obtain ⟨x, hx, rfl⟩ := List.mem_map.mp h
  exact List.mem_map_of_mem (List.mem_filter.mp hx).1

/-- A snapshot never drops a key that it admits, so pruning does not matter to what is
reported. -/
theorem mem_reportedAt :
    k ∈ (reportedAt key admits limit history snapshot).map key ↔
      k ∉ seenAfter key admits limit history ∧ k ∈ (snapshot.filter admits).map key := by
  rw [reportedAt, observe, mem_takeNew_snd, mem_prune]
  constructor
  · rintro ⟨hnot, hadmitted⟩
    exact ⟨fun hseen => hnot ⟨hseen, fun _ => mem_map_of_filter hadmitted⟩, hadmitted⟩
  · rintro ⟨hnot, hadmitted⟩
    exact ⟨fun hseen => hnot hseen.1, hadmitted⟩

theorem reportedAt_nodup (history : List (List α)) (snapshot : List α) :
    ((reportedAt key admits limit history snapshot).map key).Nodup :=
  takeNew_nodup key _ _

theorem reportedAt_sublist (history : List (List α)) (snapshot : List α) :
    (reportedAt key admits limit history snapshot).Sublist (snapshot.filter admits) :=
  takeNew_sublist key _ _

theorem not_mem_seenAfter (h : ∀ s ∈ history, k ∉ (s.filter admits).map key) :
    k ∉ seenAfter key admits limit history := by
  induction history using List.reverseRecOn with
  | nil => exact Finset.notMem_empty k
  | append_singleton history s ih =>
      rw [mem_seenAfter_snoc]
      rintro (⟨hseen, -⟩ | hadmitted)
      · exact ih (fun t ht => h t (List.mem_append_left _ ht)) hseen
      · exact h s (List.mem_append_right _ (List.mem_singleton_self s)) hadmitted

theorem mem_seenAfter_of_reported
    (h : k ∈ (reportedAt key admits limit history snapshot).map key) :
    k ∈ seenAfter key admits limit (history ++ [snapshot]) :=
  mem_seenAfter_snoc.mpr (Or.inr (mem_reportedAt.mp h).2)

/-- A snapshot without the key at which the set is over the limit. -/
def DroppedIn (key : α → κ) (admits : α → Bool) (limit : ℕ) (k : κ) (history : List (List α))
    (later : List (List α)) : Prop :=
  ∃ before snapshot after, later = before ++ snapshot :: after ∧
    limit < (seenAfter key admits limit (history ++ before)).card ∧ k ∉ snapshot.map key

theorem mem_seenAfter_append {later : List (List α)}
    (hseen : k ∈ seenAfter key admits limit history)
    (hkept : ¬ DroppedIn key admits limit k history later) :
    k ∈ seenAfter key admits limit (history ++ later) := by
  induction later using List.reverseRecOn with
  | nil => rwa [List.append_nil]
  | append_singleton later s ih =>
      have hearlier : ¬ DroppedIn key admits limit k history later := by
        rintro ⟨before, snapshot, after, rfl, hcard, habsent⟩
        exact hkept ⟨before, snapshot, after ++ [s], by simp, hcard, habsent⟩
      rw [← List.append_assoc, mem_seenAfter_snoc]
      refine Or.inl ⟨ih hearlier, ?_⟩
      intro hcard
      by_contra habsent
      exact hkept ⟨later, s, [], rfl, hcard, habsent⟩

/-- Between two reports of a key it was dropped. -/
theorem droppedIn_of_reported_again {first : List α} {later : List (List α)}
    (hfirst : k ∈ (reportedAt key admits limit history first).map key)
    (hagain : k ∈ (reportedAt key admits limit (history ++ first :: later) snapshot).map key) :
    DroppedIn key admits limit k (history ++ [first]) later := by
  by_contra hkept
  have hseen := mem_seenAfter_append (mem_seenAfter_of_reported hfirst) hkept
  rw [List.append_assoc, List.singleton_append] at hseen
  exact (mem_reportedAt.mp hagain).1 hseen

end History
end SeenSet
end Aegis

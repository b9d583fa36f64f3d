import Mathlib.Data.List.Basic
import Mathlib.Tactic.SplitIfs

/-!
# The first offer under a name wins

Offers come one after the other, each of a value under a name or of none. A value
is taken if its name is allowed and not taken yet, so what is taken under a name
is the first value offered under it.
-/

namespace Aegis
namespace FirstOffer
variable {κ ν : Type} [DecidableEq κ] (allowed : κ → Bool)

def take (taken : List (κ × ν)) (offer : κ × Option ν) : List (κ × ν) :=
  match offer.2 with
  | some v =>
      if allowed offer.1 = true ∧ offer.1 ∉ taken.map Prod.fst then taken ++ [(offer.1, v)]
      else taken
  | none => taken

def takeAll (taken : List (κ × ν)) (offers : List (κ × Option ν)) : List (κ × ν) :=
  offers.foldl (take allowed) taken

/-- The value under a name. -/
def lookup (taken : List (κ × ν)) (n : κ) : Option ν :=
  (taken.find? fun r => r.1 = n).map Prod.snd

/-- What an offer holds under a name. -/
def valueAt (n : κ) (offer : κ × Option ν) : Option ν := if offer.1 = n then offer.2 else none

variable {allowed} {taken : List (κ × ν)} {offers : List (κ × Option ν)}

@[simp] theorem takeAll_nil : takeAll allowed taken [] = taken := rfl

@[simp] theorem takeAll_cons (offer : κ × Option ν) :
    takeAll allowed taken (offer :: offers) = takeAll allowed (take allowed taken offer) offers :=
  rfl

theorem takeAll_append (offers' : List (κ × Option ν)) :
    takeAll allowed taken (offers ++ offers') =
      takeAll allowed (takeAll allowed taken offers) offers' := by
  rw [takeAll, List.foldl_append]
  rfl

theorem take_allowed (h : ∀ r ∈ taken, allowed r.1 = true) (offer : κ × Option ν) :
    ∀ r ∈ take allowed taken offer, allowed r.1 = true := by
  intro r hr
  rw [take] at hr
  split at hr
  · split_ifs at hr with hnew
    · rcases List.mem_append.mp hr with hr | hr
      · exact h r hr
      · rw [List.mem_singleton.mp hr]
        exact hnew.1
    · exact h r hr
  · exact h r hr

theorem takeAll_allowed (h : ∀ r ∈ taken, allowed r.1 = true) :
    ∀ r ∈ takeAll allowed taken offers, allowed r.1 = true := by
  induction offers generalizing taken with
  | nil => exact h
  | cons offer offers ih => exact ih (take_allowed h offer)

theorem lookup_eq_none {n : κ} : lookup taken n = none ↔ n ∉ taken.map Prod.fst := by
  rw [lookup, Option.map_eq_none_iff, List.find?_eq_none, List.mem_map]
  constructor
  · rintro h ⟨r, hr, hname⟩
    exact h r hr (by simpa using hname)
  · intro h r hr hname
    exact h ⟨r, hr, by simpa using hname⟩

theorem lookup_snoc (m : κ) (v : ν) (n : κ) :
    lookup (taken ++ [(m, v)]) n = (lookup taken n).or (if m = n then some v else none) := by
  simp only [lookup, List.find?_append]
  cases taken.find? fun r => r.1 = n with
  | some r => simp
  | none =>
      by_cases hm : m = n
      · simp [hm]
      · simp [hm]

theorem take_some (m : κ) (v : ν) :
    take allowed taken (m, some v) =
      if allowed m = true ∧ m ∉ taken.map Prod.fst then taken ++ [(m, v)] else taken := rfl

/-- An offer matters to an allowed name that has no value yet. -/
theorem lookup_take (offer : κ × Option ν) (n : κ) :
    lookup (take allowed taken offer) n =
      (lookup taken n).or (if allowed n = true then valueAt n offer else none) := by
  obtain ⟨m, candidate⟩ := offer
  rw [valueAt]
  cases candidate with
  | none => simp [take]
  | some v =>
      rw [take_some]
      by_cases hm : m = n
      · subst hm
        rw [if_pos rfl]
        by_cases hnew : allowed m = true ∧ m ∉ taken.map Prod.fst
        · rw [if_pos hnew, if_pos hnew.1, lookup_snoc, if_pos rfl]
        · rw [if_neg hnew]
          cases hlookup : lookup taken m with
          | some w => rfl
          | none =>
              have hdisallowed : allowed m ≠ true := fun h =>
                hnew ⟨h, lookup_eq_none.mp hlookup⟩
              rw [if_neg hdisallowed]
              rfl
      · have hother : lookup (taken ++ [(m, v)]) n = lookup taken n := by
          rw [lookup_snoc, if_neg hm, Option.or_none]
        rw [if_neg hm, ite_self, Option.or_none]
        split_ifs
        · exact hother
        · rfl

theorem lookup_takeAll (n : κ) :
    lookup (takeAll allowed taken offers) n =
      (lookup taken n).or (if allowed n = true then offers.findSome? (valueAt n) else none) := by
  induction offers generalizing taken with
  | nil => simp
  | cons offer offers ih =>
      rw [takeAll_cons, ih, lookup_take, Option.or_assoc, List.findSome?_cons]
      congr 1
      split_ifs
      · cases valueAt n offer with
        | some v => rfl
        | none => rfl
      · rfl

theorem findSome?_valueAt {α : Type} (offer : α → κ × Option ν) (xs : List α) (n : κ) :
    (xs.map offer).findSome? (valueAt n) =
      (xs.filter fun x => (offer x).1 = n).findSome? fun x => (offer x).2 := by
  induction xs with
  | nil => rfl
  | cons x xs ih =>
      rw [List.map_cons, List.findSome?_cons, ih, valueAt, List.filter_cons]
      by_cases hx : (offer x).1 = n
      · simp only [hx, if_true, decide_true, List.findSome?_cons]
      · simp only [hx, if_false, decide_false, Bool.false_eq_true]

/-- What makes no offer may be left out. -/
theorem takeAll_filter {α : Type} (offer : α → κ × Option ν) (keep : α → Bool) {xs : List α}
    (hkeep : ∀ x ∈ xs, keep x = false → (offer x).2 = none) :
    takeAll allowed taken ((xs.filter keep).map offer) =
      takeAll allowed taken (xs.map offer) := by
  induction xs generalizing taken with
  | nil => rfl
  | cons x xs ih =>
      have hrest : takeAll allowed (take allowed taken (offer x)) ((xs.filter keep).map offer) =
          takeAll allowed (take allowed taken (offer x)) (xs.map offer) :=
        ih fun y hy => hkeep y (List.mem_cons_of_mem _ hy)
      rw [List.filter_cons, List.map_cons, takeAll_cons]
      split_ifs with hx
      · rw [List.map_cons, takeAll_cons, hrest]
      · have hempty := hkeep x List.mem_cons_self (by simpa using hx)
        have hsame : take allowed taken (offer x) = taken := by rw [take, hempty]
        rw [hsame] at hrest ⊢
        exact hrest

end FirstOffer
end Aegis

import Mathlib.Data.List.Basic
import Mathlib.Tactic.SplitIfs

/-!
# Symbolic terms

Messages over data and signing keys. Hashes and signatures are free
constructors, so no two inputs share a hash, and a signature is either copied or
made with its key. Whoever holds no key builds new terms from known ones by the
recipes below.
-/

namespace Aegis

inductive SymTerm (κ α : Type) where
  | data (a : α)
  | hash (t : SymTerm κ α)
  | pair (t u : SymTerm κ α)
  | sign (k : κ) (t : SymTerm κ α)
deriving DecidableEq

namespace SymTerm
variable {κ α : Type}

/-- Terms one after the other. -/
def concat : SymTerm κ α → List (SymTerm κ α) → SymTerm κ α
  | t, [] => t
  | t, u :: l => .pair t (concat u l)

/-- Every signature in a term, at any depth, is one of those made. -/
def Signed (made : κ → SymTerm κ α → Prop) : SymTerm κ α → Prop
  | .data _ => True
  | .hash t => t.Signed made
  | .pair t u => t.Signed made ∧ u.Signed made
  | .sign k t => made k t ∧ t.Signed made

theorem Signed.mono {made made' : κ → SymTerm κ α → Prop} (hle : ∀ k t, made k t → made' k t)
    {t : SymTerm κ α} (h : t.Signed made) : t.Signed made' := by
  induction t with
  | data a => trivial
  | hash t ih => exact ih h
  | pair t u iht ihu => exact ⟨iht h.1, ihu h.2⟩
  | sign k t ih => exact ⟨hle _ _ h.1, ih h.2⟩

theorem concat_signed {made : κ → SymTerm κ α → Prop} {t : SymTerm κ α} {l : List (SymTerm κ α)} :
    (concat t l).Signed made ↔ t.Signed made ∧ ∀ u ∈ l, u.Signed made := by
  induction l generalizing t with
  | nil => simp [concat]
  | cons u l ih => simp [concat, Signed, ih]

theorem concat_inj {t t' : SymTerm κ α} {l l' : List (SymTerm κ α)} (hlen : l.length = l'.length) :
    concat t l = concat t' l' ↔ t = t' ∧ l = l' := by
  induction l generalizing t t' l' with
  | nil =>
      cases l' with
      | nil => simp [concat]
      | cons u' l' => cases hlen
  | cons u l ih =>
      cases l' with
      | nil => cases hlen
      | cons u' l' =>
          simp only [List.length_cons, Nat.add_right_cancel_iff] at hlen
          simp only [concat, pair.injEq, ih hlen, List.cons.injEq]

/-- One step of building without a key. -/
inductive Recipe (κ α : Type) where
  | data (a : α)
  | hash (t : SymTerm κ α)
  | pair (t u : SymTerm κ α)
  | first (t : SymTerm κ α)
  | second (t : SymTerm κ α)
  | content (t : SymTerm κ α)

/-- Follows a recipe, whose terms have to be known. -/
def build [DecidableEq κ] [DecidableEq α] (known : List (SymTerm κ α)) :
    Recipe κ α → Option (SymTerm κ α)
  | .data a => some (.data a)
  | .hash t => if t ∈ known then some (.hash t) else none
  | .pair t u => if t ∈ known ∧ u ∈ known then some (.pair t u) else none
  | .first t => if t ∈ known then (match t with | .pair l _ => some l | _ => none) else none
  | .second t => if t ∈ known then (match t with | .pair _ r => some r | _ => none) else none
  | .content t => if t ∈ known then (match t with | .sign _ c => some c | _ => none) else none

/-- Nobody builds a signature: those in a new term were in the known ones. -/
theorem build_signed [DecidableEq κ] [DecidableEq α] {made : κ → SymTerm κ α → Prop}
    {known : List (SymTerm κ α)} (h : ∀ t ∈ known, t.Signed made) {r : Recipe κ α} {u : SymTerm κ α}
    (hbuild : build known r = some u) : u.Signed made := by
  cases r with
  | data a =>
      cases hbuild
      trivial
  | hash t =>
      simp only [build, Option.ite_none_right_eq_some, Option.some.injEq] at hbuild
      exact hbuild.2 ▸ h t hbuild.1
  | pair t v =>
      simp only [build, Option.ite_none_right_eq_some, Option.some.injEq] at hbuild
      exact hbuild.2 ▸ ⟨h t hbuild.1.1, h v hbuild.1.2⟩
  | first t =>
      simp only [build, Option.ite_none_right_eq_some] at hbuild
      cases t with
      | pair l r => exact Option.some.inj hbuild.2 ▸ (h _ hbuild.1).1
      | data a => cases hbuild.2
      | hash t => cases hbuild.2
      | sign k t => cases hbuild.2
  | second t =>
      simp only [build, Option.ite_none_right_eq_some] at hbuild
      cases t with
      | pair l r => exact Option.some.inj hbuild.2 ▸ (h _ hbuild.1).2
      | data a => cases hbuild.2
      | hash t => cases hbuild.2
      | sign k t => cases hbuild.2
  | content t =>
      simp only [build, Option.ite_none_right_eq_some] at hbuild
      cases t with
      | sign k t => exact Option.some.inj hbuild.2 ▸ (h _ hbuild.1).2
      | data a => cases hbuild.2
      | hash t => cases hbuild.2
      | pair l r => cases hbuild.2

end SymTerm
end Aegis

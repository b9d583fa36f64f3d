import Mathlib.Data.List.Basic
import Mathlib.Order.Defs.Unbundled
import Mathlib.Tactic.SplitIfs

/-!
# Runs of a partial transition function

A system is a function that takes a state and an action and returns the next
state, or nothing where the action is not enabled. A run is a list of enabled
actions, each of which meets a guard on the state it fires in. The rules below
are all that a proof about every run needs: an invariant is checked on one step,
two guards are compared on one step, and noninterference between two runs is
checked on unobserved steps and on pairs of observed ones.
-/

namespace Aegis

variable {σ α β τ : Type}

inductive GuardedRun (step : σ → α → Option σ) (guard : σ → α → Prop) : σ → List α → σ → Prop
  | nil (s : σ) : GuardedRun step guard s [] s
  | cons {s u v : σ} {a : α} {l : List α} : guard s a → step s a = some u →
      GuardedRun step guard u l v → GuardedRun step guard s (a :: l) v

/-- Runs without a guard. -/
abbrev FreeRun (step : σ → α → Option σ) : σ → List α → σ → Prop :=
  GuardedRun step fun _ _ => True

/-- Executes a list of actions; nothing where one is not enabled or its guard
fails. -/
def execute (step : σ → α → Option σ) (guard : σ → α → Prop) [∀ s a, Decidable (guard s a)] :
    σ → List α → Option σ
  | s, [] => some s
  | s, a :: l =>
      if guard s a then (step s a).bind fun u => execute step guard u l else none

/-- What an observer sees of a run: the observations of its actions, each
taken in the state the action fires in. -/
def observed (step : σ → α → Option σ) (view : σ → α → Option β) : σ → List α → List β
  | _, [] => []
  | s, a :: l => match step s a with
    | none => []
    | some u => (view s a).toList ++ observed step view u l

/-- What is read of each step of a run, observed or not. -/
def readings {γ : Type} (step : σ → α → Option σ) (read : σ → α → Option γ) :
    σ → List α → List (Option γ)
  | _, [] => []
  | s, a :: l => match step s a with
    | none => []
    | some u => read s a :: readings step read u l

/-- The states a run goes through, with the one it starts in. -/
def visited (step : σ → α → Option σ) : σ → List α → List σ
  | s, [] => [s]
  | s, a :: l => s :: match step s a with
    | none => []
    | some u => visited step u l

/-- An observer that sees what is read of a state along with the action sees the actions that the
readings select. -/
theorem observed_eq_readings {γ : Type} (step : σ → α → Option σ) (read : σ → α → Option γ)
    (select : α → γ → β) (s : σ) (l : List α) :
    observed step (fun s a => (read s a).map (select a)) s l =
      (l.zip (readings step read s l)).filterMap fun x => x.2.map (select x.1) := by
  induction l generalizing s with
  | nil => rfl
  | cons a l ih =>
      simp only [observed, readings]
      cases step s a with
      | none => rfl
      | some u =>
          dsimp only
          rw [ih, List.zip_cons_cons, List.filterMap_cons]
          cases read s a <;> rfl

namespace GuardedRun
variable {step : σ → α → Option σ} {guard : σ → α → Prop}

theorem invariant (I : σ → Prop)
    (keep : ∀ s a u, I s → guard s a → step s a = some u → I u)
    {s v : σ} {l : List α} (h : GuardedRun step guard s l v) (hs : I s) : I v := by
  induction h with
  | nil _ => exact hs
  | cons hg ht _ ih => exact ih (keep _ _ _ hs hg ht)

theorem imp {other : σ → α → Prop} {s v : σ} {l : List α} (h : GuardedRun step guard s l v)
    (hl : ∀ a ∈ l, ∀ s, guard s a → other s a) : GuardedRun step other s l v := by
  induction h with
  | nil s => exact .nil s
  | cons hg ht _ ih =>
      exact .cons (hl _ List.mem_cons_self _ hg) ht
        (ih fun a ha => hl a (List.mem_cons_of_mem _ ha))

theorem of_actions {s v : σ} {l : List α} (h : FreeRun step s l v)
    (hl : ∀ a ∈ l, ∀ s, guard s a) : GuardedRun step guard s l v :=
  h.imp fun a ha s _ => hl a ha s

theorem free {s v : σ} {l : List α} (h : GuardedRun step guard s l v) : FreeRun step s l v :=
  h.imp fun _ _ _ _ => trivial

theorem append {s u v : σ} {l m : List α} (h : GuardedRun step guard s l u)
    (k : GuardedRun step guard u m v) : GuardedRun step guard s (l ++ m) v := by
  induction h with
  | nil _ => exact k
  | cons hg ht _ ih => exact .cons hg ht (ih k)

theorem snoc {s u v : σ} {a : α} {l : List α} (h : GuardedRun step guard s l u)
    (hg : guard u a) (ht : step u a = some v) : GuardedRun step guard s (l ++ [a]) v :=
  h.append (.cons hg ht (.nil v))

theorem unique {other : σ → α → Prop} {s v w : σ} {l : List α} (h : GuardedRun step guard s l v)
    (k : GuardedRun step other s l w) : v = w := by
  induction h with
  | nil _ =>
      cases k
      rfl
  | cons _ ht _ ih =>
      cases k with
      | cons _ ht' k =>
          cases ht.symm.trans ht'
          exact ih k

theorem through {s v : σ} {l : List α} (h : GuardedRun step guard s l v) {a : α} (ha : a ∈ l) :
    ∃ (s₁ u : σ) (l₁ l₂ : List α), l = l₁ ++ a :: l₂ ∧ GuardedRun step guard s l₁ s₁ ∧
      guard s₁ a ∧ step s₁ a = some u ∧ GuardedRun step guard u l₂ v := by
  induction h with
  | nil _ => cases ha
  | @cons s u v b l hg ht hl ih =>
      rcases List.mem_cons.mp ha with rfl | ha
      · exact ⟨s, u, [], l, rfl, .nil s, hg, ht, hl⟩
      · obtain ⟨s₁, u₁, l₁, l₂, rfl, hbefore, hg₁, ht₁, hafter⟩ := ih ha
        exact ⟨s₁, u₁, b :: l₁, l₂, rfl, .cons hg ht hbefore, hg₁, ht₁, hafter⟩

/-- Where a step keeps a property exactly under the guard, and never brings it back, a run ends
with the property exactly if its steps all meet the guard. -/
theorem exact_iff {I : σ → Prop}
    (exact : ∀ s a u, step s a = some u → (I u ↔ I s ∧ guard s a))
    {s v : σ} {l : List α} (h : FreeRun step s l v) :
    I v ↔ I s ∧ GuardedRun step guard s l v := by
  induction h with
  | nil s => exact ⟨fun hs => ⟨hs, .nil s⟩, And.left⟩
  | @cons s u v a l _ ht _ ih =>
      rw [ih, exact _ _ _ ht]
      constructor
      · rintro ⟨⟨hs, hg⟩, hrun⟩
        exact ⟨hs, .cons hg ht hrun⟩
      · rintro ⟨hs, hrun⟩
        cases hrun with
        | cons hg ht' hrun =>
            cases ht.symm.trans ht'
            exact ⟨⟨hs, hg⟩, hrun⟩

/-- Where one step keeps an order and a property exactly under the guard, the states of a run are
ordered and have the property exactly if its steps all meet the guard. -/
theorem visited_iff {I P : σ → Prop} {R : σ → σ → Prop} [IsTrans σ R]
    (keep : ∀ s a u, I s → step s a = some u → I u)
    (exact : ∀ s a u, I s → P s → step s a = some u → (R s u ∧ P u ↔ guard s a))
    {s v : σ} {l : List α} (h : FreeRun step s l v) (hI : I s) (hP : P s) :
    ((visited step s l).Pairwise R ∧ ∀ u ∈ visited step s l, P u) ↔
      GuardedRun step guard s l v := by
  induction h with
  | nil s => simpa [visited, hP] using GuardedRun.nil s
  | @cons s u v a l _ ht hl ih =>
      have hrest := ih (keep _ _ _ hI ht)
      have hu : ∃ rest, visited step u l = u :: rest := by
        cases l with
        | nil => exact ⟨[], rfl⟩
        | cons b l => exact ⟨_, rfl⟩
      obtain ⟨rest, hu⟩ := hu
      simp only [visited, ht, List.pairwise_cons, List.forall_mem_cons]
      constructor
      · rintro ⟨⟨hfirst, hpair⟩, -, hall⟩
        have hPu : P u := hall u (hu ▸ List.mem_cons_self)
        have hRu : R s u := hfirst u (hu ▸ List.mem_cons_self)
        exact .cons ((exact _ _ _ hI hP ht).mp ⟨hRu, hPu⟩) ht ((hrest hPu).mp ⟨hpair, hall⟩)
      · intro hrun
        cases hrun with
        | cons hg ht' hrun =>
            cases ht.symm.trans ht'
            obtain ⟨hRu, hPu⟩ := (exact _ _ _ hI hP ht).mpr hg
            obtain ⟨hpair, hall⟩ := (hrest hPu).mpr hrun
            refine ⟨⟨fun x hx => ?_, hpair⟩, hP, hall⟩
            rw [hu] at hx hpair
            rcases List.mem_cons.mp hx with rfl | hx
            · exact hRu
            · exact IsTrans.trans _ _ _ hRu ((List.pairwise_cons.mp hpair).1 x hx)

section Unwinding
variable (I : σ → Prop) (keep : ∀ s a u, I s → guard s a → step s a = some u → I u)
  (π : σ → τ) (view : σ → α → Option β)
  (silent : ∀ s a u, I s → guard s a → step s a = some u → view s a = none → π u = π s)

include keep silent

/-- A run that shows an observer nothing leaves its view alone. -/
theorem unobserved {s v : σ} {l : List α} (h : GuardedRun step guard s l v) (hs : I s)
    (hobs : observed step view s l = []) : π v = π s := by
  induction h with
  | nil _ => rfl
  | cons hg ht _ ih =>
      simp only [observed, ht] at hobs
      obtain ⟨hnone, hrest⟩ := List.append_eq_nil_iff.mp hobs
      rw [ih (keep _ _ _ hs hg ht) hrest]
      exact silent _ _ _ hs hg ht (Option.toList_eq_nil_iff.mp hnone)

/-- A run that shows something reaches its first observed step without a change
of the view. -/
theorem first_observed {s v : σ} {l : List α} (h : GuardedRun step guard s l v) (hs : I s)
    {b : β} {rest : List β} (hobs : observed step view s l = b :: rest) :
    ∃ s₁ a u m, I s₁ ∧ guard s₁ a ∧ step s₁ a = some u ∧ view s₁ a = some b ∧ π s₁ = π s ∧
      GuardedRun step guard u m v ∧ observed step view u m = rest := by
  induction h with
  | nil _ => cases hobs
  | @cons s u v a l hg ht hl ih =>
      cases hview : view s a with
      | none =>
          simp only [observed, ht, hview, Option.toList_none, List.nil_append] at hobs
          obtain ⟨s₁, a₁, u₁, m, hI, hg₁, ht₁, hview₁, hπ, hm, hrest⟩ :=
            ih (keep _ _ _ hs hg ht) hobs
          exact ⟨s₁, a₁, u₁, m, hI, hg₁, ht₁, hview₁, hπ.trans (silent _ _ _ hs hg ht hview), hm,
            hrest⟩
      | some b' =>
          simp only [observed, ht, hview, Option.toList_some, List.cons_append, List.nil_append,
            List.cons.injEq] at hobs
          obtain ⟨rfl, hrest⟩ := hobs
          exact ⟨s, a, u, l, hs, hg, ht, hview, rfl, hl, hrest⟩

/-- Two runs that show an observer the same leave it the same view, when
unobserved steps leave the view alone and equal observations change equal views
alike. -/
theorem unwinding
    (consistent : ∀ s s' a a' b u u', I s → I s' → guard s a → guard s' a' → π s = π s' →
      view s a = some b → view s' a' = some b → step s a = some u → step s' a' = some u' →
        π u = π u')
    {s v : σ} {l : List α} (h : GuardedRun step guard s l v) {s' v' : σ} {l' : List α}
    (h' : GuardedRun step guard s' l' v') (hs : I s) (hs' : I s') (hπ : π s = π s')
    (hobs : observed step view s l = observed step view s' l') : π v = π v' := by
  induction h generalizing s' l' with
  | nil s => rw [h'.unobserved I keep π view silent hs' hobs.symm, hπ]
  | @cons s u v a l hg ht hl ih =>
      cases hview : view s a with
      | none =>
          simp only [observed, ht, hview, Option.toList_none, List.nil_append] at hobs
          have hsilent := silent _ _ _ hs hg ht hview
          exact ih h' (keep _ _ _ hs hg ht) hs' (hsilent.trans hπ) hobs
      | some b =>
          simp only [observed, ht, hview, Option.toList_some, List.cons_append,
            List.nil_append] at hobs
          obtain ⟨s₁, a₁, u₁, m, hI, hg₁, ht₁, hview₁, hπ₁, hm, hrest⟩ :=
            h'.first_observed I keep π view silent hs' hobs.symm
          have hstep := consistent _ _ _ _ _ _ _ hs hI hg hg₁ (hπ.trans hπ₁.symm) hview hview₁
            ht ht₁
          exact ih hm (keep _ _ _ hs hg ht) (keep _ _ _ hI hg₁ ht₁) hstep hrest.symm

end Unwinding

end GuardedRun

theorem run_of_execute {step : σ → α → Option σ} {guard : σ → α → Prop}
    [∀ s a, Decidable (guard s a)] {s v : σ} {l : List α}
    (h : execute step guard s l = some v) : GuardedRun step guard s l v := by
  induction l generalizing s with
  | nil =>
      cases h
      exact .nil _
  | cons a l ih =>
      simp only [execute] at h
      split_ifs at h with hg
      obtain ⟨u, hu, hl⟩ := Option.bind_eq_some_iff.mp h
      exact .cons hg hu (ih hl)

end Aegis

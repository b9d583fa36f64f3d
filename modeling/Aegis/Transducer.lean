import Mathlib.Data.List.Basic
import Mathlib.Tactic

/-!
# Transducers

A machine that pushes outputs while it consumes inputs. Two machines in related
states show the same as long as each input of the one is matched by a run of the
other, however long.
-/

namespace Aegis
variable {σ τ ι κ ω υ : Type*}

/-- Feeds the inputs one by one and collects what is pushed. -/
def emitAll (step : σ → ι → σ × List ω) (s : σ) (inputs : List ι) : σ × List ω :=
  inputs.foldl (fun (s, out) x => let (t, pushed) := step s x; (t, out ++ pushed)) (s, [])

theorem emitAll_cons (step : σ → ι → σ × List ω) (s : σ) (x : ι) (xs : List ι) :
    emitAll step s (x :: xs) =
      ((emitAll step (step s x).1 xs).1, (step s x).2 ++ (emitAll step (step s x).1 xs).2) := by
  have hout : ∀ (xs : List ι) (s : σ) (out : List ω),
      xs.foldl (fun (s, out) x => let (t, pushed) := step s x; (t, out ++ pushed)) (s, out) =
        ((emitAll step s xs).1, out ++ (emitAll step s xs).2) := by
    intro xs
    induction xs with
    | nil => simp [emitAll]
    | cons x xs ih =>
        intro s out
        simp only [emitAll, List.foldl_cons, List.nil_append]
        rw [ih, ih _ (step s x).2, List.append_assoc]
  simpa [emitAll] using hout xs (step s x).1 (step s x).2

@[simp] theorem emitAll_nil (step : σ → ι → σ × List ω) (s : σ) : emitAll step s [] = (s, []) :=
  rfl

@[simp] theorem emitAll_singleton (step : σ → ι → σ × List ω) (s : σ) (x : ι) :
    emitAll step s [x] = step s x := by
  simp [emitAll_cons]

theorem emitAll_append (step : σ → ι → σ × List ω) (s : σ) (xs ys : List ι) :
    emitAll step s (xs ++ ys) =
      ((emitAll step (emitAll step s xs).1 ys).1,
        (emitAll step s xs).2 ++ (emitAll step (emitAll step s xs).1 ys).2) := by
  induction xs generalizing s with
  | nil => simp
  | cons x xs ih => simp [emitAll_cons, ih]

/-- What two machines have in common after a run: related states and outputs that
look the same. -/
def Agree (R : σ → τ → Prop) (view : ω → Option υ) (r : σ × List ω) (r' : τ × List ω) : Prop :=
  R r.1 r'.1 ∧ r.2.filterMap view = r'.2.filterMap view

theorem Agree.append {R : σ → τ → Prop} {view : ω → Option υ} {r r₂ : σ × List ω}
    {r' r₂' : τ × List ω} (h : Agree R view r r') (h₂ : Agree R view r₂ r₂') :
    Agree R view (r₂.1, r.2 ++ r₂.2) (r₂'.1, r'.2 ++ r₂'.2) := by
  refine ⟨h₂.1, ?_⟩
  rw [List.filterMap_append, List.filterMap_append, h.2, h₂.2]

/-- Steps matched by runs make runs matched by runs. -/
theorem agree_emitAll {step : σ → ι → σ × List ω} {step' : τ → κ → τ × List ω}
    {R : σ → τ → Prop} {view : ω → Option υ} (g : ι → List κ)
    (hstep : ∀ (s : σ) (t : τ) (x : ι), R s t → Agree R view (step s x) (emitAll step' t (g x)))
    {s : σ} {t : τ} (h : R s t) (xs : List ι) :
    Agree R view (emitAll step s xs) (emitAll step' t (xs.flatMap g)) := by
  induction xs generalizing s t with
  | nil => exact ⟨h, rfl⟩
  | cons x xs ih =>
      have hx := hstep s t x h
      rw [emitAll_cons, List.flatMap_cons, emitAll_append]
      exact hx.append (ih hx.1)

end Aegis

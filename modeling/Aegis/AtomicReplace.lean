import Mathlib.Data.List.Basic
import Mathlib.Data.Nat.Bitwise
import Mathlib.Logic.Function.Basic
import Mathlib.Tactic

/-!
# Files replaced in one step

A file is written beside its name, with its mode set before its contents, and
renamed when it is whole. Wherever the steps are cut off, the name has what it
had before or the whole new file, and what is beside it has no contents under
another mode.
-/

namespace Aegis

structure ModedFile (β : Type) where
  contents : List β
  mode : ℕ
  deriving DecidableEq

/-- The files there are, with their modes. -/
abbrev ModedFiles (φ β : Type) : Type := φ → Option (ModedFile β)

inductive FileStep (φ β : Type) where
  | create (file : φ) (mode : ℕ)
  | chmod (file : φ) (mode : ℕ)
  | append (file : φ) (item : β)
  | rename (source target : φ)
  | remove (file : φ)

namespace ModedFiles
variable {φ β : Type} [DecidableEq φ]

def put (d : ModedFiles φ β) (file : φ) (f : Option (ModedFile β)) : ModedFiles φ β :=
  Function.update d file f

@[simp] theorem put_self (d : ModedFiles φ β) (file : φ) (f : Option (ModedFile β)) :
    d.put file f file = f :=
  Function.update_self ..

theorem put_of_ne (d : ModedFiles φ β) {file other : φ} (h : other ≠ file)
    (f : Option (ModedFile β)) : d.put file f other = d other :=
  Function.update_of_ne h ..

@[simp] theorem put_put (d : ModedFiles φ β) (file : φ) (f g : Option (ModedFile β)) :
    (d.put file f).put file g = d.put file g :=
  Function.update_idem ..

/-- A created file has the mode that the mask leaves of the one asked for; an existing one is
emptied and keeps its mode. -/
def apply (mask : ℕ) (d : ModedFiles φ β) : FileStep φ β → ModedFiles φ β
  | .create file mode =>
      d.put file (some ⟨[], ((d file).map ModedFile.mode).getD (Nat.ldiff mode mask)⟩)
  | .chmod file mode => d.put file ((d file).map fun f => { f with mode := mode })
  | .append file item =>
      d.put file ((d file).map fun f => { f with contents := f.contents ++ [item] })
  | .rename source target => (d.put target (d source)).put source none
  | .remove file => d.put file none

def run (mask : ℕ) (d : ModedFiles φ β) (steps : List (FileStep φ β)) : ModedFiles φ β :=
  steps.foldl (apply mask) d

/-- The steps that replace a file by way of a temporary one. -/
def replace (tmp file : φ) (contents : List β) (mode : ℕ) : List (FileStep φ β) :=
  .create tmp mode :: .chmod tmp mode :: (contents.map (.append tmp) ++ [.rename tmp file])

omit [DecidableEq φ] in
theorem length_replace (tmp file : φ) (contents : List β) (mode : ℕ) :
    (replace tmp file contents mode).length = contents.length + 3 := by
  simp [replace]

/-- A file on its way: a beginning of the contents, none unless the mode is set. -/
structure Underway (contents : List β) (mode : ℕ) (f : ModedFile β) : Prop where
  beginning : f.contents <+: contents
  moded : f.contents = [] ∨ f.mode = mode

variable (mask : ℕ)

theorem run_appends (d : ModedFiles φ β) {file : φ} {f : ModedFile β} (h : d file = some f)
    (more : List β) :
    run mask d (more.map (.append file)) =
      d.put file (some { f with contents := f.contents ++ more }) := by
  induction more generalizing d f with
  | nil =>
      have hself : d = d.put file (some f) := by
        rw [← h, put, Function.update_eq_self]
      simpa [run] using hself
  | cons x more ih =>
      have hstep : apply mask d (.append file x) =
          d.put file (some { f with contents := f.contents ++ [x] }) := by
        rw [apply, h, Option.map_some]
      rw [List.map_cons, run, List.foldl_cons, hstep]
      have hrest := ih (d.put file (some { f with contents := f.contents ++ [x] })) (put_self ..)
      rw [run] at hrest
      rw [hrest, put_put, List.append_assoc, List.singleton_append]

theorem run_opened (d : ModedFiles φ β) (tmp : φ) (mode : ℕ) :
    apply mask (apply mask d (.create tmp mode)) (.chmod tmp mode) =
      d.put tmp (some ⟨[], mode⟩) := by
  simp [apply]

theorem run_replace (d : ModedFiles φ β) (tmp file : φ) (contents : List β) (mode : ℕ) :
    run mask d (replace tmp file contents mode) =
      (d.put file (some ⟨contents, mode⟩)).put tmp none := by
  have happends := run_appends mask (d.put tmp (some ⟨[], mode⟩)) (put_self ..) contents
  rw [run, put_put, List.nil_append] at happends
  rw [run, replace, List.foldl_cons, List.foldl_cons, run_opened, List.foldl_append, happends,
    List.foldl_cons, List.foldl_nil, apply, put_self]
  funext other
  by_cases htmp : other = tmp
  · rw [htmp, put_self, put_self]
  · rw [put_of_ne _ htmp, put_of_ne _ htmp]
    by_cases hfile : other = file
    · rw [hfile, put_self, put_self]
    · rw [put_of_ne _ hfile, put_of_ne _ hfile, put_of_ne _ htmp]

/-- Cut off before the last step, only the temporary file may have changed. -/
theorem run_take_replace (d : ModedFiles φ β) (tmp file : φ) (contents : List β) (mode n : ℕ)
    (hn : n < (replace tmp file contents mode).length) :
    run mask d ((replace tmp file contents mode).take n) = d ∨
      ∃ f, Underway contents mode f ∧
        run mask d ((replace tmp file contents mode).take n) = d.put tmp (some f) := by
  rw [length_replace] at hn
  rcases n with - | - | n
  · exact Or.inl rfl
  · exact Or.inr ⟨_, ⟨List.nil_prefix, Or.inl rfl⟩, rfl⟩
  · have hcut : (contents.map (FileStep.append tmp) ++ [FileStep.rename tmp file]).take n =
        (contents.take n).map (.append tmp) := by
      rw [List.take_append_of_le_length (by rw [List.length_map]; omega), List.map_take]
    have happends :=
      run_appends mask (d.put tmp (some ⟨[], mode⟩)) (put_self ..) (contents.take n)
    rw [run, put_put, List.nil_append] at happends
    refine Or.inr ⟨⟨contents.take n, mode⟩, ⟨List.take_prefix n contents, Or.inr rfl⟩, ?_⟩
    rw [run, replace, List.take_succ_cons, List.take_succ_cons, hcut, List.foldl_cons,
      List.foldl_cons, run_opened, happends]

end ModedFiles
end Aegis

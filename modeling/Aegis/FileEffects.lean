import Mathlib.Data.List.Basic
import Mathlib.Logic.Function.Basic
import Mathlib.Tactic

/-!
# Files rewritten in place

A file is emptied and then written item by item. A crash cuts the effects off
after any number of them.
-/

namespace Aegis
variable {φ β : Type*}

/-- The contents of the files there are. -/
abbrev Files (φ β : Type*) := φ → Option (List β)

inductive FileEffect (φ β : Type*) where
  | truncate (file : φ)
  | append (file : φ) (item : β)

/-- The effects that give the file these contents. -/
def rewrite (file : φ) (contents : List β) : List (FileEffect φ β) :=
  .truncate file :: contents.map (.append file)

theorem length_rewrite (file : φ) (contents : List β) :
    (rewrite file contents).length = contents.length + 1 := by
  simp [rewrite]

namespace Files
variable [DecidableEq φ]

def write (fs : Files φ β) (file : φ) (contents : List β) : Files φ β :=
  Function.update fs file (some contents)

@[simp] theorem write_self (fs : Files φ β) (file : φ) (contents : List β) :
    fs.write file contents file = some contents :=
  Function.update_self ..

theorem write_of_ne (fs : Files φ β) {file other : φ} (h : other ≠ file) (contents : List β) :
    fs.write file contents other = fs other :=
  Function.update_of_ne h ..

@[simp] theorem write_write (fs : Files φ β) (file : φ) (contents contents' : List β) :
    (fs.write file contents).write file contents' = fs.write file contents' :=
  Function.update_idem ..

def apply (fs : Files φ β) : FileEffect φ β → Files φ β
  | .truncate file => fs.write file []
  | .append file item => match fs file with
    | some written => fs.write file (written ++ [item])
    | none => fs

def run (fs : Files φ β) (effects : List (FileEffect φ β)) : Files φ β :=
  effects.foldl apply fs

@[simp] theorem run_nil (fs : Files φ β) : fs.run [] = fs := rfl

theorem run_append (fs : Files φ β) (es es' : List (FileEffect φ β)) :
    fs.run (es ++ es') = (fs.run es).run es' :=
  List.foldl_append

theorem run_appends (fs : Files φ β) {file : φ} {written : List β}
    (h : fs file = some written) (more : List β) :
    fs.run (more.map (.append file)) = fs.write file (written ++ more) := by
  induction more generalizing fs written with
  | nil => simp [write, ← h]
  | cons x more ih =>
      have hone : fs.apply (.append file x) = fs.write file (written ++ [x]) := by
        simp [apply, h]
      have hrest := ih (fs.write file (written ++ [x])) (write_self ..)
      simp only [run, List.map_cons, List.foldl_cons] at hrest ⊢
      rw [hone, hrest, write_write, List.append_assoc]
      rfl

theorem run_rewrite (fs : Files φ β) (file : φ) (contents : List β) :
    fs.run (rewrite file contents) = fs.write file contents := by
  have hrest := run_appends (fs.write file []) (write_self ..) contents
  rwa [write_write] at hrest

theorem run_take_rewrite (fs : Files φ β) (file : φ) (contents : List β) (n : ℕ) :
    fs.run ((rewrite file contents).take (n + 1)) = fs.write file (contents.take n) := by
  have htake : (rewrite file contents).take (n + 1) = rewrite file (contents.take n) := by
    simp [rewrite, List.map_take]
  rw [htake, run_rewrite]

/-- Cut off inside the first file, the effects on the others are missing. -/
theorem run_take_of_le (fs : Files φ β) (file : φ) {contents : List β} {n : ℕ}
    (h : n ≤ contents.length) (es : List (FileEffect φ β)) :
    fs.run ((rewrite file contents ++ es).take (n + 1)) = fs.write file (contents.take n) := by
  have hlength := length_rewrite file contents
  rw [List.take_append_of_le_length (by omega), run_take_rewrite]

theorem run_take_append (fs : Files φ β) (file : φ) (contents : List β)
    (es : List (FileEffect φ β)) (n : ℕ) :
    fs.run ((rewrite file contents ++ es).take (contents.length + 1 + n)) =
      (fs.write file contents).run (es.take n) := by
  have hlength := length_rewrite file contents
  rw [List.take_append, hlength, Nat.add_sub_cancel_left, List.take_of_length_le (by omega),
    run_append, run_rewrite]

end Files
end Aegis

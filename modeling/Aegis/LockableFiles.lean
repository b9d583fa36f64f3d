import Mathlib.Data.List.Basic
import Mathlib.Tactic.SplitIfs

/-!
# Scripts over files that can be locked

A script is a list of commands on files, each of them required or made at best
effort. A command may fail wherever the host lets it, and a locked file refuses
to be written or removed. The trace tells how each command that was tried came
out, and what is there in the end depends on the trace alone.
-/

namespace Aegis
variable {φ β : Type}

structure DiskFile (β : Type) where
  contents : List β
  locked : Bool
  deriving DecidableEq

/-- The files there are. -/
abbrev Disk (φ β : Type) : Type := φ → Option (DiskFile β)

inductive FileCommand (φ β : Type) where
  | check
  | unlock (file : φ)
  | lock (file : φ)
  | rewrite (file : φ) (contents : List β)
  | remove (file : φ)
  | removeTree (files : φ → Bool)

/-- How a command comes out. Cut off, a rewrite leaves as many items and the removal of a tree
leaves these files. -/
inductive FileResult (φ : Type) where
  | done
  | refused
  | cut (written : ℕ) (left : φ → Bool)

/-- One line of a script, and whether the script stops where it fails. -/
structure ScriptLine (φ β : Type) where
  required : Bool
  command : FileCommand φ β

abbrev FileTrace (φ β : Type) : Type := List (FileCommand φ β × FileResult φ)

structure ScriptRun (φ β : Type) where
  disk : Disk φ β
  trace : FileTrace φ β
  completed : Bool

namespace FileResult

def isDone : FileResult φ → Bool
  | .done => true
  | _ => false

def isRefused : FileResult φ → Bool
  | .refused => true
  | _ => false

theorem isDone_iff {r : FileResult φ} : r.isDone = true ↔ r = .done := by
  cases r <;> simp [isDone]

end FileResult

namespace FileCommand

/-- An operation on the files. -/
def onFiles : FileCommand φ β → Bool
  | .check => false
  | _ => true

def writes : FileCommand φ β → Bool
  | .rewrite _ _ => true
  | _ => false

def removes : FileCommand φ β → Bool
  | .remove _ => true
  | .removeTree _ => true
  | _ => false

end FileCommand

/-- No operation on the files failed. -/
def ScriptRun.smooth (run : ScriptRun φ β) : Bool :=
  run.trace.all fun e => !e.1.onFiles || e.2.isDone

theorem ScriptRun.done_of_smooth {run : ScriptRun φ β} (h : run.smooth = true)
    {e : FileCommand φ β × FileResult φ} (he : e ∈ run.trace) (hfiles : e.1.onFiles = true) :
    e.2 = .done := by
  have hentry := List.all_eq_true.mp h e he
  rw [hfiles, Bool.not_true, Bool.false_or] at hentry
  exact FileResult.isDone_iff.mp hentry

namespace Disk
variable (d : Disk φ β)

def isLocked (file : φ) : Bool := (d file).any DiskFile.locked

/-- What the files refuse whatever the host would let happen. -/
def refuses : FileCommand φ β → Bool
  | .lock file => (d file).isNone
  | .rewrite file _ => d.isLocked file
  | .remove file => d.isLocked file
  | _ => false

def settle (command : FileCommand φ β) (result : FileResult φ) : FileResult φ :=
  if d.refuses command then .refused else result

variable [DecidableEq φ]

def put (file : φ) (f : Option (DiskFile β)) : Disk φ β := fun p => if p = file then f else d p

/-- What a command does that came out this way. A missing file needs no unlocking. -/
def effect : FileCommand φ β → FileResult φ → Disk φ β
  | .unlock file, .done => d.put file ((d file).map fun f => { f with locked := false })
  | .lock file, .done => d.put file ((d file).map fun f => { f with locked := true })
  | .rewrite file contents, .done => d.put file (some ⟨contents, false⟩)
  | .rewrite file contents, .cut written _ => d.put file (some ⟨contents.take written, false⟩)
  | .remove file, .done => d.put file none
  | .removeTree files, .done => fun p => if files p then none else d p
  | .removeTree files, .cut _ left => fun p => if files p && !left p then none else d p
  | _, _ => d

/-- Runs a script; the host has a result in mind for each of its lines. -/
def execute : Disk φ β → List (ScriptLine φ β) → (ℕ → FileResult φ) → ScriptRun φ β
  | d, [], _ => ⟨d, [], true⟩
  | d, line :: rest, host =>
      let result := d.settle line.command (host 0)
      let d' := d.effect line.command result
      if result.isDone || !line.required then
        let r := execute d' rest fun n => host (n + 1)
        { r with trace := (line.command, result) :: r.trace }
      else ⟨d', [(line.command, result)], false⟩

/-- The files after what a trace tells. -/
def replay (trace : FileTrace φ β) : Disk φ β := trace.foldl (fun d e => d.effect e.1 e.2) d

end Disk

namespace FileTrace
variable [DecidableEq φ]

/-- The file was opened to be written, whether or not it was written to the end. -/
def opens (file : φ) : FileCommand φ β × FileResult φ → Bool
  | (.rewrite other _, result) => decide (file = other) && !result.isRefused
  | _ => false

def clears (file : φ) : FileCommand φ β × FileResult φ → Bool
  | (.remove other, .done) => decide (file = other)
  | (.removeTree files, .done) => files file
  | (.removeTree files, .cut _ left) => files file && !left file
  | _ => false

theorem opens_of_not_writes {file : φ} {e : FileCommand φ β × FileResult φ}
    (h : e.1.writes = false) : opens file e = false := by
  obtain ⟨command, result⟩ := e
  cases command with
  | rewrite => cases h
  | _ => rfl

theorem clears_of_not_removes {file : φ} {e : FileCommand φ β × FileResult φ}
    (h : e.1.removes = false) : clears file e = false := by
  obtain ⟨command, result⟩ := e
  cases command with
  | remove => cases h
  | removeTree => cases h
  | _ => rfl

end FileTrace

namespace Disk
variable [DecidableEq φ]

theorem put_self (d : Disk φ β) (file : φ) (f : Option (DiskFile β)) : d.put file f file = f :=
  if_pos rfl

theorem put_of_ne (d : Disk φ β) {file other : φ} (h : other ≠ file)
    (f : Option (DiskFile β)) : d.put file f other = d other :=
  if_neg h

theorem isSome_put_map (d : Disk φ β) (file p : φ) (g : DiskFile β → DiskFile β) :
    (d.put file ((d file).map g) p).isSome = (d p).isSome := by
  by_cases hp : p = file
  · rw [hp, put_self, Option.isSome_map]
  · rw [put_of_ne d hp]

theorem isSome_effect (d : Disk φ β) (e : FileCommand φ β × FileResult φ) (p : φ) :
    (d.effect e.1 e.2 p).isSome =
      (FileTrace.opens p e || (d p).isSome && !FileTrace.clears p e) := by
  obtain ⟨command, result⟩ := e
  cases command with
  | check => simp [effect, FileTrace.opens, FileTrace.clears]
  | unlock file =>
      cases result with
      | done => simp [effect, isSome_put_map, FileTrace.opens, FileTrace.clears]
      | _ => simp [effect, FileTrace.opens, FileTrace.clears]
  | lock file =>
      cases result with
      | done => simp [effect, isSome_put_map, FileTrace.opens, FileTrace.clears]
      | _ => simp [effect, FileTrace.opens, FileTrace.clears]
  | rewrite file contents =>
      cases result with
      | refused => simp [effect, FileTrace.opens, FileTrace.clears, FileResult.isRefused]
      | _ =>
          by_cases hp : p = file
          · simp [effect, hp, put_self, FileTrace.opens, FileResult.isRefused]
          · simp [effect, put_of_ne d hp, hp, FileTrace.opens, FileTrace.clears]
  | remove file =>
      cases result with
      | done =>
          by_cases hp : p = file
          · simp [effect, hp, put_self, FileTrace.opens, FileTrace.clears]
          · simp [effect, put_of_ne d hp, hp, FileTrace.opens, FileTrace.clears]
      | _ => simp [effect, FileTrace.opens, FileTrace.clears]
  | removeTree files =>
      cases result with
      | done => cases hp : files p <;> simp [effect, hp, FileTrace.opens, FileTrace.clears]
      | refused => simp [effect, FileTrace.opens, FileTrace.clears]
      | cut written left =>
          cases hp : files p <;> cases hleft : left p <;>
            simp [effect, hp, hleft, FileTrace.opens, FileTrace.clears]

theorem replay_cons (d : Disk φ β) (e : FileCommand φ β × FileResult φ) (t : FileTrace φ β) :
    d.replay (e :: t) = (d.effect e.1 e.2).replay t :=
  rfl

theorem replay_append (d : Disk φ β) (t t' : FileTrace φ β) :
    d.replay (t ++ t') = (d.replay t).replay t' :=
  List.foldl_append

theorem isSome_replay_of_no_clear (d : Disk φ β) {t : FileTrace φ β} {p : φ}
    (h : ∀ e ∈ t, FileTrace.clears p e = false) :
    (d.replay t p).isSome = ((d p).isSome || t.any (FileTrace.opens p)) := by
  induction t generalizing d with
  | nil => simp [replay]
  | cons e t ih =>
      have hrest := ih (d.effect e.1 e.2) fun e' he' => h e' (List.mem_cons_of_mem _ he')
      rw [replay_cons, hrest, isSome_effect, h e List.mem_cons_self, List.any_cons, Bool.not_false,
        Bool.and_true, ← Bool.or_assoc, Bool.or_comm (FileTrace.opens p e)]

theorem isSome_replay_of_no_open (d : Disk φ β) {t : FileTrace φ β} {p : φ}
    (h : ∀ e ∈ t, FileTrace.opens p e = false) :
    (d.replay t p).isSome = ((d p).isSome && !t.any (FileTrace.clears p)) := by
  induction t generalizing d with
  | nil => simp [replay]
  | cons e t ih =>
      have hrest := ih (d.effect e.1 e.2) fun e' he' => h e' (List.mem_cons_of_mem _ he')
      rw [replay_cons, hrest, isSome_effect, h e List.mem_cons_self, List.any_cons, Bool.not_or,
        Bool.false_or, Bool.and_assoc]

theorem contents_effect (d : Disk φ β) {e : FileCommand φ β × FileResult φ} {p : φ}
    (hopens : FileTrace.opens p e = false) (hclears : FileTrace.clears p e = false) :
    (d.effect e.1 e.2 p).map DiskFile.contents = (d p).map DiskFile.contents := by
  obtain ⟨command, result⟩ := e
  cases command with
  | check => rfl
  | unlock file =>
      cases result with
      | done =>
          by_cases hp : p = file
          · simp [effect, hp, put_self, Function.comp_def]
          · simp [effect, put_of_ne d hp]
      | _ => rfl
  | lock file =>
      cases result with
      | done =>
          by_cases hp : p = file
          · simp [effect, hp, put_self, Function.comp_def]
          · simp [effect, put_of_ne d hp]
      | _ => rfl
  | rewrite file contents =>
      cases result with
      | refused => rfl
      | _ =>
          have hp : p ≠ file := by simpa [FileTrace.opens, FileResult.isRefused] using hopens
          simp [effect, put_of_ne d hp]
  | remove file =>
      cases result with
      | done =>
          have hp : p ≠ file := by simpa [FileTrace.clears] using hclears
          simp [effect, put_of_ne d hp]
      | _ => rfl
  | removeTree files =>
      cases result with
      | done =>
          have hp : files p = false := hclears
          simp [effect, hp]
      | refused => rfl
      | cut written left =>
          have hp : (files p && !left p) = false := hclears
          simp only [effect, hp, Bool.false_eq_true, if_false]

theorem contents_replay (d : Disk φ β) {t : FileTrace φ β} {p : φ}
    (h : ∀ e ∈ t, FileTrace.opens p e = false ∧ FileTrace.clears p e = false) :
    (d.replay t p).map DiskFile.contents = (d p).map DiskFile.contents := by
  induction t generalizing d with
  | nil => rfl
  | cons e t ih =>
      obtain ⟨hopens, hclears⟩ := h e List.mem_cons_self
      rw [replay_cons, ih _ fun e' he' => h e' (List.mem_cons_of_mem _ he'),
        contents_effect d hopens hclears]

theorem execute_disk (d : Disk φ β) (lines : List (ScriptLine φ β)) (host : ℕ → FileResult φ) :
    (d.execute lines host).disk = d.replay (d.execute lines host).trace := by
  induction lines generalizing d host with
  | nil => rfl
  | cons line rest ih =>
      rw [execute]
      dsimp only
      split_ifs
      · exact ih _ _
      · rfl

theorem mem_execute_trace {d : Disk φ β} {lines : List (ScriptLine φ β)}
    {host : ℕ → FileResult φ} {e : FileCommand φ β × FileResult φ}
    (h : e ∈ (d.execute lines host).trace) : ∃ line ∈ lines, e.1 = line.command := by
  induction lines generalizing d host with
  | nil => cases h
  | cons line rest ih =>
      rw [execute] at h
      dsimp only at h
      split_ifs at h
      · rcases List.mem_cons.mp h with rfl | h
        · exact ⟨line, List.mem_cons_self, rfl⟩
        · obtain ⟨line', hline', he⟩ := ih h
          exact ⟨line', List.mem_cons_of_mem _ hline', he⟩
      · rw [List.mem_singleton.mp h]
        exact ⟨line, List.mem_cons_self, rfl⟩

theorem execute_trace_of_smooth {d : Disk φ β} {lines : List (ScriptLine φ β)}
    {host : ℕ → FileResult φ} (hrequired : ∀ line ∈ lines, line.required = true →
      line.command.onFiles = true) (h : (d.execute lines host).smooth = true) :
    (d.execute lines host).trace.map Prod.fst = lines.map ScriptLine.command := by
  induction lines generalizing d host with
  | nil => rfl
  | cons line rest ih =>
      rw [execute] at h ⊢
      dsimp only at h ⊢
      split_ifs at h ⊢ with hgoes
      · rw [ScriptRun.smooth, List.all_cons, Bool.and_eq_true] at h
        rw [List.map_cons, List.map_cons, List.cons.injEq]
        exact ⟨rfl, ih (fun l hl => hrequired l (List.mem_cons_of_mem _ hl)) h.2⟩
      · rw [Bool.or_eq_true, not_or, Bool.not_eq_true', Bool.not_eq_false] at hgoes
        have hdone := ScriptRun.done_of_smooth h List.mem_cons_self
          (hrequired line List.mem_cons_self hgoes.2)
        exact absurd (FileResult.isDone_iff.mpr hdone) hgoes.1

/-- Where every operation on the files succeeds, the script clears what its lines say. -/
theorem any_clears_of_smooth {d : Disk φ β} {lines : List (ScriptLine φ β)}
    {host : ℕ → FileResult φ} (hrequired : ∀ line ∈ lines, line.required = true →
      line.command.onFiles = true) (h : (d.execute lines host).smooth = true) (p : φ) :
    (d.execute lines host).trace.any (FileTrace.clears p) =
      lines.any fun line => FileTrace.clears p (line.command, .done) := by
  have htrace : (d.execute lines host).trace.any (FileTrace.clears p) =
      ((d.execute lines host).trace.map Prod.fst).any fun command =>
        FileTrace.clears p (command, .done) := by
    rw [List.any_map, Bool.eq_iff_iff, List.any_eq_true, List.any_eq_true]
    apply exists_congr
    intro e
    apply and_congr_right
    intro he
    by_cases hfiles : e.1.onFiles = true
    · rw [Function.comp_apply, ← ScriptRun.done_of_smooth h he hfiles]
    · obtain ⟨command, result⟩ := e
      cases command with
      | check => rfl
      | _ => exact absurd rfl hfiles
  rw [htrace, execute_trace_of_smooth hrequired h, List.any_map]
  rfl

end Disk
end Aegis

import Aegis.Event
import Aegis.GuardedRun
import Aegis.TamperManifest
import Mathlib.Algebra.GroupWithZero.Nat
import Mathlib.Algebra.BigOperators.Group.List.Basic

/-!
# The tamper watch loop

One round of the loop looks at the manifest, at the immutable bits and at the
paths that the manifest leaves out, one path after another while files may
change in between. What a round reports of a path is settled only for a path
that stays as it is.
-/

namespace Aegis
variable {π F : Type}

/-- The interval between rounds decides when they happen, not what they do. -/
structure TamperConfig (π : Type) where
  protectedPaths : List π
  manifestPath : Option π

structure TamperPosture where
  isRoot : Bool
  systemdPresent : Bool
  pidNsMatchesInit : Bool
deriving DecidableEq, Repr

namespace TamperPosture

def isHealthy (p : TamperPosture) : Bool := p.isRoot && p.systemdPresent && p.pidNsMatchesInit

def weaknesses (p : TamperPosture) : List String :=
  (if p.isRoot then [] else ["not running as root (uid 0)"]) ++
  (if p.systemdPresent then [] else ["init system is not systemd (no watchdog)"]) ++
  (if p.pidNsMatchesInit then []
    else ["running in a non-init PID namespace (sandboxed/containerized)"])

theorem weaknesses_eq_nil_iff (p : TamperPosture) : p.weaknesses = [] ↔ p.isHealthy = true := by
  cases p with
  | mk root systemd pid => cases root <;> cases systemd <;> cases pid <;> decide

end TamperPosture

/-- `FS_IMMUTABLE_FL`. -/
def fsImmutableFl : BitVec 64 := 0x10

def isImmutable (flags : BitVec 64) : Bool := flags &&& fsImmutableFl ≠ 0

/-- The files of a host, and the flags words that can be read. -/
structure HostFiles (π : Type) where
  tree : FileTree π
  flags : π → Option (BitVec 64)

namespace HostFiles

/-- `Path::exists`, through any links. -/
def pathExists (h : HostFiles π) (path : π) : Bool :=
  (FileTree.follow h.tree FileTree.maxLinks path).isOk

def checkImmutable (h : HostFiles π) (path : π) : Bool := (h.flags path).any isImmutable

end HostFiles

inductive TamperCheck (π : Type) where
  | integrity (entry : ManifestEntry π)
  | immutable (path : π)
  | existence (path : π)
  | heartbeat

namespace TamperCheck

/-- The path that is looked at. -/
def path? : TamperCheck π → Option π
  | .integrity entry => some entry.path
  | .immutable path => some path
  | .existence path => some path
  | .heartbeat => none

end TamperCheck

/-- What the loop is started with; `readManifest` reads and parses a baseline. -/
structure TamperSetup (π : Type) where
  agentId : String
  hashBytes : List UInt8 → String
  render : π → String
  cfg : TamperConfig π
  readManifest : π → Option (Manifest π)

namespace TamperSetup
variable [DecidableEq π] (t : TamperSetup π)

/-- Loaded once; without it only existence is checked. -/
def manifest : Option (Manifest π) := t.cfg.manifestPath.bind t.readManifest

def covered (path : π) : Bool :=
  t.manifest.any fun m => m.entries.any fun e => e.path = path

def round : List (TamperCheck π) :=
  ((t.manifest.map Manifest.entries).getD []).map .integrity ++
    t.cfg.protectedPaths.map .immutable ++ t.cfg.protectedPaths.map .existence ++ [.heartbeat]

/-- The payload of `emit_tamper`. -/
def tamperAlert (title detail : String) : EventPayload F :=
  .alert .critical title detail (some t.agentId)

/-- What a check emits on the files as they are. -/
def report (h : HostFiles π) (uptime : UInt64) : TamperCheck π → Option (EventPayload F)
  | .integrity entry =>
      let kind := Manifest.verifyEntry t.hashBytes h.tree entry
      if kind.isDrift then some (t.tamperAlert "Tamper detected (integrity)"
        ("protected file " ++ t.render entry.path ++ ": " ++ kind.label))
      else none
  | .immutable path =>
      if h.pathExists path && !h.checkImmutable path then
        some (t.tamperAlert "Tamper detected (immutable bit cleared)"
          ("protected file no longer immutable: " ++ t.render path))
      else none
  | .existence path =>
      if !t.covered path && !h.pathExists path then
        some (t.tamperAlert "Tamper detected" ("protected path missing: " ++ t.render path))
      else none
  | .heartbeat => some (.heartbeat uptime)

/-- What is weak about a start. -/
def weak (p : TamperPosture) (h : HostFiles π) : List String :=
  let protectedImmutable := !t.cfg.protectedPaths.isEmpty &&
    t.cfg.protectedPaths.all fun path => !h.pathExists path || h.checkImmutable path
  p.weaknesses ++ (if !t.cfg.protectedPaths.isEmpty && !protectedImmutable then
    ["protected files are not immutable"] else [])

def startAlert (p : TamperPosture) (h : HostFiles π) : Option (EventPayload F) :=
  if (t.weak p h).isEmpty then none
  else some (.alert .critical "Agent mis-deployed (weak self-protection)"
    ("self-protection is degraded: " ++ "; ".intercalate (t.weak p h)) (some t.agentId))

omit [DecidableEq π] in
theorem startAlert_eq_none_iff (p : TamperPosture) (h : HostFiles π) :
    (t.startAlert p h : Option (EventPayload F)) = none ↔ p.isHealthy = true ∧
      ∀ path ∈ t.cfg.protectedPaths, h.pathExists path = true → h.checkImmutable path = true := by
  have halert : (t.startAlert p h : Option (EventPayload F)) = none ↔ t.weak p h = [] := by
    simp [startAlert]
  rw [halert, weak, List.append_eq_nil_iff, p.weaknesses_eq_nil_iff]
  refine and_congr_right fun _ => ?_
  by_cases hempty : t.cfg.protectedPaths = []
  · simp [hempty]
  · simp [hempty, imp_iff_not_or]

end TamperSetup

/-- The task that waits for a signal. Once it has reported one it ends the process, 200 ms later,
and no longer sees a stop. -/
inductive Tripwire where
  | waiting | leaving | gone
deriving DecidableEq, Repr

/-- The two background tasks; `emitted` has each payload with the check it came from. -/
structure TamperTasks (π F : Type) where
  host : HostFiles π
  todo : List (TamperCheck π)
  stopped : Bool
  watching : Bool
  tripwire : Tripwire
  exited : Bool
  emitted : List (Option (TamperCheck π) × EventPayload F)

namespace TamperTasks

inductive Act (π : Type) where
  | change (host : HostFiles π)
  | tick
  | check (uptime : UInt64)
  | signal (which : String)
  | exit
  | stop
  | finish
  | disarm

variable [DecidableEq π] (t : TamperSetup π)

/-- The tasks as `init` spawns them; the tripwire is gone at once where it cannot be installed. -/
def start (p : TamperPosture) (host : HostFiles π) (installed : Bool) : TamperTasks π F where
  host := host
  todo := []
  stopped := false
  watching := true
  tripwire := if installed then .waiting else .gone
  exited := false
  emitted := (t.startAlert p host).toList.map fun e => (none, e)

/-- A stop is seen between rounds; while the tripwire is leaving the loop goes on. -/
def step (s : TamperTasks π F) : Act π → Option (TamperTasks π F)
  | .change host => some { s with host := host }
  | .tick =>
      if s.exited = false ∧ s.watching = true ∧ s.todo.isEmpty then some { s with todo := t.round }
      else none
  | .check uptime => match s.todo with
    | [] => none
    | c :: rest =>
        if s.exited = false ∧ s.watching = true then some
          { s with
            todo := rest
            emitted := s.emitted ++
              ((t.report s.host uptime c).toList.map fun e => (some c, e)) }
        else none
  | .signal which =>
      if s.exited = false ∧ s.tripwire = .waiting then some
        { s with
          tripwire := .leaving
          emitted := s.emitted ++ [(none, t.tamperAlert "Agent stopping (possible tamper)"
            ("agent received " ++ which ++ " (possible tamper/stop)"))] }
      else none
  | .exit =>
      if s.exited = false ∧ s.tripwire = .leaving then some { s with exited := true } else none
  | .stop => some { s with stopped := true }
  | .finish =>
      if s.exited = false ∧ s.stopped = true ∧ s.todo.isEmpty then some { s with watching := false }
      else none
  | .disarm =>
      if s.exited = false ∧ s.stopped = true ∧ s.tripwire = .waiting then
        some { s with tripwire := .gone }
      else none

/-- The process ended, or a shutdown that waits for both tasks returned. -/
def Over (s : TamperTasks π F) : Prop :=
  s.exited = true ∨ s.watching = false ∧ s.tripwire = .gone

def isTick : Act π → Bool
  | .tick => true
  | _ => false

def ticks (l : List (Act π)) : ℕ := l.countP isTick

/-- What checks emit of a kind, where each check emits a fixed number. -/
def expected (n : TamperCheck π → ℕ) (checks : List (TamperCheck π)) : ℕ := (checks.map n).sum

omit [DecidableEq π] in
theorem expected_cons (n : TamperCheck π → ℕ) (c : TamperCheck π) (checks : List (TamperCheck π)) :
    expected n (c :: checks) = n c + expected n checks := by
  simp [expected]

/-- The reports of checks that satisfy `p`. -/
def reports (p : TamperCheck π → Bool) (s : TamperTasks π F) : ℕ :=
  s.emitted.countP fun x => x.1.any p

variable {t}

/-- Where files are such that each check emits a fixed number, so does each
round, however its checks and the changes of other files interleave. -/
theorem run_reports {good : HostFiles π → Prop} {p : TamperCheck π → Bool} {n : TamperCheck π → ℕ}
    (hn : ∀ h uptime, ∀ c ∈ t.round, good h →
      (if p c then (t.report h uptime c : Option (EventPayload F)).toList.length else 0) = n c)
    {s u : TamperTasks π F} {l : List (Act π)} (hs : ∀ c ∈ s.todo, c ∈ t.round)
    (h : GuardedRun (step t) (fun s _ => good s.host) s l u) :
    reports p u + expected n u.todo =
      reports p s + expected n s.todo + ticks l * expected n t.round := by
  induction h with
  | nil s => simp [ticks]
  | @cons s u v a l hg ht _ ih =>
      cases a with
      | change host =>
          cases ht
          rw [ih hs]
          simp [ticks, isTick, reports]
      | tick =>
          simp only [step] at ht
          split_ifs at ht with hidle
          cases ht
          have htodo : s.todo = [] := List.isEmpty_iff.mp hidle.2.2
          rw [ih fun c hc => hc]
          simp only [ticks, isTick, List.countP_cons, htodo, expected, List.map_nil, List.sum_nil,
            reports, if_true]
          ring
      | check uptime =>
          simp only [step] at ht
          split at ht
          · cases ht
          · rename_i c rest htodo
            split_ifs at ht
            cases ht
            have hemit : ((t.report s.host uptime c).toList.map fun e => (some c, e)).countP
                (fun x : Option (TamperCheck π) × EventPayload F => x.1.any p) = n c := by
              rw [← hn s.host uptime c (hs c (htodo ▸ List.mem_cons_self)) hg]
              split_ifs with hp <;> simp [List.countP_map, Function.comp_def, hp]
            have hsame : ticks (.check uptime :: l : List (Act π)) = ticks l := rfl
            have hrest : ∀ c ∈ rest, c ∈ t.round := fun c hc =>
              hs c (htodo ▸ List.mem_cons_of_mem _ hc)
            rw [ih hrest, hsame, htodo, expected_cons]
            simp only [reports, List.countP_append, hemit]
            omega
      | signal which =>
          simp only [step] at ht
          split_ifs at ht
          cases ht
          rw [ih hs]
          simp [ticks, isTick, reports]
      | exit =>
          simp only [step] at ht
          split_ifs at ht
          cases ht
          rw [ih hs]
          simp [ticks, isTick, reports]
      | stop =>
          cases ht
          rw [ih hs]
          simp [ticks, isTick, reports]
      | finish =>
          simp only [step] at ht
          split_ifs at ht
          cases ht
          rw [ih hs]
          simp [ticks, isTick, reports]
      | disarm =>
          simp only [step] at ht
          split_ifs at ht
          cases ht
          rw [ih hs]
          simp [ticks, isTick, reports]

/-- The path leads nowhere and nothing is there. -/
def Missing (path : π) (h : HostFiles π) : Prop := h.tree path = none

/-- The path is as it was recorded, and immutable. -/
def Intact (t : TamperSetup π) (path : π) (h : HostFiles π) : Prop :=
  (∀ m ∈ t.manifest, ∀ entry ∈ m.entries, entry.path = path →
    Manifest.verifyEntry t.hashBytes h.tree entry = .ok) ∧
  h.pathExists path = true ∧ h.checkImmutable path = true

variable (t) in
/-- How often a round looks for a path that is missing: by its manifest entries if it has any,
and else by the protected paths. -/
def lookups (path : π) : ℕ :=
  if t.covered path then ((t.manifest.map Manifest.entries).getD []).countP (·.path = path)
  else t.cfg.protectedPaths.count path

def about (path : π) (c : TamperCheck π) : Bool := c.path? = some path

/-- What a check reports of a missing path. -/
def missingReports (t : TamperSetup π) (path : π) : TamperCheck π → ℕ
  | .integrity entry => if entry.path = path then 1 else 0
  | .existence path' => if path' = path ∧ t.covered path = false then 1 else 0
  | _ => 0

omit [DecidableEq π] in
theorem pathExists_of_missing {path : π} {h : HostFiles π} (hmissing : Missing path h) :
    h.pathExists path = false := by
  have hnone : h.tree path = none := hmissing
  simp [HostFiles.pathExists, FileTree.maxLinks, FileTree.follow, hnone, Except.isOk, Except.toBool]

theorem report_missing {path : π} {h : HostFiles π} (hmissing : Missing path h) (uptime : UInt64)
    (c : TamperCheck π) :
    (if about path c then (t.report h uptime c : Option (EventPayload F)).toList.length else 0) =
      missingReports t path c := by
  have hexists := pathExists_of_missing hmissing
  cases c with
  | integrity entry =>
      by_cases hpath : entry.path = path
      · subst hpath
        have hnone : h.tree entry.path = none := hmissing
        simp [about, TamperCheck.path?, TamperSetup.report, Manifest.verifyEntry, hnone,
          DriftKind.isDrift, missingReports]
      · simp [about, TamperCheck.path?, missingReports, hpath]
  | immutable path' =>
      by_cases hpath : path' = path
      · subst hpath
        simp [about, TamperCheck.path?, TamperSetup.report, missingReports, hexists]
      · simp [about, TamperCheck.path?, missingReports, hpath]
  | existence path' =>
      by_cases hpath : path' = path
      · subst hpath
        cases hcovered : t.covered path' <;>
          simp [about, TamperCheck.path?, TamperSetup.report, missingReports, hexists, hcovered]
      · simp [about, TamperCheck.path?, missingReports, hpath]
  | heartbeat => rfl

theorem report_intact {path : π} {h : HostFiles π} (hintact : Intact t path h) (uptime : UInt64)
    {c : TamperCheck π} (hc : c ∈ t.round) :
    (if about path c then (t.report h uptime c : Option (EventPayload F)).toList.length else 0) =
      0 := by
  obtain ⟨hentries, hexists, himmutable⟩ := hintact
  split_ifs with habout
  swap
  · rfl
  cases c with
  | integrity entry =>
      have hpath : entry.path = path := by simpa [about, TamperCheck.path?] using habout
      have hmem : ∃ m ∈ t.manifest, entry ∈ m.entries := by
        cases hm : t.manifest with
        | none => simp [TamperSetup.round, hm] at hc
        | some m => exact ⟨m, rfl, by simpa [TamperSetup.round, hm] using hc⟩
      obtain ⟨m, hm, hentry⟩ := hmem
      simp [TamperSetup.report, hentries m hm entry hentry hpath, DriftKind.isDrift]
  | immutable path' =>
      have hpath : path' = path := by simpa [about, TamperCheck.path?] using habout
      simp [TamperSetup.report, hpath, himmutable]
  | existence path' =>
      have hpath : path' = path := by simpa [about, TamperCheck.path?] using habout
      simp [TamperSetup.report, hpath, hexists]
  | heartbeat => cases habout

omit [DecidableEq π] in
theorem expected_append (n : TamperCheck π → ℕ) (l m : List (TamperCheck π)) :
    expected n (l ++ m) = expected n l + expected n m := by
  simp [expected]

omit [DecidableEq π] in
theorem expected_map {α : Type} (f : α → TamperCheck π) (p : α → Bool) (n : TamperCheck π → ℕ)
    (hn : ∀ a, n (f a) = if p a then 1 else 0) (l : List α) :
    expected n (l.map f) = l.countP p := by
  induction l with
  | nil => rfl
  | cons a l ih =>
      rw [List.map_cons, expected_cons, ih, hn, List.countP_cons]
      exact Nat.add_comm _ _

theorem expected_missing (path : π) :
    expected (missingReports t path) t.round = lookups t path := by
  rw [TamperSetup.round, expected_append, expected_append, expected_append,
    expected_map _ (·.path = path) _ (fun e => by simp [missingReports]),
    expected_map TamperCheck.immutable (fun _ => false) _ (fun _ => rfl),
    expected_map TamperCheck.existence (fun a => a = path ∧ t.covered path = false) _
      (fun a => by simp [missingReports])]
  have hnone : t.covered path = false →
      ((t.manifest.map Manifest.entries).getD []).countP (·.path = path) = 0 := by
    intro hcovered
    rw [List.countP_eq_zero]
    cases hm : t.manifest with
    | none => simp
    | some m => simpa [TamperSetup.covered, hm] using hcovered
  cases hcovered : t.covered path with
  | true => simp [lookups, hcovered, expected, missingReports]
  | false =>
      have hcount : t.cfg.protectedPaths.countP (fun a => a = path ∧ false = false) =
          t.cfg.protectedPaths.count path :=
        List.countP_congr fun a _ => by simp
      rw [hnone hcovered, hcount]
      simp [lookups, hcovered, expected, missingReports]

theorem lookups_pos {path : π} (h : path ∈ t.cfg.protectedPaths) : 0 < lookups t path := by
  unfold lookups
  split_ifs with hcovered
  · rw [List.countP_pos_iff]
    cases hm : t.manifest with
    | none => simp [TamperSetup.covered, hm] at hcovered
    | some m => simpa [TamperSetup.covered, hm] using hcovered
  · exact List.count_pos_iff.mpr h

def isHeartbeat (c : TamperCheck π) : Bool := c.path? = none

theorem step_over {s u : TamperTasks π F} {a : Act π} (h : Over s) (ht : step t s a = some u) :
    Over u ∧ u.emitted = s.emitted := by
  cases a with
  | change host =>
      cases ht
      exact ⟨h, rfl⟩
  | stop =>
      cases ht
      exact ⟨h, rfl⟩
  | check uptime =>
      simp only [step] at ht
      split at ht
      · cases ht
      · rcases h with h | ⟨h, -⟩ <;> simp [h] at ht
  | tick => rcases h with h | ⟨h, -⟩ <;> simp [step, h] at ht
  | signal which => rcases h with h | ⟨-, h⟩ <;> simp [step, h] at ht
  | exit => rcases h with h | ⟨-, h⟩ <;> simp [step, h] at ht
  | disarm => rcases h with h | ⟨-, h⟩ <;> simp [step, h] at ht
  | finish =>
      simp only [step] at ht
      split_ifs at ht with hguard
      cases ht
      rcases h with h | ⟨-, h⟩
      · rw [hguard.1] at h
        cases h
      · exact ⟨Or.inr ⟨rfl, h⟩, rfl⟩

theorem run_over {s u : TamperTasks π F} {l : List (Act π)} (hs : Over s)
    (h : FreeRun (step t) s l u) : u.emitted = s.emitted := by
  induction h with
  | nil _ => rfl
  | cons _ ht _ ih =>
      obtain ⟨hover, hemitted⟩ := step_over hs ht
      rw [ih hover, hemitted]

variable (t) in
/-- Between two idle states, and with the files changing at any point, a path that stays
missing is reported by each round as often as it is looked up, which is at least once if it is
protected, a path that stays intact is not reported, each round ends in one heartbeat,
and nothing is emitted once the process has ended or a shutdown has returned. -/
theorem rounds_report {s u : TamperTasks π F} {l : List (Act π)} (hs : s.todo = [])
    (hu : u.todo = []) (h : FreeRun (step t) s l u) (path : π) :
    (GuardedRun (step t) (fun s _ => Missing path s.host) s l u →
      reports (about path) u = reports (about path) s + ticks l * lookups t path) ∧
    (path ∈ t.cfg.protectedPaths → 0 < lookups t path) ∧
    (GuardedRun (step t) (fun s _ => Intact t path s.host) s l u →
      reports (about path) u = reports (about path) s) ∧
    reports isHeartbeat u = reports isHeartbeat s + ticks l ∧
    (Over s → u.emitted = s.emitted) := by
  have htodo : ∀ c ∈ s.todo, c ∈ t.round := by simp [hs]
  refine ⟨fun hmissing => ?_, lookups_pos, fun hintact => ?_, ?_, fun hover => run_over hover h⟩
  · have hlook : ∀ (h : HostFiles π) uptime, ∀ c ∈ t.round, Missing path h →
        (if about path c then (t.report h uptime c : Option (EventPayload F)).toList.length
          else 0) = missingReports t path c :=
      fun _ uptime c _ hgood => report_missing hgood uptime c
    have hrun := run_reports hlook htodo hmissing
    rw [hs, hu, expected_missing] at hrun
    simpa [expected] using hrun
  · have hlook : ∀ (h : HostFiles π) uptime, ∀ c ∈ t.round, Intact t path h →
        (if about path c then (t.report h uptime c : Option (EventPayload F)).toList.length
          else 0) = (fun _ => 0) c :=
      fun _ uptime c hc hgood => report_intact hgood uptime hc
    have hrun := run_reports hlook htodo hintact
    simpa [expected] using hrun
  · have hbeat : ∀ (h : HostFiles π) uptime, ∀ c ∈ t.round, True →
        (if isHeartbeat c then (t.report h uptime c : Option (EventPayload F)).toList.length
          else 0) = if isHeartbeat c then 1 else 0 := by
      intro h uptime c _ _
      cases c <;> rfl
    have hrun := run_reports hbeat htodo h
    have hround : expected (fun c => if isHeartbeat c then 1 else 0) t.round = 1 := by
      rw [TamperSetup.round, expected_append, expected_append, expected_append,
        expected_map _ (fun _ => false) _ (fun _ => rfl),
        expected_map _ (fun _ => false) _ (fun _ => rfl),
        expected_map _ (fun _ => false) _ (fun _ => rfl)]
      simp [expected, isHeartbeat, TamperCheck.path?]
    rw [hs, hu, hround] at hrun
    simpa [expected] using hrun

/-- A program that the manifest covers and a unit that it leaves out. -/
def partlyCovered : TamperSetup String where
  agentId := "agent-1"
  hashBytes := Manifest.plainDigest
  render := id
  cfg := { protectedPaths := ["/usr/local/bin/aegis-agent", "/etc/systemd/system/aegis.service"],
           manifestPath := some "/var/lib/aegis/manifest.json" }
  readManifest := fun _ =>
    some ⟨0, [⟨"/usr/local/bin/aegis-agent", Manifest.plainDigest [127, 69, 76, 70], 4⟩]⟩

/-- The unit is gone, and the program as it was. -/
def unitRemoved : HostFiles String where
  tree path :=
    if path = "/usr/local/bin/aegis-agent" then some (.regular [127, 69, 76, 70] .full) else none
  flags path := if path = "/usr/local/bin/aegis-agent" then some fsImmutableFl else none

def oneRound (uptime : UInt64) : List (Act String) :=
  .tick :: List.replicate 6 (.check uptime)

/-- Two rounds, the second one after a signal, and a change when the process has ended. -/
def leavingRun : List (Act String) :=
  oneRound 0 ++ .signal "SIGTERM" :: oneRound 15 ++ [.exit]

def unitGone : TamperTasks String ℚ := start partlyCovered ⟨true, true, true⟩ unitRemoved true

instance (path : String) (h : HostFiles String) : Decidable (Missing path h) :=
  decidable_of_iff ((h.tree path).isNone = true) Option.isNone_iff_eq_none

instance (t : TamperSetup String) (path : String) (h : HostFiles String) :
    Decidable (Intact t path h) :=
  inferInstanceAs (Decidable ((∀ m ∈ t.manifest, ∀ entry ∈ m.entries, entry.path = path →
    Manifest.verifyEntry t.hashBytes h.tree entry = .ok) ∧
    h.pathExists path = true ∧ h.checkImmutable path = true))

/-- The unit is reported twice and the program never, and afterwards nothing is. -/
theorem rounds_report_leaving :
    ∃ u v : TamperTasks String ℚ, FreeRun (step partlyCovered) unitGone leavingRun u ∧
      reports (about "/etc/systemd/system/aegis.service") u = 2 ∧
      reports (about "/usr/local/bin/aegis-agent") u = 0 ∧ reports isHeartbeat u = 2 ∧
      FreeRun (step partlyCovered) u [.change ⟨fun _ => none, fun _ => none⟩] v ∧
      v.emitted = u.emitted := by
  have hmissing : ∃ u ∈ execute (step partlyCovered)
      (fun s _ => Missing "/etc/systemd/system/aegis.service" s.host) unitGone leavingRun,
      u.todo.isEmpty ∧ u.exited = true := by
    decide +kernel
  have hintact : ∃ u ∈ execute (step partlyCovered)
      (fun s _ => Intact partlyCovered "/usr/local/bin/aegis-agent" s.host) unitGone leavingRun,
      u.todo.isEmpty := by
    decide +kernel
  obtain ⟨u, hu, htodo, hexited⟩ := hmissing
  obtain ⟨w, hw, -⟩ := hintact
  have hrun := (run_of_execute hu).free
  obtain rfl : w = u := (run_of_execute hw).free.unique hrun
  have hidle := List.isEmpty_iff.mp htodo
  obtain ⟨hunit, -, -, hbeats, -⟩ := rounds_report partlyCovered rfl hidle hrun
    "/etc/systemd/system/aegis.service"
  obtain ⟨-, -, hprogram, -, -⟩ := rounds_report partlyCovered rfl hidle hrun
    "/usr/local/bin/aegis-agent"
  have hcount : reports (about "/etc/systemd/system/aegis.service") unitGone +
      ticks leavingRun * lookups partlyCovered "/etc/systemd/system/aegis.service" = 2 ∧
      reports (about "/usr/local/bin/aegis-agent") unitGone = 0 ∧
      reports isHeartbeat unitGone + ticks leavingRun = 2 := by
    decide +kernel
  have hchange : FreeRun (step partlyCovered) w [.change ⟨fun _ => none, fun _ => none⟩]
      { w with host := ⟨fun _ => none, fun _ => none⟩ } :=
    .cons trivial rfl (.nil _)
  obtain ⟨-, -, -, -, hover⟩ := rounds_report partlyCovered hidle (by exact hidle) hchange
    "/etc/systemd/system/aegis.service"
  exact ⟨w, _, hrun, (hunit (run_of_execute hu)).trans hcount.1,
    (hprogram (run_of_execute hw)).trans hcount.2.1, hbeats.trans hcount.2.2, hchange,
    hover (Or.inl hexited)⟩

end TamperTasks
end Aegis

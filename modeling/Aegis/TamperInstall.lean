import Aegis.LockableFiles
import Aegis.TamperManifest

/-!
# Installing and removing the agent

`install.rs` of the tamper plugin. An install writes the program, two units, a
manifest and a token, and locks all but the token at the end; it stops where a
step fails. Removing goes by the token if one can be read, so after an install
that stopped before its token it goes by the paths of an earlier one.
-/

namespace Aegis

structure InstallSpec where
  serviceName : String
  guardianName : String
  installPath : String
  serverUrl : String
  runAs : String
  unitDir : String
  stateDir : String
  deriving DecidableEq

/-- `Path::join`. -/
def joinPath (base name : String) : String :=
  if name.toList.head? = some '/' then name
  else if base.toList.getLast?.any fun c => c ≠ '/' then base ++ "/" ++ name
  else base ++ name

namespace InstallSpec

def default : InstallSpec where
  serviceName := "aegis-agent"
  guardianName := "aegis-guardian"
  installPath := "/usr/local/sbin/aegis-agent"
  serverUrl := "https://127.0.0.1:8443"
  runAs := "root"
  unitDir := "/etc/systemd/system"
  stateDir := "/var/lib/aegis"

variable (spec : InstallSpec)

def renderServiceUnit : String :=
  "[Unit]\n" ++
  "Description=Aegis behavioral threat-monitoring agent\n" ++
  "After=network-online.target\n" ++
  "Wants=network-online.target\n" ++
  "# The guardian restarts us if we are stopped; we bind to it.\n" ++
  "Requires=" ++ spec.guardianName ++ ".service\n" ++
  "\n" ++
  "[Service]\n" ++
  "Type=simple\n" ++
  "ExecStart=" ++ spec.installPath ++ " run --server " ++ spec.serverUrl ++ "\n" ++
  "Restart=always\n" ++
  "RestartSec=1\n" ++
  "User=" ++ spec.runAs ++ "\n" ++
  "# Self-protection hardening:\n" ++
  "OOMScoreAdjust=-900\n" ++
  "# No privilege transition (defeats setuid/LD_PRELOAD escalation paths);\n" ++
  "# root can still uninstall via the authenticated systemctl/chattr path.\n" ++
  "NoNewPrivileges=yes\n" ++
  "# Resist casual signals/kills via cgroup; root can still override.\n" ++
  "KillMode=process\n" ++
  "\n" ++
  "[Install]\n" ++
  "WantedBy=multi-user.target\n"

def renderGuardianUnit : String :=
  "[Unit]\n" ++
  "Description=Aegis agent guardian (anti-tamper watchdog)\n" ++
  "BindsTo=" ++ spec.serviceName ++ ".service\n" ++
  "After=" ++ spec.serviceName ++ ".service\n" ++
  "\n" ++
  "[Service]\n" ++
  "Type=simple\n" ++
  "ExecStart=" ++ spec.installPath ++ " guard --service " ++ spec.serviceName ++ "\n" ++
  "Restart=always\n" ++
  "RestartSec=1\n" ++
  "User=root\n" ++
  "\n" ++
  "[Install]\n" ++
  "WantedBy=multi-user.target\n"

def serviceUnitPath : String := joinPath spec.unitDir (spec.serviceName ++ ".service")

def guardianUnitPath : String := joinPath spec.unitDir (spec.guardianName ++ ".service")

def manifestPath : String := joinPath spec.stateDir "manifest.json"

def tokenPath : String := joinPath spec.stateDir "uninstall.token"

/-- The program and both units. -/
def protectedPaths : List String :=
  [spec.installPath, spec.serviceUnitPath, spec.guardianUnitPath]

/-- Everything that an install writes. -/
def installedPaths : List String := spec.protectedPaths ++ [spec.manifestPath, spec.tokenPath]

end InstallSpec

structure InstallToken where
  installedNs : UInt64
  installPath : String
  version : String
  unitDir : String
  serviceName : String
  guardianName : String
  deriving DecidableEq

/-- What the host and the libraries contribute: the file that a path leads to, the files under a
directory, and the formats of the token and the manifest. -/
structure InstallHost (φ : Type) where
  place : String → φ
  under : String → φ → Bool
  toStringPretty : InstallToken → List UInt8
  fromStr : List UInt8 → Option InstallToken
  hashBytes : List UInt8 → String
  toJson : Manifest φ → List UInt8

/-- One call of `install`: the spec, the running program, the clock and whether root calls, and how
the host lets each step come out. -/
structure InstallCall (φ : Type) where
  spec : InstallSpec
  program : List UInt8
  version : String
  manifestNs : UInt64
  tokenNs : UInt64
  isRoot : Bool
  results : ℕ → FileResult φ

namespace InstallCall
variable {φ : Type} (call : InstallCall φ)

def token : InstallToken where
  installedNs := call.tokenNs
  installPath := call.spec.installPath
  version := call.version
  unitDir := call.spec.unitDir
  serviceName := call.spec.serviceName
  guardianName := call.spec.guardianName

end InstallCall

namespace InstallHost
variable {φ : Type} (host : InstallHost φ)

def required (command : FileCommand φ UInt8) : ScriptLine φ UInt8 := ⟨true, command⟩

def bestEffort (command : FileCommand φ UInt8) : ScriptLine φ UInt8 := ⟨false, command⟩

/-- `write_root_owned`, which creates the parent first. -/
def writeRootOwned (path : String) (bytes : List UInt8) : List (ScriptLine φ UInt8) :=
  [required .check, required (.rewrite (host.place path) bytes)]

/-- Steps 1 and 2, and what precedes the writing of the manifest. -/
def fileLines (call : InstallCall φ) : List (ScriptLine φ UInt8) :=
  let spec := call.spec
  [bestEffort (.unlock (host.place spec.installPath)),
    -- the running program, the directory, and the source of the copy
    required .check, required .check, required .check,
    required (.rewrite (host.place spec.installPath) call.program),
    bestEffort (.unlock (host.place spec.serviceUnitPath)),
    bestEffort (.unlock (host.place spec.guardianUnitPath))] ++
  host.writeRootOwned spec.serviceUnitPath spec.renderServiceUnit.toUTF8.data.toList ++
  host.writeRootOwned spec.guardianUnitPath spec.renderGuardianUnit.toUTF8.data.toList ++
  [bestEffort (.unlock (host.place spec.manifestPath)),
    -- the hashing of the protected files
    required .check]

/-- The rest of step 3, and steps 4 to 6. -/
def recordLines (call : InstallCall φ) (baseline : Manifest φ) : List (ScriptLine φ UInt8) :=
  let spec := call.spec
  [required .check] ++
  host.writeRootOwned spec.manifestPath (host.toJson baseline) ++
  [required .check] ++
  host.writeRootOwned spec.tokenPath (host.toStringPretty call.token) ++
  -- `daemon-reload` and `enable`
  [required .check, required .check] ++
  (spec.protectedPaths ++ [spec.manifestPath]).map fun path => required (.lock (host.place path))

/-- What hashing sees of the files. -/
def tree (d : Disk φ UInt8) : FileTree φ := fun p =>
  (d p).map fun f => .regular f.contents .full

variable [DecidableEq φ]

def install (call : InstallCall φ) (d : Disk φ UInt8) : ScriptRun φ UInt8 :=
  if !call.isRoot then ⟨d, [], false⟩ else
    let files := d.execute (host.fileLines call) call.results
    if !files.completed then files else
      match Manifest.fromPaths host.hashBytes (tree files.disk) call.manifestNs
          (call.spec.protectedPaths.map host.place) with
      | .error _ => { files with completed := false }
      | .ok baseline =>
          let record := files.disk.execute (host.recordLines call baseline) fun n =>
            call.results (n + (host.fileLines call).length)
          { record with trace := files.trace ++ record.trace }

omit [DecidableEq φ] in
/-- The spec with the paths of the token, if one can be read. -/
def loadSpecFromToken (spec : InstallSpec) (d : Disk φ UInt8) : Option InstallSpec := do
  let raw ← d (host.place spec.tokenPath)
  let token ← host.fromStr raw.contents
  return { spec with
    installPath := token.installPath
    unitDir := token.unitDir
    serviceName := token.serviceName
    guardianName := token.guardianName }

omit [DecidableEq φ] in
def effective (spec : InstallSpec) (d : Disk φ UInt8) : InstallSpec :=
  (host.loadSpecFromToken spec d).getD spec

/-- Steps 2 to 5 of `uninstall`. -/
def uninstallLines (spec : InstallSpec) : List (ScriptLine φ UInt8) :=
  (spec.protectedPaths ++ [spec.manifestPath]).map
    (fun path => bestEffort (.unlock (host.place path))) ++
  -- `disable` and `daemon-reload`
  [bestEffort .check, bestEffort .check] ++
  [spec.serviceUnitPath, spec.guardianUnitPath, spec.installPath, spec.manifestPath,
    spec.tokenPath].map (fun path => required (.remove (host.place path))) ++
  [bestEffort (.removeTree (host.under (joinPath spec.stateDir "plugin-transport"))),
    bestEffort (.remove (host.place (joinPath spec.stateDir "spill.redb"))),
    -- the state directory, if it is empty now, and `daemon-reload`
    bestEffort .check, bestEffort .check]

def uninstall (spec : InstallSpec) (isRoot : Bool) (results : ℕ → FileResult φ)
    (d : Disk φ UInt8) : ScriptRun φ UInt8 :=
  if !isRoot then ⟨d, [], false⟩
  else d.execute (host.uninstallLines (host.effective spec d)) results

/-- The files after some calls of `install`, and their traces. -/
def installAll (d : Disk φ UInt8) : List (InstallCall φ) → Disk φ UInt8 × List (FileTrace φ UInt8)
  | [] => (d, [])
  | call :: calls =>
      let run := host.install call d
      let rest := installAll run.disk calls
      (rest.1, run.trace :: rest.2)

omit [DecidableEq φ] in
theorem fileLines_keep (call : InstallCall φ) :
    (host.fileLines call).all (fun line => !line.command.removes) = true :=
  rfl

omit [DecidableEq φ] in
theorem recordLines_keep (call : InstallCall φ) (baseline : Manifest φ) :
    (host.recordLines call baseline).all (fun line => !line.command.removes) = true :=
  rfl

omit [DecidableEq φ] in
theorem uninstallLines_write_nothing (spec : InstallSpec) :
    (host.uninstallLines spec).all (fun line => !line.command.writes) = true :=
  rfl

omit [DecidableEq φ] in
theorem uninstallLines_required (spec : InstallSpec) :
    (host.uninstallLines spec).all (fun line => !line.required || line.command.onFiles) = true :=
  rfl

theorem no_clear_of_keep {d : Disk φ UInt8} {lines : List (ScriptLine φ UInt8)}
    (hkeep : lines.all (fun line => !line.command.removes) = true) (results : ℕ → FileResult φ)
    (p : φ) : ∀ e ∈ (d.execute lines results).trace, FileTrace.clears p e = false := by
  intro e he
  obtain ⟨line, hline, hcommand⟩ := Disk.mem_execute_trace he
  apply FileTrace.clears_of_not_removes
  rw [hcommand]
  simpa using List.all_eq_true.mp hkeep line hline

theorem install_replay (call : InstallCall φ) (d : Disk φ UInt8) (p : φ) :
    (host.install call d).disk = d.replay (host.install call d).trace ∧
      ∀ e ∈ (host.install call d).trace, FileTrace.clears p e = false := by
  have hfiles := no_clear_of_keep (d := d) (host.fileLines_keep call) call.results p
  have hdisk := Disk.execute_disk d (host.fileLines call) call.results
  unfold install
  split_ifs
  · refine ⟨rfl, fun e he => ?_⟩
    cases he
  · dsimp only
    split_ifs
    · exact ⟨hdisk, hfiles⟩
    · split
      · exact ⟨hdisk, hfiles⟩
      · rename_i baseline _
        refine ⟨?_, ?_⟩
        · rw [Disk.replay_append, ← hdisk]
          exact Disk.execute_disk _ _ _
        · intro e he
          rcases List.mem_append.mp he with hfirst | hlast
          · exact hfiles e hfirst
          · exact no_clear_of_keep (host.recordLines_keep call baseline) _ p e hlast

theorem isSome_install (call : InstallCall φ) (d : Disk φ UInt8) (p : φ) :
    ((host.install call d).disk p).isSome =
      ((d p).isSome || (host.install call d).trace.any (FileTrace.opens p)) := by
  obtain ⟨hdisk, hkeep⟩ := host.install_replay call d p
  rw [hdisk]
  exact Disk.isSome_replay_of_no_clear d hkeep

theorem isSome_installAll (d : Disk φ UInt8) (calls : List (InstallCall φ)) (p : φ) :
    ((host.installAll d calls).1 p).isSome =
      ((d p).isSome || (host.installAll d calls).2.any fun t => t.any (FileTrace.opens p)) := by
  induction calls generalizing d with
  | nil => simp [installAll]
  | cons call calls ih =>
      simp only [installAll, List.any_cons]
      rw [ih, isSome_install, Bool.or_assoc]

/-- The files that `uninstall` removes with these paths. -/
def Sweeps (spec : InstallSpec) (p : φ) : Prop :=
  (∃ path ∈ spec.installedPaths, p = host.place path) ∨
    host.under (joinPath spec.stateDir "plugin-transport") p = true ∨
    p = host.place (joinPath spec.stateDir "spill.redb")

theorem any_clears_uninstallLines (spec : InstallSpec) (p : φ) :
    ((host.uninstallLines spec).any fun line => FileTrace.clears p (line.command, .done)) = true ↔
      host.Sweeps spec p := by
  simp only [uninstallLines, InstallSpec.protectedPaths, InstallSpec.installedPaths, Sweeps,
    required, bestEffort, FileTrace.clears, List.any_cons, List.any_nil, List.map_cons,
    List.map_nil, Bool.or_eq_true, decide_eq_true_eq, List.cons_append, List.nil_append,
    List.mem_cons, List.not_mem_nil, Bool.or_false, Bool.false_or, exists_eq_or_imp,
    exists_eq_left, or_false, or_assoc]
  -- the units are removed before the program
  exact (or_congr_right or_left_comm).trans or_left_comm

theorem isSome_uninstall {spec : InstallSpec} {results : ℕ → FileResult φ} {d : Disk φ UInt8}
    (hsmooth : (host.uninstall spec true results d).smooth = true) (p : φ) :
    ((host.uninstall spec true results d).disk p).isSome = true ↔
      (d p).isSome = true ∧ ¬host.Sweeps (host.effective spec d) p := by
  have hrun : host.uninstall spec true results d =
    d.execute (host.uninstallLines (host.effective spec d)) results := if_neg (by simp)
  rw [hrun] at hsmooth ⊢
  have hopens : ∀ e ∈ (d.execute (host.uninstallLines (host.effective spec d)) results).trace,
      FileTrace.opens p e = false := by
    intro e he
    obtain ⟨line, hline, hcommand⟩ := Disk.mem_execute_trace he
    apply FileTrace.opens_of_not_writes
    rw [hcommand]
    simpa using List.all_eq_true.mp (host.uninstallLines_write_nothing _) line hline
  have hrequired : ∀ line ∈ host.uninstallLines (host.effective spec d), line.required = true →
      line.command.onFiles = true := by
    intro line hline hreq
    have hline' := List.all_eq_true.mp (host.uninstallLines_required _) line hline
    rwa [hreq, Bool.not_true, Bool.false_or] at hline'
  rw [Disk.execute_disk, Disk.isSome_replay_of_no_open d hopens,
    Disk.any_clears_of_smooth hrequired hsmooth, Bool.and_eq_true, Bool.not_eq_true',
    ← Bool.not_eq_true, any_clears_uninstallLines]

/-- Nothing of the install is left, and nothing of it locked. -/
structure Undone (spec : InstallSpec) (d : Disk φ UInt8) : Prop where
  absent : ∀ path ∈ spec.installedPaths, d (host.place path) = none
  unlocked : ∀ path ∈ spec.installedPaths, d.isLocked (host.place path) = false

/-- Each of the program and the units is among what removing by the token sweeps, or was not there
at first and opened by none of the installs. -/
def Covered (spec : InstallSpec) (d : Disk φ UInt8) (calls : List (InstallCall φ)) : Prop :=
  ∀ path ∈ spec.protectedPaths,
    host.Sweeps (host.effective spec (host.installAll d calls).1) (host.place path) ∨
      d (host.place path) = none ∧
        ∀ t ∈ (host.installAll d calls).2, t.any (FileTrace.opens (host.place path)) = false

omit [DecidableEq φ] in
theorem effective_stateDir (spec : InstallSpec) (d : Disk φ UInt8) :
    (host.effective spec d).stateDir = spec.stateDir := by
  unfold effective loadSpecFromToken
  cases d (host.place spec.tokenPath) with
  | none => rfl
  | some raw =>
      simp only [Option.bind_eq_bind, Option.bind_some]
      cases host.fromStr raw.contents <;> rfl

omit [DecidableEq φ] in
/-- The manifest and the token are swept whatever the token says. -/
theorem sweeps_records (spec : InstallSpec) (d : Disk φ UInt8) {path : String}
    (h : path ∈ spec.installedPaths) (hrecord : path ∉ spec.protectedPaths) :
    host.Sweeps (host.effective spec d) (host.place path) := by
  have hdir := host.effective_stateDir spec d
  rcases List.mem_append.mp h with hprotected | hlast
  · exact absurd hprotected hrecord
  · refine Or.inl ⟨path, List.mem_append_right _ ?_, rfl⟩
    rwa [InstallSpec.manifestPath, InstallSpec.tokenPath, hdir]

/-- After any installs, a removal by the spec of the last one in which every operation on the files
succeeds leaves nothing of it exactly if that install is covered. -/
theorem undone_iff (host : InstallHost φ) (d : Disk φ UInt8) (calls : List (InstallCall φ))
    (last : InstallCall φ) (results : ℕ → FileResult φ)
    (hsmooth : (host.uninstall last.spec true results
      (host.installAll d (calls ++ [last])).1).smooth = true) :
    host.Undone last.spec (host.uninstall last.spec true results
        (host.installAll d (calls ++ [last])).1).disk ↔
      host.Covered last.spec d (calls ++ [last]) := by
  obtain ⟨disk, hdisk⟩ : ∃ disk, disk = (host.installAll d (calls ++ [last])).1 := ⟨_, rfl⟩
  have hnever : ∀ p, disk p = none ↔ d p = none ∧
      ∀ t ∈ (host.installAll d (calls ++ [last])).2, t.any (FileTrace.opens p) = false := by
    intro p
    have hthere := host.isSome_installAll d (calls ++ [last]) p
    rw [← Option.not_isSome_iff_eq_none, ← Option.not_isSome_iff_eq_none, hdisk, hthere,
      Bool.or_eq_true, not_or, List.any_eq_true]
    simp only [not_exists, not_and, Bool.not_eq_true]
  have hleft : ∀ p, (host.uninstall last.spec true results disk).disk p = none ↔
      host.Sweeps (host.effective last.spec disk) p ∨ d p = none ∧
        ∀ t ∈ (host.installAll d (calls ++ [last])).2, t.any (FileTrace.opens p) = false := by
    intro p
    rw [← hdisk] at hsmooth
    rw [← hnever, ← Option.not_isSome_iff_eq_none, host.isSome_uninstall hsmooth, not_and_or,
      not_not, Option.not_isSome_iff_eq_none, or_comm]
  rw [Covered, ← hdisk]
  constructor
  · intro h path hpath
    exact (hleft _).mp (h.absent path (List.mem_append_left _ hpath))
  · intro h
    have habsent : ∀ path ∈ last.spec.installedPaths,
        (host.uninstall last.spec true results disk).disk (host.place path) = none := by
      intro path hpath
      by_cases hprotected : path ∈ last.spec.protectedPaths
      · exact (hleft _).mpr (h path hprotected)
      · exact (hleft _).mpr (Or.inl (host.sweeps_records last.spec disk hpath hprotected))
    refine ⟨habsent, fun path hpath => ?_⟩
    rw [Disk.isLocked, habsent path hpath]
    rfl

variable {host}

/-- The printed token reads back, and no beginning of it reads as a token. -/
structure Reads (host : InstallHost φ) (token : InstallToken) : Prop where
  whole : host.fromStr (host.toStringPretty token) = some token
  torn : ∀ n < (host.toStringPretty token).length,
    host.fromStr ((host.toStringPretty token).take n) = none

theorem installAll_snoc (d : Disk φ UInt8) (calls : List (InstallCall φ)) (last : InstallCall φ) :
    (host.installAll d (calls ++ [last])).1 =
      (host.install last (host.installAll d calls).1).disk := by
  induction calls generalizing d with
  | nil => rfl
  | cons call calls ih => exact ih _

/-- Once an install has opened its token, removing goes by its own spec. -/
theorem effective_of_signed {call : InstallCall φ} (hreads : Reads host call.token)
    {d : Disk φ UInt8} {before after : FileTrace φ UInt8} {result : FileResult φ}
    (htrace : (host.install call d).trace = before ++ (.rewrite (host.place call.spec.tokenPath)
      (host.toStringPretty call.token), result) :: after)
    (hopened : result.isRefused = false)
    (hlast : ∀ e ∈ after, FileTrace.opens (host.place call.spec.tokenPath) e = false) :
    host.effective call.spec (host.install call d).disk = call.spec := by
  obtain ⟨hdisk, hkeeps⟩ := host.install_replay call d (host.place call.spec.tokenPath)
  rw [htrace] at hkeeps hdisk
  obtain ⟨n, hn⟩ : ∃ n, ((host.install call d).disk (host.place call.spec.tokenPath)).map
      DiskFile.contents = some ((host.toStringPretty call.token).take n) := by
    rw [hdisk, Disk.replay_append, Disk.replay_cons, Disk.contents_replay _ fun e he =>
      ⟨hlast e he, hkeeps e (List.mem_append_right _ (List.mem_cons_of_mem _ he))⟩]
    cases result with
    | refused => cases hopened
    | done =>
        refine ⟨(host.toStringPretty call.token).length, ?_⟩
        rw [List.take_length, Disk.effect, Disk.put_self]
        rfl
    | cut n left =>
        refine ⟨n, ?_⟩
        rw [Disk.effect, Disk.put_self]
        rfl
  obtain ⟨raw, hraw, hcontents⟩ := Option.map_eq_some_iff.mp hn
  rw [effective, loadSpecFromToken, hraw]
  simp only [Option.bind_eq_bind, Option.bind_some, hcontents]
  by_cases hcut : n < (host.toStringPretty call.token).length
  · rw [hreads.torn n hcut]
    rfl
  · rw [List.take_of_length_le (Nat.not_lt.mp hcut), hreads.whole]
    rfl

theorem covered_of_effective {d : Disk φ UInt8} {calls : List (InstallCall φ)} {spec : InstallSpec}
    (h : host.effective spec (host.installAll d calls).1 = spec) : host.Covered spec d calls := by
  intro path hpath
  left
  rw [h]
  exact Or.inl ⟨path, List.mem_append_left _ hpath, rfl⟩

theorem covered_of_signed {last : InstallCall φ} (hreads : Reads host last.token)
    {d : Disk φ UInt8} {calls : List (InstallCall φ)} {before after : FileTrace φ UInt8}
    {result : FileResult φ}
    (htrace : (host.install last (host.installAll d calls).1).trace =
      before ++ (.rewrite (host.place last.spec.tokenPath)
        (host.toStringPretty last.token), result) :: after)
    (hopened : result.isRefused = false)
    (hlast : ∀ e ∈ after, FileTrace.opens (host.place last.spec.tokenPath) e = false) :
    host.Covered last.spec d (calls ++ [last]) := by
  apply covered_of_effective
  rw [installAll_snoc]
  exact effective_of_signed hreads htrace hopened hlast

/-- Two spaces before each field, as the pretty printer has it; no string here needs an escape. -/
def prettyToken (token : InstallToken) : String :=
  "\x7b\n  \"installed_ns\": " ++ toString token.installedNs.toNat ++
  ",\n  \"install_path\": \"" ++ token.installPath ++
  "\",\n  \"version\": \"" ++ token.version ++
  "\",\n  \"unit_dir\": \"" ++ token.unitDir ++
  "\",\n  \"service_name\": \"" ++ token.serviceName ++
  "\",\n  \"guardian_name\": \"" ++ token.guardianName ++ "\"\n\x7d"

/-- Paths without links, and a reader that knows these tokens. -/
def plainHost (known : List InstallToken) : InstallHost String where
  place := id
  under dir p := (dir ++ "/").toList.isPrefixOf p.toList
  toStringPretty token := (prettyToken token).toUTF8.data.toList
  fromStr bytes := known.find? fun token => (prettyToken token).toUTF8.data.toList = bytes
  hashBytes := Manifest.plainDigest
  toJson _ := "\x7b\x7d".toUTF8.data.toList

def installOf (spec : InstallSpec) (results : ℕ → FileResult String) : InstallCall String where
  spec := spec
  program := [127, 69, 76, 70]
  version := "0.1.0"
  manifestNs := 1
  tokenNs := 2
  isRoot := true
  results := results

/-- An install that goes through. -/
def firstInstall : InstallCall String := installOf .default fun _ => .done

/-- The disk is full when the first unit is written. -/
def fullDisk (n : ℕ) : FileResult String := if n = 8 then .cut 0 fun _ => true else .done

def retried : InstallCall String := installOf .default fullDisk

/-- To another place this time. -/
def movedInstall : InstallCall String :=
  installOf { InstallSpec.default with installPath := "/opt/aegis/agent" } fullDisk

def knownHost : InstallHost String := plainHost [firstInstall.token]

def noFiles : Disk String UInt8 := fun _ => none

theorem undone_iff_retried :
    knownHost.Undone retried.spec (knownHost.uninstall retried.spec true (fun _ => .done)
      (knownHost.installAll noFiles [firstInstall, retried]).1).disk := by
  apply (undone_iff knownHost noFiles [firstInstall] retried (fun _ => .done)
    (by decide +kernel)).mpr
  apply covered_of_effective
  decide +kernel

/-- A token is left of an install to another place, so the program stays. -/
theorem staleToken_leaves_program :
    ¬∀ (host : InstallHost String) (d : Disk String UInt8) (calls : List (InstallCall String))
      (last : InstallCall String) (results : ℕ → FileResult String),
      (∀ call ∈ calls, call.spec.stateDir = last.spec.stateDir) →
      (host.uninstall last.spec true results
        (host.installAll d (calls ++ [last])).1).smooth = true →
      host.Undone last.spec (host.uninstall last.spec true results
        (host.installAll d (calls ++ [last])).1).disk := by
  intro h
  have hundone := h knownHost noFiles [firstInstall] movedInstall (fun _ => .done)
    (by simp [firstInstall, movedInstall, installOf]) (by decide +kernel)
  have hprogram := hundone.absent "/opt/aegis/agent" (by decide +kernel)
  have hleft : ((knownHost.uninstall movedInstall.spec true (fun _ => .done)
      (knownHost.installAll noFiles ([firstInstall] ++ [movedInstall])).1).disk
        (knownHost.place "/opt/aegis/agent")).isSome = true := by
    decide +kernel
  rw [hprogram] at hleft
  cases hleft

end InstallHost
end Aegis

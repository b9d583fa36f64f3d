import Aegis.Event
import Aegis.SeenSet

/-!
# The process collector

`plugin-process` samples the process table and emits an event for each process it
has not seen, known by its pid and start time. A scan that fails is skipped.
-/

namespace Aegis

/-- A record of the process table. -/
structure ProcInfo where
  pid : UInt32
  ppid : UInt32
  uid : UInt32
  comm : String
  cmdline : List String
  starttime : UInt64
  deriving DecidableEq, Repr

structure ProcessConfig where
  interactiveUidsOnly : Bool
  cmdlineCapture : Bool
  deriving DecidableEq, Repr

def ProcessConfig.default : ProcessConfig := ⟨false, false⟩

/-- Survives the reuse of a pid. -/
abbrev ProcKey : Type := UInt32 × UInt64

def ProcInfo.key (p : ProcInfo) : ProcKey := (p.pid, p.starttime)

def redactCmdline (cmdline : List String) : List String := cmdline.take 1

namespace ProcessScan

def seenLimit : ℕ := 65536

/-- The filter on the owner. -/
def reports (cfg : ProcessConfig) (p : ProcInfo) : Bool :=
  !(cfg.interactiveUidsOnly && decide (p.uid < 1000))

/-- The locked section of the loop: over the limit the set retains what the snapshot
holds, then the processes that pass the filter are inserted, and new ones are kept. -/
def toEmit (cfg : ProcessConfig) (seen : Finset ProcKey) (snapshot : List ProcInfo) :
    Finset ProcKey × List ProcInfo :=
  SeenSet.observe ProcInfo.key (reports cfg) seenLimit seen snapshot

def execPayload {F : Type} (cfg : ProcessConfig) (p : ProcInfo) : EventPayload F :=
  .processExec p.pid p.ppid p.uid p.comm
    (if cfg.cmdlineCapture then p.cmdline else redactCmdline p.cmdline) none

/-- One round of the loop, with the payloads it emits. -/
def tick {F : Type} (cfg : ProcessConfig) (seen : Finset ProcKey) :
    Option (List ProcInfo) → Finset ProcKey × List (EventPayload F)
  | none => (seen, [])
  | some snapshot =>
      let (seen', new) := toEmit cfg seen snapshot
      (seen', new.map (execPayload cfg))

/-- The set after some rounds. -/
def runTicks (cfg : ProcessConfig) (ticks : List (Option (List ProcInfo))) : Finset ProcKey :=
  ticks.foldl (fun seen scan => (tick (F := Unit) cfg seen scan).1) ∅

/-- The processes emitted at a snapshot that follows others. -/
def emittedAt (cfg : ProcessConfig) (history : List (List ProcInfo)) (snapshot : List ProcInfo) :
    List ProcInfo :=
  SeenSet.reportedAt ProcInfo.key (reports cfg) seenLimit history snapshot

/-- The size of the set when a snapshot that follows others arrives. -/
def seenCount (cfg : ProcessConfig) (history : List (List ProcInfo)) : ℕ :=
  (SeenSet.seenAfter ProcInfo.key (reports cfg) seenLimit history).card

def Present (k : ProcKey) (snapshot : List ProcInfo) : Prop := k ∈ snapshot.map ProcInfo.key

/-- Present under an owner that passes the filter. -/
def Reported (cfg : ProcessConfig) (k : ProcKey) (snapshot : List ProcInfo) : Prop :=
  k ∈ (snapshot.filter (reports cfg)).map ProcInfo.key

/-- Emitted at a snapshot that follows others. -/
def Emitted (cfg : ProcessConfig) (k : ProcKey) (history : List (List ProcInfo))
    (snapshot : List ProcInfo) : Prop :=
  k ∈ (emittedAt cfg history snapshot).map ProcInfo.key

theorem runTicks_eq (cfg : ProcessConfig) (ticks : List (Option (List ProcInfo))) :
    runTicks cfg ticks =
      SeenSet.seenAfter ProcInfo.key (reports cfg) seenLimit ticks.reduceOption := by
  have hfold : ∀ seen : Finset ProcKey,
      ticks.foldl (fun seen scan => (tick (F := Unit) cfg seen scan).1) seen =
        ticks.reduceOption.foldl (fun seen snapshot => (toEmit cfg seen snapshot).1) seen := by
    induction ticks with
    | nil => exact fun _ => rfl
    | cons scan ticks ih =>
        intro seen
        cases scan with
        | none => exact ih seen
        | some snapshot => exact ih (toEmit cfg seen snapshot).1
  exact hfold ∅

theorem tick_emits {F : Type} (cfg : ProcessConfig) (ticks : List (Option (List ProcInfo)))
    (snapshot : List ProcInfo) :
    (tick (F := F) cfg (runTicks cfg ticks) (some snapshot)).2 =
      (emittedAt cfg ticks.reduceOption snapshot).map (execPayload cfg) := by
  rw [runTicks_eq]
  rfl

/-- Processes are emitted in the order of the table, and only if they pass the filter. -/
theorem emittedAt_sublist (cfg : ProcessConfig) (history : List (List ProcInfo))
    (snapshot : List ProcInfo) :
    (emittedAt cfg history snapshot).Sublist (snapshot.filter (reports cfg)) :=
  SeenSet.reportedAt_sublist history snapshot

/-- Without the opt-in no argument of a command line leaves the collector. -/
theorem execPayload_redacted {F : Type} {cfg : ProcessConfig} (h : cfg.cmdlineCapture = false)
    (p : ProcInfo) : execPayload (F := F) cfg p =
      .processExec p.pid p.ppid p.uid p.comm (p.cmdline.take 1) none := by
  rw [execPayload, h]
  rfl

theorem emitted_iff {cfg : ProcessConfig} {k : ProcKey} {history : List (List ProcInfo)}
    {snapshot : List ProcInfo} :
    Emitted cfg k history snapshot ↔
      k ∉ SeenSet.seenAfter ProcInfo.key (reports cfg) seenLimit history ∧
        Reported cfg k snapshot :=
  SeenSet.mem_reportedAt

/-- An identity is emitted where it first passes the filter, once in a snapshot, and again
only after a snapshot without it at which the set was over its limit; so never again while
it stays present. -/
theorem identity_emitted_once (cfg : ProcessConfig) (pid : UInt32) (starttime : UInt64)
    (history : List (List ProcInfo)) (snapshot : List ProcInfo) :
    ((∀ s ∈ history, ¬ Reported cfg (pid, starttime) s) →
        Reported cfg (pid, starttime) snapshot → Emitted cfg (pid, starttime) history snapshot) ∧
      (Emitted cfg (pid, starttime) history snapshot → Reported cfg (pid, starttime) snapshot) ∧
      ((emittedAt cfg history snapshot).map ProcInfo.key).count (pid, starttime) ≤ 1 ∧
      (∀ past first since, history = past ++ first :: since →
        Emitted cfg (pid, starttime) past first →
        (∀ s ∈ since, Present (pid, starttime) s) →
        ¬ Emitted cfg (pid, starttime) history snapshot) ∧
      (∀ past first since, history = past ++ first :: since →
        Emitted cfg (pid, starttime) past first →
        Emitted cfg (pid, starttime) history snapshot →
        ∃ before s after, since = before ++ s :: after ∧
          seenLimit < seenCount cfg (past ++ first :: before) ∧
          ¬ Present (pid, starttime) s) := by
  have hdropped : ∀ past first since, history = past ++ first :: since →
      Emitted cfg (pid, starttime) past first → Emitted cfg (pid, starttime) history snapshot →
      ∃ before s after, since = before ++ s :: after ∧
        seenLimit < seenCount cfg (past ++ first :: before) ∧ ¬ Present (pid, starttime) s := by
    rintro past first since rfl hfirst hagain
    obtain ⟨before, s, after, hsince, hcard, habsent⟩ :=
      SeenSet.droppedIn_of_reported_again hfirst hagain
    rw [List.append_assoc, List.singleton_append] at hcard
    exact ⟨before, s, after, hsince, hcard, habsent⟩
  refine ⟨?_, fun h => (emitted_iff.mp h).2, ?_, ?_, hdropped⟩
  · intro hnever hreported
    exact emitted_iff.mpr ⟨SeenSet.not_mem_seenAfter hnever, hreported⟩
  · exact List.nodup_iff_count_le_one.mp (SeenSet.reportedAt_nodup history snapshot) _
  · intro past first since heq hfirst hpresent hagain
    obtain ⟨before, s, after, rfl, -, habsent⟩ := hdropped past first since heq hfirst hagain
    exact habsent (hpresent s (List.mem_append_right before List.mem_cons_self))

/-- A new start time makes a recycled pid a new identity. -/
example : (emittedAt .default [[⟨4321, 1, 1000, "sh", [], 1000⟩]]
    [⟨4321, 1, 1000, "sh", [], 1000⟩, ⟨4321, 1, 1000, "vi", [], 2000⟩]).map ProcInfo.key =
      [(4321, 2000)] := by
  decide +kernel

end ProcessScan
end Aegis

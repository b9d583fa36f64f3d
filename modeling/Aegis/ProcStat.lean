import Aegis.CheckedDecimal
import Aegis.IdentityFiles
import Aegis.ProcessScan
import Aegis.TextFields
import Mathlib.Data.List.ReduceOption

/-!
# Reading the process table

`scan` of `plugin-process` and the parsers it uses. The name in a `stat` line is
chosen by the process and may hold anything, also what looks like the rest of a
line; the fields that follow it hold no parenthesis, so the last one closes the
name.
-/

namespace Aegis.ProcStat
open TextFields

/-- `&str`, which is never longer than `isize::MAX`. -/
structure Str where
  chars : List Char
  fits : extent Char.utf8Size chars < 2 ^ 63

inductive Panic where
  | addOverflow
  deriving DecidableEq

/-- `+` on `usize`. -/
def addUsize (a b : ℕ) : Except Panic ℕ :=
  if a + b < 2 ^ 64 then .ok (a + b) else .error .addOverflow

/-- `str::rfind` of a character. -/
def rfind (s : Str) (c : Char) : Option ℕ := lastAt Char.utf8Size (fun x => x == c) s.chars

/-- `str::get` from a position on. -/
def getFrom (s : Str) (start : ℕ) : Option (List Char) :=
  sliceFrom Char.utf8Size s.chars start

/-- `str::parse` at `u64`. -/
def parseU64 (text : List Char) : Option UInt64 :=
  (CheckedDecimal.parse UInt64.size text).map UInt64.ofNat

/-- `str::parse` at `u32`. -/
def parseU32 (text : List Char) : Option UInt32 :=
  (CheckedDecimal.parse UInt32.size text).map UInt32.ofNat

def parseStarttime (stat : Str) : Except Panic (Option UInt64) :=
  match rfind stat ')' with
  | none => .ok none
  | some close => do
      let start ← addUsize close 1
      match getFrom stat start with
      | none => return none
      | some after => return (splitWhitespace after)[19]?.bind parseU64

/-- A field after the name, and the whitespace before it: one space from the kernel. -/
structure StatField where
  gap : List Char
  text : List Char
  gap_ne_nil : gap ≠ []
  gap_white : ∀ c ∈ gap, isWhitespace c = true
  text_ne_nil : text ≠ []
  text_solid : ∀ c ∈ text, isWhitespace c = false
  text_open : ')' ∉ text

/-- The fields of `/proc/<pid>/stat`; the kernel ends the line with a newline. -/
structure StatLine where
  pid : UInt32
  comm : List Char
  fields : List StatField
  ending : List Char
  ending_white : ∀ c ∈ ending, isWhitespace c = true

namespace StatLine
variable (line : StatLine)

/-- What follows the name. -/
def tail : List Char := spaced (line.fields.map fun f => (f.gap, f.text)) ++ line.ending

def render : List Char :=
  Nat.toDigits 10 line.pid.toNat ++ [' ', '('] ++ line.comm ++ ')' :: line.tail

/-- The fields as the manual counts them, from one on. -/
def field : ℕ → Option (List Char)
  | 0 => none
  | 1 => some (Nat.toDigits 10 line.pid.toNat)
  | 2 => some line.comm
  | n + 3 => line.fields[n]?.map StatField.text

theorem splitWhitespace_tail : splitWhitespace line.tail = line.fields.map StatField.text := by
  have hfields : splitWhitespace line.tail = TextFields.fields isWhitespace line.tail := rfl
  rw [hfields, tail, fields_spaced]
  · rw [List.map_map]
    rfl
  · intro p hp
    obtain ⟨f, -, rfl⟩ := List.mem_map.mp hp
    exact ⟨f.gap_ne_nil, f.gap_white⟩
  · intro p hp
    obtain ⟨f, -, rfl⟩ := List.mem_map.mp hp
    exact ⟨f.text_ne_nil, f.text_solid⟩
  · exact line.ending_white

theorem not_mem_of_white {cs : List Char} (h : ∀ c ∈ cs, isWhitespace c = true) : ')' ∉ cs :=
  fun hmem => absurd (h ')' hmem) (by decide)

/-- No parenthesis follows the name. -/
theorem close_not_mem_tail : ')' ∉ line.tail := by
  intro hmem
  rcases List.mem_append.mp hmem with hmem | hmem
  · obtain ⟨p, hp, hmem⟩ := List.mem_flatMap.mp hmem
    obtain ⟨f, -, rfl⟩ := List.mem_map.mp hp
    rcases List.mem_append.mp hmem with hgap | htext
    · exact not_mem_of_white f.gap_white hgap
    · exact f.text_open htext
  · exact not_mem_of_white line.ending_white hmem

end StatLine

theorem parseStarttime_append {stat : Str} {before after : List Char}
    (h : stat.chars = before ++ ')' :: after) (hafter : ')' ∉ after) :
    parseStarttime stat = .ok ((splitWhitespace after)[19]?.bind parseU64) := by
  have hmark : ∀ x ∈ after, (x == ')') = false := fun x hx =>
    beq_eq_false_iff_ne.mpr fun heq => hafter (heq ▸ hx)
  have hclose : rfind stat ')' = some (extent Char.utf8Size before) := by
    rw [rfind, h]
    exact lastAt_append_cons (beq_self_eq_true ')') hmark
  have hone : Char.utf8Size ')' = 1 := rfl
  have hprefix : extent Char.utf8Size (before ++ [')']) = extent Char.utf8Size before + 1 := by
    rw [extent_append, extent_cons, extent_nil, hone]
  have hfits : extent Char.utf8Size before + 1 < 2 ^ 64 := by
    have hlength := stat.fits
    rw [h, extent_append, extent_cons, hone] at hlength
    omega
  have hget : getFrom stat (extent Char.utf8Size before + 1) = some after := by
    have hsplit : before ++ ')' :: after = (before ++ [')']) ++ after := by simp
    rw [getFrom, h, hsplit, ← hprefix]
    exact sliceFrom_append Char.utf8Size_pos _ _
  have hadd : addUsize (extent Char.utf8Size before) 1 =
    .ok (extent Char.utf8Size before + 1) := if_pos hfits
  rw [parseStarttime, hclose]
  dsimp only
  rw [hadd]
  simp only [bind, Except.bind, hget]
  rfl

theorem parseStarttime_of_not_mem {stat : Str} (h : ')' ∉ stat.chars) :
    parseStarttime stat = .ok none := by
  have hnone : rfind stat ')' = none := lastAt_eq_none fun x hx =>
    beq_eq_false_iff_ne.mpr fun heq => h (heq ▸ hx)
  rw [parseStarttime, hnone]

theorem parseU64_iff {text : List Char} {n : UInt64} :
    parseU64 text = some n ↔ CheckedDecimal.Denotes text n.toNat := by
  have hlimit : 0 < UInt64.size := by decide
  rw [parseU64, Option.map_eq_some_iff]
  constructor
  · rintro ⟨m, hm, rfl⟩
    obtain ⟨hdenotes, hlt⟩ := (CheckedDecimal.parse_iff hlimit text).mp hm
    rwa [UInt64.toNat_ofNat_of_lt' hlt]
  · intro h
    exact ⟨n.toNat, (CheckedDecimal.parse_iff hlimit text).mpr ⟨h, n.toNat_lt⟩,
      UInt64.ofNat_toNat⟩

theorem parseStarttime_render {stat : Str} {line : StatLine} (h : stat.chars = line.render) :
    parseStarttime stat = .ok ((line.field 22).bind parseU64) := by
  rw [parseStarttime_append h line.close_not_mem_tail, line.splitWhitespace_tail,
    List.getElem?_map]
  rfl

/-- A text with a parenthesis is read from the last one on, any other not at all. -/
theorem parseStarttime_total (stat : Str) : ∃ r, parseStarttime stat = .ok r := by
  by_cases h : ')' ∈ stat.chars
  · have hmarks : ∃ x ∈ stat.chars, (x == ')') = true := ⟨')', h, beq_self_eq_true ')'⟩
    obtain ⟨before, mark, after, hsplit, hmark, hafter⟩ := exists_last_mark hmarks
    obtain rfl : mark = ')' := eq_of_beq hmark
    refine ⟨_, parseStarttime_append hsplit fun hmem => ?_⟩
    exact absurd (hafter ')' hmem) (by decide)
  · exact ⟨none, parseStarttime_of_not_mem h⟩

/-- Of a line that the kernel writes field 22 is read, whatever the name holds: its number if it
is there and a number of 64 bits, and nothing otherwise. Reading never panics. -/
theorem parseStarttime_field22 (stat : Str) :
    (∀ line : StatLine, stat.chars = line.render →
      ∃ r, parseStarttime stat = .ok r ∧ ∀ n : UInt64, r = some n ↔
        ∃ text, line.field 22 = some text ∧ CheckedDecimal.Denotes text n.toNat) ∧
      ∃ r, parseStarttime stat = .ok r := by
  refine ⟨fun line hline => ⟨_, parseStarttime_render hline, fun n => ?_⟩,
    parseStarttime_total stat⟩
  rw [Option.bind_eq_some_iff]
  exact exists_congr fun text => and_congr_right fun _ => parseU64_iff

/-- A name that imitates the rest of a line. -/
example : parseStarttime
    ⟨"7 (x) S 1 2 3) R 1 7 7 0 -1 0 0 0 0 0 0 0 0 0 20 0 1 0 99 0 0\n".toList, by decide +kernel⟩ =
      .ok (some 99) := by
  decide +kernel

theorem parseU32_toDigits (n : UInt32) : parseU32 (Nat.toDigits 10 n.toNat) = some n := by
  have hlimit : 0 < UInt32.size := by decide
  have hparse := (CheckedDecimal.parse_iff hlimit (Nat.toDigits 10 n.toNat)).mpr
    ⟨CheckedDecimal.denotes_toDigits n.toNat, n.toNat_lt⟩
  rw [parseU32, hparse, Option.map_some, UInt32.ofNat_toNat]

/-- What `/proc/<pid>` has for a process: the name of the directory and the files that could be
read. -/
structure ProcEntry where
  name : List Char
  status : Option (List Char)
  stat : Option Str
  comm : Option String
  cmdline : Option (List UInt8)

/-- `str::lines`. -/
def lines (cs : List Char) : List (List Char) :=
  let pieces := cs.splitOnP fun c => c == '\n'
  let ended := pieces.dropLast.map fun piece =>
    if piece.getLast? = some '\r' then piece.dropLast else piece
  ended ++ pieces.getLast?.toList.filter fun last => !last.isEmpty

/-- The parent and the real user, each zero where it is missing. -/
def parseStatus (status : List Char) : UInt32 × UInt32 :=
  (lines status).foldl (fun (ppid, uid) line =>
    match line.dropPrefix? "PPid:".toList with
    | some rest => ((parseU32 (trim (String.ofList rest)).toList).getD 0, uid)
    | none =>
        match line.dropPrefix? "Uid:".toList with
        | some rest => (ppid, ((splitWhitespace rest)[0]?.bind parseU32).getD 0)
        | none => (ppid, uid)) (0, 0)

/-- One round of the loop; `from_utf8_lossy` is given. -/
def scanEntry (lossy : List UInt8 → String) (entry : ProcEntry) :
    Except Panic (Option ProcInfo) :=
  match parseU32 entry.name, entry.status with
  | some pid, some status => do
      let (ppid, uid) := parseStatus status
      let starttime ← match entry.stat with
        | some stat => parseStarttime stat
        | none => pure none
      return some
        { pid := pid
          ppid := ppid
          uid := uid
          comm := (entry.comm.map trim).getD ""
          cmdline := (entry.cmdline.map fun bytes =>
            (TextFields.fields (fun b => b == 0) bytes).map lossy).getD []
          starttime := starttime.getD 0 }
  | _, _ => return none

def scan (lossy : List UInt8 → String) (entries : List ProcEntry) :
    Except Panic (List ProcInfo) := do
  let infos ← entries.mapM (scanEntry lossy)
  return infos.reduceOption

/-- The directory of a process that runs: its files can be read, and its line has the start time
in field 22. -/
structure Running (key : ProcKey) (entry : ProcEntry) : Prop where
  name : entry.name = Nat.toDigits 10 key.1.toNat
  status : entry.status.isSome = true
  stat : ∃ stat ∈ entry.stat, ∃ line : StatLine, stat.chars = line.render ∧
    line.field 22 = some (Nat.toDigits 10 key.2.toNat)

theorem scanEntry_total (lossy : List UInt8 → String) (entry : ProcEntry) :
    ∃ r, scanEntry lossy entry = .ok r := by
  rw [scanEntry.eq_def]
  split
  · cases hstat : entry.stat with
    | none => exact ⟨_, rfl⟩
    | some stat =>
        obtain ⟨r, hr⟩ := parseStarttime_total stat
        dsimp only
        rw [hr]
        exact ⟨_, rfl⟩
  · exact ⟨none, rfl⟩

theorem mapM_cons_ok {α β : Type} {f : α → Except Panic β} {a : α} {as : List α} {b : β}
    {bs : List β} (ha : f a = .ok b) (has : as.mapM f = .ok bs) :
    (a :: as).mapM f = .ok (b :: bs) := by
  rw [List.mapM_cons, ha, has]
  rfl

theorem scan_total (lossy : List UInt8 → String) (entries : List ProcEntry) :
    ∃ infos, scan lossy entries = .ok infos := by
  have hall : ∃ rs, entries.mapM (scanEntry lossy) = .ok rs := by
    induction entries with
    | nil => exact ⟨[], rfl⟩
    | cons entry entries ih =>
        obtain ⟨r, hr⟩ := scanEntry_total lossy entry
        obtain ⟨rs, hrs⟩ := ih
        exact ⟨r :: rs, mapM_cons_ok hr hrs⟩
  obtain ⟨rs, hrs⟩ := hall
  rw [scan, hrs]
  exact ⟨rs.reduceOption, rfl⟩

theorem scanEntry_running (lossy : List UInt8 → String) {key : ProcKey} {entry : ProcEntry}
    (h : Running key entry) :
    ∃ info, scanEntry lossy entry = .ok (some info) ∧ info.key = key := by
  obtain ⟨stat, hstat, line, hline, hfield⟩ := h.stat
  obtain ⟨status, hstatus⟩ := Option.isSome_iff_exists.mp h.status
  have hstart : parseU64 (Nat.toDigits 10 key.2.toNat) = some key.2 :=
    parseU64_iff.mpr (CheckedDecimal.denotes_toDigits _)
  have hread : parseStarttime stat = .ok (some key.2) := by
    rw [parseStarttime_render hline, hfield, Option.bind_some, hstart]
  rw [scanEntry, h.name, parseU32_toDigits, hstatus, hstat]
  dsimp only
  rw [hread]
  exact ⟨_, rfl, rfl⟩

/-- What an entry of the directory shows: nothing if it is no process, or one that is gone. -/
def Shows : Option ProcKey → ProcEntry → Prop
  | some key, entry => Running key entry
  | none, entry => parseU32 entry.name = none ∨ entry.status = none

theorem scanEntry_shows (lossy : List UInt8 → String) {shown : Option ProcKey}
    {entry : ProcEntry} (h : Shows shown entry) :
    ∃ found, scanEntry lossy entry = .ok found ∧ found.map ProcInfo.key = shown := by
  cases shown with
  | some key =>
      obtain ⟨info, hinfo, hkey⟩ := scanEntry_running lossy h
      exact ⟨some info, hinfo, congrArg some hkey⟩
  | none =>
      refine ⟨none, ?_, rfl⟩
      rw [scanEntry.eq_def]
      rcases h with hname | hstatus
      · rw [hname]
        rfl
      · rw [hstatus]
        cases parseU32 entry.name <;> rfl

/-- A scan identifies the running processes by their pids and start times, whatever they are
called. -/
theorem scan_keys (lossy : List UInt8 → String) {shown : List (Option ProcKey)}
    {entries : List ProcEntry} (h : List.Forall₂ Shows shown entries) :
    ∃ infos, scan lossy entries = .ok infos ∧ infos.map ProcInfo.key = shown.reduceOption := by
  have hall : ∃ found, entries.mapM (scanEntry lossy) = .ok found ∧
      found.map (Option.map ProcInfo.key) = shown := by
    induction h with
    | nil => exact ⟨[], rfl, rfl⟩
    | cons hshows _ ih =>
        obtain ⟨found, hfound, hkey⟩ := scanEntry_shows lossy hshows
        obtain ⟨rest, hrest, hkeys⟩ := ih
        refine ⟨found :: rest, mapM_cons_ok hfound hrest, ?_⟩
        rw [List.map_cons, hkey, hkeys]
  obtain ⟨found, hfound, hkeys⟩ := hall
  refine ⟨found.reduceOption, ?_, ?_⟩
  · rw [scan, hfound]
    rfl
  · rw [← hkeys, List.reduceOption_map]

/-- A round of the collector: what the directory shows, and its entries. -/
abbrev Round : Type := List (Option ProcKey) × List ProcEntry

theorem rounds_present (lossy : List UInt8 → String) {key : ProcKey} {rounds : List Round}
    (h : ∀ r ∈ rounds, List.Forall₂ Shows r.1 r.2 ∧ some key ∈ r.1) :
    ∃ snapshots, rounds.mapM (fun r => scan lossy r.2) = .ok snapshots ∧
      ∀ s ∈ snapshots, ProcessScan.Present key s := by
  induction rounds with
  | nil => exact ⟨[], rfl, List.forall_mem_nil _⟩
  | cons r rest ih =>
      obtain ⟨hshows, hmem⟩ := h r List.mem_cons_self
      obtain ⟨infos, hinfos, hkeys⟩ := scan_keys lossy hshows
      obtain ⟨snapshots, hrest, hpresent⟩ := ih fun r' hr' => h r' (List.mem_cons_of_mem _ hr')
      have hnow : ProcessScan.Present key infos := by
        rw [ProcessScan.Present, hkeys]
        exact List.reduceOption_mem_iff.mpr hmem
      exact ⟨infos :: snapshots, mapM_cons_ok hinfos hrest,
        List.forall_mem_cons.mpr ⟨hnow, hpresent⟩⟩

/-- A process that keeps running is emitted at most once, though it may rename itself between
the scans. -/
theorem running_not_emitted_again (lossy : List UInt8 → String) (cfg : ProcessConfig)
    {key : ProcKey} {rounds : List Round}
    (h : ∀ r ∈ rounds, List.Forall₂ Shows r.1 r.2 ∧ some key ∈ r.1) :
    ∃ snapshots, rounds.mapM (fun r => scan lossy r.2) = .ok snapshots ∧
      ∀ past first since later rest, snapshots = past ++ first :: since ++ later :: rest →
        ProcessScan.Emitted cfg key past first →
          ¬ ProcessScan.Emitted cfg key (past ++ first :: since) later := by
  obtain ⟨snapshots, hscans, hpresent⟩ := rounds_present lossy h
  refine ⟨snapshots, hscans, ?_⟩
  rintro past first since later rest rfl hfirst hagain
  obtain ⟨before, s, after, rfl, -, habsent⟩ :=
    SeenSet.droppedIn_of_reported_again hfirst hagain
  exact habsent (hpresent s (by simp))

example : parseStatus "Name:\tbash\nPPid:\t1234\nUid:\t1000\t1000\t1000\t1000\n".toList =
    (1234, 1000) := by
  decide +kernel

end Aegis.ProcStat

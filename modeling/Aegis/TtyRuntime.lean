import Aegis.CheckedDecimal
import Aegis.EnrollBlob
import Aegis.TtyAnalyzer

/-!
# The two sources of keystrokes

`runtime.rs`: an instrumented shell, whose loop carries bytes between the
terminal and the shell and shows the typed ones to the analyzer, and a pipe of
timestamped lines. What the system calls return is given round by round.
-/

namespace Aegis.Tty
open Analyzer

/-- What `write` returns before it takes all that is left. -/
inductive WriteResult where
  | interrupted
  | wrote (n : ℕ)
  | failed
  deriving DecidableEq, Repr

/-- `write_all`: what of the data gets through. -/
def writeAll : List WriteResult → List UInt8 → List UInt8
  | _, [] => []
  | [], data => data
  | .interrupted :: results, data => writeAll results data
  | .failed :: _, _ => []
  | .wrote n :: results, data =>
      if n = 0 then [] else data.take n ++ writeAll results (data.drop n)

/-- What one `read` puts into the buffer; nothing at the end or on an error. -/
abbrev Chunk : Type := { bytes : List UInt8 // bytes.length ≤ 4096 }

/-- A round in which `poll` returned: what is read of each side that it names, and whether the
shell hung up. -/
structure Ready where
  input : Option Chunk
  now : UInt64
  toShell : List WriteResult
  output : Option Chunk
  toTerminal : List WriteResult
  hungUp : Bool

inductive Poll where
  | interrupted
  | failed
  | ready (r : Ready)

/-- What the loop has done so far. -/
structure Pumped (F : Type) where
  analyzer : Analyzer
  payloads : List (EventPayload F)
  toShell : List UInt8
  toTerminal : List UInt8

variable {F : Type} [F64 F] (P : Primitives F)

/-- The second half of a round, and whether the loop goes on. -/
def pumpOutput (r : Ready) (s : Pumped F) : Pumped F × Bool :=
  match r.output with
  | none => (s, !r.hungUp)
  | some chunk =>
      if chunk.val = [] then (s, false)
      else ({ s with toTerminal := s.toTerminal ++ writeAll r.toTerminal chunk.val }, !r.hungUp)

def pumpInput (r : Ready) (chunk : Chunk) (s : Pumped F) : Pumped F :=
  let (analyzer, payloads) := onRead P s.analyzer chunk.val r.now
  { s with
    analyzer := analyzer
    payloads := s.payloads ++ payloads
    toShell := s.toShell ++ writeAll r.toShell chunk.val }

def pumpRound (r : Ready) (s : Pumped F) : Pumped F × Bool :=
  match r.input with
  | none => pumpOutput r s
  | some chunk => if chunk.val = [] then (s, false) else pumpOutput r (pumpInput P r chunk s)

def pumpLoop : List Poll → Pumped F → Pumped F
  | [], s => s
  | .interrupted :: polls, s => pumpLoop polls s
  | .failed :: _, s => s
  | .ready r :: polls, s =>
      let (s, goesOn) := pumpRound P r s
      if goesOn then pumpLoop polls s else s

/-- What the environment of the process gives. -/
structure Environment where
  user : Option String
  sshTty : Option String
  tty : Option String

def Environment.userName (env : Environment) : String := env.user.getD "unknown"

def runShell (env : Environment) (sessionId : String) (cfg : AnalyzerConfig)
    (polls : List Poll) : Pumped F :=
  let start := .sessionStart sessionId (env.sshTty.or env.tty) env.userName none
  let s := pumpLoop P polls ⟨new sessionId cfg, [start], [], []⟩
  let (analyzer, ended) := onSessionEnd s.analyzer
  { s with
    analyzer := analyzer
    payloads := s.payloads ++ [ended] }

/-- `str::split_once`. -/
def splitOnce (sep : Char) (cs : List Char) : Option (List Char × List Char) :=
  match cs.dropWhile fun ch => ch != sep with
  | [] => none
  | _ :: rest => some (cs.takeWhile fun ch => ch != sep, rest)

/-- The time and the bytes of a line; a line without a time takes the clock's. -/
def parsePipeLine (now : UInt64) (line : String) : Read :=
  let plain := (EnrollBlob.utf8 line ++ [0x0a], now)
  match splitOnce '\t' line.toList with
  | none => plain
  | some (ts, rest) =>
      match CheckedDecimal.parse (2 ^ 64) (trim (String.ofList ts)).toList with
      | none => plain
      | some ts => (EnrollBlob.utf8 (String.ofList rest) ++ [0x0a], UInt64.ofNat ts)

/-- The lines of a buffered reader: a carriage return before the end of a line is dropped. -/
def byteLines (bytes : List UInt8) : List (List UInt8) :=
  let pieces := bytes.splitOnP fun b => b == 0x0a
  let ended := pieces.dropLast.map fun piece =>
    if piece.getLast? = some 0x0d then piece.dropLast else piece
  ended ++ pieces.getLast?.toList.filter fun last => !last.isEmpty

inductive PipeError where
  | opening | notUtf8
  deriving DecidableEq, Repr

/-- The loop over the lines, the first of them line `i` for the clock. -/
def pipeLoop (clock : ℕ → UInt64) (i : ℕ) (a : Analyzer) (out : List (EventPayload F)) :
    List (List UInt8) → List (EventPayload F) × Except PipeError Unit
  | [] => (out ++ [(onSessionEnd a).2], .ok ())
  | line :: lines =>
      match readToString line with
      | none => (out, .error .notUtf8)
      | some text =>
          let (chunk, ts) := parsePipeLine (clock i) text
          let (a, payloads) := onRead P a chunk ts
          pipeLoop clock (i + 1) a (out ++ payloads) lines

def runPipe (clock : ℕ → UInt64) (env : Environment) (sessionId : String) (cfg : AnalyzerConfig)
    (file : Option (List UInt8)) : List (EventPayload F) × Except PipeError Unit :=
  match file with
  | none => ([], .error .opening)
  | some bytes =>
      pipeLoop P clock 0 (new sessionId cfg) [.sessionStart sessionId none env.userName none]
        (byteLines bytes)

theorem onReads_append (a : Analyzer) (rs rs' : List Read) :
    onReads P a (rs ++ rs') =
      ((onReads P (onReads P a rs).1 rs').1,
        (onReads P a rs).2 ++ (onReads P (onReads P a rs).1 rs').2) :=
  emitAll_append ..

/-- What a round reads of the terminal. -/
def Ready.reads (r : Ready) : List Read :=
  match r.input with
  | none => []
  | some chunk => if chunk.val = [] then [] else [(chunk.val, r.now)]

/-- Neither side ended and the shell did not hang up. -/
def Ready.goesOn (r : Ready) : Bool :=
  r.input.all (fun chunk => chunk.val ≠ []) && r.output.all (fun chunk => chunk.val ≠ []) &&
    !r.hungUp

/-- What is typed in these rounds. -/
def reads : List Poll → List Read
  | [] => []
  | .interrupted :: polls => reads polls
  | .failed :: _ => []
  | .ready r :: polls => r.reads ++ if r.goesOn then reads polls else []

/-- No write to the shell fails; it may be interrupted or fall short. -/
def Unfailing (polls : List Poll) : Prop :=
  ∀ r, Poll.ready r ∈ polls → ∀ w ∈ r.toShell, w ≠ .failed ∧ w ≠ .wrote 0

theorem writeAll_eq {results : List WriteResult}
    (h : ∀ w ∈ results, w ≠ .failed ∧ w ≠ .wrote 0) (data : List UInt8) :
    writeAll results data = data := by
  induction results generalizing data with
  | nil => cases data <;> rfl
  | cons w results ih =>
      have hrest := ih fun w hw => h w (List.mem_cons_of_mem _ hw)
      obtain ⟨hfailed, hzero⟩ := h w List.mem_cons_self
      cases data with
      | nil => cases w <;> rfl
      | cons b data =>
          cases w with
          | interrupted => rw [writeAll, hrest]; simp
          | failed => exact absurd rfl hfailed
          | wrote n =>
              rw [writeAll, if_neg (fun h => hzero (by rw [h])), hrest, List.take_append_drop]
              simp

omit [F64 F] in
theorem pumpOutput_spec (r : Ready) (s : Pumped F) :
    (pumpOutput r s).2 = (r.output.all (fun chunk => chunk.val ≠ []) && !r.hungUp) ∧
      (pumpOutput r s).1.analyzer = s.analyzer ∧ (pumpOutput r s).1.payloads = s.payloads ∧
      (pumpOutput r s).1.toShell = s.toShell := by
  unfold pumpOutput
  cases r.output with
  | none => simp
  | some chunk =>
      by_cases hend : chunk.val = []
      · simp [hend]
      · simp [hend]

/-- What a round does with what is typed; the output of the shell changes none of it. -/
theorem pumpRound_spec (r : Ready) (s : Pumped F) :
    (pumpRound P r s).2 = r.goesOn ∧
      (pumpRound P r s).1.analyzer = (onReads P s.analyzer r.reads).1 ∧
      (pumpRound P r s).1.payloads = s.payloads ++ (onReads P s.analyzer r.reads).2 ∧
      (pumpRound P r s).1.toShell =
        s.toShell ++ r.reads.flatMap fun x => writeAll r.toShell x.1 := by
  unfold pumpRound Ready.goesOn Ready.reads
  cases r.input with
  | none =>
      obtain ⟨hgoes, hanalyzer, hpayloads, hshell⟩ := pumpOutput_spec r s
      simp [hgoes, hanalyzer, hpayloads, hshell, onReads]
  | some chunk =>
      by_cases hend : chunk.val = []
      · simp [hend, onReads]
      · obtain ⟨hgoes, hanalyzer, hpayloads, hshell⟩ := pumpOutput_spec r (pumpInput P r chunk s)
        simp only [hend, if_false, hgoes, hanalyzer, hpayloads, hshell]
        simp [hend, onReads, pumpInput]

theorem pumpLoop_spec (polls : List Poll) (s : Pumped F) :
    (pumpLoop P polls s).analyzer = (onReads P s.analyzer (reads polls)).1 ∧
      (pumpLoop P polls s).payloads = s.payloads ++ (onReads P s.analyzer (reads polls)).2 := by
  induction polls generalizing s with
  | nil => simp [pumpLoop, reads, onReads]
  | cons poll polls ih =>
      cases poll with
      | interrupted => exact ih s
      | failed => simp [pumpLoop, reads, onReads]
      | ready r =>
          obtain ⟨hgoes, hanalyzer, hpayloads, -⟩ := pumpRound_spec P r s
          rw [pumpLoop, reads, onReads_append]
          dsimp only
          rw [hgoes]
          cases r.goesOn with
          | false => simp [hanalyzer, hpayloads, onReads]
          | true => simp [ih, hanalyzer, hpayloads]

theorem pumpLoop_toShell {polls : List Poll} (h : Unfailing polls) (s : Pumped F) :
    (pumpLoop P polls s).toShell = s.toShell ++ (reads polls).flatMap Prod.fst := by
  induction polls generalizing s with
  | nil => simp [pumpLoop, reads]
  | cons poll polls ih =>
      have hrest := ih fun r hr => h r (List.mem_cons_of_mem _ hr)
      cases poll with
      | interrupted => exact hrest s
      | failed => simp [pumpLoop, reads]
      | ready r =>
          obtain ⟨hgoes, -, -, hshell⟩ := pumpRound_spec P r s
          have hround : (r.reads.flatMap fun x => writeAll r.toShell x.1) =
              r.reads.flatMap Prod.fst :=
            List.flatMap_congr fun x _ => writeAll_eq (h r List.mem_cons_self) x.1
          rw [pumpLoop, reads, List.flatMap_append]
          dsimp only
          rw [hgoes]
          cases r.goesOn with
          | false => simp [hshell, hround]
          | true => simp [hrest, hshell, hround]

/-- The shell run reports the session of what is typed, and the shell gets exactly that. -/
theorem runShell_payloads (env : Environment) (sessionId : String) (cfg : AnalyzerConfig)
    (polls : List Poll) :
    (runShell P env sessionId cfg polls).payloads =
      .sessionStart sessionId (env.sshTty.or env.tty) env.userName none ::
        session P (new sessionId cfg) (reads polls) := by
  obtain ⟨hanalyzer, hpayloads⟩ := pumpLoop_spec P polls ⟨new sessionId cfg,
    [.sessionStart sessionId (env.sshTty.or env.tty) env.userName none], [], []⟩
  simp [runShell, session, hanalyzer, hpayloads]

theorem runShell_toShell {polls : List Poll} (h : Unfailing polls) (env : Environment)
    (sessionId : String) (cfg : AnalyzerConfig) :
    (runShell P env sessionId cfg polls).toShell = (reads polls).flatMap Prod.fst :=
  pumpLoop_toShell P h _

/-- A time and the line that came at it. -/
structure Record where
  tsNs : UInt64
  line : String

/-- One line, without its end. -/
def Record.OneLine (r : Record) : Prop :=
  ∀ b ∈ EnrollBlob.utf8 r.line, b ≠ 0x0a ∧ b ≠ 0x0d

/-- The line of the file without its end. -/
def Record.text (r : Record) : String :=
  String.ofList (Nat.toDigits 10 r.tsNs.toNat) ++ "\t" ++ r.line

def recording (records : List Record) : List UInt8 :=
  records.flatMap fun r => EnrollBlob.utf8 r.text ++ [0x0a]

/-- The read that a record stands for. -/
def Record.read (r : Record) : Read := (EnrollBlob.utf8 r.line ++ [0x0a], r.tsNs)

theorem utf8_append (s t : String) :
    EnrollBlob.utf8 (s ++ t) = EnrollBlob.utf8 s ++ EnrollBlob.utf8 t := by
  simp [EnrollBlob.utf8, String.toByteArray_append]

theorem isDigit_iff {ch : Char} : ch.isDigit = true ↔ 0x30 ≤ ch.toNat ∧ ch.toNat ≤ 0x39 := by
  rw [Char.isDigit, Bool.and_eq_true, decide_eq_true_iff, decide_eq_true_iff, ge_iff_le,
    UInt32.le_iff_toNat_le, UInt32.le_iff_toNat_le]
  rfl

theorem utf8_digits {n : ℕ} {b : UInt8}
    (h : b ∈ EnrollBlob.utf8 (String.ofList (Nat.toDigits 10 n))) :
    0x30 ≤ b.toNat ∧ b.toNat ≤ 0x39 := by
  have hbytes : EnrollBlob.utf8 (String.ofList (Nat.toDigits 10 n)) =
      (Nat.toDigits 10 n).flatMap String.utf8EncodeChar := by
    simp [EnrollBlob.utf8, List.utf8Encode]
  rw [hbytes] at h
  obtain ⟨ch, hch, hb⟩ := List.mem_flatMap.mp h
  have hdigit := isDigit_iff.mp (Nat.isDigit_of_mem_toDigits (by decide) (by decide) hch)
  have hone : ch.utf8Size = 1 := by
    rw [Char.utf8Size_eq_one_iff, UInt32.le_iff_toNat_le]
    exact hdigit.2.trans (by decide)
  rw [String.utf8EncodeChar_eq_singleton hone, List.mem_singleton] at hb
  have hvalue : b.toNat = ch.toNat := by
    rw [hb, UInt32.toNat_toUInt8]
    exact Nat.mod_eq_of_lt (by change ch.toNat < _; omega)
  rw [hvalue]
  exact hdigit

theorem parsePipeLine_text (now : UInt64) (r : Record) :
    parsePipeLine now r.text = r.read := by
  have hdigit : ∀ ch ∈ Nat.toDigits 10 r.tsNs.toNat, 0x30 ≤ ch.toNat ∧ ch.toNat ≤ 0x39 :=
    fun ch hch => isDigit_iff.mp (Nat.isDigit_of_mem_toDigits (by decide) (by decide) hch)
  have hsplit : splitOnce '\t' r.text.toList =
      some (Nat.toDigits 10 r.tsNs.toNat, r.line.toList) := by
    have htab : ∀ ch ∈ Nat.toDigits 10 r.tsNs.toNat, (ch != '\t') = true := by
      intro ch hch
      rw [bne_iff_ne]
      rintro rfl
      exact absurd (hdigit _ hch).1 (by decide)
    have htext : r.text.toList = Nat.toDigits 10 r.tsNs.toNat ++ '\t' :: r.line.toList := by
      simp [Record.text]
    rw [splitOnce, htext, List.dropWhile_append_of_pos htab, List.takeWhile_append_of_pos htab]
    simp
  have htrim : trim (String.ofList (Nat.toDigits 10 r.tsNs.toNat)) =
      String.ofList (Nat.toDigits 10 r.tsNs.toNat) := by
    refine trim_eq_self fun ch hch => ?_
    rw [String.toList_ofList] at hch
    obtain ⟨hlow, hhigh⟩ := hdigit ch hch
    simp only [isWhitespace, Bool.or_eq_false_iff, Bool.and_eq_false_iff, decide_eq_false_iff_not]
    omega
  have hparse : CheckedDecimal.parse (2 ^ 64) (Nat.toDigits 10 r.tsNs.toNat) =
      some r.tsNs.toNat :=
    (CheckedDecimal.parse_iff (by decide) _).mpr
      ⟨CheckedDecimal.denotes_toDigits _, r.tsNs.toNat_lt⟩
  simp only [parsePipeLine, hsplit, htrim, String.toList_ofList, hparse, UInt64.ofNat_toNat,
    String.ofList_toList, Record.read]

/-- Terminated pieces, none of which has a terminator inside. -/
theorem splitOnP_terminated (pieces : List (List UInt8)) (h : ∀ piece ∈ pieces, 0x0a ∉ piece) :
    (pieces.flatMap fun piece => piece ++ [0x0a]).splitOnP (fun b => b == 0x0a) =
      pieces ++ [[]] := by
  induction pieces with
  | nil => rfl
  | cons piece pieces ih =>
      have hpiece : ∀ b ∈ piece, (b == 0x0a) = false := by
        intro b hb
        rw [beq_eq_false_iff_ne]
        rintro rfl
        exact h piece List.mem_cons_self hb
      rw [List.flatMap_cons, List.append_assoc, List.singleton_append,
        List.splitOnP_append_cons_of_forall_mem hpiece _ rfl,
        ih fun p hp => h p (List.mem_cons_of_mem _ hp)]
      rfl

theorem Record.OneLine.text {r : Record} (h : r.OneLine) :
    ∀ b ∈ EnrollBlob.utf8 r.text, b ≠ 0x0a ∧ b ≠ 0x0d := by
  have hfront : ∀ b ∈ EnrollBlob.utf8 (String.ofList (Nat.toDigits 10 r.tsNs.toNat) ++ "\t"),
      b ≠ 0x0a ∧ b ≠ 0x0d := by
    intro b hb
    rw [utf8_append] at hb
    rcases List.mem_append.mp hb with hb | hb
    · obtain ⟨hlow, -⟩ := utf8_digits hb
      constructor
      · rintro rfl
        exact absurd hlow (by decide)
      · rintro rfl
        exact absurd hlow (by decide)
    · have htab : EnrollBlob.utf8 "\t" = [0x09] := by decide
      rw [htab, List.mem_singleton] at hb
      rw [hb]
      decide
  rw [Record.text, utf8_append]
  exact List.forall_mem_append.mpr ⟨hfront, h⟩

theorem byteLines_recording {records : List Record} (h : ∀ r ∈ records, r.OneLine) :
    byteLines (recording records) = records.map fun r => EnrollBlob.utf8 r.text := by
  have hpieces := splitOnP_terminated (records.map fun r => EnrollBlob.utf8 r.text)
    (List.forall_mem_map.mpr fun r hr hend => ((h r hr).text _ hend).1 rfl)
  rw [List.flatMap_map] at hpieces
  have hkeep : (records.map fun r => EnrollBlob.utf8 r.text).map (fun piece =>
      if piece.getLast? = some 0x0d then piece.dropLast else piece) =
      records.map fun r => EnrollBlob.utf8 r.text := by
    rw [List.map_map]
    exact List.map_congr_left fun r hr =>
      if_neg fun hlast => ((h r hr).text _ (List.mem_of_getLast? hlast)).2 rfl
  rw [byteLines, recording, hpieces]
  simp only [List.dropLast_concat, hkeep, List.getLast?_concat]
  simp

theorem pipeLoop_records (clock : ℕ → UInt64) (i : ℕ) (a : Analyzer)
    (out : List (EventPayload F)) (records : List Record) :
    pipeLoop P clock i a out (records.map fun r => EnrollBlob.utf8 r.text) =
      (out ++ session P a (records.map Record.read), .ok ()) := by
  induction records generalizing i a out with
  | nil => simp [pipeLoop, session, onReads]
  | cons r records ih =>
      have htext : readToString (EnrollBlob.utf8 r.text) = some r.text :=
        Identity.readToString_eq_some.mpr rfl
      rw [List.map_cons, pipeLoop, htext]
      simp only [parsePipeLine_text, ih]
      simp [session, onReads, emitAll_cons]

theorem runPipe_recording (clock : ℕ → UInt64) (env : Environment) (sessionId : String)
    (cfg : AnalyzerConfig) {records : List Record} (h : ∀ r ∈ records, r.OneLine) :
    runPipe P clock env sessionId cfg (some (recording records)) =
      (.sessionStart sessionId none env.userName none ::
        session P (new sessionId cfg) (records.map Record.read), .ok ()) := by
  rw [runPipe]
  simp only [byteLines_recording h, pipeLoop_records]
  rfl

/-- A line feed where the terminal in raw mode sends a carriage return. -/
def enter (b : UInt8) : UInt8 := if b = 0x0d then 0x0a else b

/-- The same line, the second analyzer without a carriage return behind it. -/
def SameTyped (a b : Analyzer) : Prop :=
  ∃ read finish : Option UInt64,
    b = { a with lastReadNs := read, lastCommandFinishNs := finish, lastWasCr := false }

theorem onByte_enter {a b : Analyzer} (h : SameTyped a b) {byte : UInt8} (hbyte : byte ≠ 0x0a) :
    Agree SameTyped EventPayload.command? (onByte P 0 a byte) (onByte P 0 b (enter byte)) := by
  obtain ⟨read, finish, rfl⟩ := h
  by_cases hcr : byte = 0x0d
  · rw [hcr, show enter 0x0d = 0x0a from rfl]
    exact ⟨⟨_, _, rfl⟩, rfl⟩
  · rw [enter, if_neg hcr]
    unfold onByte Agree
    dsimp only
    simp only [hcr, hbyte, if_false]
    split_ifs
    all_goals exact ⟨⟨_, _, rfl⟩, rfl⟩

theorem emitAll_enter {bytes : List UInt8} (hbytes : 0x0a ∉ bytes) {a b : Analyzer}
    (h : SameTyped a b) :
    Agree SameTyped EventPayload.command? (emitAll (onByte P 0) a bytes)
      (emitAll (onByte P 0) b (bytes.map enter)) := by
  induction bytes generalizing a b with
  | nil => exact ⟨h, rfl⟩
  | cons byte bytes ih =>
      rw [List.mem_cons, not_or] at hbytes
      have hstep := onByte_enter P h (Ne.symm hbytes.1)
      rw [List.map_cons, emitAll_cons, emitAll_cons]
      exact hstep.append (ih hbytes.2 hstep.1)

/-- The lines typed one after the other, each ended by Enter. -/
def keys (records : List Record) : List UInt8 :=
  records.flatMap fun r => EnrollBlob.utf8 r.line ++ [0x0d]

theorem keys_enter {records : List Record} (h : ∀ r ∈ records, r.OneLine) :
    (keys records).map enter = (records.map Record.read).flatMap Prod.fst := by
  rw [keys, List.map_flatMap, List.flatMap_map]
  refine List.flatMap_congr fun r hr => ?_
  have hline : (EnrollBlob.utf8 r.line).map enter = EnrollBlob.utf8 r.line := by
    rw [List.map_congr_left fun b hb => show enter b = b from if_neg (h r hr b hb).2, List.map_id']
  rw [List.map_append, hline]
  rfl

theorem keys_no_line_feed {records : List Record} (h : ∀ r ∈ records, r.OneLine) :
    0x0a ∉ keys records := by
  intro hmem
  obtain ⟨r, hr, hb⟩ := List.mem_flatMap.mp hmem
  rcases List.mem_append.mp hb with hb | hb
  · exact (h r hr _ hb).1 rfl
  · exact absurd hb (by decide)

/-- Lines typed into the instrumented shell reach it unchanged, and the pipe that replays their
recording reports the session of its reads, with the commands that the shell run reported:
however the terminal cut the keys into reads, writes fell short and output came between. -/
theorem pipe_replays_typing (clock : ℕ → UInt64) (env : Environment) (sessionId : String)
    (cfg : AnalyzerConfig) (polls : List Poll) (records : List Record)
    (hlines : ∀ r ∈ records, r.OneLine) (hwrites : Unfailing polls)
    (htyped : (reads polls).flatMap Prod.fst = keys records) :
    (runShell P env sessionId cfg polls).toShell = keys records ∧
      (runPipe P clock env sessionId cfg (some (recording records))) =
        (.sessionStart sessionId none env.userName none ::
          session P (new sessionId cfg) (records.map Record.read), .ok ()) ∧
      (runPipe P clock env sessionId cfg (some (recording records))).1.filterMap
          EventPayload.command? =
        (runShell P env sessionId cfg polls).payloads.filterMap EventPayload.command? := by
  have hpipe := runPipe_recording P clock env sessionId cfg hlines
  refine ⟨(runShell_toShell P hwrites env sessionId cfg).trans htyped, hpipe, ?_⟩
  have hsame : SameTyped (new sessionId cfg) (new sessionId cfg) := ⟨none, none, rfl⟩
  have hcommands := (emitAll_enter P (keys_no_line_feed hlines) hsame).2
  rw [hpipe, runShell_payloads, List.filterMap_cons, List.filterMap_cons, session_commands,
    session_commands, htyped, ← keys_enter hlines, ← hcommands]
  rfl

/-- Three reads with a short write and some output between them. -/
def typedRounds : List Poll :=
  [.ready ⟨some ⟨[108], by decide⟩, 5, [], none, [], false⟩,
    .interrupted,
    .ready ⟨none, 6, [], some ⟨[36, 32], by decide⟩, [], false⟩,
    .ready ⟨some ⟨[115, 13], by decide⟩, 9, [.wrote 1, .interrupted], none, [], false⟩,
    .ready ⟨none, 12, [], some ⟨[], by decide⟩, [], true⟩]

theorem pipe_replays_ls :
    (runPipe plainPrimitives (fun _ => 0) ⟨none, none, none⟩ "s" ⟨"salt"⟩
        (some (recording [⟨7, "ls"⟩]))).1.filterMap EventPayload.command? =
      (runShell plainPrimitives ⟨none, none, none⟩ "s" ⟨"salt"⟩ typedRounds).payloads.filterMap
        EventPayload.command? := by
  have hlines : ∀ r ∈ [(⟨7, "ls"⟩ : Record)], r.OneLine := by
    intro r hr
    have hbytes : EnrollBlob.utf8 "ls" = [108, 115] := by decide
    rw [List.mem_singleton.mp hr, Record.OneLine, hbytes]
    simp
  have hwrites : Unfailing typedRounds := by
    intro r hr w hw
    simp only [typedRounds, List.mem_cons, Poll.ready.injEq, reduceCtorEq, List.not_mem_nil,
      or_false, false_or] at hr
    rcases hr with rfl | rfl | rfl | rfl
    · cases hw
    · cases hw
    · rcases List.mem_pair.mp hw with rfl | rfl
      · decide
      · decide
    · cases hw
  exact (pipe_replays_typing plainPrimitives (fun _ => 0) ⟨none, none, none⟩ "s" ⟨"salt"⟩
    typedRounds [⟨7, "ls"⟩] hlines hwrites (by decide)).2.2

end Aegis.Tty

import Aegis.CommandStats
import Aegis.Event
import Aegis.Levenshtein
import Aegis.Transducer

/-!
# The keystroke analyzer

`analyzer.rs`: timestamped reads of input bytes become one keystroke payload each
and one command payload a line terminator. A transient buffer holds the line
being typed, up to a cap, and the previous line is kept for the edit distance.
-/

namespace Aegis

def isAsciiGraphic (b : UInt8) : Bool := 0x21 ≤ b && b ≤ 0x7e

def isPrintable (b : UInt8) : Bool := isAsciiGraphic b || b = 0x20

/-- The bytes that reach the line buffer. -/
abbrev Printable : Type := { b : UInt8 // isPrintable b = true }

def Printable.toChar (b : Printable) : Char := Char.ofNat b.val.toNat

/-- `from_utf8_lossy`, which loses nothing of ASCII. -/
def decodeLine (line : List Printable) : String := String.ofList (line.map Printable.toChar)

def maxLineBuf : ℕ := 16384

def saturatingSub (a b : UInt64) : UInt64 := if b ≤ a then a - b else 0

structure AnalyzerConfig where
  hashSalt : String

def AnalyzerConfig.default : AnalyzerConfig := ⟨"aegis-default-salt"⟩

structure Analyzer where
  sessionId : String
  cfg : AnalyzerConfig
  lastReadNs : Option UInt64
  lastCommandFinishNs : Option UInt64
  lineBuf : List Printable
  hadBackspace : Bool
  prevLine : String
  lastWasCr : Bool

namespace Analyzer
variable {F : Type} [F64 F] (P : Primitives F)

def new (sessionId : String) (cfg : AnalyzerConfig) : Analyzer where
  sessionId := sessionId
  cfg := cfg
  lastReadNs := none
  lastCommandFinishNs := none
  lineBuf := []
  hadBackspace := false
  prevLine := ""
  lastWasCr := false

/-- The gap since an earlier reading of the clock, zero where there is none. -/
def gapSince (last : Option UInt64) (now : UInt64) : UInt64 :=
  (last.map (saturatingSub now)).getD 0

def finishLine (a : Analyzer) (now : UInt64) : Analyzer × EventPayload F :=
  let line := decodeLine a.lineBuf
  let stats := commandStats P line a.cfg.hashSalt
  ({ a with
      lastCommandFinishNs := some now
      prevLine := line
      lineBuf := []
      hadBackspace := false },
    .commandObserved a.sessionId stats.commandLen stats.tokenCount stats.shannonEntropy
      a.hadBackspace (UInt32.ofNat (levenshtein a.prevLine line))
      (gapSince a.lastCommandFinishNs now) stats.commandHash)

/-- What one byte of a read does, and the payloads it pushes. -/
def onByte (now : UInt64) (a : Analyzer) (b : UInt8) : Analyzer × List (EventPayload F) :=
  if b = 0x7f ∨ b = 0x08 then
    ({ a with lastWasCr := false, hadBackspace := true, lineBuf := a.lineBuf.dropLast }, [])
  else if b = 0x0d then
    let (a, command) := finishLine P { a with lastWasCr := true } now
    (a, [command])
  else if b = 0x0a then
    if a.lastWasCr then
      -- The second half of a CRLF pair.
      ({ a with lastWasCr := false }, [])
    else
      let (a, command) := finishLine P a now
      (a, [command])
  else if h : isPrintable b = true then
    ({ a with
        lastWasCr := false
        lineBuf := if a.lineBuf.length < maxLineBuf then a.lineBuf ++ [⟨b, h⟩] else a.lineBuf },
      [])
  else ({ a with lastWasCr := false }, [])

def onBytes (now : UInt64) (a : Analyzer) (bytes : List UInt8) :
    Analyzer × List (EventPayload F) :=
  emitAll (onByte P now) a bytes

/-- The paste heuristic counts the printable bytes of the read. -/
def keystroke (a : Analyzer) (bytes : List UInt8) (now : UInt64) : EventPayload F :=
  .keystroke a.sessionId (gapSince a.lastReadNs now) (1 < bytes.countP isPrintable)
    (UInt32.ofNat (max bytes.length 1))

def onRead (a : Analyzer) (bytes : List UInt8) (now : UInt64) :
    Analyzer × List (EventPayload F) :=
  let (b, commands) := onBytes P now { a with lastReadNs := some now } bytes
  (b, keystroke a bytes now :: commands)

def onSessionEnd (a : Analyzer) : Analyzer × EventPayload F :=
  ({ a with lineBuf := [], prevLine := "", hadBackspace := false, lastWasCr := false },
    .sessionEnd a.sessionId)

/-- A read: its bytes and its time. -/
abbrev Read : Type := List UInt8 × UInt64

def onReads (a : Analyzer) (reads : List Read) : Analyzer × List (EventPayload F) :=
  emitAll (fun a r => onRead P a r.1 r.2) a reads

/-- The payloads of a session's reads and of its end. -/
def session (a : Analyzer) (reads : List Read) : List (EventPayload F) :=
  let (a, out) := onReads P a reads
  out ++ [(onSessionEnd a).2]

end Analyzer

/-- What a command payload says besides the time since the last one. -/
def EventPayload.command? {F : Type} : EventPayload F → Option (EventPayload F)
  | .commandObserved sessionId len tokens entropy backspace distance _ hash =>
      some (.commandObserved sessionId len tokens entropy backspace distance 0 hash)
  | _ => none

namespace Analyzer
variable {F : Type} [F64 F] (P : Primitives F)

/-- Analyzers that differ in their two timestamps only. -/
def SameLine (a b : Analyzer) : Prop :=
  ∃ read finish : Option UInt64,
    b = { a with lastReadNs := read, lastCommandFinishNs := finish }

theorem SameLine.refl (a : Analyzer) : SameLine a a := ⟨_, _, rfl⟩

/-- A byte leaves the same line and the same command, whenever it arrives. -/
theorem onByte_agree {a b : Analyzer} (h : SameLine a b) (now now' : UInt64) (byte : UInt8) :
    Agree SameLine EventPayload.command? (onByte P now a byte) (onByte P now' b byte) := by
  obtain ⟨read, finish, rfl⟩ := h
  unfold onByte Agree
  dsimp only
  split_ifs
  all_goals exact ⟨⟨_, _, rfl⟩, rfl⟩

theorem onRead_agree {a b : Analyzer} (h : SameLine a b) (r : Read) :
    Agree SameLine EventPayload.command? (onRead P a r.1 r.2) (emitAll (onByte P 0) b r.1) := by
  have hline : SameLine { a with lastReadNs := some r.2 } b := by
    obtain ⟨read, finish, rfl⟩ := h
    exact ⟨read, finish, rfl⟩
  have hbytes := agree_emitAll (fun byte => [byte])
    (fun a b byte hab => by simpa using onByte_agree P hab r.2 0 byte) hline r.1
  rw [List.flatMap_singleton'] at hbytes
  exact ⟨hbytes.1, hbytes.2⟩

/-- The reads of a session show the commands of the stream they make up. -/
theorem session_commands (a : Analyzer) (reads : List Read) :
    (session P a reads).filterMap EventPayload.command? =
      (emitAll (onByte P 0) a (reads.flatMap Prod.fst)).2.filterMap EventPayload.command? := by
  have hreads := agree_emitAll Prod.fst
    (fun a b r hab => onRead_agree P hab r) (SameLine.refl a) reads
  rw [← hreads.2]
  simp [session, onReads, onSessionEnd, EventPayload.command?]

/-- However the stream is cut into reads and whenever they come, the commands are the
same, wherever a terminator or the cap falls. -/
theorem commands_chunk_invariant (a : Analyzer) (reads reads' : List Read)
    (h : reads.flatMap Prod.fst = reads'.flatMap Prod.fst) :
    (session P a reads).filterMap EventPayload.command? =
      (session P a reads').filterMap EventPayload.command? := by
  rw [session_commands, session_commands, h]

/-- Primitives for closed runs. -/
def plainPrimitives : Primitives ℚ where
  log2 p := p - 1
  sha256 bytes := bytes
  hexEncode bytes := String.ofList (bytes.map fun b => Char.ofNat b.toNat)

def salted : Analyzer := new "user:1234" ⟨"unit-test-salt"⟩

/-- A CRLF pair in one read or in two. -/
theorem crlf_chunk_invariant :
    ((session plainPrimitives salted [([108, 115, 13, 10], 1)]).filterMap
      EventPayload.command?).length = 1 ∧
    (session plainPrimitives salted [([108, 115, 13, 10], 1)]).filterMap
        EventPayload.command? =
      (session plainPrimitives salted [([108], 5), ([115, 13], 9), ([10], 70)]).filterMap
        EventPayload.command? :=
  ⟨by decide +kernel, commands_chunk_invariant plainPrimitives salted _ _ (by decide)⟩

end Analyzer
end Aegis

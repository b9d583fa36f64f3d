import Aegis.Json

/-!
# The event model

`event.rs`: the payload variants, the envelope, and the routing kind a payload
has by default. Floats are a parameter, since nothing about an event depends on
their arithmetic.
-/

namespace Aegis

abbrev AgentId : Type := String
abbrev SessionId : Type := String

/-- Lower-case hexadecimal in the 8-4-4-4-12 grouping. -/
def isHyphenated (s : String) : Bool :=
  s.toList.length = 36 && s.toList.zipIdx.all fun (ch, i) =>
    if i = 8 ∨ i = 13 ∨ i = 18 ∨ i = 23 then ch = '-'
    else ('0' ≤ ch && ch ≤ '9') || ('a' ≤ ch && ch ≤ 'f')

/-- A UUID by its printed form. -/
structure Uuid where
  text : String
  hyphenated : isHyphenated text = true
deriving DecidableEq

namespace Uuid

theorem text_injective : Function.Injective Uuid.text := by
  rintro ⟨s, _⟩ ⟨t, _⟩ h
  cases h
  rfl

instance : LinearOrder Uuid := LinearOrder.lift' text text_injective

instance : NeZero (10 : ℕ) := ⟨by decide⟩

/-- Ids told apart by their last digit. -/
def ofDigit (d : Fin 10) : Uuid :=
  ⟨"00000000-0000-4000-8000-00000000000" ++ toString d.val, by revert d; decide⟩

def nil : Uuid := ⟨"00000000-0000-0000-0000-000000000000", by decide⟩

/-- Undoes the plain, the braced and the URN form. -/
def ungroup (cs : List Char) : List Char :=
  if cs.length = 32 then
    cs.take 8 ++ ['-'] ++ (cs.drop 8).take 4 ++ ['-'] ++ (cs.drop 12).take 4 ++ ['-'] ++
      (cs.drop 16).take 4 ++ ['-'] ++ cs.drop 20
  else if cs.length = 38 ∧ cs.head? = some '{' ∧ cs.getLast? = some '}' then cs.tail.dropLast
  else if cs.length = 45 ∧ cs.take 9 = "urn:uuid:".toList then cs.drop 9
  else cs

/-- `Uuid::parse_str`: the printed form, or a form that normalizes to it. -/
def parseStr (s : String) : Option Uuid :=
  if h : isHyphenated s = true then some ⟨s, h⟩ else
    let t := String.ofList ((ungroup s.toList).map Char.toLower)
    if h : isHyphenated t = true then some ⟨t, h⟩ else none

@[simp] theorem parseStr_text (u : Uuid) : parseStr u.text = some u := by
  simp [parseStr, u.hyphenated]

end Uuid

inductive Severity where
  | info | low | medium | high | critical
deriving DecidableEq, Repr

inductive Verdict where
  | human | agent | uncertain
deriving DecidableEq, Repr

/-- `Display for Verdict`. -/
def Verdict.display : Verdict → String
  | .human => "human"
  | .agent => "agent"
  | .uncertain => "uncertain"

inductive EventPayload (F : Type) where
  | processExec (pid ppid uid : UInt32) (exe : String) (cmdline : List String)
      (cwd : Option String)
  | sessionStart (sessionId : SessionId) (tty : Option String) (user : String)
      (remote : Option String)
  | sessionEnd (sessionId : SessionId)
  | keystroke (sessionId : SessionId) (interArrivalNs : UInt64) (isPaste : Bool)
      (burstLen : UInt32)
  | commandObserved (sessionId : SessionId) (commandLen tokenCount : UInt32)
      (shannonEntropy : F) (hadBackspace : Bool) (editDistancePrev : UInt32)
      (interCommandNs : UInt64) (commandHash : String)
  | score (subject model : String) (score : F) (features : OrderedTable String F)
  | detection (subject : String) (verdict : Verdict) (confidence : F) (model : String)
      (reasons : List String) (features : OrderedTable String F)
  | alert (severity : Severity) (title detail : String) (subject : Option String)
  | heartbeat (uptimeS : UInt64)
  | custom (value : Json.Value F)

namespace EventPayload
variable {F : Type}

def defaultKind : EventPayload F → String
  | .processExec .. => "process.exec"
  | .sessionStart .. => "session.start"
  | .sessionEnd .. => "session.end"
  | .keystroke .. => "input.keystroke"
  | .commandObserved .. => "command.observed"
  | .score .. => "score"
  | .detection .. => "detection"
  | .alert .. => "alert"
  | .heartbeat .. => "heartbeat"
  | .custom _ => "custom"

end EventPayload

/-- The unit of information on the event bus. -/
structure Event (F : Type) where
  id : Uuid
  tsNs : UInt64
  agentId : AgentId
  source : String
  kind : String
  payload : EventPayload F
  labels : OrderedTable String String

namespace Event
variable {F : Type}

/-- An event of a payload under its default kind; the id and the time are what
the generator and the clock gave. -/
def new (id : Uuid) (now : UInt64) (agentId : AgentId) (source : String)
    (payload : EventPayload F) : Event F where
  id := id
  tsNs := now
  agentId := agentId
  source := source
  kind := payload.defaultKind
  payload := payload
  labels := .empty

def withLabel (e : Event F) (k v : String) : Event F := { e with labels := e.labels.insert k v }

def withKind (e : Event F) (kind : String) : Event F := { e with kind := kind }

end Event

/-- Heartbeats of one host, told apart by their ids. -/
def heartbeat (d : Fin 10) : Event ℚ := .new (.ofDigit d) 0 "agent-1" "host" (.heartbeat 60)

end Aegis

import Aegis.Codec
import Aegis.Event

/-!
# Events as JSON

The derived serializers of `event.rs` and of the `EventBatch` message. A
payload is internally tagged: its tag entry is written into the same object as
the variant's entries, and for `Custom` those entries are the ones of a
free-form object. Reading looks each field up by name; a second entry with the
tag's key, or with a known field's key, is an error, and unknown keys are
skipped.
-/

namespace Aegis

namespace Json
variable {F α β : Type}

def ofU64 (n : UInt64) : Json F :=
  .int ⟨n.toNat, by have := n.toNat_lt; omega⟩

def ofU32 (n : UInt32) : Json F :=
  .int ⟨n.toNat, by have := n.toNat_lt; omega⟩

/-- A float that has no JSON number is written as `null`. -/
def ofF64 [JsonFloat F] (x : F) : Json F := if JsonFloat.finite x then .float x else .null

def ofOption (s : Option String) : Json F := s.elim .null .str

def ofTable (f : α → Json F) (t : OrderedTable String α) : Json F :=
  .obj (t.rows.map fun r => (r.1, f r.2))

def toU64 : Json F → Option UInt64
  | .int n => if 0 ≤ n.1 then some (UInt64.ofNat n.1.toNat) else none
  | _ => none

def toU32 : Json F → Option UInt32
  | .int n => if 0 ≤ n.1 ∧ n.1 < 2 ^ 32 then some (UInt32.ofNat n.1.toNat) else none
  | _ => none

def toBool : Json F → Option Bool
  | .bool b => some b
  | _ => none

def toStr : Json F → Option String
  | .str s => some s
  | _ => none

def toUuid : Json F → Option Uuid
  | .str s => Uuid.parseStr s
  | _ => none

def toF64 [JsonFloat F] : Json F → Option F
  | .float x => some x
  | .int n => some (JsonFloat.ofInt n.1)
  | _ => none

def toOption : Json F → Option (Option String)
  | .null => some none
  | .str s => some (some s)
  | _ => none

def toList (f : Json F → Option α) : Json F → Option (List α)
  | .arr items => items.mapM f
  | _ => none

def toTable (f : Json F → Option α) : Json F → Option (OrderedTable String α)
  | .obj entries => (entries.mapM fun e => (f e.2).map fun v => (e.1, v)).map OrderedTable.ofList
  | _ => none

/-- The entry of a required field. -/
def field (k : String) (read : Json F → Option α) (entries : List (String × Json F)) : Option α :=
  match entries.filter fun e => e.1 = k with
  | [(_, v)] => read v
  | _ => none

/-- The entry of a field with a default. -/
def fieldOr (k : String) (default : α) (read : Json F → Option α)
    (entries : List (String × Json F)) : Option α :=
  match entries.filter fun e => e.1 = k with
  | [] => some default
  | [(_, v)] => read v
  | _ => none

end Json

namespace Severity
variable {F : Type}

def name : Severity → String
  | .info => "info"
  | .low => "low"
  | .medium => "medium"
  | .high => "high"
  | .critical => "critical"

def deserialize : Json F → Option Severity
  | .str s => [Severity.info, .low, .medium, .high, .critical].find? fun v => v.name = s
  | _ => none

end Severity

namespace Verdict
variable {F : Type}

def deserialize : Json F → Option Verdict
  | .str s => [Verdict.human, .agent, .uncertain].find? fun v => v.display = s
  | _ => none

end Verdict

namespace EventPayload
variable {F : Type} [JsonFloat F]

/-- The tag's key. -/
def tag : String := "type"

/-- The entries a variant writes after its tag. A `Custom` value has entries
when it is an object or `null`; any other value is an error. -/
def body : EventPayload F → Option (String × List (String × Json F))
  | .processExec pid ppid uid exe cmdline cwd => some ("process_exec",
      [("pid", .ofU32 pid), ("ppid", .ofU32 ppid), ("uid", .ofU32 uid), ("exe", .str exe),
        ("cmdline", .arr (cmdline.map .str)), ("cwd", .ofOption cwd)])
  | .sessionStart sid tty user remote => some ("session_start",
      [("session_id", .str sid), ("tty", .ofOption tty), ("user", .str user),
        ("remote", .ofOption remote)])
  | .sessionEnd sid => some ("session_end", [("session_id", .str sid)])
  | .keystroke sid gap paste burst => some ("keystroke",
      [("session_id", .str sid), ("inter_arrival_ns", .ofU64 gap), ("is_paste", .bool paste),
        ("burst_len", .ofU32 burst)])
  | .commandObserved sid len tokens entropy backspace dist gap hash => some ("command_observed",
      [("session_id", .str sid), ("command_len", .ofU32 len), ("token_count", .ofU32 tokens),
        ("shannon_entropy", .ofF64 entropy), ("had_backspace", .bool backspace),
        ("edit_distance_prev", .ofU32 dist), ("inter_command_ns", .ofU64 gap),
        ("command_hash", .str hash)])
  | .score subject model x features => some ("score",
      [("subject", .str subject), ("model", .str model), ("score", .ofF64 x),
        ("features", .ofTable .ofF64 features)])
  | .detection subject verdict confidence model reasons features => some ("detection",
      [("subject", .str subject), ("verdict", .str verdict.display),
        ("confidence", .ofF64 confidence), ("model", .str model),
        ("reasons", .arr (reasons.map .str)), ("features", .ofTable .ofF64 features)])
  | .alert severity title detail subject => some ("alert",
      [("severity", .str severity.name), ("title", .str title), ("detail", .str detail),
        ("subject", .ofOption subject)])
  | .heartbeat uptime => some ("heartbeat", [("uptime_s", .ofU64 uptime)])
  | .custom value => match value.json with
      | .obj entries => some ("custom", entries)
      | .null => some ("custom", [])
      | _ => none

def serialize (p : EventPayload F) : Option (Json F) :=
  p.body.map fun b => .obj ((tag, .str b.1) :: b.2)

/-- A variant read from the entries other than the tag. -/
def ofBody (variant : String) (b : List (String × Json F)) : Option (EventPayload F) :=
  if variant = "process_exec" then do
    some (.processExec (← Json.field "pid" Json.toU32 b) (← Json.field "ppid" Json.toU32 b)
      (← Json.field "uid" Json.toU32 b) (← Json.field "exe" Json.toStr b)
      (← Json.field "cmdline" (Json.toList Json.toStr) b)
      (← Json.fieldOr "cwd" none Json.toOption b))
  else if variant = "session_start" then do
    some (.sessionStart (← Json.field "session_id" Json.toStr b)
      (← Json.fieldOr "tty" none Json.toOption b) (← Json.field "user" Json.toStr b)
      (← Json.fieldOr "remote" none Json.toOption b))
  else if variant = "session_end" then do
    some (.sessionEnd (← Json.field "session_id" Json.toStr b))
  else if variant = "keystroke" then do
    some (.keystroke (← Json.field "session_id" Json.toStr b)
      (← Json.field "inter_arrival_ns" Json.toU64 b) (← Json.field "is_paste" Json.toBool b)
      (← Json.field "burst_len" Json.toU32 b))
  else if variant = "command_observed" then do
    some (.commandObserved (← Json.field "session_id" Json.toStr b)
      (← Json.field "command_len" Json.toU32 b) (← Json.field "token_count" Json.toU32 b)
      (← Json.field "shannon_entropy" Json.toF64 b) (← Json.field "had_backspace" Json.toBool b)
      (← Json.field "edit_distance_prev" Json.toU32 b)
      (← Json.field "inter_command_ns" Json.toU64 b) (← Json.field "command_hash" Json.toStr b))
  else if variant = "score" then do
    some (.score (← Json.field "subject" Json.toStr b) (← Json.field "model" Json.toStr b)
      (← Json.field "score" Json.toF64 b)
      (← Json.fieldOr "features" .empty (Json.toTable Json.toF64) b))
  else if variant = "detection" then do
    some (.detection (← Json.field "subject" Json.toStr b)
      (← Json.field "verdict" Verdict.deserialize b) (← Json.field "confidence" Json.toF64 b)
      (← Json.field "model" Json.toStr b)
      (← Json.fieldOr "reasons" [] (Json.toList Json.toStr) b)
      (← Json.fieldOr "features" .empty (Json.toTable Json.toF64) b))
  else if variant = "alert" then do
    some (.alert (← Json.field "severity" Severity.deserialize b)
      (← Json.field "title" Json.toStr b) (← Json.field "detail" Json.toStr b)
      (← Json.fieldOr "subject" none Json.toOption b))
  else if variant = "heartbeat" then do
    some (.heartbeat (← Json.field "uptime_s" Json.toU64 b))
  else if variant = "custom" then
    some (.custom (Json.Value.deserialize (.obj b)))
  else none

/-- Splits the tag entry from the others, which is an error unless there is
exactly one, and reads the variant it names. -/
def deserialize : Json F → Option (EventPayload F)
  | .obj entries => do
      let variant ← Json.field tag Json.toStr entries
      ofBody variant (entries.filter fun e => e.1 ≠ tag)
  | _ => none

end EventPayload

namespace Event
variable {F : Type} [JsonFloat F]

def serialize (e : Event F) : Option (Json F) :=
  e.payload.serialize.map fun p => .obj
    [("id", .str e.id.text), ("ts_ns", .ofU64 e.tsNs), ("agent_id", .str e.agentId),
      ("source", .str e.source), ("kind", .str e.kind), ("payload", p),
      ("labels", .ofTable .str e.labels)]

def deserialize : Json F → Option (Event F)
  | .obj b => do
      some ⟨← Json.field "id" Json.toUuid b, ← Json.field "ts_ns" Json.toU64 b,
        ← Json.field "agent_id" Json.toStr b, ← Json.field "source" Json.toStr b,
        ← Json.field "kind" Json.toStr b, ← Json.field "payload" EventPayload.deserialize b,
        ← Json.fieldOr "labels" .empty (Json.toTable Json.toStr) b⟩
  | _ => none

end Event
end Aegis

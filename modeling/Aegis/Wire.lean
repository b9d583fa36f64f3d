import Aegis.EventCodec

/-!
# Framed messages

`aegis-proto`: one JSON message behind its length. Of the messages only those
of an established session's data path are here; the handshake and the command
channel carry no events.
-/

namespace Aegis

/-- Hard cap on a single frame. -/
def maxFrameBytes : ℕ := 16 * 1024 * 1024

inductive Message (F : Type) where
  | eventBatch (batchId : Uuid) (events : List (Event F))
  | batchAck (batchId : Uuid) (accepted : UInt32)
  | ping
  | pong

/-- A length and the text it announces. -/
structure Frame (F : Type) where
  len : ℕ
  body : Json F

namespace Message
variable {F : Type} [JsonFloat F]

def serialize : Message F → Option (Json F)
  | .eventBatch batchId events => (events.mapM Event.serialize).map fun docs => .obj
      [("msg", .str "event_batch"), ("batch_id", .str batchId.text), ("events", .arr docs)]
  | .batchAck batchId accepted => some (.obj
      [("msg", .str "batch_ack"), ("batch_id", .str batchId.text), ("accepted", .ofU32 accepted)])
  | .ping => some (.obj [("msg", .str "ping")])
  | .pong => some (.obj [("msg", .str "pong")])

def deserialize : Json F → Option (Message F)
  | .obj entries => do
      let variant ← Json.field "msg" Json.toStr entries
      let b := entries.filter fun e => e.1 ≠ "msg"
      if variant = "event_batch" then
        some (.eventBatch (← Json.field "batch_id" Json.toUuid b)
          (← Json.field "events" (Json.toList Event.deserialize) b))
      else if variant = "batch_ack" then
        some (.batchAck (← Json.field "batch_id" Json.toUuid b)
          (← Json.field "accepted" Json.toU32 b))
      else if variant = "ping" then some .ping
      else if variant = "pong" then some .pong
      else none
  | _ => none

/-- The frame of a message, unless it does not serialize or is too large. -/
def write (m : Message F) : Option (Frame F) := do
  let doc ← m.serialize
  if doc.textLen ≤ maxFrameBytes then some ⟨doc.textLen, doc⟩ else none

def read (f : Frame F) : Option (Message F) :=
  if f.len ≤ maxFrameBytes then f.body.reread.bind deserialize else none

end Message
end Aegis

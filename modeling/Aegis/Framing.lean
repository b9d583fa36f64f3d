import Aegis.ChunkReader
import Aegis.Wire
import Mathlib.Tactic

/-!
# Frames on a byte stream

`write_message` and `read_message` of `aegis-proto`, over the bytes of a
message that serde makes and reads. The reader keeps account of how long its
buffer is each time it has grown it and of how many bytes of the body were then
there.
-/

namespace Aegis

/-- By so much the buffer of a body grows at a time. -/
def readChunkBytes : ℕ := 64 * 1024

inductive ProtoError where
  | serde
  | frameTooLarge (bytes : ℕ)
  | closed
  deriving DecidableEq, Repr

/-- `u32::to_be_bytes`. -/
def toBeBytes (n : UInt32) : List UInt8 :=
  [UInt8.ofNat (n.toNat / 256 ^ 3), UInt8.ofNat (n.toNat / 256 ^ 2),
    UInt8.ofNat (n.toNat / 256), UInt8.ofNat n.toNat]

/-- `u32::from_be_bytes`. -/
def fromBeBytes (bytes : List UInt8) : ℕ := bytes.foldl (fun n b => 256 * n + b.toNat) 0

@[simp] theorem length_toBeBytes (n : UInt32) : (toBeBytes n).length = 4 := rfl

theorem fromBeBytes_toBeBytes (n : UInt32) : fromBeBytes (toBeBytes n) = n.toNat := by
  have hn := n.toNat_lt
  simp only [toBeBytes, fromBeBytes, List.foldl_cons, List.foldl_nil, UInt8.toNat_ofNat']
  omega

section Writer
variable {μ : Type} (encode : μ → Option (List UInt8))

/-- The bytes `write_message` puts on the stream. -/
def writeMessage (m : μ) : Except ProtoError (List UInt8) :=
  match encode m with
  | none => .error .serde
  | some body =>
      if body.length > maxFrameBytes then .error (.frameTooLarge body.length)
      else .ok (toBeBytes (UInt32.ofNat body.length) ++ body)

theorem writeMessage_ok {m : μ} {body : List UInt8} (hm : encode m = some body)
    (hlen : body.length ≤ maxFrameBytes) :
    writeMessage encode m = .ok (toBeBytes (UInt32.ofNat body.length) ++ body) := by
  rw [writeMessage, hm]
  exact if_neg (by omega)

end Writer

/-- `Vec::resize` to a longer length. -/
def resize (buf : List UInt8) (want : ℕ) : List UInt8 :=
  buf ++ List.replicate (want - buf.length) 0

/-- The bytes `got` written over those of `buf` from `pos` on. -/
def fill (buf : List UInt8) (pos : ℕ) (got : List UInt8) : List UInt8 :=
  buf.take pos ++ got ++ buf.drop (pos + got.length)

theorem length_resize {buf : List UInt8} {want : ℕ} (h : buf.length ≤ want) :
    (resize buf want).length = want := by
  rw [resize, List.length_append, List.length_replicate]
  omega

theorem take_fill_resize (buf got : List UInt8) (want : ℕ) :
    (fill (resize buf want) buf.length got).take (buf.length + got.length) = buf ++ got := by
  have hkept : (resize buf want).take buf.length = buf := by
    rw [resize, List.take_left' rfl]
  rw [fill, hkept, List.take_left' (List.length_append)]

theorem missing_lt {len : ℕ} {buf got : List UInt8} (want : ℕ) (hlen : buf.length < len)
    (hgot : got ≠ []) :
    len - ((fill (resize buf want) buf.length got).take (buf.length + got.length)).length <
      len - buf.length := by
  have hpos := List.length_pos_of_ne_nil hgot
  rw [take_fill_resize, List.length_append]
  omega

/-- The buffer when it has just grown, and what it then held of the body. -/
structure Grown where
  size : ℕ
  received : ℕ

structure BodyRead where
  body : Option (List UInt8)
  reader : ChunkReader UInt8
  grown : List Grown

/-- The length to which the buffer of a body of `len` bytes grows next. -/
def want (len : ℕ) (buf : List UInt8) : ℕ := min (buf.length + readChunkBytes) len

/-- The loop of `read_message` that collects a body of `len` bytes. -/
def readBody (len : ℕ) (buf : List UInt8) (r : ChunkReader UInt8) : BodyRead :=
  if _hlen : buf.length < len then
    let room := resize buf (want len buf)
    if _hgot : (r.read (want len buf - buf.length)).1 = [] then
      ⟨none, (r.read (want len buf - buf.length)).2, [⟨room.length, buf.length⟩]⟩
    else
      let got := (r.read (want len buf - buf.length)).1
      let more := readBody len ((fill room buf.length got).take (buf.length + got.length))
        (r.read (want len buf - buf.length)).2
      ⟨more.body, more.reader, ⟨room.length, buf.length⟩ :: more.grown⟩
  else ⟨some buf, r, []⟩
termination_by len - buf.length
decreasing_by exact missing_lt _ _hlen _hgot

structure MessageRead (μ : Type) where
  outcome : Except ProtoError μ
  reader : ChunkReader UInt8
  grown : List Grown

section Reader
variable {μ : Type} (decode : List UInt8 → Option μ)

/-- What becomes of a body that was read, or was not. -/
def BodyRead.parse (b : BodyRead) : MessageRead μ :=
  ⟨match b.body with
    | none => .error .closed
    | some buf =>
        match decode buf with
        | none => .error .serde
        | some m => .ok m,
    b.reader, b.grown⟩

def readMessage (r : ChunkReader UInt8) : MessageRead μ :=
  match r.readExact 4 with
  | (none, r) => ⟨.error .closed, r, []⟩
  | (some lenBuf, r) =>
      let len := fromBeBytes lenBuf
      if len > maxFrameBytes then ⟨.error (.frameTooLarge len), r, []⟩
      else (readBody len [] r).parse decode

theorem readMessage_short {r : ChunkReader UInt8} (h : (r.readExact 4).1 = none) :
    readMessage decode r = ⟨.error .closed, (r.readExact 4).2, []⟩ := by
  unfold readMessage
  generalize r.readExact 4 = first at h ⊢
  obtain ⟨lenBuf, afterLen⟩ := first
  simp only at h
  rw [h]

theorem readMessage_long {r : ChunkReader UInt8} {lenBuf : List UInt8}
    (h : (r.readExact 4).1 = some lenBuf) :
    readMessage decode r =
      if fromBeBytes lenBuf > maxFrameBytes then
        ⟨.error (.frameTooLarge (fromBeBytes lenBuf)), (r.readExact 4).2, []⟩
      else (readBody (fromBeBytes lenBuf) [] (r.readExact 4).2).parse decode := by
  unfold readMessage
  generalize r.readExact 4 = first at h ⊢
  obtain ⟨lenBuf', afterLen⟩ := first
  simp only at h
  rw [h]

end Reader

theorem readBody_done {len : ℕ} {buf : List UInt8} (h : ¬ buf.length < len)
    (r : ChunkReader UInt8) : readBody len buf r = ⟨some buf, r, []⟩ := by
  rw [readBody, dif_neg h]

/-- What one turn asks the reader for. -/
def asked (len : ℕ) (buf : List UInt8) : ℕ := want len buf - buf.length

theorem want_of_lt {len : ℕ} {buf : List UInt8} (h : buf.length < len) :
    want len buf = buf.length + asked len buf ∧ 0 < asked len buf ∧
      asked len buf ≤ readChunkBytes ∧ asked len buf ≤ len - buf.length := by
  unfold asked want readChunkBytes
  omega

theorem readBody_closed {len : ℕ} {buf : List UInt8} {r : ChunkReader UInt8}
    (h : buf.length < len) (hgot : (r.read (asked len buf)).1 = []) :
    readBody len buf r = ⟨none, (r.read (asked len buf)).2,
      [⟨buf.length + asked len buf, buf.length⟩]⟩ := by
  have hwant := (want_of_lt h).1
  rw [readBody, dif_pos h]
  simp only [asked] at hgot hwant ⊢
  rw [dif_pos hgot, length_resize (by omega), ← hwant]

theorem readBody_more {len : ℕ} {buf : List UInt8} {r : ChunkReader UInt8}
    (h : buf.length < len) (hgot : (r.read (asked len buf)).1 ≠ []) :
    readBody len buf r =
      ⟨(readBody len (buf ++ (r.read (asked len buf)).1) (r.read (asked len buf)).2).body,
        (readBody len (buf ++ (r.read (asked len buf)).1) (r.read (asked len buf)).2).reader,
        ⟨buf.length + asked len buf, buf.length⟩ ::
          (readBody len (buf ++ (r.read (asked len buf)).1) (r.read (asked len buf)).2).grown⟩ := by
  have hwant := (want_of_lt h).1
  rw [readBody, dif_pos h]
  simp only [asked] at hgot hwant ⊢
  rw [dif_neg hgot, take_fill_resize, length_resize (by omega), ← hwant]

/-- The loop goes as far as the stream does, however it arrives: it takes what is missing of the
body, or everything. -/
theorem readBody_spec (len : ℕ) (buf : List UInt8) (r : ChunkReader UInt8) :
    (len ≤ buf.length + r.rest.length → buf.length ≤ len →
      (readBody len buf r).body = some (buf ++ r.rest.take (len - buf.length)) ∧
      (readBody len buf r).reader.rest = r.rest.drop (len - buf.length)) ∧
    (buf.length + r.rest.length < len →
      (readBody len buf r).body = none ∧ (readBody len buf r).reader.rest = []) := by
  induction hmissing : len - buf.length using Nat.strong_induction_on generalizing buf r with
  | _ missing ih => ?_
  subst hmissing
  by_cases hlen : buf.length < len
  · have hsplit := r.read_rest (asked len buf)
    have hle := r.read_length (asked len buf)
    obtain ⟨-, hpos, -, hasked⟩ := want_of_lt hlen
    have hlength := congrArg List.length hsplit
    rw [List.length_append] at hlength
    by_cases hgot : (r.read (asked len buf)).1 = []
    · have hrest : r.rest = [] := (ChunkReader.read_eq_nil hpos).mp hgot
      rw [readBody_closed hlen hgot]
      constructor
      · intro henough
        rw [hrest, List.length_nil] at henough
        omega
      · intro _
        rw [hgot, hrest] at hsplit
        exact ⟨rfl, hsplit.symm⟩
    · have hpos := List.length_pos_of_ne_nil hgot
      have hnext := ih _ (by rw [List.length_append]; omega)
        (buf ++ (r.read (asked len buf)).1) (r.read (asked len buf)).2 rfl
      rw [List.length_append] at hnext
      rw [readBody_more hlen hgot]
      constructor
      · intro henough hbuf
        obtain ⟨hbody, hreader⟩ := hnext.1 (by omega) (by omega)
        have hfits : (r.read (asked len buf)).1.length ≤ len - buf.length := by omega
        have hmissing : len - (buf.length + (r.read (asked len buf)).1.length) =
            len - buf.length - (r.read (asked len buf)).1.length := by omega
        constructor
        · rw [hbody, hmissing, List.append_assoc]
          conv_rhs => rw [hsplit]
          rw [List.take_append, List.take_of_length_le hfits]
        · rw [hreader, hmissing]
          conv_rhs => rw [hsplit]
          rw [List.drop_append, List.drop_of_length_le hfits, List.nil_append]
      · intro hshort
        exact hnext.2 (by omega)
  · rw [readBody_done hlen]
    constructor
    · intro _ hbuf
      have hnone : len - buf.length = 0 := by omega
      rw [hnone, List.take_zero, List.append_nil, List.drop_zero]
      exact ⟨rfl, rfl⟩
    · intro hshort
      omega

/-- The buffer is one piece ahead of the bytes received, at most, and every turn but the last
receives some. -/
theorem readBody_grown (len : ℕ) (buf : List UInt8) (r : ChunkReader UInt8) :
    (∀ g ∈ (readBody len buf r).grown, g.size ≤ g.received + readChunkBytes ∧
      g.received ≤ buf.length + r.rest.length) ∧
    (readBody len buf r).grown.length ≤ r.rest.length + 1 := by
  induction hmissing : len - buf.length using Nat.strong_induction_on generalizing buf r with
  | _ missing ih => ?_
  subst hmissing
  by_cases hlen : buf.length < len
  · have hfirst := Nat.add_le_add_left (want_of_lt hlen).2.2.1 buf.length
    have hlength := congrArg List.length (r.read_rest (asked len buf))
    rw [List.length_append] at hlength
    by_cases hgot : (r.read (asked len buf)).1 = []
    · rw [readBody_closed hlen hgot]
      constructor
      · intro g hg
        rw [List.mem_singleton.mp hg]
        exact ⟨hfirst, Nat.le_add_right _ _⟩
      · exact Nat.le_add_left 1 _
    · have hpos := List.length_pos_of_ne_nil hgot
      obtain ⟨hgrown, hturns⟩ := ih _ (by rw [List.length_append]; omega)
        (buf ++ (r.read (asked len buf)).1) (r.read (asked len buf)).2 rfl
      rw [readBody_more hlen hgot]
      constructor
      · intro g hg
        rcases List.mem_cons.mp hg with rfl | hg
        · exact ⟨hfirst, Nat.le_add_right _ _⟩
        · have := hgrown g hg
          rw [List.length_append] at this
          omega
      · rw [List.length_cons]
        omega
  · rw [readBody_done hlen]
    exact ⟨nofun, Nat.zero_le _⟩

section Calls
variable {μ : Type} (encode : μ → Option (List UInt8)) (decode : List UInt8 → Option μ)

/-- A message that makes it through the codec and under the limit. -/
def Sendable (m : μ) : Prop :=
  ∃ body, encode m = some body ∧ body.length ≤ maxFrameBytes ∧ decode body = some m

/-- What `writeMessage` puts on the stream for a message, nothing where it refuses. -/
def frameOf (m : μ) : List UInt8 :=
  match writeMessage encode m with
  | .ok bytes => bytes
  | .error _ => []

variable {encode decode}

theorem Sendable.frameOf_eq {m : μ} (h : Sendable encode decode m) :
    ∃ body, frameOf encode m = toBeBytes (UInt32.ofNat body.length) ++ body ∧
      writeMessage encode m = .ok (frameOf encode m) ∧
      body.length ≤ maxFrameBytes ∧ decode body = some m := by
  obtain ⟨body, hencode, hlen, hdecode⟩ := h
  have hwrite := writeMessage_ok encode hencode hlen
  refine ⟨body, ?_, ?_, hlen, hdecode⟩
  · rw [frameOf, hwrite]
  · rw [frameOf, hwrite]

theorem fromBeBytes_length {body : List UInt8} (h : body.length ≤ maxFrameBytes) :
    fromBeBytes (toBeBytes (UInt32.ofNat body.length)) = body.length := by
  rw [fromBeBytes_toBeBytes, UInt32.toNat_ofNat', Nat.mod_eq_of_lt]
  unfold maxFrameBytes at h
  omega

/-- A call on a stream that starts with a whole frame gives its message and takes no more. -/
theorem readMessage_frame {m : μ} (hm : Sendable encode decode m) {r : ChunkReader UInt8}
    {later : List UInt8} (hrest : r.rest = frameOf encode m ++ later) :
    (readMessage decode r).outcome = .ok m ∧ (readMessage decode r).reader.rest = later := by
  obtain ⟨body, hframe, -, hlen, hdecode⟩ := hm.frameOf_eq
  rw [hframe, List.append_assoc] at hrest
  obtain ⟨hlenBuf, hafter⟩ := (r.readExact_spec 4).1 (by
    rw [hrest, List.length_append, length_toBeBytes]
    omega)
  rw [hrest, List.take_left' (length_toBeBytes _)] at hlenBuf
  rw [hrest, List.drop_left' (length_toBeBytes _)] at hafter
  obtain ⟨hbody, hreader⟩ := (readBody_spec body.length [] (r.readExact 4).2).1 (by
    rw [hafter, List.length_append, List.length_nil]
    omega) (Nat.zero_le _)
  rw [hafter, List.length_nil, Nat.sub_zero, List.take_left' rfl, List.nil_append] at hbody
  rw [hafter, List.length_nil, Nat.sub_zero, List.drop_left' rfl] at hreader
  rw [readMessage_long decode hlenBuf, fromBeBytes_length hlen, if_neg (by omega)]
  constructor
  · simp only [BodyRead.parse, hbody, hdecode]
  · exact hreader

/-- A call on a stream that stops within a frame takes what is left of it and reports the end. -/
theorem readMessage_cut {m : μ} (hm : Sendable encode decode m) {r : ChunkReader UInt8} {k : ℕ}
    (hk : k < (frameOf encode m).length) (hrest : r.rest = (frameOf encode m).take k) :
    (readMessage decode r).outcome = .error .closed ∧ (readMessage decode r).reader.rest = [] := by
  obtain ⟨body, hframe, -, hlen, -⟩ := hm.frameOf_eq
  have hlength : r.rest.length = k := by
    rw [hrest, List.length_take]
    omega
  rw [hframe] at hk hrest
  rw [List.length_append, length_toBeBytes] at hk
  by_cases hshort : k < 4
  · obtain ⟨hlenBuf, hreader⟩ := (r.readExact_spec 4).2 (by omega)
    rw [readMessage_short decode hlenBuf]
    exact ⟨rfl, hreader⟩
  · obtain ⟨hlenBuf, hafter⟩ := (r.readExact_spec 4).1 (by omega)
    have hfour : (toBeBytes (UInt32.ofNat body.length)).length ≤ k := by
      rw [length_toBeBytes]
      omega
    rw [hrest, List.take_append, List.take_of_length_le hfour,
      List.take_left' (length_toBeBytes _)] at hlenBuf
    have hbody := (readBody_spec body.length [] (r.readExact 4).2).2 (by
      rw [hafter, List.length_drop, List.length_nil]
      omega)
    rw [readMessage_long decode hlenBuf, fromBeBytes_length hlen, if_neg (by omega)]
    constructor
    · simp only [BodyRead.parse, hbody.1]
    · exact hbody.2

theorem readMessage_ended {r : ChunkReader UInt8} (hrest : r.rest = []) :
    (readMessage decode r).outcome = .error .closed ∧ (readMessage decode r).reader.rest = [] := by
  obtain ⟨hlenBuf, hreader⟩ := (r.readExact_spec 4).2 (by rw [hrest]; decide)
  rw [readMessage_short decode hlenBuf]
  exact ⟨rfl, hreader⟩

variable (decode)

/-- Calls one after another that give the messages listed, each taking the bytes listed with
its message off the stream. -/
inductive Calls : ChunkReader UInt8 → List (μ × List UInt8) → ChunkReader UInt8 → Prop
  | none (r : ChunkReader UInt8) : Calls r [] r
  | next {r last : ChunkReader UInt8} {m : μ} {bytes : List UInt8} {calls : List (μ × List UInt8)}
      (outcome : (readMessage decode r).outcome = .ok m)
      (taken : r.rest = bytes ++ (readMessage decode r).reader.rest)
      (later : Calls (readMessage decode r).reader calls last) : Calls r ((m, bytes) :: calls) last

variable (encode)

/-- The messages with their bytes on the stream. -/
def framed (ms : List μ) : List (μ × List UInt8) := ms.map fun m => (m, frameOf encode m)

/-- What the writer puts on the stream for all messages. -/
def stream (ms : List μ) : List UInt8 := ms.flatMap (frameOf encode)

/-- The messages whose frames lie within the first `k` bytes of the stream. -/
def complete : ℕ → List μ → List μ
  | _, [] => []
  | k, m :: ms =>
      if (frameOf encode m).length ≤ k then m :: complete (k - (frameOf encode m).length) ms
      else []

theorem complete_all {ms : List μ} {k : ℕ} (h : (stream encode ms).length ≤ k) :
    complete encode k ms = ms := by
  induction ms generalizing k with
  | nil => rfl
  | cons m ms ih =>
      rw [stream, List.flatMap_cons, List.length_append] at h
      rw [complete, if_pos (by omega), ih (by rw [stream]; omega)]

variable {encode decode}

theorem calls_cut {ms : List μ} (hms : ∀ m ∈ ms, Sendable encode decode m) {k : ℕ}
    {r : ChunkReader UInt8} (hrest : r.rest = (stream encode ms).take k) :
    ∃ last, Calls decode r (framed encode (complete encode k ms)) last ∧
      (readMessage decode last).outcome = .error .closed ∧
      (readMessage decode last).reader.rest = [] := by
  induction ms generalizing k r with
  | nil =>
      apply Exists.intro r
      rw [stream, List.flatMap_nil, List.take_nil] at hrest
      exact ⟨.none r, readMessage_ended hrest⟩
  | cons m ms ih =>
      have hm := hms m List.mem_cons_self
      rw [stream, List.flatMap_cons] at hrest
      by_cases hk : (frameOf encode m).length ≤ k
      · rw [List.take_append, List.take_of_length_le hk] at hrest
        obtain ⟨houtcome, hreader⟩ := readMessage_frame hm hrest
        obtain ⟨last, hcalls, hclosed⟩ := ih (fun x hx => hms x (List.mem_cons_of_mem _ hx)) hreader
        apply Exists.intro last
        rw [complete, if_pos hk]
        exact ⟨.next houtcome (by rw [hrest, hreader]) hcalls, hclosed⟩
      · rw [List.take_append_of_le_length (by omega)] at hrest
        apply Exists.intro r
        rw [complete, if_neg hk]
        exact ⟨.none r, readMessage_cut hm (by omega) hrest⟩

theorem mapM_writeMessage {ms : List μ} (hms : ∀ m ∈ ms, Sendable encode decode m) :
    ms.mapM (writeMessage encode) = .ok (ms.map (frameOf encode)) := by
  induction ms with
  | nil => rfl
  | cons m ms ih =>
      obtain ⟨-, -, hwrite, -⟩ := (hms m List.mem_cons_self).frameOf_eq
      rw [List.mapM_cons, hwrite, ih fun x hx => hms x (List.mem_cons_of_mem _ hx)]
      rfl

theorem readMessage_grown (r : ChunkReader UInt8) :
    (∀ g ∈ (readMessage decode r).grown, g.size ≤ g.received + readChunkBytes ∧
      g.received ≤ r.rest.length) ∧
    (readMessage decode r).grown.length ≤ r.rest.length + 1 := by
  have hfirst := r.readExact_spec 4
  cases hlenBuf : (r.readExact 4).1 with
  | none =>
      rw [readMessage_short decode hlenBuf]
      exact ⟨nofun, Nat.zero_le _⟩
  | some lenBuf =>
      have hless : (r.readExact 4).2.rest.length ≤ r.rest.length := by
        by_cases henough : 4 ≤ r.rest.length
        · rw [(hfirst.1 henough).2, List.length_drop]
          omega
        · rw [(hfirst.2 (by omega)).2]
          exact Nat.zero_le _
      rw [readMessage_long decode hlenBuf]
      split_ifs with hlarge
      · exact ⟨nofun, Nat.zero_le _⟩
      · obtain ⟨hgrown, hturns⟩ := readBody_grown (fromBeBytes lenBuf) [] (r.readExact 4).2
        constructor
        · intro g hg
          have := hgrown g hg
          rw [List.length_nil] at this
          omega
        · exact hturns.trans (by omega)

/-- The writer's bytes come back as the messages they were made of, in whatever pieces they
arrive; a stream that was cut off gives the messages whose frames it has whole; and on every
stream the buffer of a body is at most one piece longer than what was received of it. -/
theorem framing_any_chunking (encode : μ → Option (List UInt8)) (decode : List UInt8 → Option μ)
    (ms : List μ) (hms : ∀ m ∈ ms, Sendable encode decode m) :
    ms.mapM (writeMessage encode) = .ok (ms.map (frameOf encode)) ∧
    (∀ r : ChunkReader UInt8, r.rest = (ms.map (frameOf encode)).flatten →
      ∃ last, Calls decode r (framed encode ms) last ∧
        (readMessage decode last).outcome = .error .closed ∧
        (readMessage decode last).reader.rest = []) ∧
    (∀ (k : ℕ) (r : ChunkReader UInt8), r.rest = (ms.map (frameOf encode)).flatten.take k →
      ∃ last, Calls decode r (framed encode (complete encode k ms)) last ∧
        (readMessage decode last).outcome = .error .closed ∧
        (readMessage decode last).reader.rest = []) ∧
    ∀ r : ChunkReader UInt8,
      (∀ g ∈ (readMessage decode r).grown, g.size ≤ g.received + readChunkBytes ∧
        g.received ≤ r.rest.length) ∧
      (readMessage decode r).grown.length ≤ r.rest.length + 1 := by
  have hstream : (ms.map (frameOf encode)).flatten = stream encode ms := List.flatMap_def.symm
  rw [hstream]
  constructor
  · exact mapM_writeMessage hms
  constructor
  · intro r hrest
    have hcalls := calls_cut hms (k := (stream encode ms).length)
      (hrest.trans (List.take_length).symm)
    rwa [complete_all encode le_rfl] at hcalls
  constructor
  · intro k r hrest
    exact calls_cut hms hrest
  · exact readMessage_grown

end Calls

/-- The JSON text of the messages without fields, as serde writes it. -/
def keepaliveText : Message Unit → Option (List UInt8)
  | .ping => some ("\x7b\"msg\":\"ping\"\x7d".toList.map fun c => UInt8.ofNat c.toNat)
  | .pong => some ("\x7b\"msg\":\"pong\"\x7d".toList.map fun c => UInt8.ofNat c.toNat)
  | _ => none

def keepaliveParse (bytes : List UInt8) : Option (Message Unit) :=
  [Message.ping, Message.pong].find? fun m => keepaliveText m == some bytes

theorem framing_ping_pong :
    ∃ last, Calls keepaliveParse
      (ChunkReader.trickle ((stream keepaliveText [.ping, .pong]).take 30))
      (framed keepaliveText [.ping]) last ∧
      (readMessage keepaliveParse last).outcome = .error .closed := by
  have hms : ∀ m ∈ [Message.ping, Message.pong], Sendable keepaliveText keepaliveParse m := by
    intro m hm
    rcases List.mem_cons.mp hm with rfl | hm
    · exact ⟨_, rfl, by decide, rfl⟩
    · rw [List.mem_singleton.mp hm]
      exact ⟨_, rfl, by decide, rfl⟩
  obtain ⟨last, hcalls, hclosed, -⟩ := (framing_any_chunking keepaliveText keepaliveParse
    [.ping, .pong] hms).2.2.1 30
      (ChunkReader.trickle ((stream keepaliveText [.ping, .pong]).take 30))
      (by rw [ChunkReader.trickle_rest, stream, List.flatMap_def])
  have hcomplete : complete keepaliveText 30 [.ping, .pong] = [.ping] := by
    rw [complete, if_pos (by decide), complete, if_neg (by decide)]
  rw [hcomplete] at hcalls
  exact ⟨last, hcalls, hclosed⟩

end Aegis

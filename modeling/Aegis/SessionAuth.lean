import Aegis.SymbolicTerm
import Aegis.GuardedRun
import Aegis.Enrollment

/-!
# Session authentication

The handshake of `ingest.rs` and `actor.rs` between any number of agents, the
server and an attacker, over TLS sessions whose frames arrive in order. A
session is known to both of its ends by its exporter value, which the attacker
may also see. The attacker ends sessions of its own on either side, keeps what
it receives there and sends whatever it can build; all data except signatures is
free for it. Challenges are any the server draws.
-/

namespace Aegis
namespace SessionAuth

/-- What goes into the hashes; an exporter value is that of one TLS session. -/
inductive Datum where
  | text (s : String)
  | uuid (id : Uuid)
  | der (bytes : List UInt8)
  | exporter (session : ℕ)
deriving DecidableEq

abbrev Bytes (κ : Type) : Type := SymTerm κ Datum

def protoVersion : UInt16 := 1

section Digest
variable {κ : Type}

def authLabel : Bytes κ := .data (.text "aegis-session-auth-v1")

def fingerprint (certDer : List UInt8) : Bytes κ := .hash (.data (.der certDer))

def nonceFromChallenge (challengeId : Uuid) : Bytes κ := .hash (.data (.uuid challengeId))

def tlsExporter (session : ℕ) : Bytes κ := .data (.exporter session)

def authChallengeDigest (pin : Bytes κ) (agentId : String) (nonce32 tlsExporter : Bytes κ) :
    Bytes κ :=
  .hash (SymTerm.concat authLabel [pin, .data (.text agentId), nonce32, tlsExporter])

def signAuth (signingKey : κ) (pin : Bytes κ) (agentId : String) (nonce32 tlsExporter : Bytes κ) :
    Bytes κ :=
  .sign signingKey (authChallengeDigest pin agentId nonce32 tlsExporter)

/-- Accepts what decodes to a signature of the digest under the stored key. -/
def verifyChallenge [DecidableEq κ] (pub : κ → List UInt8) (storedPubkey : List UInt8)
    (pin : Bytes κ) (agentId : String) (challengeId : Uuid) (tlsExporter : Bytes κ) :
    Bytes κ → Bool
  | .sign k digest => pub k = storedPubkey ∧
      digest = authChallengeDigest pin agentId (nonceFromChallenge challengeId) tlsExporter
  | _ => false

/-- The pin of the certificate served in this session, else the first configured one. -/
def bindPin (peerCert : Option (List UInt8)) (fallback : Bytes κ) : Bytes κ :=
  match peerCert with
  | some leaf => fingerprint leaf
  | none => fallback

end Digest

/-- The messages up to the hello of the server, and the later ones without their
content. -/
inductive Message (κ : Type) where
  | enrollRequest (token hostname os : String) (agentPubkey : List UInt8)
  | enrollResponse (accepted : Bool) (agentId : String) (reason : Option String)
  | clientHello (protoVersion : UInt16) (agentId : String) (agentPubkey : List UInt8)
  | serverHello (protoVersion : UInt16) (accepted : Bool) (reason : Option String)
  | command (id : Uuid) (noop : Bool)
  | commandResult (id : Uuid) (ok : Bool) (detail : Option (Bytes κ))
  | traffic
deriving DecidableEq

/-- The field that may hold a signature. -/
def Message.detail {κ : Type} : Message κ → Option (Bytes κ)
  | .commandResult _ _ detail => detail
  | _ => none

/-- Who holds which keys and certificates; `served` is the leaf of the server, and
identities are numbered by their enrollments. Configured pins hold no signature. -/
structure Deployment (κ : Type) where
  pub : κ → List UInt8
  served : List UInt8
  signingKey : ℕ → κ
  serverPins : ℕ → List (Bytes κ)
  stolen : κ → Bool
  pins_plain : ∀ i, ∀ pin ∈ serverPins i, pin.Signed fun _ _ => False

/-- What a connection task of the server waits for. -/
inductive ServerPhase where
  | firstFrame
  | challenged (agentId : String) (pubkey : List UInt8) (challengeId : Uuid)
  | session (agentId : String)
  | closed
deriving DecidableEq

inductive ServerEnd where
  | aegis (phase : ServerPhase)
  | attacker
deriving DecidableEq

/-- What an identity waits for in its session. -/
inductive ClientEnd (κ : Type) where
  | enrolling (identity : ℕ)
  | hello (identity : ℕ) (agentId : String) (boundPin : Bytes κ)
  | answered (identity : ℕ) (agentId : String)
  | online (identity : ℕ) (agentId : String)
  | closed
  | attacker
deriving DecidableEq

/-- A TLS session with the frames on their way. -/
structure Channel (κ : Type) where
  client : ClientEnd κ
  server : ServerEnd
  toServer : List (Message κ)
  toClient : List (Message κ)
deriving DecidableEq

/-- What happened; a signature by no identity is the attacker's. -/
inductive Entry (κ : Type) where
  | enrolled (agentId : String) (pubkey : List UInt8)
  | connected (session identity : ℕ) (agentId : String)
  | challenged (session : ℕ) (agentId : String) (challengeId : Uuid)
  | signed (identity : Option ℕ) (key : κ) (digest : Bytes κ)
  | accepted (session : ℕ) (agentId : String)
deriving DecidableEq

/-- The log has the newest entry first; no party reads it. -/
structure World (κ : Type) where
  registry : Registry
  identities : OrderedTable ℕ String
  channels : OrderedTable ℕ (Channel κ)
  known : List (Bytes κ)
  log : List (Entry κ)
deriving DecidableEq

/-- What the surroundings decide in one read of the server: the storage operations
that fail, the clock, and the ids it draws. -/
structure ServerCall where
  fails : StorageOp → Bool
  lookupFails : Bool
  touchFails : Bool
  now : UInt64
  agentId : String
  challengeId : Uuid

def coercePubkey (bytes : List UInt8) : Option (List UInt8) :=
  if bytes.length = 32 then some bytes else none

/-- What a read of the server leaves. -/
structure Turn (κ : Type) where
  phase : ServerPhase
  reply : Option (Message κ)
  registry : Registry
  entry : Option (Entry κ)

section Server
variable {κ : Type}

def serverHello (accepted : Bool) (reason : Option String) : Message κ :=
  .serverHello protoVersion accepted reason

/-- Answers and returns. -/
def Turn.finish (r : Registry) (reply : Message κ) : Turn κ := ⟨.closed, some reply, r, none⟩

/-- The enrollment arm of `handle_conn`. -/
def enrollArm (call : ServerCall) (r : Registry) (token hostname os : String)
    (agentPubkey : List UInt8) : Turn κ :=
  match coercePubkey agentPubkey with
  | none => .finish r (.enrollResponse false "" (some "agent_pubkey must be 32 bytes"))
  | some pk =>
      match Enrollment.enroll call.fails token hostname os pk call.now call.agentId r with
      | (.ok (.accepted agentId), r') =>
          ⟨.closed, some (.enrollResponse true agentId none), r', some (.enrolled agentId pk)⟩
      | (.ok (.rejected reason), r') => .finish r' (.enrollResponse false "" (some reason))
      | (.error _, r') => .finish r' (.enrollResponse false "" (some "internal error"))

/-- The session arm of `handle_conn` up to its challenge. -/
def helloArm (call : ServerCall) (r : Registry) (session : ℕ) (version : UInt16)
    (agentId : String) (agentPubkey : List UInt8) : Turn κ :=
  if version ≠ protoVersion then
    .finish r (serverHello false (some ("unsupported proto_version " ++ toString version)))
  else if call.lookupFails then .finish r (serverHello false (some "internal error"))
  else match r.agents.get? agentId with
    | none => .finish r (serverHello false (some "unknown agent"))
    | some row =>
        if coercePubkey agentPubkey = some row.pubkey then
          ⟨.challenged agentId row.pubkey call.challengeId,
            some (.command call.challengeId true), r,
            some (.challenged session agentId call.challengeId)⟩
        else .finish r (serverHello false (some "pubkey mismatch"))

variable [DecidableEq κ]

/-- The rest of the session arm, where the answer is a signature for the challenge. -/
def answerArm (d : Deployment κ) (call : ServerCall) (r : Registry) (session : ℕ)
    (agentId : String) (pubkey : List UInt8) (challengeId : Uuid) (sig : Bytes κ) : Turn κ :=
  if verifyChallenge d.pub pubkey (fingerprint d.served) agentId challengeId
      (tlsExporter session) sig then
    ⟨.session agentId, some (serverHello true none),
      if call.touchFails then r else { r with agents := touchRow r.agents agentId call.now },
      some (.accepted session agentId)⟩
  else .finish r (serverHello false (some "authentication failed"))

/-- One read of `handle_conn`. -/
def handleConn (d : Deployment κ) (call : ServerCall) (r : Registry) (session : ℕ) :
    ServerPhase → Message κ → Option (Turn κ)
  | .firstFrame, .enrollRequest token hostname os agentPubkey =>
      some (enrollArm call r token hostname os agentPubkey)
  | .firstFrame, .clientHello version agentId agentPubkey =>
      some (helloArm call r session version agentId agentPubkey)
  | .firstFrame, _ => some ⟨.closed, none, r, none⟩
  | .challenged agentId pubkey challengeId, .commandResult id true (some sig) =>
      if id = challengeId then
        some (answerArm d call r session agentId pubkey challengeId sig)
      else some (.finish r (serverHello false (some "malformed challenge response")))
  | .challenged _ _ _, _ =>
      some (.finish r (serverHello false (some "malformed challenge response")))
  | .session agentId, _ => some ⟨.session agentId, none, r, none⟩
  | .closed, _ => none

end Server

section Client
variable {κ : Type}

/-- What a read of an identity leaves: its end, what it sends, the id it
persists and the signature it made. -/
structure Answer (κ : Type) where
  client : ClientEnd κ
  reply : Option (Message κ)
  persisted : Option (ℕ × String)
  entry : Option (Entry κ)

def Answer.stop : Answer κ := ⟨.closed, none, none, none⟩

/-- One read of `enroll` in `main.rs` or of `handshake`. -/
def handshake (d : Deployment κ) (session : ℕ) : ClientEnd κ → Message κ → Option (Answer κ)
  | .enrolling i, .enrollResponse true agentId _ =>
      some ⟨.closed, none, some (i, agentId), none⟩
  | .enrolling _, _ => some .stop
  | .hello i agentId boundPin, .command challengeId true =>
      some ⟨.answered i agentId,
        some (.commandResult challengeId true (some (signAuth (d.signingKey i) boundPin agentId
          (nonceFromChallenge challengeId) (tlsExporter session)))), none,
        some (.signed (some i) (d.signingKey i) (authChallengeDigest boundPin agentId
          (nonceFromChallenge challengeId) (tlsExporter session)))⟩
  | .hello _ _ _, _ => some .stop
  | .answered i agentId, .serverHello _ true _ => some ⟨.online i agentId, none, none, none⟩
  | .answered _ _, _ => some .stop
  | .online i agentId, _ => some ⟨.online i agentId, none, none, none⟩
  | .closed, _ => none
  | .attacker, _ => none

end Client

/-- `peer` is the certificate of the attacker that answers a connection, if it is
not the server who does; `reported` says whether the TLS library names it. -/
inductive Act (κ : Type) where
  | createToken (fails : StorageOp → Bool) (token label : String) (now : UInt64)
  | revokeToken (fails : StorageOp → Bool) (token : String)
  | enroll (session identity : ℕ) (peer : Option (List UInt8)) (token hostname os : String)
  | connect (session identity : ℕ) (peer : Option (List UInt8)) (reported : Bool)
  | intrude (session : ℕ)
  | serverReads (session : ℕ) (call : ServerCall)
  | clientReads (session : ℕ)
  | serverPushes (session : ℕ) (m : Message κ)
  | clientPushes (session : ℕ) (m : Message κ)
  | serverDrops (session : ℕ)
  | clientDrops (session : ℕ)
  | attackerReads (session : ℕ)
  | attackerSends (session : ℕ) (m : Message κ)
  | attackerBuilds (recipe : SymTerm.Recipe κ Datum)
  | attackerSigns (key : κ) (t : Bytes κ)

namespace World
variable {κ : Type}

def start : World κ := ⟨⟨.empty, .empty⟩, .empty, .empty, [], []⟩

def put (s : World κ) (session : ℕ) (ch : Channel κ) : World κ :=
  { s with channels := s.channels.insert session ch }

def note (s : World κ) (entry : Option (Entry κ)) : World κ :=
  { s with log := entry.toList ++ s.log }

/-- The end that answers a connection. -/
def answering : Option (List UInt8) → ServerEnd
  | none => .aegis .firstFrame
  | some _ => .attacker

/-- A pinned connection is up only where the pin of the served leaf is configured. -/
def pinned [DecidableEq κ] (d : Deployment κ) (i : ℕ) (peer : Option (List UInt8)) : Bool :=
  fingerprint (peer.getD d.served) ∈ d.serverPins i

variable [DecidableEq κ]

def step (d : Deployment κ) (s : World κ) : Act κ → Option (World κ)
  | .createToken fails token label now => some
      { s with registry := (Enrollment.createToken fails token label now s.registry).2 }
  | .revokeToken fails token => some
      { s with registry := (Enrollment.revokeToken fails token s.registry).2 }
  | .enroll c i peer token hostname os =>
      if s.channels.get? c = none ∧ s.identities.get? i = none ∧ pinned d i peer then
        some (s.put c ⟨.enrolling i, answering peer,
          [.enrollRequest token hostname os (d.pub (d.signingKey i))], []⟩)
      else none
  | .connect c i peer reported =>
      match s.identities.get? i with
      | none => none
      | some agentId =>
          if s.channels.get? c = none ∧ pinned d i peer then
            let leaf := if reported then some (peer.getD d.served) else none
            some ((s.put c ⟨.hello i agentId (bindPin leaf ((d.serverPins i).headD authLabel)),
              answering peer, [.clientHello protoVersion agentId (d.pub (d.signingKey i))],
              []⟩).note (some (.connected c i agentId)))
          else none
  | .intrude c =>
      if s.channels.get? c = none then some (s.put c ⟨.attacker, .aegis .firstFrame, [], []⟩)
      else none
  | .serverReads c call => do
      let ch ← s.channels.get? c
      match ch.server, ch.toServer with
      | .aegis phase, m :: rest =>
          let turn ← handleConn d call s.registry c phase m
          some (({ s with registry := turn.registry }.put c { ch with
            server := .aegis turn.phase
            toServer := rest
            toClient := ch.toClient ++ turn.reply.toList }).note turn.entry)
      | _, _ => none
  | .clientReads c => do
      let ch ← s.channels.get? c
      match ch.toClient with
      | m :: rest =>
          let answer ← handshake d c ch.client m
          some (({ s with identities := match answer.persisted with
            | some (i, agentId) => s.identities.insert i agentId
            | none => s.identities }.put c { ch with
              client := answer.client
              toServer := ch.toServer ++ answer.reply.toList
              toClient := rest }).note answer.entry)
      | [] => none
  | .serverPushes c m => do
      let ch ← s.channels.get? c
      match ch.server, m.detail with
      | .aegis (.session _), none => some (s.put c { ch with toClient := ch.toClient ++ [m] })
      | _, _ => none
  | .clientPushes c m => do
      let ch ← s.channels.get? c
      match ch.client, m.detail with
      | .online _ _, none => some (s.put c { ch with toServer := ch.toServer ++ [m] })
      | .online _ _, some (.data _) => some (s.put c { ch with toServer := ch.toServer ++ [m] })
      | _, _ => none
  | .serverDrops c => do
      let ch ← s.channels.get? c
      match ch.server with
      | .aegis _ => some (s.put c { ch with server := .aegis .closed })
      | .attacker => none
  | .clientDrops c => do
      let ch ← s.channels.get? c
      match ch.client with
      | .attacker => none
      | _ => some (s.put c { ch with client := .closed })
  | .attackerReads c => do
      let ch ← s.channels.get? c
      match ch.client, ch.server, ch.toServer, ch.toClient with
      | .attacker, _, _, m :: rest =>
          some { s.put c { ch with toClient := rest } with known := m.detail.toList ++ s.known }
      | _, .attacker, m :: rest, _ =>
          some { s.put c { ch with toServer := rest } with known := m.detail.toList ++ s.known }
      | _, _, _, _ => none
  | .attackerSends c m => do
      let ch ← s.channels.get? c
      if m.detail.all (· ∈ s.known) then
        match ch.client, ch.server with
        | .attacker, _ => some (s.put c { ch with toServer := ch.toServer ++ [m] })
        | _, .attacker => some (s.put c { ch with toClient := ch.toClient ++ [m] })
        | _, _ => none
      else none
  | .attackerBuilds recipe => do
      let t ← SymTerm.build s.known recipe
      some { s with known := t :: s.known }
  | .attackerSigns key t =>
      if d.stolen key ∧ t ∈ s.known then
        some ({ s with known := .sign key t :: s.known }.note (some (.signed none key t)))
      else none

end World

section Log
variable {κ : Type} (d : Deployment κ)

/-- An identity holds its own key, the attacker every stolen one. -/
def Holds : Option ℕ → κ → Prop
  | some i, k => k = d.signingKey i
  | none, k => d.stolen k = true

/-- A holder of the key enrolled for an agent signed the digest of the challenge of a
session, for the server's pin and the exporter value of that session. -/
def Authenticated (log : List (Entry κ)) (session : ℕ) (agentId : String) : Prop :=
  ∃ (k : κ) (challengeId : Uuid) (holder : Option ℕ), Entry.enrolled agentId (d.pub k) ∈ log ∧
    Entry.challenged session agentId challengeId ∈ log ∧ Holds d holder k ∧
    Entry.signed holder k (authChallengeDigest (fingerprint d.served) agentId
      (nonceFromChallenge challengeId) (tlsExporter session)) ∈ log

/-- What an entry needs to have before it. -/
def Entry.Fits (log : List (Entry κ)) : Entry κ → Prop
  | .challenged c _ _ => ∀ agentId challengeId, .challenged c agentId challengeId ∉ log
  | .signed holder k t => Holds d holder k ∧ ∀ i, holder = some i →
      ∃ c agentId pin challengeId, .connected c i agentId ∈ log ∧
        t = authChallengeDigest pin agentId (nonceFromChallenge challengeId) (tlsExporter c)
  | .accepted c agentId => Authenticated d log c agentId
  | _ => True

/-- Every entry fits the entries before it. -/
def Faithful : List (Entry κ) → Prop
  | [] => True
  | e :: log => e.Fits d log ∧ Faithful log

variable {d}

theorem Faithful.before {e : Entry κ} {later earlier : List (Entry κ)}
    (h : Faithful d (later ++ e :: earlier)) : e.Fits d earlier ∧ Faithful d earlier := by
  induction later with
  | nil => exact h
  | cons _ later ih => exact ih h.2

theorem Faithful.signer {log : List (Entry κ)} (h : Faithful d log) {holder : Option ℕ} {k : κ}
    {t : Bytes κ} (hmem : .signed holder k t ∈ log) : Holds d holder k := by
  obtain ⟨later, earlier, rfl⟩ := List.append_of_mem hmem
  exact h.before.1.1

theorem Faithful.challenge_unique {log : List (Entry κ)} (h : Faithful d log) {c : ℕ}
    {a a' : String} {n n' : Uuid} (hmem : .challenged c a n ∈ log)
    (hmem' : .challenged c a' n' ∈ log) : a = a' ∧ n = n' := by
  induction log with
  | nil => cases hmem
  | cons e log ih =>
      rcases List.mem_cons.mp hmem with rfl | hin
      · rcases List.mem_cons.mp hmem' with heq | hin'
        · cases heq
          exact ⟨rfl, rfl⟩
        · exact (h.1 _ _ hin').elim
      · rcases List.mem_cons.mp hmem' with rfl | hin'
        · exact (h.1 _ _ hin).elim
        · exact ih h.2 hin hin'

/-- The signatures that a log has. -/
def Made (log : List (Entry κ)) (k : κ) (t : Bytes κ) : Prop :=
  ∃ holder, Entry.signed holder k t ∈ log

theorem Made.cons {e : Option (Entry κ)} {log : List (Entry κ)} {k : κ} {t : Bytes κ}
    (h : Made log k t) : Made (e.toList ++ log) k t := by
  obtain ⟨holder, hmem⟩ := h
  exact ⟨holder, List.mem_append_right _ hmem⟩

/-- A digest tells all four of its parts. -/
theorem authChallengeDigest_inj {pin pin' : Bytes κ} {a a' : String} {n n' : Uuid} {c c' : ℕ} :
    authChallengeDigest pin a (nonceFromChallenge n) (tlsExporter c) =
      authChallengeDigest pin' a' (nonceFromChallenge n') (tlsExporter c') ↔
      pin = pin' ∧ a = a' ∧ n = n' ∧ c = c' := by
  simp [authChallengeDigest, SymTerm.concat_inj, nonceFromChallenge, tlsExporter]

theorem authChallengeDigest_signed {made : κ → Bytes κ → Prop} {pin : Bytes κ} {a : String}
    {n : Uuid} {c : ℕ} (hpin : pin.Signed made) :
    (authChallengeDigest pin a (nonceFromChallenge n) (tlsExporter c)).Signed made := by
  simp [authChallengeDigest, SymTerm.Signed, SymTerm.concat_signed, nonceFromChallenge, tlsExporter,
    authLabel, hpin]

theorem verifyChallenge_iff [DecidableEq κ] {pub : κ → List UInt8} {pubkey : List UInt8}
    {pin exporter sig : Bytes κ} {a : String} {n : Uuid} :
    verifyChallenge pub pubkey pin a n exporter sig = true ↔ ∃ k, pub k = pubkey ∧
      sig = signAuth k pin a (nonceFromChallenge n) exporter := by
  cases sig with
  | sign k digest =>
      simp only [verifyChallenge, decide_eq_true_eq, signAuth, SymTerm.sign.injEq]
      constructor
      · intro h
        exact ⟨k, h.1, rfl, h.2⟩
      · rintro ⟨_, hpub, rfl, hdigest⟩
        exact ⟨hpub, hdigest⟩
  | data a => simp [verifyChallenge, signAuth]
  | hash t => simp [verifyChallenge, signAuth]
  | pair t u => simp [verifyChallenge, signAuth]

end Log

section Sound
variable {κ : Type} (d : Deployment κ)

/-- What the log has for a connection task in its phase. -/
def PhaseFits (log : List (Entry κ)) (c : ℕ) : ServerPhase → Prop
  | .firstFrame => ∀ agentId challengeId, .challenged c agentId challengeId ∉ log
  | .challenged agentId pubkey challengeId => .enrolled agentId pubkey ∈ log ∧
      .challenged c agentId challengeId ∈ log
  | _ => True

def ClientFits (log : List (Entry κ)) (c : ℕ) : ClientEnd κ → Prop
  | .hello i agentId boundPin => .connected c i agentId ∈ log ∧ boundPin.Signed (Made log)
  | _ => True

/-- The signatures on their way in a session were made. -/
structure ChannelFits (log : List (Entry κ)) (c : ℕ) (ch : Channel κ) : Prop where
  server : ∀ phase, ch.server = .aegis phase → PhaseFits log c phase
  client : ClientFits log c ch.client
  toServer : ∀ m ∈ ch.toServer, ∀ t ∈ m.detail, t.Signed (Made log)
  toClient : ∀ m ∈ ch.toClient, ∀ t ∈ m.detail, t.Signed (Made log)

structure Sound (s : World κ) : Prop where
  faithful : Faithful d s.log
  agents : ∀ agentId row, s.registry.agents.get? agentId = some row →
    .enrolled agentId row.pubkey ∈ s.log
  channels : ∀ c ch, s.channels.get? c = some ch → ChannelFits s.log c ch
  unused : ∀ c, s.channels.get? c = none →
    ∀ agentId challengeId, .challenged c agentId challengeId ∉ s.log
  known : ∀ t ∈ s.known, t.Signed (Made s.log)

variable {d}

theorem start_sound : Sound d (World.start : World κ) where
  faithful := trivial
  agents := nofun
  channels := nofun
  unused := nofun
  known := nofun

/-- A new entry that challenges nobody on a session changes nothing for it. -/
theorem PhaseFits.grow {e : Option (Entry κ)} {log : List (Entry κ)} {c : ℕ} {phase : ServerPhase}
    (h : PhaseFits log c phase) (he : ∀ a n, e ≠ some (.challenged c a n)) :
    PhaseFits (e.toList ++ log) c phase := by
  cases phase with
  | firstFrame =>
      intro a n hmem
      rcases List.mem_append.mp hmem with hmem | hmem
      · exact he a n (Option.mem_toList.mp hmem)
      · exact h a n hmem
  | challenged a pk n => exact ⟨List.mem_append_right _ h.1, List.mem_append_right _ h.2⟩
  | session a => trivial
  | closed => trivial

theorem ClientFits.grow {e : Option (Entry κ)} {log : List (Entry κ)} {c : ℕ} {client : ClientEnd κ}
    (h : ClientFits log c client) : ClientFits (e.toList ++ log) c client := by
  cases client with
  | hello i a pin => exact ⟨List.mem_append_right _ h.1, h.2.mono fun _ _ => Made.cons⟩
  | _ => trivial

theorem ChannelFits.grow {e : Option (Entry κ)} {log : List (Entry κ)} {c : ℕ} {ch : Channel κ}
    (h : ChannelFits log c ch) (he : ∀ a n, e ≠ some (.challenged c a n)) :
    ChannelFits (e.toList ++ log) c ch where
  server := fun phase hphase => (h.server phase hphase).grow he
  client := h.client.grow
  toServer := fun m hm t ht => (h.toServer m hm t ht).mono fun _ _ => Made.cons
  toClient := fun m hm t ht => (h.toClient m hm t ht).mono fun _ _ => Made.cons

theorem Sound.known_grow {s : World κ} (h : Sound d s) (e : Option (Entry κ)) :
    ∀ t ∈ s.known, t.Signed (Made (e.toList ++ s.log)) :=
  fun t ht => (h.known t ht).mono fun _ _ => Made.cons

theorem Sound.agents_grow {s : World κ} (h : Sound d s) (e : Option (Entry κ)) :
    ∀ agentId row, s.registry.agents.get? agentId = some row →
      .enrolled agentId row.pubkey ∈ e.toList ++ s.log :=
  fun a row hrow => List.mem_append_right _ (h.agents a row hrow)

theorem faithful_note {log : List (Entry κ)} (h : Faithful d log) {e : Option (Entry κ)}
    (he : ∀ x ∈ e, x.Fits d log) : Faithful d (e.toList ++ log) := by
  cases e with
  | none => exact h
  | some x => exact ⟨he x rfl, h⟩

/-- A step of one session, with the entry that it leaves. -/
theorem Sound.turn {s : World κ} (h : Sound d s) {registry : Registry}
    {identities : OrderedTable ℕ String} {c : ℕ} {ch : Channel κ} {known : List (Bytes κ)}
    {e : Option (Entry κ)} (hfit : ∀ x ∈ e, x.Fits d s.log)
    (hown : ∀ c' a n, e = some (.challenged c' a n) → c' = c)
    (hagents : ∀ agentId row, registry.agents.get? agentId = some row →
      .enrolled agentId row.pubkey ∈ e.toList ++ s.log)
    (hch : ChannelFits (e.toList ++ s.log) c ch)
    (hknown : ∀ t ∈ known, t.Signed (Made (e.toList ++ s.log))) :
    Sound d ⟨registry, identities, s.channels.insert c ch, known, e.toList ++ s.log⟩ where
  faithful := faithful_note h.faithful hfit
  agents := hagents
  channels := by
    intro c' ch' hget
    by_cases hc : c' = c
    · subst hc
      rw [OrderedTable.get?_insert_self] at hget
      exact Option.some.inj hget ▸ hch
    · rw [OrderedTable.get?_insert_ne _ _ hc] at hget
      exact (h.channels c' ch' hget).grow fun a n he => hc (hown c' a n he)
  unused := by
    intro c' hget
    by_cases hc : c' = c
    · subst hc
      rw [OrderedTable.get?_insert_self] at hget
      cases hget
    · rw [OrderedTable.get?_insert_ne _ _ hc] at hget
      have hfirst : PhaseFits s.log c' .firstFrame := h.unused c' hget
      exact hfirst.grow fun a n he => hc (hown c' a n he)
  known := hknown

theorem Sound.quiet {s : World κ} (h : Sound d s) {c : ℕ} {ch : Channel κ}
    (hch : ChannelFits s.log c ch) : Sound d (s.put c ch) :=
  h.turn (e := none) nofun nofun h.agents hch h.known

theorem Sound.aside {s : World κ} (h : Sound d s) {registry : Registry} {known : List (Bytes κ)}
    {e : Option (Entry κ)} (hfit : ∀ x ∈ e, x.Fits d s.log)
    (hown : ∀ c a n, e ≠ some (.challenged c a n))
    (hagents : ∀ agentId row, registry.agents.get? agentId = some row →
      .enrolled agentId row.pubkey ∈ e.toList ++ s.log)
    (hknown : ∀ t ∈ known, t.Signed (Made (e.toList ++ s.log))) :
    Sound d ⟨registry, s.identities, s.channels, known, e.toList ++ s.log⟩ where
  faithful := faithful_note h.faithful hfit
  agents := hagents
  channels := fun c ch hget => (h.channels c ch hget).grow (hown c)
  unused := by
    intro c hget
    have hfirst : PhaseFits s.log c .firstFrame := h.unused c hget
    exact hfirst.grow (hown c)
  known := hknown

/-- What a read of the server may leave on a session. -/
structure TurnFits (d : Deployment κ) (log : List (Entry κ)) (c : ℕ) (turn : Turn κ) : Prop where
  entry : ∀ x ∈ turn.entry, x.Fits d log
  own : ∀ c' a n, turn.entry = some (.challenged c' a n) → c' = c
  agents : ∀ agentId row, turn.registry.agents.get? agentId = some row →
    .enrolled agentId row.pubkey ∈ turn.entry.toList ++ log
  phase : PhaseFits (turn.entry.toList ++ log) c turn.phase
  reply : ∀ m ∈ turn.reply, m.detail = none

theorem finish_fits {log : List (Entry κ)} {c : ℕ} {r : Registry} {reply : Message κ}
    (hagents : ∀ agentId row, r.agents.get? agentId = some row → .enrolled agentId row.pubkey ∈ log)
    (hreply : reply.detail = none) : TurnFits d log c (.finish r reply) where
  entry := nofun
  own := nofun
  agents := hagents
  phase := trivial
  reply := fun _ hm => Option.some.inj hm ▸ hreply

theorem enrollArm_fits {call : ServerCall} {r : Registry} {log : List (Entry κ)} {c : ℕ}
    {token hostname os : String} {agentPubkey : List UInt8}
    (h : ∀ agentId row, r.agents.get? agentId = some row → .enrolled agentId row.pubkey ∈ log) :
    TurnFits d log c (enrollArm call r token hostname os agentPubkey) := by
  unfold enrollArm
  cases hpk : coercePubkey agentPubkey with
  | none => exact finish_fits h rfl
  | some pk =>
      have haccepted := fun id => @Enrollment.enroll_accepted call.fails token hostname os pk
        call.now call.agentId id r
      have hchanged := @Enrollment.enroll_changed call.fails token hostname os pk call.now
        call.agentId r
      simp only
      generalize Enrollment.enroll call.fails token hostname os pk call.now call.agentId r = out
        at haccepted hchanged ⊢
      obtain ⟨result, r'⟩ := out
      have hsame : (∀ id, result ≠ .ok (.accepted id)) → r' = r := by
        intro hnot
        by_contra hne
        exact hnot _ (hchanged hne)
      cases result with
      | error op =>
          obtain rfl := hsame nofun
          exact finish_fits h rfl
      | ok outcome =>
          cases outcome with
          | rejected reason =>
              obtain rfl := hsame nofun
              exact finish_fits h rfl
          | accepted id =>
              obtain ⟨rfl, row, -, -, rfl⟩ := haccepted id rfl
              constructor
              · intro x hx
                cases hx
                trivial
              · intro c' a n he
                cases he
              · intro a row' hrow
                by_cases ha : a = call.agentId
                · subst ha
                  rw [OrderedTable.get?_insert_self] at hrow
                  cases hrow
                  exact List.mem_cons_self
                · rw [OrderedTable.get?_insert_ne _ _ ha] at hrow
                  exact List.mem_cons_of_mem _ (h a row' hrow)
              · trivial
              · intro m hm
                cases hm
                rfl

theorem helloArm_fits {call : ServerCall} {r : Registry} {log : List (Entry κ)} {c : ℕ}
    {version : UInt16} {agentId : String} {agentPubkey : List UInt8}
    (h : ∀ agentId row, r.agents.get? agentId = some row → .enrolled agentId row.pubkey ∈ log)
    (hfirst : PhaseFits log c .firstFrame) :
    TurnFits d log c (helloArm call r c version agentId agentPubkey) := by
  unfold helloArm
  split_ifs
  · exact finish_fits h rfl
  · exact finish_fits h rfl
  · cases hrow : r.agents.get? agentId with
    | none => exact finish_fits h rfl
    | some row =>
        simp only
        split_ifs
        · constructor
          · intro x hx
            cases hx
            exact hfirst
          · intro c' a n he
            cases he
            rfl
          · exact fun a row' hrow' => List.mem_cons_of_mem _ (h a row' hrow')
          · exact ⟨List.mem_cons_of_mem _ (h agentId row hrow), List.mem_cons_self⟩
          · intro m hm
            cases hm
            rfl
        · exact finish_fits h rfl

theorem touchRow_pubkey {agents : OrderedTable String AgentRow} {agentId : String}
    {tsNs : UInt64} {a : String} {row : AgentRow}
    (h : (touchRow agents agentId tsNs).get? a = some row) :
    ∃ row', agents.get? a = some row' ∧ row'.pubkey = row.pubkey := by
  unfold touchRow at h
  cases hrow : agents.get? agentId with
  | none =>
      rw [hrow] at h
      exact ⟨row, h, rfl⟩
  | some old =>
      simp only [hrow] at h
      by_cases ha : a = agentId
      · subst ha
        rw [OrderedTable.get?_insert_self] at h
        cases h
        exact ⟨old, hrow, rfl⟩
      · rw [OrderedTable.get?_insert_ne _ _ ha] at h
        exact ⟨row, h, rfl⟩

/-- The server accepts only where the key it looked up signed for this session: the
signature it verifies was made, and nobody but a holder makes one. -/
theorem answerArm_fits [DecidableEq κ] {call : ServerCall} {r : Registry} {log : List (Entry κ)}
    {c : ℕ} {agentId : String} {pubkey : List UInt8} {challengeId : Uuid} {sig : Bytes κ}
    (hfaithful : Faithful d log)
    (h : ∀ agentId row, r.agents.get? agentId = some row → .enrolled agentId row.pubkey ∈ log)
    (hphase : PhaseFits log c (.challenged agentId pubkey challengeId))
    (hsig : sig.Signed (Made log)) :
    TurnFits d log c (answerArm d call r c agentId pubkey challengeId sig) := by
  unfold answerArm
  split
  · rename_i hverify
    obtain ⟨k, rfl, rfl⟩ := verifyChallenge_iff.mp hverify
    obtain ⟨holder, hmade⟩ := hsig.1
    constructor
    · intro x hx
      cases hx
      exact ⟨k, challengeId, holder, hphase.1, hphase.2, hfaithful.signer hmade, hmade⟩
    · intro c' a n he
      cases he
    · intro a row hrow
      simp only at hrow
      split_ifs at hrow
      · exact List.mem_cons_of_mem _ (h a row hrow)
      · obtain ⟨row', hrow', hpubkey⟩ := touchRow_pubkey hrow
        exact List.mem_cons_of_mem _ (hpubkey ▸ h a row' hrow')
    · trivial
    · intro m hm
      cases hm
      rfl
  · exact finish_fits h rfl

theorem handleConn_fits [DecidableEq κ] {call : ServerCall} {r : Registry}
    {log : List (Entry κ)} {c : ℕ} {phase : ServerPhase} {m : Message κ} {turn : Turn κ}
    (hturn : handleConn d call r c phase m = some turn) (hfaithful : Faithful d log)
    (h : ∀ agentId row, r.agents.get? agentId = some row → .enrolled agentId row.pubkey ∈ log)
    (hphase : PhaseFits log c phase) (hm : ∀ t ∈ m.detail, t.Signed (Made log)) :
    TurnFits d log c turn := by
  unfold handleConn at hturn
  split at hturn
  · cases hturn
    exact enrollArm_fits h
  · cases hturn
    exact helloArm_fits h hphase
  · cases hturn
    exact ⟨nofun, nofun, h, trivial, nofun⟩
  · split_ifs at hturn
    · cases hturn
      exact answerArm_fits hfaithful h hphase (hm _ rfl)
    · cases hturn
      exact finish_fits h rfl
  · cases hturn
    exact finish_fits h rfl
  · cases hturn
    exact ⟨nofun, nofun, h, trivial, nofun⟩
  · cases hturn

/-- What a read of an identity may leave on a session. -/
structure AnswerFits (d : Deployment κ) (log : List (Entry κ)) (c : ℕ) (a : Answer κ) : Prop where
  entry : ∀ x ∈ a.entry, x.Fits d log
  own : ∀ c' agentId n, a.entry ≠ some (.challenged c' agentId n)
  client : ClientFits (a.entry.toList ++ log) c a.client
  reply : ∀ m ∈ a.reply, ∀ t ∈ m.detail, t.Signed (Made (a.entry.toList ++ log))

theorem stop_fits {log : List (Entry κ)} {c : ℕ} : AnswerFits d log c .stop :=
  ⟨nofun, nofun, trivial, nofun⟩

theorem handshake_fits {log : List (Entry κ)} {c : ℕ} {client : ClientEnd κ} {m : Message κ}
    {a : Answer κ} (ha : handshake d c client m = some a) (hclient : ClientFits log c client) :
    AnswerFits d log c a := by
  unfold handshake at ha
  split at ha
  · cases ha
    exact ⟨nofun, nofun, trivial, nofun⟩
  · cases ha
    exact stop_fits
  · cases ha
    constructor
    · intro x hx
      cases hx
      refine ⟨rfl, ?_⟩
      intro i hi
      cases hi
      exact ⟨_, _, _, _, hclient.1, rfl⟩
    · exact nofun
    · trivial
    · intro m hm t ht
      cases hm
      cases ht
      refine ⟨⟨_, List.mem_cons_self⟩, authChallengeDigest_signed ?_⟩
      exact hclient.2.mono fun k t hmade => hmade.cons
  · cases ha
    exact stop_fits
  · cases ha
    exact ⟨nofun, nofun, trivial, nofun⟩
  · cases ha
    exact stop_fits
  · cases ha
    exact ⟨nofun, nofun, trivial, nofun⟩
  · cases ha
  · cases ha

theorem Sound.tokens {s : World κ} (h : Sound d s) {registry : Registry}
    (hagents : registry.agents = s.registry.agents) : Sound d { s with registry := registry } := by
  refine h.aside (e := none) nofun nofun ?_ h.known
  rw [hagents]
  exact h.agents

theorem Sound.opened {s : World κ} (h : Sound d s) {c : ℕ} (hc : s.channels.get? c = none)
    {ch : Channel κ} {e : Option (Entry κ)} (he : ∀ x ∈ e, x.Fits d s.log)
    (hown : ∀ c' a n, e ≠ some (.challenged c' a n))
    (hserver : ch.server = .aegis .firstFrame ∨ ch.server = .attacker)
    (hclient : ClientFits (e.toList ++ s.log) c ch.client)
    (hsent : ∀ m ∈ ch.toServer, m.detail = none) (hempty : ch.toClient = []) :
    Sound d ((s.put c ch).note e) := by
  refine h.turn he (fun c' a n heq => (hown c' a n heq).elim) (h.agents_grow e) ?_ (h.known_grow e)
  constructor
  · intro phase hphase
    have hfirst : PhaseFits s.log c .firstFrame := h.unused c hc
    rcases hserver with hserver | hserver
    · cases hserver.symm.trans hphase
      exact hfirst.grow (hown c)
    · cases hserver.symm.trans hphase
  · exact hclient
  · intro m hm t ht
    rw [hsent m hm] at ht
    cases ht
  · intro m hm
    rw [hempty] at hm
    cases hm

theorem answering_cases (peer : Option (List UInt8)) :
    World.answering peer = .aegis .firstFrame ∨ World.answering peer = .attacker := by
  cases peer with
  | none => exact Or.inl rfl
  | some _ => exact Or.inr rfl

theorem bindPin_signed (i : ℕ) (leaf : Option (List UInt8)) {made : κ → Bytes κ → Prop} :
    (bindPin leaf ((d.serverPins i).headD authLabel)).Signed made := by
  cases leaf with
  | some cert => trivial
  | none =>
      have hplain := d.pins_plain i
      rw [bindPin]
      cases hpins : d.serverPins i with
      | nil => trivial
      | cons pin rest =>
          rw [hpins] at hplain
          exact (hplain pin List.mem_cons_self).mono nofun

/-- A message may be added whose signature, if it holds one, was made. -/
theorem ChannelFits.send_server {log : List (Entry κ)} {c : ℕ} {ch : Channel κ}
    (h : ChannelFits log c ch) {m : Message κ} (hm : ∀ t ∈ m.detail, t.Signed (Made log)) :
    ChannelFits log c { ch with toServer := ch.toServer ++ [m] } where
  server := h.server
  client := h.client
  toServer := fun m' hm' => (List.mem_append.mp hm').elim (h.toServer m')
    fun hin => List.mem_singleton.mp hin ▸ hm
  toClient := h.toClient

theorem ChannelFits.send_client {log : List (Entry κ)} {c : ℕ} {ch : Channel κ}
    (h : ChannelFits log c ch) {m : Message κ} (hm : ∀ t ∈ m.detail, t.Signed (Made log)) :
    ChannelFits log c { ch with toClient := ch.toClient ++ [m] } where
  server := h.server
  client := h.client
  toServer := h.toServer
  toClient := fun m' hm' => (List.mem_append.mp hm').elim (h.toClient m')
    fun hin => List.mem_singleton.mp hin ▸ hm

theorem Sound.learn {s : World κ} (h : Sound d s) {detail : Option (Bytes κ)}
    (hdetail : ∀ t ∈ detail, t.Signed (Made s.log)) :
    ∀ t ∈ detail.toList ++ s.known, t.Signed (Made s.log) := by
  intro t ht
  rcases List.mem_append.mp ht with hin | hin
  · exact hdetail t (Option.mem_toList.mp hin)
  · exact h.known t hin

variable [DecidableEq κ]

theorem Sound.serverReads {s u : World κ} (h : Sound d s) {c : ℕ} {call : ServerCall}
    (hstep : s.step d (.serverReads c call) = some u) : Sound d u := by
  simp only [World.step, Option.bind_eq_bind, Option.bind_eq_some_iff] at hstep
  obtain ⟨ch, hch, hstep⟩ := hstep
  have hfits := h.channels c ch hch
  split at hstep
  · rename_i phase m rest hserver hqueue
    obtain ⟨turn, hturn, hstep⟩ := Option.bind_eq_some_iff.mp hstep
    cases hstep
    have hm : ∀ t ∈ m.detail, t.Signed (Made s.log) :=
      hfits.toServer m (hqueue ▸ List.mem_cons_self)
    have hthis := handleConn_fits hturn h.faithful h.agents (hfits.server phase hserver) hm
    refine h.turn hthis.entry hthis.own hthis.agents ?_ (h.known_grow _)
    constructor
    · intro phase' hphase'
      cases hphase'
      exact hthis.phase
    · exact hfits.client.grow
    · intro m' hm' t ht
      have hin : m' ∈ ch.toServer := hqueue ▸ List.mem_cons_of_mem _ hm'
      exact (hfits.toServer m' hin t ht).mono fun _ _ => Made.cons
    · intro m' hm' t ht
      rcases List.mem_append.mp hm' with hin | hin
      · exact (hfits.toClient m' hin t ht).mono fun _ _ => Made.cons
      · rw [hthis.reply m' (Option.mem_toList.mp hin)] at ht
        cases ht
  · cases hstep

theorem Sound.clientReads {s u : World κ} (h : Sound d s) {c : ℕ}
    (hstep : s.step d (.clientReads c) = some u) : Sound d u := by
  simp only [World.step, Option.bind_eq_bind, Option.bind_eq_some_iff] at hstep
  obtain ⟨ch, hch, hstep⟩ := hstep
  have hfits := h.channels c ch hch
  split at hstep
  · rename_i m rest hqueue
    obtain ⟨answer, hanswer, hstep⟩ := Option.bind_eq_some_iff.mp hstep
    cases hstep
    have hthis : AnswerFits d s.log c answer := handshake_fits hanswer hfits.client
    refine h.turn hthis.entry (fun c' a n he => (hthis.own c' a n he).elim) (h.agents_grow _) ?_
      (h.known_grow _)
    constructor
    · exact fun phase hphase => (hfits.server phase hphase).grow (hthis.own c)
    · exact hthis.client
    · intro m' hm' t ht
      rcases List.mem_append.mp hm' with hin | hin
      · exact (hfits.toServer m' hin t ht).mono fun _ _ => Made.cons
      · exact hthis.reply m' (Option.mem_toList.mp hin) t ht
    · intro m' hm' t ht
      have hin : m' ∈ ch.toClient := hqueue ▸ List.mem_cons_of_mem _ hm'
      exact (hfits.toClient m' hin t ht).mono fun _ _ => Made.cons
  · cases hstep

theorem Sound.step {s u : World κ} (h : Sound d s) {a : Act κ} (hstep : s.step d a = some u) :
    Sound d u := by
  cases a with
  | createToken fails token label now =>
      cases hstep
      apply h.tokens
      by_contra hne
      apply hne
      rw [Enrollment.createToken_changed fun heq => hne (congrArg Registry.agents heq)]
  | revokeToken fails token =>
      cases hstep
      apply h.tokens
      by_contra hne
      obtain ⟨_, -, -, hchanged, -⟩ :=
        Enrollment.revokeToken_changed fun heq => hne (congrArg Registry.agents heq)
      apply hne
      rw [hchanged]
  | enroll c i peer token hostname os =>
      simp only [World.step, Option.ite_none_right_eq_some, Option.some.injEq] at hstep
      obtain ⟨⟨hc, -, -⟩, rfl⟩ := hstep
      refine h.opened (e := none) hc nofun nofun (answering_cases peer) trivial ?_ rfl
      intro m hm
      rw [List.mem_singleton.mp hm]
      rfl
  | connect c i peer reported =>
      simp only [World.step] at hstep
      split at hstep
      · cases hstep
      · simp only [Option.ite_none_right_eq_some, Option.some.injEq] at hstep
        obtain ⟨⟨hc, -⟩, rfl⟩ := hstep
        refine h.opened hc (fun x hx => ?_) nofun (answering_cases peer)
          ⟨List.mem_cons_self, bindPin_signed i _⟩ ?_ rfl
        · cases hx
          trivial
        · intro m hm
          rw [List.mem_singleton.mp hm]
          rfl
  | intrude c =>
      simp only [World.step, Option.ite_none_right_eq_some, Option.some.injEq] at hstep
      obtain ⟨hc, rfl⟩ := hstep
      exact h.opened (e := none) hc nofun nofun (Or.inl rfl) trivial nofun rfl
  | serverReads c call => exact h.serverReads hstep
  | clientReads c => exact h.clientReads hstep
  | serverPushes c m =>
      simp only [World.step, Option.bind_eq_bind, Option.bind_eq_some_iff] at hstep
      obtain ⟨ch, hch, hstep⟩ := hstep
      split at hstep
      · rename_i hdetail
        cases hstep
        refine h.quiet ((h.channels c ch hch).send_client ?_)
        rw [hdetail]
        exact nofun
      · cases hstep
  | clientPushes c m =>
      simp only [World.step, Option.bind_eq_bind, Option.bind_eq_some_iff] at hstep
      obtain ⟨ch, hch, hstep⟩ := hstep
      split at hstep
      · rename_i hdetail
        cases hstep
        refine h.quiet ((h.channels c ch hch).send_server ?_)
        rw [hdetail]
        exact nofun
      · rename_i hdetail
        cases hstep
        refine h.quiet ((h.channels c ch hch).send_server ?_)
        rw [hdetail]
        intro t ht
        cases ht
        trivial
      · cases hstep
  | serverDrops c =>
      simp only [World.step, Option.bind_eq_bind, Option.bind_eq_some_iff] at hstep
      obtain ⟨ch, hch, hstep⟩ := hstep
      have hfits := h.channels c ch hch
      split at hstep
      · cases hstep
        refine h.quiet ⟨?_, hfits.client, hfits.toServer, hfits.toClient⟩
        intro phase hphase
        cases hphase
        trivial
      · cases hstep
  | clientDrops c =>
      simp only [World.step, Option.bind_eq_bind, Option.bind_eq_some_iff] at hstep
      obtain ⟨ch, hch, hstep⟩ := hstep
      have hfits := h.channels c ch hch
      split at hstep
      · cases hstep
      · cases hstep
        exact h.quiet ⟨hfits.server, trivial, hfits.toServer, hfits.toClient⟩
  | attackerReads c =>
      simp only [World.step, Option.bind_eq_bind, Option.bind_eq_some_iff] at hstep
      obtain ⟨ch, hch, hstep⟩ := hstep
      have hfits := h.channels c ch hch
      split at hstep
      · rename_i m rest _ hqueue
        cases hstep
        refine h.turn (e := none) nofun nofun h.agents
          ⟨hfits.server, hfits.client, hfits.toServer, fun m' hm' => ?_⟩ ?_
        · exact hfits.toClient m' (hqueue ▸ List.mem_cons_of_mem _ hm')
        · exact h.learn (hfits.toClient m (hqueue ▸ List.mem_cons_self))
      · rename_i m rest _ hqueue _
        cases hstep
        refine h.turn (e := none) nofun nofun h.agents
          ⟨hfits.server, hfits.client, fun m' hm' => ?_, hfits.toClient⟩ ?_
        · exact hfits.toServer m' (hqueue ▸ List.mem_cons_of_mem _ hm')
        · exact h.learn (hfits.toServer m (hqueue ▸ List.mem_cons_self))
      · cases hstep
  | attackerSends c m =>
      simp only [World.step, Option.bind_eq_bind, Option.bind_eq_some_iff] at hstep
      obtain ⟨ch, hch, hstep⟩ := hstep
      rw [Option.ite_none_right_eq_some] at hstep
      obtain ⟨hknown, hstep⟩ := hstep
      have hm : ∀ t ∈ m.detail, t.Signed (Made s.log) := by
        intro t ht
        rw [Option.mem_def.mp ht, Option.all_some, decide_eq_true_eq] at hknown
        exact h.known t hknown
      split at hstep
      · cases hstep
        exact h.quiet ((h.channels c ch hch).send_server hm)
      · cases hstep
        exact h.quiet ((h.channels c ch hch).send_client hm)
      · cases hstep
  | attackerBuilds recipe =>
      simp only [World.step, Option.bind_eq_bind, Option.bind_eq_some_iff] at hstep
      obtain ⟨t, ht, hstep⟩ := hstep
      cases hstep
      refine h.aside (e := none) nofun nofun h.agents ?_
      intro t' ht'
      rcases List.mem_cons.mp ht' with rfl | hin
      · exact SymTerm.build_signed h.known ht
      · exact h.known t' hin
  | attackerSigns key t =>
      simp only [World.step, Option.ite_none_right_eq_some, Option.some.injEq] at hstep
      obtain ⟨⟨hkey, ht⟩, rfl⟩ := hstep
      refine h.aside (fun x hx => ?_) nofun (h.agents_grow _) ?_
      · cases hx
        exact ⟨hkey, nofun⟩
      · intro t' ht'
        rcases List.mem_cons.mp ht' with rfl | hin
        · exact ⟨⟨none, List.mem_cons_self⟩, h.known_grow _ t ht⟩
        · exact h.known_grow _ t' hin

theorem run_sound {s : World κ} {l : List (Act κ)}
    (h : FreeRun (World.step d) World.start l s) : Sound d s :=
  h.invariant (Sound d) (fun _ _ _ hs _ hstep => hs.step hstep) start_sound

/-- A read of the server is logged as an acceptance exactly if it answers with an accepting
hello, and the session that goes on is then that of the agent in the log. -/
theorem handleConn_accepts {call : ServerCall} {r : Registry} {c : ℕ} {phase : ServerPhase}
    {m : Message κ} {turn : Turn κ} (hturn : handleConn d call r c phase m = some turn) :
    (turn.reply = some (serverHello true none) ∧
      ∃ agentId, turn.phase = .session agentId ∧ turn.entry = some (.accepted c agentId)) ∨
    (turn.reply ≠ some (serverHello true none) ∧
      ∀ agentId, turn.entry ≠ some (.accepted c agentId)) := by
  unfold handleConn at hturn
  split at hturn
  · cases hturn
    unfold enrollArm
    split
    · simp [Turn.finish, serverHello]
    · split <;> simp [Turn.finish, serverHello]
  · cases hturn
    unfold helloArm
    split_ifs
    · simp [Turn.finish, serverHello]
    · simp [Turn.finish, serverHello]
    · split
      · simp [Turn.finish, serverHello]
      · split_ifs <;> simp [Turn.finish, serverHello]
  · cases hturn
    simp
  · split_ifs at hturn
    · cases hturn
      unfold answerArm
      split <;> simp [Turn.finish, serverHello]
    · cases hturn
      simp [Turn.finish, serverHello]
  · cases hturn
    simp [Turn.finish, serverHello]
  · cases hturn
    simp
  · cases hturn

/-- Before an acceptance in the log, a holder of a private key enrolled for the agent signed for
the session. -/
theorem accepted_authenticated (d : Deployment κ) {s : World κ} {l : List (Act κ)}
    (h : FreeRun (World.step d) World.start l s) {later earlier : List (Entry κ)} {c : ℕ}
    {agentId : String} (hlog : s.log = later ++ .accepted c agentId :: earlier) :
    ∃ challengeId, Entry.challenged c agentId challengeId ∈ earlier ∧
      (∀ a n, Entry.challenged c a n ∈ s.log → a = agentId ∧ n = challengeId) ∧
      ∃ (k : κ) (holder : Option ℕ), Entry.enrolled agentId (d.pub k) ∈ earlier ∧
        Holds d holder k ∧ Entry.signed holder k (authChallengeDigest (fingerprint d.served)
          agentId (nonceFromChallenge challengeId) (tlsExporter c)) ∈ earlier := by
  have hfaithful := (run_sound h).faithful
  have hbefore := hfaithful
  rw [hlog] at hbefore
  obtain ⟨k, n, holder, henrolled, hchallenged, hholds, hsigned⟩ := hbefore.before.1
  refine ⟨n, hchallenged, ?_, k, holder, henrolled, hholds, hsigned⟩
  intro a n' hmem
  have hin : Entry.challenged c agentId n ∈ s.log := by
    rw [hlog]
    exact List.mem_append_right _ (List.mem_cons_of_mem _ hchallenged)
  exact hfaithful.challenge_unique hmem hin

/-- In every run, the server sends an accepting hello in a session, which is from then on that of
an agent, only after a holder of a private key enrolled for this agent signed the digest of the
one challenge issued in the session, for the pin of the server and the exporter value of the
session. -/
theorem session_authenticated (d : Deployment κ) {s u : World κ} {l : List (Act κ)}
    (h : FreeRun (World.step d) World.start l s) {c : ℕ} {call : ServerCall}
    (hstep : s.step d (.serverReads c call) = some u) {ch ch' : Channel κ}
    (hch : s.channels.get? c = some ch) (hch' : u.channels.get? c = some ch')
    (hhello : ch'.toClient = ch.toClient ++ [serverHello true none]) :
    ∃ agentId, ch'.server = .aegis (.session agentId) ∧
      ∃ challengeId, Entry.challenged c agentId challengeId ∈ s.log ∧
      (∀ a n, Entry.challenged c a n ∈ u.log → a = agentId ∧ n = challengeId) ∧
      ∃ (k : κ) (holder : Option ℕ), Entry.enrolled agentId (d.pub k) ∈ s.log ∧
        Holds d holder k ∧ Entry.signed holder k (authChallengeDigest (fingerprint d.served)
          agentId (nonceFromChallenge challengeId) (tlsExporter c)) ∈ s.log := by
  have hrun := h.snoc trivial hstep
  simp only [World.step, hch, Option.bind_eq_bind, Option.bind_some] at hstep
  split at hstep
  · rename_i phase m rest hserver hqueue
    obtain ⟨turn, hturn, hstep⟩ := Option.bind_eq_some_iff.mp hstep
    cases hstep
    obtain rfl := Option.some.inj (hch'.symm.trans (OrderedTable.get?_insert_self s.channels c _))
    have hreply : turn.reply = some (serverHello true none) := by
      cases hr : turn.reply <;> simp [hr] at hhello
      rw [hhello]
    rcases handleConn_accepts hturn with ⟨-, agentId, hphase, hentry⟩ | ⟨hother, -⟩
    · have hlog : turn.entry.toList ++ s.log = [] ++ .accepted c agentId :: s.log := by
        rw [hentry]
        rfl
      exact ⟨agentId, congrArg ServerEnd.aegis hphase, accepted_authenticated d hrun hlog⟩
    · exact (hother hreply).elim
  · cases hstep

/-- Where no stolen key was enrolled for the agent, the identity that holds its key is itself
at the other end of the accepted session: nothing relayed from another session is accepted. -/
theorem accepted_session_own (d : Deployment κ) {s : World κ} {l : List (Act κ)}
    (h : FreeRun (World.step d) World.start l s) {later earlier : List (Entry κ)} {c : ℕ}
    {agentId : String} (hlog : s.log = later ++ .accepted c agentId :: earlier)
    (hkept : ∀ k, Entry.enrolled agentId (d.pub k) ∈ s.log → d.stolen k = false) :
    ∃ i, Entry.connected c i agentId ∈ earlier ∧
      Entry.enrolled agentId (d.pub (d.signingKey i)) ∈ earlier := by
  have hbefore := (run_sound h).faithful
  rw [hlog] at hbefore
  obtain ⟨k, n, holder, henrolled, -, hholds, hsigned⟩ := hbefore.before.1
  cases holder with
  | none =>
      have hin : Entry.enrolled agentId (d.pub k) ∈ s.log := by
        rw [hlog]
        exact List.mem_append_right _ (List.mem_cons_of_mem _ henrolled)
      cases (hkept k hin).symm.trans hholds
  | some i =>
      obtain rfl : k = d.signingKey i := hholds
      obtain ⟨newer, older, hsplit⟩ := List.append_of_mem hsigned
      have holder := hbefore.before.2
      rw [hsplit] at holder
      obtain ⟨c', a', pin, n', hconnected, hdigest⟩ := holder.before.1.2 i rfl
      obtain ⟨-, rfl, -, rfl⟩ := authChallengeDigest_inj.mp hdigest
      refine ⟨i, ?_, henrolled⟩
      rw [hsplit]
      exact List.mem_append_right _ (List.mem_cons_of_mem _ hconnected)

end Sound

/-- One identity, which also trusts a certificate of the attacker. -/
def office : Deployment ℕ where
  pub := fun k => List.replicate 32 (UInt8.ofNat k)
  served := [1]
  signingKey := fun i => i + 100
  serverPins := fun _ => [fingerprint [1], fingerprint [9]]
  stolen := fun k => k < 100
  pins_plain := by
    intro i pin hpin
    simp only [List.mem_cons, List.not_mem_nil, or_false] at hpin
    rcases hpin with rfl | rfl <;> trivial

/-- The clock stands still and nothing fails. -/
def smoothly (d : Fin 10) : ServerCall :=
  ⟨fun _ => false, false, false, 5, "agent", .ofDigit d⟩

/-- The attacker relays a challenge and its answer between two sessions; then the identity
connects to the server itself. -/
def relayed : List (Act ℕ) :=
  [.createToken (fun _ => false) "token" "label" 4,
    .enroll 0 0 none "token" "host" "os", .serverReads 0 (smoothly 0), .clientReads 0,
    .connect 1 0 (some [9]) true, .intrude 2,
    .attackerReads 1, .attackerSends 2 (.clientHello 1 "agent" (office.pub 100)),
    .serverReads 2 (smoothly 1),
    .attackerReads 2, .attackerSends 1 (.command (Uuid.ofDigit 1) true), .clientReads 1,
    .attackerReads 1, .attackerSends 2 (.commandResult (Uuid.ofDigit 1) true (some (signAuth 100
      (fingerprint [9]) "agent" (nonceFromChallenge (Uuid.ofDigit 1)) (tlsExporter 1)))),
    .serverReads 2 (smoothly 0),
    .connect 3 0 none true, .serverReads 3 (smoothly 2), .clientReads 3]

/-- The relayed answer is refused, and the answer of the identity itself is accepted. -/
theorem own_session_authenticated : ∃ s u : World ℕ,
    FreeRun (World.step office) World.start relayed s ∧
    s.step office (.serverReads 3 (smoothly 0)) = some u ∧
    (∀ ch ∈ u.channels.get? 2, serverHello true none ∉ ch.toClient) ∧
    ∃ ch ∈ u.channels.get? 3, ∃ agentId, ch.server = .aegis (.session agentId) ∧
      ∃ challengeId, Entry.challenged 3 agentId challengeId ∈ s.log ∧
      (∀ a n, Entry.challenged 3 a n ∈ u.log → a = agentId ∧ n = challengeId) ∧
      ∃ (k : ℕ) (holder : Option ℕ), Entry.enrolled agentId (office.pub k) ∈ s.log ∧
        Holds office holder k ∧ Entry.signed holder k (authChallengeDigest
          (fingerprint office.served) agentId (nonceFromChallenge challengeId)
          (tlsExporter 3)) ∈ s.log := by
  have hend : ∃ s ∈ execute (World.step office) (fun _ _ => True) World.start relayed,
      ∃ u ∈ s.step office (.serverReads 3 (smoothly 0)),
        (∀ ch ∈ u.channels.get? 2, serverHello true none ∉ ch.toClient) ∧
        ∃ ch ∈ s.channels.get? 3, ∃ ch' ∈ u.channels.get? 3,
          ch'.toClient = ch.toClient ++ [serverHello true none] := by
    decide +kernel
  obtain ⟨s, hs, u, hu, hrefused, ch, hch, ch', hch', hhello⟩ := hend
  exact ⟨s, u, run_of_execute hs, hu, hrefused, ch', hch',
    session_authenticated office (run_of_execute hs) hu hch hch' hhello⟩

end SessionAuth
end Aegis

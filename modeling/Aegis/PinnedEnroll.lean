import Aegis.CheckedDecimal
import Aegis.EnrollBlob
import Aegis.Wire

/-!
# The enroll command

`aegis-agent enroll`: the secret is resolved, the server is dialled under its
pin, the token is exchanged for an identity, and the identity is written with
that pin. TLS itself, SHA-256 and the codecs are parameters.
-/

namespace Aegis

/-- The arguments that the command reads. -/
structure EnrollArgs where
  server : String
  token : Option String
  tokenFile : Option String
  pin : Option String
  enrollBlob : Option String

/-- What the machine gives the command; reads may fail. -/
structure EnrollHost where
  os : String
  stdin : Option (List UInt8)
  file : String → Option (List UInt8)

inductive SecretError where
  | readingStdin
  | readingBlob (src : String)
  | blob (e : BlobError)
  | readingToken (path : String)
  | noSecret
  | pinRequired
  | pinNotHex
  deriving DecidableEq, Repr

def SecretError.display : SecretError → String
  | .readingStdin => "reading enroll blob from stdin"
  | .readingBlob src => "reading enroll blob file " ++ src
  | .blob e => e.display
  | .readingToken path => "reading token file " ++ path
  | .noSecret => "provide --enroll-blob, --token-file, or --token"
  | .pinRequired => "--pin <hex64> is required when enrolling with --token/--token-file"
  | .pinNotHex => "--pin must be 64-char lowercase hex (SHA-256 of the server leaf cert)"

inductive UrlError where
  | plainHttp (server : String)
  | noAddress
  | badPort (server : String)
  deriving DecidableEq, Repr

def UrlError.display : UrlError → String
  | .plainHttp server => "server URL `" ++ server ++
      "` uses http://; the transport is always TLS — use https:// or omit the scheme"
  | .noAddress => "empty server address"
  | .badPort server => "invalid port in server `" ++ server ++ "`"

namespace Enroll

/-- The text of a blob, from standard input or a file. -/
def blobText (host : EnrollHost) (src : String) : Except SecretError String :=
  if src = "-" then
    match host.stdin.bind readToString with
    | none => .error .readingStdin
    | some line => .ok line
  else
    match (host.file src).bind readToString with
    | none => .error (.readingBlob src)
    | some line => .ok line

/-- The token where there is no blob. -/
def plainToken (host : EnrollHost) (args : EnrollArgs) : Except SecretError String :=
  match args.tokenFile, args.token with
  | some path, _ =>
      match (host.file path).bind readToString with
      | none => .error (.readingToken path)
      | some text => .ok (trim text)
  | none, some token => .ok token
  | none, none => .error .noSecret

def resolveEnrollSecret (b : Base64Codec) (c : IdentityCodec) (host : EnrollHost)
    (args : EnrollArgs) : Except SecretError (String × Bytes32) :=
  match args.enrollBlob with
  | some src => do
      let line ← blobText host src
      (EnrollBlob.parseEnrollBlob b line).mapError .blob
  | none => do
      let token ← plainToken host args
      let some pinHex := args.pin | .error .pinRequired
      let some pin := Identity.parsePinHex c pinHex | .error .pinNotHex
      return (token, pin)

/-- `str::rsplit_once`. -/
def rsplitOnce (sep : Char) (cs : List Char) : Option (List Char × List Char) :=
  let before := cs.rdropWhile fun ch => ch != sep
  if before = [] then none else some (before.dropLast, cs.rtakeWhile fun ch => ch != sep)

/-- The host to dial and its port, 8443 unless the address names one. -/
def parseServerUrl (server : String) : Except UrlError (String × UInt16) :=
  let trimmed := (trim server).toList
  if "http://".toList.isPrefixOf trimmed then .error (.plainHttp server)
  else
    let rest := (trimmed.dropPrefix? "https://".toList).getD trimmed
    let s := rest.rdropWhile fun ch => ch == '/'
    if s = [] then .error .noAddress
    else match rsplitOnce ':' s with
      | some (host, port) =>
          if host = [] then .ok (String.ofList s, 8443)
          else match CheckedDecimal.parse 65536 port with
            | none => .error (.badPort server)
            | some port => .ok (String.ofList host, UInt16.ofNat port)
      | none => .ok (String.ofList s, 8443)

def hostFacts (host : EnrollHost) : String × String :=
  let hostname := match (host.file "/proc/sys/kernel/hostname").bind readToString with
    | none => "unknown"
    | some text => trim text
  let release := match (host.file "/proc/sys/kernel/osrelease").bind readToString with
    | none => ""
    | some text => trim text
  (hostname, if release = "" then host.os else host.os ++ " " ++ release)

/-- Every byte goes into the accumulator, which is looked at in the end. -/
def ctEq (a b : Bytes32) : Bool :=
  (a.bytes.zip b.bytes).foldl (fun acc p => acc ||| (p.1 ^^^ p.2)) 0 == 0

/-- Whether the leaf certificate is accepted; the whole set is scanned. -/
def verifyServerCert (fingerprint : List UInt8 → Bytes32) (pins : List Bytes32)
    (leaf : List UInt8) : Bool :=
  pins.foldl (fun matched pin => matched || ctEq (fingerprint leaf) pin) false

structure EnrollRequest where
  token : String
  hostname : String
  os : String
  agentPubkey : List UInt8

/-- The request as a message of `aegis-proto`. -/
def EnrollRequest.message (req : EnrollRequest) : Json ℚ :=
  .obj [("msg", .str "enroll_request"), ("token", .str req.token), ("hostname", .str req.hostname),
    ("os", .str req.os), ("agent_pubkey", .arr (req.agentPubkey.map fun b => .ofU32 b.toUInt32))]

/-- A longer frame is not written at all. -/
def EnrollRequest.Fits (req : EnrollRequest) : Prop := req.message.textLen ≤ maxFrameBytes

instance (req : EnrollRequest) : Decidable req.Fits :=
  inferInstanceAs (Decidable (req.message.textLen ≤ maxFrameBytes))

inductive Reply where
  | enrollResponse (accepted : Bool) (agentId : String) (reason : Option String)
  | other (text : String)

/-- Who answers at an address: the certificate shown, whether the handshake proves its key,
whether the request can be written, and the answer read. -/
structure Peer where
  leaf : List UInt8
  provesKey : Bool
  takesRequest : Bool
  reply : Option Reply

inductive EnrollFailure where
  | secret (e : SecretError)
  | url (e : UrlError)
  | connecting (host : String) (port : UInt16)
  | handshake
  | sending
  | reading
  | rejected (reason : String)
  | unexpected (text : String)
  | persisting
  deriving DecidableEq, Repr

def EnrollFailure.display : EnrollFailure → String
  | .secret e => e.display
  | .url e => e.display
  | .connecting host port => "connecting to " ++ host ++ ":" ++ toString port
  | .handshake => "TLS handshake failed (server cert pin mismatch?)"
  | .sending => "sending EnrollRequest"
  | .reading => "reading EnrollResponse"
  | .rejected reason => "enrollment rejected by server: " ++ reason
  | .unexpected text => "unexpected response to EnrollRequest: " ++ text
  | .persisting => "persisting enrolled identity"

/-- What a run of the command did: to whom it began to send which request, what it did to the
files, and the id it reports. -/
structure Outcome where
  sent : Option (Peer × EnrollRequest)
  effects : List (FileEffect DataFile UInt8)
  result : Except EnrollFailure String

def Outcome.failed (e : EnrollFailure) : Outcome := ⟨none, [], .error e⟩

/-- What the run meets: the arguments and the machine, the new key, the clock, the servers,
and after how many effects writing the identity fails, if it does. -/
structure World where
  args : EnrollArgs
  host : EnrollHost
  signingKey : Bytes32
  now : UInt64
  dial : String → UInt16 → Option Peer
  failsAfter : Option ℕ

/-- The libraries the command calls. -/
structure EnrollLibrary where
  base64 : Base64Codec
  identity : IdentityCodec
  fingerprint : List UInt8 → Bytes32
  verifyingKey : Bytes32 → List UInt8

variable (lib : EnrollLibrary) (w : World)

/-- The answer to the request, and what is written on an accepted one. -/
def receive (pin : Bytes32) (sent : Peer × EnrollRequest) : Outcome :=
  match sent.1.reply with
  | none => ⟨some sent, [], .error .reading⟩
  | some (.other text) => ⟨some sent, [], .error (.unexpected text)⟩
  | some (.enrollResponse false _ reason) =>
      ⟨some sent, [], .error (.rejected (reason.getD "no reason given"))⟩
  | some (.enrollResponse true agentId _) =>
      let effects := Identity.persist lib.identity ⟨agentId, w.signingKey, [pin]⟩ w.now
      match w.failsAfter with
      | none => ⟨some sent, effects, .ok agentId⟩
      | some k => ⟨some sent, effects.take k, .error .persisting⟩

def exchange (token : String) (pin : Bytes32) (peer : Peer) : Outcome :=
  if (verifyServerCert lib.fingerprint [pin] peer.leaf && peer.provesKey) = false then
    .failed .handshake
  else
    let facts := hostFacts w.host
    let sent := (peer, ⟨token, facts.1, facts.2, lib.verifyingKey w.signingKey⟩)
    if ¬sent.2.Fits then .failed .sending
    else if peer.takesRequest then receive lib w pin sent else ⟨some sent, [], .error .sending⟩

def enroll : Outcome :=
  match resolveEnrollSecret lib.base64 lib.identity w.host w.args with
  | .error e => .failed (.secret e)
  | .ok (token, pin) =>
      match parseServerUrl w.args.server with
      | .error e => .failed (.url e)
      | .ok (host, port) =>
          match w.dial host port with
          | none => .failed (.connecting host port)
          | some peer => exchange lib w token pin peer

/-- The ways to give the command a token and a pin. -/
def Supplies (host : EnrollHost) (args : EnrollArgs) (token : String) (pin : Bytes32) : Prop :=
  (∃ src line, args.enrollBlob = some src ∧
    (if src = "-" then host.stdin else host.file src) = some (EnrollBlob.utf8 line) ∧
    token ≠ "" ∧ EnrollBlob.Carries lib.base64 token pin line) ∨
  (args.enrollBlob = none ∧
    ((∃ path text, args.tokenFile = some path ∧ host.file path = some (EnrollBlob.utf8 text) ∧
      token = trim text) ∨ (args.tokenFile = none ∧ args.token = some token)) ∧
    ∃ hex, args.pin = some hex ∧ Identity.parsePinHex lib.identity hex = some pin)

theorem readToString_bind_eq_some {contents : Option (List UInt8)} {text : String} :
    contents.bind readToString = some text ↔ contents = some (EnrollBlob.utf8 text) := by
  cases contents with
  | none => simp
  | some bytes =>
      rw [Option.bind_some, Identity.readToString_eq_some, Option.some.injEq]
      rfl

theorem blobText_eq_ok {host : EnrollHost} {src line : String} :
    blobText host src = .ok line ↔
      (if src = "-" then host.stdin else host.file src) = some (EnrollBlob.utf8 line) := by
  rw [← readToString_bind_eq_some, blobText]
  by_cases hsrc : src = "-"
  · simp only [if_pos hsrc]
    cases host.stdin.bind readToString <;> simp
  · simp only [if_neg hsrc]
    cases (host.file src).bind readToString <;> simp

theorem plainToken_eq_ok {host : EnrollHost} {args : EnrollArgs} {token : String} :
    plainToken host args = .ok token ↔
      (∃ path text, args.tokenFile = some path ∧ host.file path = some (EnrollBlob.utf8 text) ∧
        token = trim text) ∨ (args.tokenFile = none ∧ args.token = some token) := by
  unfold plainToken
  cases args.tokenFile with
  | none => cases args.token <;> simp
  | some path =>
      simp only [Option.some.injEq, ← readToString_bind_eq_some, reduceCtorEq, false_and, or_false]
      cases htext : (host.file path).bind readToString <;> simp [htext, eq_comm]

variable {lib}

theorem resolveEnrollSecret_eq_ok (hb : lib.base64.Canonical) {host : EnrollHost}
    {args : EnrollArgs} {token : String} {pin : Bytes32} :
    resolveEnrollSecret lib.base64 lib.identity host args = .ok (token, pin) ↔
      Supplies lib host args token pin := by
  unfold resolveEnrollSecret Supplies
  cases args.enrollBlob with
  | some src =>
      simp only [← blobText_eq_ok, ← EnrollBlob.parseEnrollBlob_eq_ok hb]
      cases hline : blobText host src with
      | error e => simp [bind, Except.bind, hline]
      | ok line =>
          cases hblob : EnrollBlob.parseEnrollBlob lib.base64 line <;>
            simp [bind, Except.bind, Except.mapError, hline, hblob]
  | none =>
      simp only [← plainToken_eq_ok]
      cases plainToken host args with
      | error e => simp [bind, Except.bind]
      | ok text =>
          cases args.pin with
          | none => simp [bind, Except.bind]
          | some hex =>
              cases hpin : Identity.parsePinHex lib.identity hex <;>
                simp [bind, Except.bind, pure, Except.pure, hpin]

theorem fold_or_xor_eq_zero {as bs : List UInt8} (h : as.length = bs.length) (acc : UInt8) :
    (as.zip bs).foldl (fun acc p => acc ||| (p.1 ^^^ p.2)) acc = 0 ↔ acc = 0 ∧ as = bs := by
  induction as generalizing bs acc with
  | nil =>
      cases bs with
      | nil => simp
      | cons b bs => simp at h
  | cons a as ih =>
      cases bs with
      | nil => simp at h
      | cons b bs =>
          rw [List.zip_cons_cons, List.foldl_cons, ih (by simpa using h), UInt8.or_eq_zero_iff,
            UInt8.xor_eq_zero_iff, List.cons.injEq, and_assoc]

theorem ctEq_iff {a b : Bytes32} : ctEq a b = true ↔ a = b := by
  rw [ctEq, beq_iff_eq, fold_or_xor_eq_zero (a.length_eq.trans b.length_eq.symm)]
  cases a
  cases b
  simp

theorem verifyServerCert_iff {fingerprint : List UInt8 → Bytes32} {pins : List Bytes32}
    {leaf : List UInt8} :
    verifyServerCert fingerprint pins leaf = true ↔ fingerprint leaf ∈ pins := by
  have hfold : ∀ matched, pins.foldl (fun matched pin => matched || ctEq (fingerprint leaf) pin)
      matched = true ↔ matched = true ∨ fingerprint leaf ∈ pins := by
    induction pins with
    | nil => simp
    | cons pin pins ih =>
        intro matched
        rw [List.foldl_cons, ih, Bool.or_eq_true, ctEq_iff, List.mem_cons, or_assoc]
  rw [verifyServerCert, hfold]
  simp

variable {w}

theorem receive_sent (pin : Bytes32) (sent : Peer × EnrollRequest) :
    (receive lib w pin sent).sent = some sent := by
  unfold receive
  split
  · rfl
  · rfl
  · rfl
  · split <;> rfl

theorem receive_effects {pin : Bytes32} {sent : Peer × EnrollRequest}
    (h : (receive lib w pin sent).effects ≠ []) :
    ∃ agentId reason, sent.1.reply = some (.enrollResponse true agentId reason) := by
  unfold receive at h
  split at h
  · exact absurd rfl h
  · exact absurd rfl h
  · exact absurd rfl h
  · rename_i agentId reason hreply
    exact ⟨agentId, reason, hreply⟩

theorem receive_ok {pin : Bytes32} {sent : Peer × EnrollRequest} {agentId : String}
    (h : (receive lib w pin sent).result = .ok agentId) :
    (receive lib w pin sent).effects =
      Identity.persist lib.identity ⟨agentId, w.signingKey, [pin]⟩ w.now := by
  unfold receive at h ⊢
  split at h
  · cases h
  · cases h
  · cases h
  · split at h
    · cases h
      rfl
    · cases h

variable (lib w) in
/-- The token goes out only to a peer that shows a certificate with the pin and proves its key, in
a frame that fits; where the request is not cut off, its answer is received. -/
theorem exchange_cases (token : String) (pin : Bytes32) (peer : Peer) :
    (¬(lib.fingerprint peer.leaf = pin ∧ peer.provesKey = true) ∧
      exchange lib w token pin peer = .failed .handshake) ∨
    (lib.fingerprint peer.leaf = pin ∧ peer.provesKey = true ∧ ∃ req : EnrollRequest,
      req = ⟨token, (hostFacts w.host).1, (hostFacts w.host).2, lib.verifyingKey w.signingKey⟩ ∧
      ((¬req.Fits ∧ exchange lib w token pin peer = .failed .sending) ∨
        (req.Fits ∧ (exchange lib w token pin peer = receive lib w pin (peer, req) ∨
          exchange lib w token pin peer = ⟨some (peer, req), [], .error .sending⟩)))) := by
  unfold exchange
  by_cases hsecure : (verifyServerCert lib.fingerprint [pin] peer.leaf && peer.provesKey) = true
  · obtain ⟨hpin, hkey⟩ := (Bool.and_eq_true _ _).mp hsecure
    refine Or.inr ⟨List.mem_singleton.mp (verifyServerCert_iff.mp hpin), hkey, _, rfl, ?_⟩
    rw [if_neg (by rw [hsecure]; decide)]
    by_cases hfits : (EnrollRequest.mk token (hostFacts w.host).1 (hostFacts w.host).2
        (lib.verifyingKey w.signingKey)).Fits
    · refine Or.inr ⟨hfits, ?_⟩
      rw [if_neg (not_not.mpr hfits)]
      by_cases htakes : peer.takesRequest = true
      · exact Or.inl (if_pos htakes)
      · exact Or.inr (if_neg htakes)
    · exact Or.inl ⟨hfits, if_pos hfits⟩
  · have hfalse := Bool.eq_false_iff.mpr hsecure
    refine Or.inl ⟨fun h => hsecure ?_, if_pos hfalse⟩
    rw [Bool.and_eq_true, verifyServerCert_iff, List.mem_singleton]
    exact h

theorem exchange_sent {token : String} {pin : Bytes32} {peer peer' : Peer} {req : EnrollRequest} :
    (exchange lib w token pin peer).sent = some (peer', req) ↔
      peer = peer' ∧ peer.provesKey = true ∧ lib.fingerprint peer.leaf = pin ∧
        req = ⟨token, (hostFacts w.host).1, (hostFacts w.host).2,
          lib.verifyingKey w.signingKey⟩ ∧ req.Fits := by
  rcases exchange_cases lib w token pin peer with
    ⟨hinsecure, hout⟩ | ⟨hpin, hkey, req', rfl, ⟨hlong, hout⟩ | ⟨hfits, hout⟩⟩
  · rw [hout]
    constructor
    · intro h
      cases h
    · rintro ⟨-, hkey, hpin, -⟩
      exact absurd ⟨hpin, hkey⟩ hinsecure
  · rw [hout]
    constructor
    · intro h
      cases h
    · rintro ⟨-, -, -, rfl, hfits⟩
      exact absurd hfits hlong
  · have hsent : (exchange lib w token pin peer).sent = some (peer,
        ⟨token, (hostFacts w.host).1, (hostFacts w.host).2, lib.verifyingKey w.signingKey⟩) := by
      rcases hout with hout | hout
      · rw [hout, receive_sent]
      · rw [hout]
    rw [hsent, Option.some.injEq, Prod.mk.injEq, eq_comm (b := req)]
    constructor
    · rintro ⟨hpeer, rfl⟩
      exact ⟨hpeer, hkey, hpin, rfl, hfits⟩
    · rintro ⟨hpeer, -, -, hreq, -⟩
      exact ⟨hpeer, hreq⟩

variable (lib w) in
/-- A run that fails before the exchange sends and writes nothing. -/
theorem enroll_cases :
    (∃ e, enroll lib w = .failed e) ∨ ∃ token pin host port peer,
      resolveEnrollSecret lib.base64 lib.identity w.host w.args = .ok (token, pin) ∧
      parseServerUrl w.args.server = .ok (host, port) ∧ w.dial host port = some peer ∧
      enroll lib w = exchange lib w token pin peer := by
  unfold enroll
  cases resolveEnrollSecret lib.base64 lib.identity w.host w.args with
  | error e => exact Or.inl ⟨_, rfl⟩
  | ok secret =>
      cases parseServerUrl w.args.server with
      | error e => exact Or.inl ⟨_, rfl⟩
      | ok address =>
          cases hpeer : w.dial address.1 address.2 with
          | none => exact Or.inl ⟨.connecting address.1 address.2, by simp only [hpeer]⟩
          | some peer =>
              exact Or.inr ⟨secret.1, secret.2, address.1, address.2, peer, rfl, rfl, hpeer,
                by simp only [hpeer]⟩

theorem enroll_of_found {token host : String} {pin : Bytes32} {port : UInt16} {peer : Peer}
    (hsecret : resolveEnrollSecret lib.base64 lib.identity w.host w.args = .ok (token, pin))
    (hurl : parseServerUrl w.args.server = .ok (host, port))
    (hpeer : w.dial host port = some peer) :
    enroll lib w = exchange lib w token pin peer := by
  simp only [enroll, hsecret, hurl, hpeer]

theorem enroll_sent (hb : lib.base64.Canonical) (peer : Peer) (req : EnrollRequest) :
    (enroll lib w).sent = some (peer, req) ↔
      ∃ host port, Supplies lib w.host w.args req.token (lib.fingerprint peer.leaf) ∧
        parseServerUrl w.args.server = .ok (host, port) ∧ w.dial host port = some peer ∧
        peer.provesKey = true ∧ (req.hostname, req.os) = hostFacts w.host ∧
        req.agentPubkey = lib.verifyingKey w.signingKey ∧ req.Fits := by
  simp only [← resolveEnrollSecret_eq_ok hb]
  constructor
  · intro h
    rcases enroll_cases lib w with
      ⟨e, hout⟩ | ⟨token, pin, host, port, found, hsecret, hurl, hpeer, hout⟩
    · rw [hout] at h
      cases h
    · rw [hout] at h
      obtain ⟨rfl, hkey, rfl, rfl, hfits⟩ := exchange_sent.mp h
      exact ⟨host, port, hsecret, hurl, hpeer, hkey, rfl, rfl, hfits⟩
  · rintro ⟨host, port, hsecret, hurl, hpeer, hkey, hfacts, hpubkey, hfits⟩
    rw [enroll_of_found hsecret hurl hpeer, exchange_sent]
    refine ⟨rfl, hkey, rfl, ?_, hfits⟩
    rw [← hfacts, ← hpubkey]

theorem enroll_received (h : (enroll lib w).effects ≠ [] ∨ ∃ id, (enroll lib w).result = .ok id) :
    ∃ peer req, (enroll lib w).sent = some (peer, req) ∧
      enroll lib w = receive lib w (lib.fingerprint peer.leaf) (peer, req) := by
  rcases enroll_cases lib w with ⟨e, hout⟩ | ⟨token, pin, _, _, peer, -, -, -, hout⟩
  · rw [hout] at h
    rcases h with h | ⟨id, h⟩
    · exact absurd rfl h
    · cases h
  · rw [hout] at h ⊢
    rcases exchange_cases lib w token pin peer with
      ⟨-, hout⟩ | ⟨rfl, -, req, -, ⟨-, hout⟩ | ⟨-, hout | hout⟩⟩
    · rw [hout] at h
      rcases h with h | ⟨id, h⟩
      · exact absurd rfl h
      · cases h
    · rw [hout] at h
      rcases h with h | ⟨id, h⟩
      · exact absurd rfl h
      · cases h
    · exact ⟨peer, req, by rw [hout, receive_sent], hout⟩
    · rw [hout] at h
      rcases h with h | ⟨id, h⟩
      · exact absurd rfl h
      · cases h

theorem load_enrolled (hhex : lib.identity.Hex) {e : Enrolled} (hpins : e.serverPins ≠ [])
    (hreads : lib.identity.Reads (Identity.identityFile lib.identity e w.now))
    (files : Files DataFile UInt8) :
    Identity.load lib.identity (files.run (Identity.persist lib.identity e w.now)) =
      .ok (some e) := by
  rw [Identity.run_persist, Identity.load_files hhex hreads
    ((Files.write_of_ne _ (by decide) _).trans (Files.write_self ..)) (Files.write_self ..),
    if_neg hpins]

variable (lib w)

/-- The identity that a peer gives, pinned to its certificate. -/
def identityFrom (agentId : String) (peer : Peer) : Enrolled :=
  ⟨agentId, w.signingKey, [lib.fingerprint peer.leaf]⟩

/-- The request goes, where its frame fits, exactly to the peer at the address whose certificate
has the supplied pin and whose key is proved; files change only where that peer accepts; and what
is then loaded is the identity it gave, with a pin that lets in its certificate and no other. -/
theorem enroll_pins (hb : lib.base64.Canonical) (hhex : lib.identity.Hex)
    (files : Files DataFile UInt8) :
    (∀ peer req, (enroll lib w).sent = some (peer, req) ↔
      ∃ host port, Supplies lib w.host w.args req.token (lib.fingerprint peer.leaf) ∧
        parseServerUrl w.args.server = .ok (host, port) ∧ w.dial host port = some peer ∧
        peer.provesKey = true ∧ (req.hostname, req.os) = hostFacts w.host ∧
        req.agentPubkey = lib.verifyingKey w.signingKey ∧ req.Fits) ∧
    ((enroll lib w).effects ≠ [] → ∃ peer req agentId reason,
      (enroll lib w).sent = some (peer, req) ∧
        peer.reply = some (.enrollResponse true agentId reason)) ∧
    ∀ agentId, (enroll lib w).result = .ok agentId → ∃ peer req,
      (enroll lib w).sent = some (peer, req) ∧
        (lib.identity.Reads
            (Identity.identityFile lib.identity (identityFrom lib w agentId peer) w.now) →
          Identity.load lib.identity (files.run (enroll lib w).effects) =
            .ok (some (identityFrom lib w agentId peer))) ∧
        ∀ leaf, verifyServerCert lib.fingerprint (identityFrom lib w agentId peer).serverPins
            leaf = true ↔ lib.fingerprint leaf = lib.fingerprint peer.leaf := by
  refine ⟨enroll_sent hb, fun h => ?_, fun agentId h => ?_⟩
  · obtain ⟨peer, req, hsent, hout⟩ := enroll_received (Or.inl h)
    rw [hout] at h
    obtain ⟨agentId, reason, hreply⟩ := receive_effects h
    exact ⟨peer, req, agentId, reason, hsent, hreply⟩
  · obtain ⟨peer, req, hsent, hout⟩ := enroll_received (Or.inr ⟨agentId, h⟩)
    rw [hout] at h
    refine ⟨peer, req, hsent, fun hreads => ?_, fun leaf => ?_⟩
    · rw [hout, receive_ok h]
      exact load_enrolled hhex (List.cons_ne_nil _ _) hreads files
    · rw [verifyServerCert_iff]
      exact List.mem_singleton

def standardBase64 : Base64Codec where
  encode bytes := String.ofList (Base64.encode bytes)
  decode text := Base64.decode text.toList

theorem standardBase64_canonical : standardBase64.Canonical where
  decode_eq_some text bytes := by
    change Base64.decode text.toList = some bytes ↔ text = String.ofList (Base64.encode bytes)
    rw [Base64.decode_eq_some]
    constructor
    · intro h
      rw [← h, String.ofList_toList]
    · rintro rfl
      rw [String.toList_ofList]
  letters bytes ch hch := by
    rw [standardBase64, String.toList_ofList] at hch
    exact Base64.mem_encode hch
  nonempty bytes hne := by
    rw [standardBase64, String.toList_ofList]
    exact Base64.encode_ne_nil hne

/-- SHA-256 of nothing. -/
def emptyDigest : Bytes32 :=
  ⟨[227, 176, 196, 66, 152, 252, 28, 20, 154, 251, 244, 200, 153, 111, 185, 36,
    39, 174, 65, 228, 100, 155, 147, 76, 164, 149, 153, 27, 120, 82, 184, 85], rfl⟩

def emptyCertificate : Peer where
  leaf := []
  provesKey := true
  takesRequest := true
  reply := some (.enrollResponse true "agent-1" none)

/-- A blob on standard input for a server whose certificate is empty. -/
def blobOnStdin : World where
  args := ⟨"https://aegis.example/", none, none, none, some "-"⟩
  host :=
    { os := "linux"
      stdin := some (EnrollBlob.utf8
        "AEGIS-ENROLL dG9rLTHjsMRCmPwcFJr79MiZb7kkJ65B5GSbk0yklZkbeFK4VQ==\n")
      file := fun _ => none }
  signingKey := ⟨List.replicate 32 1, by simp⟩
  now := 1000
  dial := fun host port =>
    if host = "aegis.example" ∧ port = 8443 then some emptyCertificate else none
  failsAfter := none

def newIdentity : Enrolled := ⟨"agent-1", blobOnStdin.signingKey, [emptyDigest]⟩

def knownLibrary : EnrollLibrary where
  base64 := standardBase64
  identity := Identity.knownCodec
    [Identity.identityFile (Identity.knownCodec []) newIdentity blobOnStdin.now]
  fingerprint
    | [] => emptyDigest
    | _ => ⟨List.replicate 32 9, List.length_replicate⟩
  verifyingKey := Bytes32.bytes

theorem enroll_pins_blob :
    (enroll knownLibrary blobOnStdin).result = .ok "agent-1" ∧
      Identity.load knownLibrary.identity
        (Files.run (fun _ => none) (enroll knownLibrary blobOnStdin).effects) =
          .ok (some newIdentity) := by
  have hresult : (enroll knownLibrary blobOnStdin).result = .ok "agent-1" := by decide +kernel
  have hreads : knownLibrary.identity.Reads
      (Identity.identityFile knownLibrary.identity newIdentity blobOnStdin.now) := by
    refine Identity.knownCodec_reads (fun f hf g hg _ => ?_) List.mem_cons_self
    rw [List.mem_singleton.mp hf, List.mem_singleton.mp hg]
  obtain ⟨hsends, -, hloads⟩ := enroll_pins knownLibrary blobOnStdin standardBase64_canonical
    (Identity.knownCodec_hex _) fun _ => none
  obtain ⟨peer, req, hsent, hload, -⟩ := hloads "agent-1" hresult
  obtain ⟨host, port, -, -, hdial, -⟩ := (hsends peer req).mp hsent
  have hpeer : peer = emptyCertificate := by
    change (if host = "aegis.example" ∧ port = 8443 then some emptyCertificate else none) =
      some peer at hdial
    split at hdial
    · exact (Option.some.inj hdial).symm
    · cases hdial
  rw [hpeer] at hload
  exact ⟨hresult, hload hreads⟩

end Enroll
end Aegis

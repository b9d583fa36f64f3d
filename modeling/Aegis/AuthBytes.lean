import Aegis.SessionAuth
import Aegis.IdentityFiles

/-!
# The bytes under a session signature

What `auth_challenge_digest` feeds to SHA-256: five pieces one after the other,
with no lengths between them. The agent id is the only piece of varying length,
and the pieces around it keep its ends where they are. The symbolic terms of the
handshake denote such bytes.
-/

namespace Aegis
namespace AuthBytes
open SessionAuth (Datum)

def authLabel : List UInt8 := "aegis-session-auth-v1".toUTF8.data.toList

/-- The updates of the hasher, in their order. -/
def authPreimage (pin : Bytes32) (agentId : String) (nonce32 : Bytes32)
    (tlsExporter : List UInt8) : List UInt8 :=
  [authLabel, pin.bytes, agentId.toUTF8.data.toList, nonce32.bytes, tlsExporter].flatten

def authChallengeDigest (sha256 : List UInt8 → Bytes32) (pin : Bytes32) (agentId : String)
    (nonce32 : Bytes32) (tlsExporter : List UInt8) : Bytes32 :=
  sha256 (authPreimage pin agentId nonce32 tlsExporter)

theorem Bytes32.ext {a b : Bytes32} (h : a.bytes = b.bytes) : a = b := by
  cases a
  cases b
  cases h
  rfl

theorem utf8_injective {s t : String} (h : s.toUTF8.data.toList = t.toUTF8.data.toList) :
    s = t := by
  apply String.toByteArray_inj.mp
  apply ByteArray.ext
  exact Array.toList_inj.mp h

/-- Pieces of known lengths at both ends fix where the middle starts and stops. -/
theorem append_middle_inj {α : Type} {a a' m m' c c' : List α} (ha : a.length = a'.length)
    (hc : c.length = c'.length) (h : a ++ (m ++ c) = a' ++ (m' ++ c')) :
    a = a' ∧ m = m' ∧ c = c' := by
  have hfront := List.append_inj h ha
  have hback := List.append_inj' hfront.2 hc
  exact ⟨hfront.1, hback.1, hback.2⟩

theorem authPreimage_eq (pin : Bytes32) (agentId : String) (nonce32 : Bytes32)
    (tlsExporter : List UInt8) :
    authPreimage pin agentId nonce32 tlsExporter = authLabel ++ (pin.bytes ++
      (agentId.toUTF8.data.toList ++ (nonce32.bytes ++ tlsExporter))) := by
  simp only [authPreimage, List.flatten_cons, List.flatten_nil, List.append_nil]

/-- Exporters of one length are enough; what they are long does not matter. -/
theorem authPreimage_inj_of_length {pin pin' nonce nonce' : Bytes32} {agentId agentId' : String}
    {exporter exporter' : List UInt8} (hlen : exporter.length = exporter'.length)
    (h : authPreimage pin agentId nonce exporter = authPreimage pin' agentId' nonce' exporter') :
    pin = pin' ∧ agentId = agentId' ∧ nonce = nonce' ∧ exporter = exporter' := by
  rw [authPreimage_eq, authPreimage_eq] at h
  have hpieces := (List.append_inj h rfl).2
  have hpin : pin.bytes.length = pin'.bytes.length := by rw [pin.length_eq, pin'.length_eq]
  have hnonce : nonce.bytes.length = nonce'.bytes.length := by
    rw [nonce.length_eq, nonce'.length_eq]
  have hend : (nonce.bytes ++ exporter).length = (nonce'.bytes ++ exporter').length := by
    rw [List.length_append, List.length_append, hnonce, hlen]
  have hmiddle := append_middle_inj hpin hend hpieces
  have hlast := List.append_inj hmiddle.2.2 hnonce
  exact ⟨Bytes32.ext hmiddle.1, utf8_injective hmiddle.2.1, Bytes32.ext hlast.1, hlast.2⟩

/-- With exporters of both callers, 32 bytes each, the unframed pieces are told apart. -/
theorem authPreimage_injective {pin pin' nonce nonce' : Bytes32} {agentId agentId' : String}
    {exporter exporter' : List UInt8} (hexporter : exporter.length = 32)
    (hexporter' : exporter'.length = 32)
    (h : authPreimage pin agentId nonce exporter = authPreimage pin' agentId' nonce' exporter') :
    (pin, agentId, nonce, exporter) = (pin', agentId', nonce', exporter') := by
  have hall := authPreimage_inj_of_length (hexporter.trans hexporter'.symm) h
  rw [hall.1, hall.2.1, hall.2.2.1, hall.2.2.2]

theorem authPreimage_injective_at :
    authPreimage ⟨List.replicate 32 1, rfl⟩ "agent-1" ⟨List.replicate 32 2, rfl⟩
        (List.replicate 32 3) =
      authPreimage ⟨List.replicate 32 1, rfl⟩ "agent-1" ⟨List.replicate 32 2, rfl⟩
        (List.replicate 32 3) ∧
    ((⟨List.replicate 32 1, rfl⟩, "agent-1", ⟨List.replicate 32 2, rfl⟩, List.replicate 32 3) :
        Bytes32 × String × Bytes32 × List UInt8) =
      (⟨List.replicate 32 1, rfl⟩, "agent-1", ⟨List.replicate 32 2, rfl⟩, List.replicate 32 3) :=
  ⟨rfl, authPreimage_injective rfl rfl rfl⟩

/-- Without a length for the exporter the id could take bytes from its neighbours. -/
theorem authPreimage_ambiguous (pin : Bytes32) (tail : List UInt8) :
    authPreimage pin "A" ⟨List.replicate 32 65, rfl⟩ tail =
      authPreimage pin "" ⟨List.replicate 32 65, rfl⟩ (65 :: tail) := by
  have hid : ("A".toUTF8.data.toList : List UInt8) = [65] := by decide +kernel
  have hempty : ("".toUTF8.data.toList : List UInt8) = [] := by decide +kernel
  simp only [authPreimage_eq, hid, hempty, List.nil_append]
  rfl

/-- What the symbols of the handshake stand for. -/
structure Meaning (κ : Type) where
  sha256 : List UInt8 → Bytes32
  uuid : Uuid → List UInt8
  exporter : ℕ → Bytes32
  signature : κ → List UInt8 → List UInt8

namespace Meaning
variable {κ : Type} (m : Meaning κ)

def datum : Datum → List UInt8
  | .text s => s.toUTF8.data.toList
  | .uuid id => m.uuid id
  | .der bytes => bytes
  | .exporter session => (m.exporter session).bytes

def denote : SessionAuth.Bytes κ → List UInt8
  | .data a => m.datum a
  | .hash t => (m.sha256 (denote t)).bytes
  | .pair t u => denote t ++ denote u
  | .sign k t => m.signature k (denote t)

/-- The preimage of the digest that an agent of this identity signs in a session. -/
def preimage (certDer : List UInt8) (agentId : String) (challengeId : Uuid) (session : ℕ) :
    List UInt8 :=
  authPreimage (m.sha256 certDer) agentId (m.sha256 (m.uuid challengeId))
    (m.exporter session).bytes

theorem denote_authChallengeDigest (certDer : List UInt8) (agentId : String) (challengeId : Uuid)
    (session : ℕ) :
    m.denote (SessionAuth.authChallengeDigest (SessionAuth.fingerprint certDer) agentId
      (SessionAuth.nonceFromChallenge challengeId) (SessionAuth.tlsExporter session)) =
      (authChallengeDigest m.sha256 (m.sha256 certDer) agentId (m.sha256 (m.uuid challengeId))
        (m.exporter session).bytes).bytes := by
  rw [authChallengeDigest, authPreimage_eq]
  rfl

def Collision (x y : List UInt8) : Prop := x ≠ y ∧ m.sha256 x = m.sha256 y

theorem eq_or_collision {x y : List UInt8} (h : m.sha256 x = m.sha256 y) :
    x = y ∨ m.Collision x y := by
  by_cases hxy : x = y
  · exact Or.inl hxy
  · exact Or.inr ⟨hxy, h⟩

/-- Two digests of the handshake with the same bytes are about the same certificate, id,
challenge and exporter, unless the hash has collided on what went into them. -/
theorem digest_agreement {der der' : List UInt8} {agentId agentId' : String} {c c' : Uuid}
    {session session' : ℕ}
    (h : m.denote (SessionAuth.authChallengeDigest (SessionAuth.fingerprint der) agentId
        (SessionAuth.nonceFromChallenge c) (SessionAuth.tlsExporter session)) =
      m.denote (SessionAuth.authChallengeDigest (SessionAuth.fingerprint der') agentId'
        (SessionAuth.nonceFromChallenge c') (SessionAuth.tlsExporter session'))) :
    der = der' ∧ agentId = agentId' ∧ m.uuid c = m.uuid c' ∧
        m.exporter session = m.exporter session' ∨
      m.Collision der der' ∨ m.Collision (m.uuid c) (m.uuid c') ∨
      m.Collision (m.preimage der agentId c session) (m.preimage der' agentId' c' session') := by
  rw [denote_authChallengeDigest, denote_authChallengeDigest] at h
  rcases m.eq_or_collision (Bytes32.ext h) with hpre | hcollision
  · have hlen : (m.exporter session).bytes.length = (m.exporter session').bytes.length := by
      rw [(m.exporter session).length_eq, (m.exporter session').length_eq]
    have hfields := authPreimage_inj_of_length hlen hpre
    rcases m.eq_or_collision hfields.1 with hder | hcollision
    · rcases m.eq_or_collision hfields.2.2.1 with huuid | hcollision
      · exact Or.inl ⟨hder, hfields.2.1, huuid, Bytes32.ext hfields.2.2.2⟩
      · exact Or.inr (Or.inr (Or.inl hcollision))
    · exact Or.inr (Or.inl hcollision)
  · exact Or.inr (Or.inr (Or.inr hcollision))

end Meaning
end AuthBytes
end Aegis

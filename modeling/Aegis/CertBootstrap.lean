import Aegis.AtomicReplace
import Aegis.IdentityFiles

/-!
# The server's certificate

`load_or_create_server_cert`: a start of the server loads its certificate and
key, which it makes first where one of the files is missing. A start may fail at
any step, or be killed there; each one has its own process id, and a freshly
generated pair in case it needs one. A file that is there is seen to be there:
the error that makes `exists` false is left out. The PEM formats and SHA-256 are
parameters.
-/

namespace Aegis

inductive ServerFile where
  | crt
  | key
  | tmpCrt (pid : ℕ)
  | tmpKey (pid : ℕ)
  deriving DecidableEq, Repr

def ServerFile.name : ServerFile → String
  | .crt => "tls.crt"
  | .key => "tls.key"
  | .tmpCrt pid => ".tls.crt.tmp." ++ toString pid
  | .tmpKey pid => ".tls.key.tmp." ++ toString pid

/-- The two texts of a generated certificate. -/
structure KeyPair where
  certPem : List UInt8
  keyPem : List UInt8
  deriving DecidableEq

/-- The certificates of a PEM text, its private key, and the hash of a certificate. -/
structure CertLibrary (Key : Type) where
  parseChain : List UInt8 → Option (List (List UInt8))
  parseKey : List UInt8 → Option Key
  fingerprint : List UInt8 → Bytes32

/-- The texts of a generated pair are read back. -/
def CertLibrary.Reads {Key : Type} (lib : CertLibrary Key) (p : KeyPair) : Prop :=
  ∃ leaf rest key, lib.parseChain p.certPem = some (leaf :: rest) ∧ lib.parseKey p.keyPem = some key

/-- What the server serves with. -/
structure TlsMaterial (Key : Type) where
  chain : List (List UInt8)
  key : Key
  pin : Bytes32
  deriving DecidableEq

inductive BootError where
  | creatingDir
  | generating
  | writing (file : ServerFile)
  | opening (file : ServerFile)
  | parsingCerts
  | noCerts
  | parsingKey
  deriving DecidableEq, Repr

def BootError.display (serverDir : String) : BootError → String
  | .creatingDir => "creating " ++ serverDir
  | .generating => "generating self-signed server certificate"
  | .writing file => "writing " ++ serverDir ++ "/" ++ file.name
  | .opening file => "opening " ++ serverDir ++ "/" ++ file.name
  | .parsingCerts => "parsing certificates in " ++ serverDir ++ "/" ++ ServerFile.crt.name
  | .noCerts => "no certificates found in " ++ serverDir ++ "/" ++ ServerFile.crt.name
  | .parsingKey => "parsing private key in " ++ serverDir ++ "/" ++ ServerFile.key.name

/-- Where a write is interrupted: an error after some steps, with or without the removal of the
temporary file after it, or the end of the process. -/
inductive Interruption where
  | failure (n : ℕ) (removed : Bool)
  | crash (n : ℕ)
  deriving DecidableEq, Repr

inductive WriteEnd where
  | written | failed | crashed
  deriving DecidableEq, Repr

/-- What a start of the server meets. -/
structure Start where
  pid : ℕ
  mask : ℕ
  dirFails : Bool
  generated : Option KeyPair
  writingCrt : Option Interruption
  writingKey : Option Interruption
  crtFails : Bool
  keyFails : Bool

/-- Nothing fails and a pair can be generated. -/
structure Start.Unstopped (s : Start) : Prop where
  dir : s.dirFails = false
  generated : s.generated.isSome = true
  writingCrt : s.writingCrt = none
  writingKey : s.writingKey = none
  crt : s.crtFails = false
  key : s.keyFails = false

/-- After an error the temporary file is removed. -/
structure Start.Cleans (s : Start) : Prop where
  crt : ∀ n, s.writingCrt ≠ some (.failure n false)
  key : ∀ n, s.writingKey ≠ some (.failure n false)

inductive BootOutcome (Key : Type) where
  | killed
  | failed (e : BootError)
  | served (m : TlsMaterial Key)
  deriving DecidableEq

abbrev ServerFiles : Type := ModedFiles ServerFile UInt8

namespace CertBoot
open ModedFiles
variable {Key : Type} (lib : CertLibrary Key)

/-- On an error before the end the guard tries to remove the temporary file; a crash leaves it. -/
def writeAtomic (mask : ℕ) (d : ServerFiles) (tmp file : ServerFile) (bytes : List UInt8)
    (mode : ℕ) : Option Interruption → ServerFiles × WriteEnd
  | none => (run mask d (replace tmp file bytes mode), .written)
  | some (.failure n removed) =>
      if n < (replace tmp file bytes mode).length then
        let d := run mask d ((replace tmp file bytes mode).take n)
        (if removed then d.put tmp none else d, .failed)
      else (run mask d (replace tmp file bytes mode), .written)
  | some (.crash n) => (run mask d ((replace tmp file bytes mode).take n), .crashed)

def load (s : Start) (d : ServerFiles) : BootOutcome Key :=
  match d .crt with
  | none => .failed (.opening .crt)
  | some crt =>
      if s.crtFails then .failed (.opening .crt)
      else match lib.parseChain crt.contents with
        | none => .failed .parsingCerts
        | some [] => .failed .noCerts
        | some (leaf :: rest) =>
            match if s.keyFails then none else (d .key).bind fun f => lib.parseKey f.contents with
            | none => .failed .parsingKey
            | some key => .served ⟨leaf :: rest, key, lib.fingerprint leaf⟩

/-- Writes both files; the load follows where nothing stopped it. -/
def create (s : Start) (pair : KeyPair) (d : ServerFiles) : ServerFiles × BootOutcome Key :=
  match writeAtomic s.mask d (.tmpCrt s.pid) .crt pair.certPem 0o644 s.writingCrt with
  | (d, .failed) => (d, .failed (.writing .crt))
  | (d, .crashed) => (d, .killed)
  | (d, .written) =>
      match writeAtomic s.mask d (.tmpKey s.pid) .key pair.keyPem 0o600 s.writingKey with
      | (d, .failed) => (d, .failed (.writing .key))
      | (d, .crashed) => (d, .killed)
      | (d, .written) => (d, load lib s d)

def loadOrCreate (s : Start) (d : ServerFiles) : ServerFiles × BootOutcome Key :=
  if s.dirFails then (d, .failed .creatingDir)
  else if (d .crt).isNone || (d .key).isNone then
    match s.generated with
    | none => (d, .failed .generating)
    | some pair => create lib s pair d
  else (d, load lib s d)

/-- The files after some starts, the one after the other. -/
def after (history : List Start) : ServerFiles :=
  history.foldl (fun d s => (loadOrCreate lib s d).1) fun _ => none

/-- What the starts served with. -/
def served (d : ServerFiles) : List Start → List (TlsMaterial Key)
  | [] => []
  | s :: history =>
      let rest := served (loadOrCreate lib s d).1 history
      match (loadOrCreate lib s d).2 with
      | .served m => m :: rest
      | _ => rest

/-- The file is whole, or only the temporary one changed: it is what it was, gone, or underway. -/
theorem writeAtomic_cases (mask : ℕ) (d : ServerFiles) (tmp file : ServerFile)
    (bytes : List UInt8) (mode : ℕ) (stop : Option Interruption) :
    ((writeAtomic mask d tmp file bytes mode stop).2 ≠ .failed ∧
      (writeAtomic mask d tmp file bytes mode stop).1 =
        (d.put file (some ⟨bytes, mode⟩)).put tmp none) ∨
    ((writeAtomic mask d tmp file bytes mode stop).2 = .failed ∧
      (writeAtomic mask d tmp file bytes mode stop).1 = d.put tmp none) ∨
    (((writeAtomic mask d tmp file bytes mode stop).2 = .crashed ∨
        (writeAtomic mask d tmp file bytes mode stop).2 = .failed ∧
          ∃ n, stop = some (.failure n false)) ∧
      ((writeAtomic mask d tmp file bytes mode stop).1 = d ∨ ∃ f, Underway bytes mode f ∧
        (writeAtomic mask d tmp file bytes mode stop).1 = d.put tmp (some f))) := by
  have hwhole := run_replace mask d tmp file bytes mode
  cases stop with
  | none => exact Or.inl ⟨(fun h => by cases h), hwhole⟩
  | some stop =>
      cases stop with
      | failure n removed =>
          rw [writeAtomic]
          by_cases hn : n < (replace tmp file bytes mode).length
          · rw [if_pos hn]
            have hpart := run_take_replace mask d tmp file bytes mode n hn
            cases removed with
            | true =>
                refine Or.inr (Or.inl ⟨rfl, ?_⟩)
                obtain h | ⟨f, -, h⟩ := hpart
                · exact congrArg (fun d : ServerFiles => d.put tmp none) h
                · exact (congrArg (fun d : ServerFiles => d.put tmp none) h).trans (put_put ..)
            | false => exact Or.inr (Or.inr ⟨Or.inr ⟨rfl, n, rfl⟩, hpart⟩)
          · rw [if_neg hn]
            exact Or.inl ⟨nofun, hwhole⟩
      | crash n =>
          rw [writeAtomic]
          by_cases hn : n < (replace tmp file bytes mode).length
          · exact Or.inr (Or.inr ⟨Or.inl rfl, run_take_replace mask d tmp file bytes mode n hn⟩)
          · rw [List.take_of_length_le (Nat.le_of_not_lt hn)]
            exact Or.inl ⟨(fun h => by cases h), hwhole⟩

theorem writeAtomic_none (mask : ℕ) (d : ServerFiles) (tmp file : ServerFile)
    (bytes : List UInt8) (mode : ℕ) :
    writeAtomic mask d tmp file bytes mode none =
      ((d.put file (some ⟨bytes, mode⟩)).put tmp none, .written) := by
  rw [writeAtomic, run_replace]

/-- The files that starts with these generated pairs leave: a key is beside its certificate, and
key bytes are under mode 0600 from the first one on. -/
structure Made (pairs : List KeyPair) (d : ServerFiles) : Prop where
  crt : ∀ f, d .crt = some f → ∃ p ∈ pairs, f = ⟨p.certPem, 0o644⟩
  key : ∀ f, d .key = some f →
    ∃ p ∈ pairs, f = ⟨p.keyPem, 0o600⟩ ∧ d .crt = some ⟨p.certPem, 0o644⟩
  tmpCrt : ∀ pid f, d (.tmpCrt pid) = some f → ∃ p ∈ pairs, f.contents <+: p.certPem
  tmpKey : ∀ pid f, d (.tmpKey pid) = some f → f.contents = [] ∨ f.mode = 0o600

theorem made_empty : Made [] fun _ => none := ⟨nofun, nofun, nofun, nofun⟩

variable {pairs : List KeyPair} {d : ServerFiles}

theorem Made.mono (h : Made pairs d) {more : List KeyPair} (hsub : pairs ⊆ more) :
    Made more d where
  crt f hf := let ⟨p, hp, he⟩ := h.crt f hf; ⟨p, hsub hp, he⟩
  key f hf := let ⟨p, hp, he⟩ := h.key f hf; ⟨p, hsub hp, he⟩
  tmpCrt pid f hf := let ⟨p, hp, he⟩ := h.tmpCrt pid f hf; ⟨p, hsub hp, he⟩
  tmpKey := h.tmpKey

theorem Made.putTmpCrt (h : Made pairs d) (pid : ℕ) {t : Option (ModedFile UInt8)}
    (ht : ∀ f, t = some f → ∃ p ∈ pairs, f.contents <+: p.certPem) :
    Made pairs (d.put (.tmpCrt pid) t) where
  crt f hf := h.crt f ((put_of_ne d (by simp) t).symm.trans hf)
  key f hf := by
    obtain ⟨p, hp, hfile, hcrt⟩ := h.key f ((put_of_ne d (by simp) t).symm.trans hf)
    exact ⟨p, hp, hfile, (put_of_ne d (by simp) t).trans hcrt⟩
  tmpCrt pid' f hf := by
    by_cases hpid : ServerFile.tmpCrt pid' = .tmpCrt pid
    · rw [hpid, put_self] at hf
      exact ht f hf
    · rw [put_of_ne d hpid] at hf
      exact h.tmpCrt pid' f hf
  tmpKey pid' f hf := h.tmpKey pid' f ((put_of_ne d (by simp) t).symm.trans hf)

theorem Made.putTmpKey (h : Made pairs d) (pid : ℕ) {t : Option (ModedFile UInt8)}
    (ht : ∀ f, t = some f → f.contents = [] ∨ f.mode = 0o600) :
    Made pairs (d.put (.tmpKey pid) t) where
  crt f hf := h.crt f ((put_of_ne d (by simp) t).symm.trans hf)
  key f hf := by
    obtain ⟨p, hp, hfile, hcrt⟩ := h.key f ((put_of_ne d (by simp) t).symm.trans hf)
    exact ⟨p, hp, hfile, (put_of_ne d (by simp) t).trans hcrt⟩
  tmpCrt pid' f hf := h.tmpCrt pid' f ((put_of_ne d (by simp) t).symm.trans hf)
  tmpKey pid' f hf := by
    by_cases hpid : ServerFile.tmpKey pid' = .tmpKey pid
    · rw [hpid, put_self] at hf
      exact ht f hf
    · rw [put_of_ne d hpid] at hf
      exact h.tmpKey pid' f hf

theorem Made.putCrt (h : Made pairs d) (hkey : d .key = none) {pair : KeyPair}
    (hpair : pair ∈ pairs) : Made pairs (d.put .crt (some ⟨pair.certPem, 0o644⟩)) where
  crt f hf := by
    rw [put_self] at hf
    exact ⟨pair, hpair, (Option.some.inj hf).symm⟩
  key f hf := by
    rw [put_of_ne d (by simp), hkey] at hf
    cases hf
  tmpCrt pid f hf := h.tmpCrt pid f ((put_of_ne d (by simp) _).symm.trans hf)
  tmpKey pid f hf := h.tmpKey pid f ((put_of_ne d (by simp) _).symm.trans hf)

theorem Made.putKey (h : Made pairs d) {pair : KeyPair} (hpair : pair ∈ pairs)
    (hcrt : d .crt = some ⟨pair.certPem, 0o644⟩) :
    Made pairs (d.put .key (some ⟨pair.keyPem, 0o600⟩)) where
  crt f hf := h.crt f ((put_of_ne d (by simp) _).symm.trans hf)
  key f hf := by
    rw [put_self] at hf
    exact ⟨pair, hpair, (Option.some.inj hf).symm, (put_of_ne d (by simp) _).trans hcrt⟩
  tmpCrt pid f hf := h.tmpCrt pid f ((put_of_ne d (by simp) _).symm.trans hf)
  tmpKey pid f hf := h.tmpKey pid f ((put_of_ne d (by simp) _).symm.trans hf)

theorem Made.key_none (h : Made pairs d) (hmissing : ((d .crt).isNone || (d .key).isNone) = true) :
    d .key = none := by
  cases hkey : d .key with
  | none => rfl
  | some f =>
      obtain ⟨p, -, -, hcrt⟩ := h.key f hkey
      rw [hcrt, hkey] at hmissing
      cases hmissing

/-- The certificate is whole and no key came, or only its temporary file changed. -/
theorem made_writeCrt (h : Made pairs d) (hkey : d .key = none) {pair : KeyPair}
    (hpair : pair ∈ pairs) (s : Start) :
    Made pairs (writeAtomic s.mask d (.tmpCrt s.pid) .crt pair.certPem 0o644 s.writingCrt).1 ∧
      ((writeAtomic s.mask d (.tmpCrt s.pid) .crt pair.certPem 0o644 s.writingCrt).2 = .written →
        (writeAtomic s.mask d (.tmpCrt s.pid) .crt pair.certPem 0o644 s.writingCrt).1 .crt =
          some ⟨pair.certPem, 0o644⟩) := by
  rcases writeAtomic_cases s.mask d (.tmpCrt s.pid) .crt pair.certPem 0o644 s.writingCrt with
    ⟨-, hd⟩ | ⟨hend, hd⟩ | ⟨hend, hpart⟩
  · rw [hd]
    exact ⟨(h.putCrt hkey hpair).putTmpCrt s.pid nofun,
      fun _ => (put_of_ne _ (by simp) none).trans (put_self ..)⟩
  · rw [hd, hend]
    exact ⟨h.putTmpCrt s.pid nofun, nofun⟩
  · have hunwritten : (writeAtomic s.mask d (.tmpCrt s.pid) .crt pair.certPem 0o644
        s.writingCrt).2 ≠ .written := by
      rcases hend with hend | ⟨hend, -⟩ <;> rw [hend] <;> nofun
    refine ⟨?_, fun h => absurd h hunwritten⟩
    rcases hpart with hd | ⟨f, hf, hd⟩
    · rwa [hd]
    · rw [hd]
      refine h.putTmpCrt s.pid fun g hg => ?_
      cases hg
      exact ⟨pair, hpair, hf.beginning⟩

theorem made_writeKey (h : Made pairs d) {pair : KeyPair} (hpair : pair ∈ pairs)
    (hcrt : d .crt = some ⟨pair.certPem, 0o644⟩) (s : Start) :
    Made pairs (writeAtomic s.mask d (.tmpKey s.pid) .key pair.keyPem 0o600 s.writingKey).1 := by
  rcases writeAtomic_cases s.mask d (.tmpKey s.pid) .key pair.keyPem 0o600 s.writingKey with
    ⟨-, hd⟩ | ⟨-, hd⟩ | ⟨-, hd | ⟨f, hf, hd⟩⟩
  · rw [hd]
    exact (h.putKey hpair hcrt).putTmpKey s.pid nofun
  · rw [hd]
    exact h.putTmpKey s.pid nofun
  · rw [hd]
    exact h
  · rw [hd]
    refine h.putTmpKey s.pid fun g hg => ?_
    cases hg
    exact hf.moded

theorem made_create (h : Made pairs d) (hkey : d .key = none) {pair : KeyPair}
    (hpair : pair ∈ pairs) (s : Start) : Made pairs (create lib s pair d).1 := by
  obtain ⟨hmade, hwritten⟩ := made_writeCrt h hkey hpair s
  unfold create
  cases hcrt : writeAtomic s.mask d (.tmpCrt s.pid) .crt pair.certPem 0o644 s.writingCrt with
  | mk d' e =>
      rw [hcrt] at hmade hwritten
      cases e with
      | failed => exact hmade
      | crashed => exact hmade
      | written =>
          have hkeyed := made_writeKey hmade hpair (hwritten rfl) s
          dsimp only
          cases hend : writeAtomic s.mask d' (.tmpKey s.pid) .key pair.keyPem 0o600
              s.writingKey with
          | mk d'' e =>
              rw [hend] at hkeyed
              cases e <;> exact hkeyed

theorem made_loadOrCreate (h : Made pairs d) (s : Start) :
    Made (pairs ++ s.generated.toList) (loadOrCreate lib s d).1 := by
  have hmore := h.mono (List.subset_append_left pairs s.generated.toList)
  unfold loadOrCreate
  split
  · exact hmore
  · split
    · rename_i hmissing
      split
      · exact hmore
      · rename_i pair hpair
        refine made_create lib hmore (h.key_none hmissing) ?_ s
        simp [hpair]
    · exact hmore

def generatedPairs (history : List Start) : List KeyPair :=
  history.flatMap fun s => s.generated.toList

theorem made_foldl (history : List Start) (h : Made pairs d) :
    Made (pairs ++ generatedPairs history)
      (history.foldl (fun d s => (loadOrCreate lib s d).1) d) := by
  induction history generalizing pairs d with
  | nil => simpa [generatedPairs] using h
  | cons s history ih =>
      have hrest := ih (made_loadOrCreate lib h s)
      rwa [List.append_assoc] at hrest

theorem made_after (history : List Start) : Made (generatedPairs history) (after lib history) :=
  made_foldl lib history made_empty

/-- What the files hold. -/
def material (d : ServerFiles) : Option (TlsMaterial Key) :=
  (d .crt).bind fun crt => (lib.parseChain crt.contents).bind fun chain =>
    chain.head?.bind fun leaf => (d .key).bind fun f => (lib.parseKey f.contents).map fun key =>
      ⟨chain, key, lib.fingerprint leaf⟩

variable {lib}

theorem load_served {s : Start} {m : TlsMaterial Key} (h : load lib s d = .served m) :
    material lib d = some m := by
  unfold load at h
  split at h
  · cases h
  · rename_i crt hcrt
    split at h
    · cases h
    · split at h
      · cases h
      · cases h
      · rename_i leaf rest hchain
        split at h
        · cases h
        · rename_i key hkey
          cases h
          split at hkey
          · cases hkey
          · obtain ⟨f, hf, hkey⟩ := Option.bind_eq_some_iff.mp hkey
            simp [material, hcrt, hchain, hf, hkey]

theorem load_of_material {s : Start} {m : TlsMaterial Key} (hcrt : s.crtFails = false)
    (hkey : s.keyFails = false) (h : material lib d = some m) : load lib s d = .served m := by
  obtain ⟨crt, hfile, h⟩ := Option.bind_eq_some_iff.mp h
  obtain ⟨chain, hchain, h⟩ := Option.bind_eq_some_iff.mp h
  obtain ⟨leaf, hleaf, h⟩ := Option.bind_eq_some_iff.mp h
  obtain ⟨rest, rfl⟩ := List.head?_eq_some_iff.mp hleaf
  obtain ⟨f, hf, h⟩ := Option.bind_eq_some_iff.mp h
  obtain ⟨key, hparse, rfl⟩ := Option.map_eq_some_iff.mp h
  simp [load, hfile, hcrt, hchain, hkey, hf, hparse]

theorem both_of_material {m : TlsMaterial Key} (h : material lib d = some m) :
    ((d .crt).isNone || (d .key).isNone) = false := by
  obtain ⟨crt, hfile, h⟩ := Option.bind_eq_some_iff.mp h
  obtain ⟨chain, -, h⟩ := Option.bind_eq_some_iff.mp h
  obtain ⟨leaf, -, h⟩ := Option.bind_eq_some_iff.mp h
  obtain ⟨f, hf, -⟩ := Option.bind_eq_some_iff.mp h
  rw [hfile, hf]
  rfl

theorem create_loads (s : Start) (pair : KeyPair) (d : ServerFiles) :
    (create lib s pair d).2 = load lib s (create lib s pair d).1 ∨
      ∀ m, (create lib s pair d).2 ≠ .served m := by
  unfold create
  generalize writeAtomic s.mask d (.tmpCrt s.pid) .crt pair.certPem 0o644 s.writingCrt = crt
  obtain ⟨d', e⟩ := crt
  cases e with
  | failed => exact Or.inr nofun
  | crashed => exact Or.inr nofun
  | written =>
      dsimp only
      generalize writeAtomic s.mask d' (.tmpKey s.pid) .key pair.keyPem 0o600 s.writingKey = key
      obtain ⟨d'', e⟩ := key
      cases e with
      | failed => exact Or.inr nofun
      | crashed => exact Or.inr nofun
      | written => exact Or.inl rfl

variable (lib) in
theorem loadOrCreate_loads (s : Start) (d : ServerFiles) :
    (loadOrCreate lib s d).2 = load lib s (loadOrCreate lib s d).1 ∨
      ∀ m, (loadOrCreate lib s d).2 ≠ .served m := by
  unfold loadOrCreate
  split_ifs with hdir hmissing
  · exact Or.inr nofun
  · cases s.generated with
    | none => exact Or.inr nofun
    | some pair => exact create_loads s pair d
  · exact Or.inl rfl

theorem loadOrCreate_served {s : Start} {m : TlsMaterial Key}
    (h : (loadOrCreate lib s d).2 = .served m) :
    material lib (loadOrCreate lib s d).1 = some m := by
  rcases loadOrCreate_loads lib s d with hload | hnone
  · exact load_served (hload.symm.trans h)
  · exact absurd h (hnone m)

theorem loadOrCreate_both {m : TlsMaterial Key} (h : material lib d = some m) (s : Start) :
    (loadOrCreate lib s d).1 = d := by
  unfold loadOrCreate
  split
  · rfl
  · rw [both_of_material h]
    rfl

theorem served_same {m : TlsMaterial Key} (h : material lib d = some m) (history : List Start) :
    ∀ m' ∈ served lib d history, m = m' := by
  induction history with
  | nil => nofun
  | cons s history ih =>
      rw [served, loadOrCreate_both h]
      split
      · rename_i found hfound
        have hmaterial := loadOrCreate_served hfound
        rw [loadOrCreate_both h, h] at hmaterial
        exact List.forall_mem_cons.mpr ⟨Option.some.inj hmaterial, ih⟩
      · exact ih

theorem served_pairwise (d : ServerFiles) (history : List Start) :
    (served lib d history).Pairwise (· = ·) := by
  induction history generalizing d with
  | nil => exact List.Pairwise.nil
  | cons s history ih =>
      rw [served]
      split
      · rename_i m hm
        exact List.Pairwise.cons (served_same (loadOrCreate_served hm) history) (ih _)
      · exact ih _

/-- The certificate and the key of one generated pair. -/
structure MadeFrom (lib : CertLibrary Key) (p : KeyPair) (m : TlsMaterial Key) : Prop where
  chain : lib.parseChain p.certPem = some m.chain
  key : lib.parseKey p.keyPem = some m.key
  pin : m.chain.head?.map lib.fingerprint = some m.pin

theorem madeFrom_of_material (h : Made pairs d) {m : TlsMaterial Key}
    (hm : material lib d = some m) : ∃ p ∈ pairs, MadeFrom lib p m := by
  obtain ⟨crt, hfile, hm⟩ := Option.bind_eq_some_iff.mp hm
  obtain ⟨chain, hchain, hm⟩ := Option.bind_eq_some_iff.mp hm
  obtain ⟨leaf, hleaf, hm⟩ := Option.bind_eq_some_iff.mp hm
  obtain ⟨f, hf, hm⟩ := Option.bind_eq_some_iff.mp hm
  obtain ⟨key, hkey, rfl⟩ := Option.map_eq_some_iff.mp hm
  obtain ⟨p, hp, rfl, hcrt⟩ := h.key f hf
  rw [hcrt] at hfile
  cases hfile
  exact ⟨p, hp, hchain, hkey, by rw [hleaf]; rfl⟩

theorem served_madeFrom (history : List Start) (h : Made pairs d) :
    ∀ m ∈ served lib d history, ∃ p ∈ pairs ++ generatedPairs history, MadeFrom lib p m := by
  induction history generalizing pairs d with
  | nil => nofun
  | cons s history ih =>
      have hmade := made_loadOrCreate lib h s
      have hsplit : pairs ++ generatedPairs (s :: history) =
          pairs ++ s.generated.toList ++ generatedPairs history := by
        rw [List.append_assoc]
        rfl
      rw [served, hsplit]
      split
      · rename_i m hm
        refine List.forall_mem_cons.mpr ⟨?_, ih hmade⟩
        obtain ⟨p, hp, hfrom⟩ := madeFrom_of_material hmade (loadOrCreate_served hm)
        exact ⟨p, List.mem_append_left _ hp, hfrom⟩
      · exact ih hmade

theorem material_of_pair {p : KeyPair} (hreads : lib.Reads p)
    (hcrt : d .crt = some ⟨p.certPem, 0o644⟩) (hkey : d .key = some ⟨p.keyPem, 0o600⟩) :
    ∃ m, material lib d = some m := by
  obtain ⟨leaf, rest, key, hchain, hparse⟩ := hreads
  exact ⟨⟨leaf :: rest, key, lib.fingerprint leaf⟩, by
    simp [material, hcrt, hkey, hchain, hparse]⟩

theorem create_unstopped {s : Start} (hs : s.Unstopped) {pair : KeyPair} (hreads : lib.Reads pair)
    (d : ServerFiles) : ∃ m, (create lib s pair d).2 = .served m := by
  rw [create, hs.writingCrt, writeAtomic_none, hs.writingKey]
  dsimp only
  rw [writeAtomic_none]
  dsimp only
  obtain ⟨m, hm⟩ : ∃ m, material lib ((((d.put .crt (some ⟨pair.certPem, 0o644⟩)).put
      (.tmpCrt s.pid) none).put .key (some ⟨pair.keyPem, 0o600⟩)).put (.tmpKey s.pid) none) =
      some m :=
    material_of_pair hreads (by simp [put, Function.update]) (by simp [put, Function.update])
  exact ⟨m, load_of_material hs.crt hs.key hm⟩

theorem unstopped_serves (h : Made pairs d) {s : Start} (hs : s.Unstopped)
    (hreads : ∀ p ∈ pairs ++ s.generated.toList, lib.Reads p) :
    ∃ m, (loadOrCreate lib s d).2 = .served m := by
  obtain ⟨pair, hpair⟩ := Option.isSome_iff_exists.mp hs.generated
  rw [loadOrCreate, hs.dir, if_neg Bool.false_ne_true]
  split_ifs with hmissing
  · rw [hpair]
    exact create_unstopped hs (hreads pair (by simp [hpair])) d
  · cases hkey : d .key with
    | none => simp [hkey] at hmissing
    | some f =>
        obtain ⟨p, hp, rfl, hcrt⟩ := h.key f hkey
        obtain ⟨m, hm⟩ := material_of_pair (hreads p (List.mem_append_left _ hp)) hcrt hkey
        exact ⟨m, load_of_material hs.crt hs.key hm⟩

theorem writeAtomic_tmp {mask : ℕ} {tmp file : ServerFile} {bytes : List UInt8} {mode : ℕ}
    (stop : Option Interruption)
    (hend : (writeAtomic mask d tmp file bytes mode stop).2 ≠ .crashed)
    (hstop : ∀ n, stop ≠ some (.failure n false)) {other : ServerFile} (hother : other ≠ file)
    {f : ModedFile UInt8} (hf : (writeAtomic mask d tmp file bytes mode stop).1 other = some f) :
    d other = some f := by
  have hkeeps : ∀ d' : ServerFiles, d' other = d other → d'.put tmp none other = some f →
      d other = some f := by
    intro d' hsame h
    by_cases htmp : other = tmp
    · rw [htmp, put_self] at h
      cases h
    · rwa [put_of_ne _ htmp, hsame] at h
  rcases writeAtomic_cases mask d tmp file bytes mode stop with
    ⟨-, hd⟩ | ⟨-, hd⟩ | ⟨hcrash | ⟨-, n, hn⟩, -⟩
  · rw [hd] at hf
    exact hkeeps _ (put_of_ne _ hother _) hf
  · rw [hd] at hf
    exact hkeeps d rfl hf
  · exact absurd hcrash hend
  · exact absurd hn (hstop n)

theorem create_tmp {s : Start} (hs : s.Cleans) {pair : KeyPair}
    (h : (create lib s pair d).2 ≠ .killed) {file : ServerFile} (hcrt : file ≠ .crt)
    (hkey : file ≠ .key) {f : ModedFile UInt8} (hf : (create lib s pair d).1 file = some f) :
    d file = some f := by
  unfold create at h hf
  rcases hfirst : writeAtomic s.mask d (.tmpCrt s.pid) .crt pair.certPem 0o644 s.writingCrt with
    ⟨d', e⟩
  rw [hfirst] at h hf
  have hback : e ≠ .crashed → d' file = some f → d file = some f := fun hend hf' =>
    writeAtomic_tmp s.writingCrt (by rw [hfirst]; exact hend) hs.crt hcrt
      (by rw [hfirst]; exact hf')
  cases e with
  | failed => exact hback nofun hf
  | crashed => exact absurd rfl h
  | written =>
      refine hback nofun ?_
      dsimp only at h hf
      rcases hsecond : writeAtomic s.mask d' (.tmpKey s.pid) .key pair.keyPem 0o600
        s.writingKey with ⟨d'', e⟩
      rw [hsecond] at h hf
      have hback' : e ≠ .crashed → d'' file = some f → d' file = some f := fun hend hf' =>
        writeAtomic_tmp s.writingKey (by rw [hsecond]; exact hend) hs.key hkey
          (by rw [hsecond]; exact hf')
      cases e with
      | failed => exact hback' nofun hf
      | crashed => exact absurd rfl h
      | written => exact hback' nofun hf

theorem loadOrCreate_tmp {s : Start} (hs : s.Cleans)
    (h : (loadOrCreate lib s d).2 ≠ .killed) {file : ServerFile} (hcrt : file ≠ .crt)
    (hkey : file ≠ .key) {f : ModedFile UInt8} (hf : (loadOrCreate lib s d).1 file = some f) :
    d file = some f := by
  unfold loadOrCreate at h hf
  split_ifs at h hf with hdir hmissing
  · exact hf
  · cases hpair : s.generated with
    | none =>
        rw [hpair] at hf
        exact hf
    | some pair =>
        rw [hpair] at h hf
        exact create_tmp hs h hcrt hkey hf
  · exact hf

theorem Made.guarded (h : Made pairs d) {file : ServerFile} {f : ModedFile UInt8}
    (hf : d file = some f) :
    f.contents = [] ∨ f.mode = 0o600 ∨ ∃ p ∈ pairs, f.contents <+: p.certPem := by
  cases file with
  | crt =>
      obtain ⟨p, hp, rfl⟩ := h.crt f hf
      exact Or.inr (Or.inr ⟨p, hp, List.prefix_rfl⟩)
  | key =>
      obtain ⟨p, -, rfl, -⟩ := h.key f hf
      exact Or.inr (Or.inl rfl)
  | tmpCrt pid =>
      obtain ⟨p, hp, hprefix⟩ := h.tmpCrt pid f hf
      exact Or.inr (Or.inr ⟨p, hp, hprefix⟩)
  | tmpKey pid =>
      rcases h.tmpKey pid f hf with hempty | hmode
      · exact Or.inl hempty
      · exact Or.inr (Or.inl hmode)

/-- Over any starts, failed and killed ones among them, everything served is one certificate
with its key, both of one generated pair; key bytes are never under another mode than 0600; a
start that nothing stops serves; and only one that is killed, or that cannot clean up, leaves a
temporary file behind. -/
theorem certificate_survives (lib : CertLibrary Key) (history : List Start)
    (hreads : ∀ p ∈ generatedPairs history, lib.Reads p) :
    (served lib (fun _ => none) history).Pairwise (· = ·) ∧
    (∀ m ∈ served lib (fun _ => none) history,
      ∃ p ∈ generatedPairs history, MadeFrom lib p m) ∧
    (∀ file f, after lib history file = some f → f.contents = [] ∨ f.mode = 0o600 ∨
      ∃ p ∈ generatedPairs history, f.contents <+: p.certPem) ∧
    (∀ s : Start, s.Unstopped → (∀ p, s.generated = some p → lib.Reads p) →
      ∃ m, (loadOrCreate lib s (after lib history)).2 = .served m) ∧
    ∀ s : Start, s.Cleans → (loadOrCreate lib s (after lib history)).2 ≠ .killed →
      ∀ file, file ≠ .crt → file ≠ .key → ∀ f,
        (loadOrCreate lib s (after lib history)).1 file = some f →
          after lib history file = some f := by
  have hmade := made_after lib history
  refine ⟨served_pairwise _ history, served_madeFrom history made_empty,
    fun file f hf => hmade.guarded hf, fun s hs hown => ?_,
    fun s hs h file hcrt hkey f hf => loadOrCreate_tmp hs h hcrt hkey hf⟩
  refine unstopped_serves hmade hs fun p hp => ?_
  rcases List.mem_append.mp hp with hp | hp
  · exact hreads p hp
  · exact hown p (by simpa using hp)

/-- Texts that are what they say. -/
def plainLibrary : CertLibrary (List UInt8) where
  parseChain bytes := if bytes = [] then some [] else some [bytes]
  parseKey bytes := if bytes = [] then none else some bytes
  fingerprint _ := ⟨List.replicate 32 0, by simp⟩

/-- The first start is killed in the key, the second fails there and leaves its temporary file,
the third serves. -/
def restarts : List Start :=
  [⟨7, 0o022, false, some ⟨[1], [2, 2]⟩, none, some (.crash 3), false, false⟩,
    ⟨8, 0o022, false, some ⟨[3], [4]⟩, none, some (.failure 2 false), false, false⟩,
    ⟨9, 0o022, false, some ⟨[5], [6]⟩, none, none, false, false⟩,
    ⟨10, 0o022, false, none, none, none, false, false⟩]

theorem restarts_read : ∀ p ∈ generatedPairs restarts, plainLibrary.Reads p := by
  intro p hp
  have hpairs : generatedPairs restarts = [⟨[1], [2, 2]⟩, ⟨[3], [4]⟩, ⟨[5], [6]⟩] := rfl
  rw [hpairs] at hp
  simp only [List.mem_cons, List.not_mem_nil, or_false] at hp
  rcases hp with rfl | rfl | rfl
  · exact ⟨[1], [], [2, 2], rfl, rfl⟩
  · exact ⟨[3], [], [4], rfl, rfl⟩
  · exact ⟨[5], [], [6], rfl, rfl⟩

/-- A start that fails in the key and cleans up. -/
def failingStart : Start :=
  ⟨11, 0o022, false, some ⟨[7], [8]⟩, none, some (.failure 2 true), false, false⟩

theorem failingStart_cleans : failingStart.Cleans where
  crt _ := nofun
  key n h := by cases h

/-- The last start serves what the third one made, and a failing one before it leaves nothing. -/
theorem certificate_survives_restarts :
    (served plainLibrary (fun _ => none) restarts).map (fun m => (m.chain, m.key)) =
      [([[5]], [6]), ([[5]], [6])] ∧
    (served plainLibrary (fun _ => none) restarts).Pairwise (· = ·) ∧
    (∃ m, (loadOrCreate plainLibrary { failingStart with writingKey := none }
      (after plainLibrary restarts)).2 = .served m) ∧
    (loadOrCreate plainLibrary failingStart (after plainLibrary (restarts.take 2))).1
      (.tmpKey 11) = none := by
  obtain ⟨hsame, -, -, hserves, -⟩ := certificate_survives plainLibrary restarts restarts_read
  have hread : ∀ p ∈ generatedPairs (restarts.take 2), plainLibrary.Reads p :=
    fun p hp => restarts_read p (List.mem_of_mem_take (i := 2) (by exact hp))
  obtain ⟨-, -, -, -, hcleans⟩ := certificate_survives plainLibrary (restarts.take 2) hread
  refine ⟨by decide +kernel, hsame, ?_, ?_⟩
  · refine hserves _ ⟨rfl, rfl, rfl, rfl, rfl, rfl⟩ fun p hp => ?_
    cases hp
    exact ⟨[7], [], [8], rfl, rfl⟩
  · have habsent : after plainLibrary (restarts.take 2) (.tmpKey 11) = none := by decide +kernel
    have hfailed : (loadOrCreate plainLibrary failingStart
        (after plainLibrary (restarts.take 2))).2 = .failed (.writing .key) := by
      decide +kernel
    refine Option.eq_none_iff_forall_ne_some.mpr fun f hf => ?_
    have hbefore := hcleans failingStart failingStart_cleans (by rw [hfailed]; nofun)
      (.tmpKey 11) nofun nofun f hf
    rw [habsent] at hbefore
    cases hbefore

end CertBoot
end Aegis

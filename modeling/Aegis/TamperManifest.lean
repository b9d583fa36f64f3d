import Mathlib.Data.List.Basic
import Mathlib.Tactic.SplitIfs

/-!
# The baseline manifest of the protected files

`manifest.rs` of the tamper plugin. Recording opens each path, which follows a
symbolic link at its end; checking looks at the path itself, where a link is
drift. So a link that is recorded is reported from then on, and nothing else is
reported without a change. The digest is a parameter.
-/

namespace Aegis

/-- How far a regular file can be read. -/
inductive Access where
  | full
  | openFails
  | readFails
  deriving DecidableEq, Repr

/-- What is at the end of a path. -/
inductive FileNode (π : Type) where
  | regular (bytes : List UInt8) (access : Access)
  | symlink (target : π)
  | directory (len : ℕ)
  deriving DecidableEq, Repr

/-- The paths that lead somewhere, links at their ends not followed. -/
abbrev FileTree (π : Type) : Type := π → Option (FileNode π)

inductive ReadError where
  | notFound
  | tooManyLinks
  | denied
  | isDirectory
  | failed
  deriving DecidableEq, Repr

namespace FileTree
variable {π : Type} (fs : FileTree π)

/-- Links followed when a path is opened. -/
def maxLinks : ℕ := 40

/-- The file or directory that opening a path leads to. -/
def follow : ℕ → π → Except ReadError (FileNode π)
  | fuel, path => match fs path with
    | none => .error .notFound
    | some (.symlink target) => match fuel with
      | 0 => .error .tooManyLinks
      | fuel + 1 => follow fuel target
    | some node => .ok node

def openFile (path : π) : Except ReadError (FileNode π) :=
  match follow fs maxLinks path with
  | .ok (.regular _ .openFails) => .error .denied
  | r => r

/-- Reads an open file to its end. -/
def readToEnd : FileNode π → Except ReadError (List UInt8)
  | .regular bytes .full => .ok bytes
  | .regular _ _ => .error .failed
  | _ => .error .isDirectory

/-- What a path is read as, through any links. -/
def readThrough (path : π) : Except ReadError (List UInt8) := (openFile fs path).bind readToEnd

/-- A regular file at the path itself, with these bytes to read. -/
def HoldsFile (path : π) (bytes : List UInt8) : Prop := fs path = some (.regular bytes .full)

end FileTree

structure ManifestEntry (π : Type) where
  path : π
  sha256 : String
  len : ℕ
  deriving DecidableEq, Repr

structure Manifest (π : Type) where
  createdNs : UInt64
  entries : List (ManifestEntry π)
  deriving DecidableEq, Repr

inductive DriftKind where
  | ok
  | missing
  | sizeChanged
  | contentChanged
  deriving DecidableEq, Repr

def DriftKind.isDrift : DriftKind → Bool
  | .ok => false
  | _ => true

def DriftKind.label : DriftKind → String
  | .ok => "ok"
  | .missing => "missing"
  | .sizeChanged => "size changed"
  | .contentChanged => "content changed"

namespace Manifest
variable {π : Type} (hashBytes : List UInt8 → String)
open FileTree

/-- The length in the metadata of what is open. -/
def openLen : FileNode π → ℕ
  | .regular bytes _ => bytes.length
  | .directory len => len
  | .symlink _ => 0

def hashReader (file : FileNode π) : Except ReadError String := (readToEnd file).map hashBytes

/-- The baseline of one path. -/
def record (fs : FileTree π) (path : π) :
    Except ReadError (ManifestEntry π) := do
  let file ← openFile fs path
  let len := openLen file
  let sha256 ← hashReader hashBytes file
  pure ⟨path, sha256, len⟩

def recordAll (fs : FileTree π) :
    List π → Except ReadError (List (ManifestEntry π))
  | [] => .ok []
  | path :: paths => do
      let entry ← record hashBytes fs path
      let entries ← recordAll fs paths
      pure (entry :: entries)

def fromPaths (fs : FileTree π) (now : UInt64) (paths : List π) :
    Except ReadError (Manifest π) := do
  let entries ← recordAll hashBytes fs paths
  pure ⟨now, entries⟩

def verifyEntry (fs : FileTree π) (entry : ManifestEntry π) : DriftKind :=
  match fs entry.path with
  | none => .missing
  | some (.regular bytes _) =>
      if bytes.length ≠ entry.len then .sizeChanged
      else match openFile fs entry.path with
        | .error _ => .missing
        | .ok file => match hashReader hashBytes file with
          | .ok digest => if digest = entry.sha256 then .ok else .contentChanged
          | .error _ => .missing
  -- a directory or a link where a regular file was recorded is drift
  | some _ => .sizeChanged

def verify (fs : FileTree π) (m : Manifest π) : List (π × DriftKind) :=
  m.entries.map fun entry => (entry.path, verifyEntry hashBytes fs entry)

/-- Title and text of the alerts that one round of the tamper loop raises for drift. -/
def integrityAlerts (render : π → String) (fs : FileTree π) (m : Manifest π) :
    List (String × String) :=
  ((verify hashBytes fs m).filter fun r => r.2.isDrift).map fun r =>
    ("Tamper detected (integrity)", "protected file " ++ render r.1 ++ ": " ++ r.2.label)

variable {hashBytes} {fs : FileTree π}

theorem follow_of_regular {path : π} {bytes : List UInt8} {access : Access}
    (h : fs path = some (.regular bytes access)) (fuel : ℕ) :
    follow fs fuel path = .ok (.regular bytes access) := by
  cases fuel with
  | zero => rw [follow, h]
  | succ fuel => rw [follow, h]

theorem openFile_of_regular {path : π} {bytes : List UInt8}
    (h : fs path = some (.regular bytes .full)) :
    openFile fs path = .ok (.regular bytes .full) := by
  rw [openFile, follow_of_regular h]

theorem readToEnd_ok_iff {file : FileNode π} {bytes : List UInt8} :
    readToEnd file = .ok bytes ↔ file = .regular bytes .full := by
  cases file with
  | regular content access => cases access <;> simp [readToEnd]
  | symlink target => simp [readToEnd]
  | directory len => simp [readToEnd]

theorem hashReader_ok {file : FileNode π} {digest : String}
    (h : hashReader hashBytes file = .ok digest) :
    ∃ bytes, file = .regular bytes .full ∧ digest = hashBytes bytes := by
  rw [hashReader] at h
  cases hread : readToEnd file with
  | error e =>
      rw [hread] at h
      cases h
  | ok bytes =>
      rw [hread] at h
      cases h
      exact ⟨bytes, readToEnd_ok_iff.mp hread, rfl⟩

theorem readThrough_of_regular {path : π} {bytes content : List UInt8} {access : Access}
    (h : fs path = some (.regular content access)) (hread : fs.readThrough path = .ok bytes) :
    content = bytes ∧ access = .full := by
  rw [readThrough, openFile, follow_of_regular h] at hread
  cases access with
  | full =>
      cases hread
      exact ⟨rfl, rfl⟩
  | openFails => cases hread
  | readFails => cases hread

/-- An entry checks out for a regular file at its path with the length and the digest. -/
theorem verifyEntry_ok_iff {entry : ManifestEntry π} :
    verifyEntry hashBytes fs entry = .ok ↔
      ∃ bytes, fs.HoldsFile entry.path bytes ∧ bytes.length = entry.len ∧
        hashBytes bytes = entry.sha256 := by
  rw [verifyEntry]
  cases hnode : fs entry.path with
  | none => simp [HoldsFile, hnode]
  | some node =>
      cases node with
      | symlink target => simp [HoldsFile, hnode]
      | directory len => simp [HoldsFile, hnode]
      | regular bytes access =>
          dsimp only
          cases access with
          | full =>
              rw [openFile_of_regular hnode]
              simp only [hashReader, readToEnd, Except.map, HoldsFile, hnode, Option.some.injEq,
                FileNode.regular.injEq, and_true]
              split_ifs with hlen hdigest
              · simp [hlen]
              · simp [not_not.mp hlen, hdigest]
              · simp [not_not.mp hlen, hdigest]
          | openFails =>
              rw [openFile, follow_of_regular hnode]
              simp only [HoldsFile, hnode]
              split_ifs
              · simp
              · simp
          | readFails =>
              rw [openFile, follow_of_regular hnode]
              simp only [HoldsFile, hnode, hashReader, readToEnd, Except.map]
              split_ifs
              · simp
              · simp

theorem verifyEntry_of_symlink {entry : ManifestEntry π} {target : π}
    (h : fs entry.path = some (.symlink target)) :
    verifyEntry hashBytes fs entry = .sizeChanged := by
  rw [verifyEntry, h]

theorem record_ok {path : π} {entry : ManifestEntry π} (h : record hashBytes fs path = .ok entry) :
    ∃ bytes, fs.readThrough path = .ok bytes ∧ entry = ⟨path, hashBytes bytes, bytes.length⟩ := by
  rw [record] at h
  cases hopen : openFile fs path with
  | error e =>
      rw [hopen] at h
      cases h
  | ok file =>
      rw [hopen] at h
      cases hhash : hashReader hashBytes file with
      | error e => simp [bind, Except.bind, hhash] at h
      | ok digest =>
          obtain ⟨bytes, rfl, rfl⟩ := hashReader_ok hhash
          simp only [bind, Except.bind, hhash, pure, Except.pure, Except.ok.injEq] at h
          exact ⟨bytes, by rw [readThrough, hopen]; rfl, h.symm⟩

theorem recordAll_ok {paths : List π} {entries : List (ManifestEntry π)}
    (h : recordAll hashBytes fs paths = .ok entries) :
    List.Forall₂ (fun path entry => record hashBytes fs path = .ok entry) paths entries := by
  induction paths generalizing entries with
  | nil =>
      cases h
      exact .nil
  | cons path paths ih =>
      rw [recordAll] at h
      cases hrecord : record hashBytes fs path with
      | error e => simp [bind, Except.bind, hrecord] at h
      | ok entry =>
          cases hrest : recordAll hashBytes fs paths with
          | error e => simp [bind, Except.bind, hrecord, hrest] at h
          | ok rest =>
              simp only [bind, Except.bind, hrecord, hrest, pure, Except.pure,
                Except.ok.injEq] at h
              rw [← h]
              exact .cons hrecord (ih hrest)

theorem fromPaths_ok {now : UInt64} {paths : List π} {m : Manifest π}
    (h : fromPaths hashBytes fs now paths = .ok m) :
    List.Forall₂ (fun path entry => record hashBytes fs path = .ok entry) paths m.entries := by
  rw [fromPaths] at h
  cases hrecord : recordAll hashBytes fs paths with
  | error e => simp [bind, Except.bind, hrecord] at h
  | ok entries =>
      simp only [bind, Except.bind, hrecord, pure, Except.pure, Except.ok.injEq] at h
      rw [← h]
      exact recordAll_ok hrecord

/-- No two files, one in each of two states, share a digest. -/
def CollisionFree (hashBytes : List UInt8 → String) (fs later : FileTree π) : Prop :=
  ∀ p q a b, fs.HoldsFile p a → later.HoldsFile q b → hashBytes a = hashBytes b → a = b

/-- Nothing is reported without a change, and in a later state all is well with an entry
exactly if its path is a readable regular file with the recorded bytes. -/
def Exact (hashBytes : List UInt8 → String) (fs : FileTree π) (m : Manifest π) : Prop :=
  (∀ r ∈ verify hashBytes fs m, r.2 = .ok) ∧
    ∀ later : FileTree π, CollisionFree hashBytes fs later → ∀ entry ∈ m.entries, ∀ bytes,
      fs.readThrough entry.path = .ok bytes →
        (verifyEntry hashBytes later entry = .ok ↔ later.HoldsFile entry.path bytes)

theorem follow_regular {fuel : ℕ} {path : π} {bytes : List UInt8} {access : Access}
    (h : follow fs fuel path = .ok (.regular bytes access)) :
    ∃ p, fs p = some (.regular bytes access) := by
  induction fuel generalizing path with
  | zero =>
      rw [follow] at h
      split at h
      · cases h
      · cases h
      · rename_i node _ hnode
        cases h
        exact ⟨path, hnode⟩
  | succ fuel ih =>
      rw [follow] at h
      split at h
      · cases h
      · exact ih h
      · rename_i node _ hnode
        cases h
        exact ⟨path, hnode⟩

theorem holdsFile_of_readThrough {path : π} {bytes : List UInt8}
    (h : fs.readThrough path = .ok bytes) : ∃ p, fs.HoldsFile p bytes := by
  rw [readThrough, openFile] at h
  cases hfollow : follow fs maxLinks path with
  | error e =>
      rw [hfollow] at h
      cases h
  | ok node =>
      rw [hfollow] at h
      cases node with
      | symlink target => cases h
      | directory len => cases h
      | regular content access =>
          cases access with
          | full =>
              cases h
              exact follow_regular hfollow
          | openFails => cases h
          | readFails => cases h

/-- Whatever was recorded, later states are judged by the recorded bytes. -/
theorem verifyEntry_later {later : FileTree π} (hfree : CollisionFree hashBytes fs later)
    {path : π} {entry : ManifestEntry π} (hrecord : record hashBytes fs path = .ok entry)
    {bytes : List UInt8} (hread : fs.readThrough entry.path = .ok bytes) :
    verifyEntry hashBytes later entry = .ok ↔ later.HoldsFile entry.path bytes := by
  obtain ⟨recorded, hrecorded, rfl⟩ := record_ok hrecord
  have hsame : recorded = bytes := by
    rw [hrecorded] at hread
    exact Except.ok.inj hread
  subst hsame
  obtain ⟨p, hp⟩ := holdsFile_of_readThrough hrecorded
  rw [verifyEntry_ok_iff]
  constructor
  · rintro ⟨now, hnow, -, hdigest⟩
    rw [hfree p path recorded now hp hnow hdigest.symm]
    exact hnow
  · exact fun h => ⟨recorded, h, rfl, rfl⟩

theorem verifyEntry_unchanged {path : π} {entry : ManifestEntry π}
    (hrecord : record hashBytes fs path = .ok entry) :
    verifyEntry hashBytes fs entry = .ok ↔
      ∃ bytes access, fs path = some (.regular bytes access) := by
  obtain ⟨recorded, hrecorded, rfl⟩ := record_ok hrecord
  rw [verifyEntry_ok_iff]
  constructor
  · rintro ⟨bytes, hholds, -⟩
    exact ⟨bytes, .full, hholds⟩
  · rintro ⟨bytes, access, hnode⟩
    obtain ⟨rfl, rfl⟩ := readThrough_of_regular hnode hrecorded
    exact ⟨bytes, hnode, rfl, rfl⟩

theorem recorded_of_mem {paths : List π} {entries : List (ManifestEntry π)}
    (h : List.Forall₂ (fun path entry => record hashBytes fs path = .ok entry) paths entries)
    {entry : ManifestEntry π} (hentry : entry ∈ entries) :
    ∃ path, record hashBytes fs path = .ok entry := by
  induction h with
  | nil => cases hentry
  | cons hrecord _ ih =>
      rcases List.mem_cons.mp hentry with rfl | hentry
      · exact ⟨_, hrecord⟩
      · exact ih hentry

theorem verify_unchanged {paths : List π} {entries : List (ManifestEntry π)}
    (h : List.Forall₂ (fun path entry => record hashBytes fs path = .ok entry) paths entries) :
    (∀ entry ∈ entries, verifyEntry hashBytes fs entry = .ok) ↔
      ∀ path ∈ paths, ∃ bytes access, fs path = some (.regular bytes access) := by
  induction h with
  | nil => simp
  | cons hrecord _ ih =>
      rw [List.forall_mem_cons, List.forall_mem_cons, ih, verifyEntry_unchanged hrecord]

theorem forall_verify {m : Manifest π} :
    (∀ r ∈ verify hashBytes fs m, r.2 = .ok) ↔
      ∀ entry ∈ m.entries, verifyEntry hashBytes fs entry = .ok := by
  rw [verify, List.forall_mem_map]

/-- The alerts of the tamper loop follow the verdicts. -/
theorem integrityAlerts_eq_nil_iff {render : π → String} {m : Manifest π} :
    integrityAlerts hashBytes render fs m = [] ↔ ∀ r ∈ verify hashBytes fs m, r.2 = .ok := by
  rw [integrityAlerts, List.map_eq_nil_iff, List.filter_eq_nil_iff]
  apply forall₂_congr
  intro r _
  cases r.2 <;> simp [DriftKind.isDrift]

/-- A link that was recorded is alerted in every round, as long as it stays. -/
theorem integrityAlerts_of_symlink {m : Manifest π} {entry : ManifestEntry π} {target : π}
    (hentry : entry ∈ m.entries) (h : fs entry.path = some (.symlink target))
    (render : π → String) :
    ("Tamper detected (integrity)",
      "protected file " ++ render entry.path ++ ": " ++ "size changed") ∈
        integrityAlerts hashBytes render fs m := by
  have hverdict : verifyEntry hashBytes fs entry = .sizeChanged := verifyEntry_of_symlink h
  refine List.mem_map.mpr ⟨(entry.path, .sizeChanged), List.mem_filter.mpr ⟨?_, rfl⟩, rfl⟩
  rw [← hverdict]
  exact List.mem_map_of_mem hentry

/-- While nothing changes, the tamper loop is silent exactly if no link was recorded. -/
theorem integrityAlerts_unchanged {now : UInt64} {paths : List π} {m : Manifest π}
    (h : fromPaths hashBytes fs now paths = .ok m) (render : π → String) :
    integrityAlerts hashBytes render fs m = [] ↔
      ∀ path ∈ paths, ∃ bytes access, fs path = some (.regular bytes access) := by
  rw [integrityAlerts_eq_nil_iff, forall_verify, verify_unchanged (fromPaths_ok h)]

/-- Verification is exact exactly if every recorded path is itself a regular file. -/
theorem fromPaths_exact_iff {now : UInt64} {paths : List π} {m : Manifest π}
    (h : fromPaths hashBytes fs now paths = .ok m) :
    Exact hashBytes fs m ↔
      ∀ path ∈ paths, ∃ bytes access, fs path = some (.regular bytes access) := by
  have hentries := fromPaths_ok h
  rw [Exact, forall_verify, verify_unchanged hentries]
  constructor
  · exact fun hexact => hexact.1
  · intro hregular
    refine ⟨hregular, ?_⟩
    intro later hfree entry hentry bytes hread
    obtain ⟨path, hrecord⟩ := recorded_of_mem hentries hentry
    exact verifyEntry_later hfree hrecord hread

/-- The bytes as characters, which no two contents share. -/
def plainDigest (bytes : List UInt8) : String :=
  String.ofList (bytes.map fun b => Char.ofNat b.toNat)

/-- A program behind a link, as package managers install alternatives. -/
def linkedProgram : FileTree String
  | "/usr/sbin/aegis-agent" => some (.symlink "/opt/aegis/agent-1.4")
  | "/opt/aegis/agent-1.4" => some (.regular [127, 69, 76, 70] .full)
  | _ => none

theorem fromPaths_exact_iff_linked :
    (fromPaths plainDigest linkedProgram 0 ["/opt/aegis/agent-1.4"]).isOk = true ∧
      Exact plainDigest linkedProgram
        ⟨0, [⟨"/opt/aegis/agent-1.4", plainDigest [127, 69, 76, 70], 4⟩]⟩ := by
  have h : fromPaths plainDigest linkedProgram 0 ["/opt/aegis/agent-1.4"] =
      .ok ⟨0, [⟨"/opt/aegis/agent-1.4", plainDigest [127, 69, 76, 70], 4⟩]⟩ := by
    decide +kernel
  refine ⟨by rw [h]; rfl, (fromPaths_exact_iff h).mpr ?_⟩
  intro path hpath
  rw [List.mem_singleton.mp hpath]
  exact ⟨[127, 69, 76, 70], .full, rfl⟩

/-- The manifest of a link is written, and the unchanged link is reported as drift. -/
theorem linkedProgram_reported :
    fromPaths plainDigest linkedProgram 0 ["/usr/sbin/aegis-agent"] =
        .ok ⟨0, [⟨"/usr/sbin/aegis-agent", plainDigest [127, 69, 76, 70], 4⟩]⟩ ∧
      verify plainDigest linkedProgram
          ⟨0, [⟨"/usr/sbin/aegis-agent", plainDigest [127, 69, 76, 70], 4⟩]⟩ =
        [("/usr/sbin/aegis-agent", .sizeChanged)] ∧
      ¬ Exact plainDigest linkedProgram
        ⟨0, [⟨"/usr/sbin/aegis-agent", plainDigest [127, 69, 76, 70], 4⟩]⟩ := by
  have hverify : verify plainDigest linkedProgram
      ⟨0, [⟨"/usr/sbin/aegis-agent", plainDigest [127, 69, 76, 70], 4⟩]⟩ =
        [("/usr/sbin/aegis-agent", .sizeChanged)] := by decide +kernel
  refine ⟨by decide +kernel, hverify, ?_⟩
  intro hexact
  have hok := hexact.1
  rw [hverify] at hok
  exact absurd (hok _ (List.mem_singleton_self _)) (by decide)

end Manifest
end Aegis

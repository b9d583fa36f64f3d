import Aegis.CommandStats
import Aegis.FileEffects
import Mathlib.Data.List.DropRight

/-!
# The enrollment identity on disk

`identity.json` with the agent's id and the pins of the server, and the seed of
its signing key in a file of its own. `serde_json` and the hexadecimal codec are
parameters.
-/

namespace Aegis

inductive DataFile where
  | identityFile
  | keyFile
  deriving DecidableEq, Repr

def DataFile.name : DataFile → String
  | .identityFile => "identity.json"
  | .keyFile => "agent_ed25519.key"

structure IdentityFile where
  agentId : String
  serverPins : List String
  enrolledAtNs : UInt64
  deriving DecidableEq

/-- A pin, or the seed of a signing key. -/
structure Bytes32 where
  bytes : List UInt8
  length_eq : bytes.length = 32
  deriving DecidableEq

def Bytes32.ofBytes (bytes : List UInt8) : Option Bytes32 :=
  if h : bytes.length = 32 then some ⟨bytes, h⟩ else none

theorem Bytes32.ofBytes_bytes (b : Bytes32) : ofBytes b.bytes = some b :=
  dif_pos b.length_eq

theorem Bytes32.ofBytes_take {bytes : List UInt8} {n : ℕ} (h : n < 32) :
    ofBytes (bytes.take n) = none :=
  dif_neg (by rw [List.length_take]; omega)

structure Enrolled where
  agentId : String
  signingKey : Bytes32
  serverPins : List Bytes32
  deriving DecidableEq

/-- What `load` reports, with the file or the pin that its message names. -/
inductive LoadError where
  | reading (file : DataFile)
  | parsing (file : DataFile)
  | notASeed (file : DataFile)
  | pinNotHex (i : ℕ)
  | noServerPins
  deriving DecidableEq

def LoadError.display (dataDir : String) : LoadError → String
  | .reading file => "reading " ++ dataDir ++ "/" ++ file.name
  | .parsing file => "parsing " ++ dataDir ++ "/" ++ file.name
  | .notASeed file => dataDir ++ "/" ++ file.name ++ " is not a 32-byte Ed25519 seed"
  | .pinNotHex i => "server_pins[" ++ toString i ++ "] is not 64-char hex"
  | .noServerPins => "identity.json has no server pins"

structure IdentityCodec where
  toVecPretty : IdentityFile → List UInt8
  fromStr : String → Option IdentityFile
  hexEncode : List UInt8 → String
  hexDecode : String → Option (List UInt8)

/-- `str::trim`. -/
def trim (s : String) : String :=
  String.ofList ((s.toList.dropWhile isWhitespace).rdropWhile isWhitespace)

theorem trim_eq_self {s : String} (h : ∀ ch ∈ s.toList, isWhitespace ch = false) :
    trim s = s := by
  have hfront : s.toList.dropWhile isWhitespace = s.toList :=
    List.dropWhile_eq_self_iff.mpr fun hl => by simpa using h _ (List.getElem_mem hl)
  have hback : s.toList.rdropWhile isWhitespace = s.toList :=
    List.rdropWhile_eq_self_iff.mpr fun hl => by simpa using h _ (List.getLast_mem hl)
  rw [trim, hfront, hback, String.ofList_toList]

/-- `fs::read_to_string`, on the bytes of the file. -/
def readToString (bytes : List UInt8) : Option String :=
  String.fromUTF8? ⟨bytes.toArray⟩

/-- The printed file reads back, and no beginning of it reads as a file. -/
structure IdentityCodec.Reads (c : IdentityCodec) (file : IdentityFile) : Prop where
  whole : (readToString (c.toVecPretty file)).bind c.fromStr = some file
  torn : ∀ n < (c.toVecPretty file).length,
    (readToString ((c.toVecPretty file).take n)).bind c.fromStr = none

/-- Decoding inverts encoding, into lowercase digits. -/
structure IdentityCodec.Hex (c : IdentityCodec) : Prop where
  decode : ∀ bytes, c.hexDecode (c.hexEncode bytes) = some bytes
  digits : ∀ bytes, ∀ ch ∈ (c.hexEncode bytes).toList, ch ∈ "0123456789abcdef".toList

namespace Identity
variable (c : IdentityCodec)

def parsePinHex (s : String) : Option Bytes32 :=
  (c.hexDecode (trim s)).bind Bytes32.ofBytes

/-- The pins one after the other, the first of them at index `i`. -/
def parsePins (i : ℕ) : List String → Except LoadError (List Bytes32)
  | [] => .ok []
  | p :: ps => do
      let some pin := parsePinHex c p | throw (.pinNotHex i)
      let pins ← parsePins (i + 1) ps
      return pin :: pins

def load (files : Files DataFile UInt8) : Except LoadError (Option Enrolled) := do
  let some bytes := files .identityFile | return none
  let some text := readToString bytes | throw (.reading .identityFile)
  let some parsed := c.fromStr text | throw (.parsing .identityFile)
  let some seed := files .keyFile | throw (.reading .keyFile)
  let some signingKey := Bytes32.ofBytes seed | throw (.notASeed .keyFile)
  let serverPins ← parsePins c 0 parsed.serverPins
  if serverPins.isEmpty then throw .noServerPins
  return some ⟨parsed.agentId, signingKey, serverPins⟩

def identityFile (e : Enrolled) (now : UInt64) : IdentityFile where
  agentId := e.agentId
  serverPins := e.serverPins.map fun pin => c.hexEncode pin.bytes
  enrolledAtNs := now

/-- What persisting the identity does to the files. -/
def persist (e : Enrolled) (now : UInt64) : List (FileEffect DataFile UInt8) :=
  rewrite .identityFile (c.toVecPretty (identityFile c e now)) ++
    rewrite .keyFile e.signingKey.bytes

/-- The files that these persists leave, the one after the other. -/
def persisted (history : List (Enrolled × UInt64)) : Files DataFile UInt8 :=
  history.foldl (fun files p => files.run (persist c p.1 p.2)) fun _ => none

/-- What the call returns is the one identity or the other. -/
def Whole (old : Option Enrolled) (new : Enrolled) (r : Except LoadError (Option Enrolled)) :
    Prop :=
  ∀ e, r = .ok (some e) → old = some e ∨ e = new

variable {c}

theorem parsePinHex_encode (hhex : c.Hex) (pin : Bytes32) :
    parsePinHex c (c.hexEncode pin.bytes) = some pin := by
  have hspace : "0123456789abcdef".toList.all (fun ch => !isWhitespace ch) = true := by decide
  have htrim : trim (c.hexEncode pin.bytes) = c.hexEncode pin.bytes :=
    trim_eq_self fun ch hch => by
      simpa using List.all_eq_true.mp hspace ch (hhex.digits pin.bytes ch hch)
  rw [parsePinHex, htrim, hhex.decode, Option.bind_some, Bytes32.ofBytes_bytes]

theorem parsePins_encode (hhex : c.Hex) (pins : List Bytes32) (i : ℕ) :
    parsePins c i (pins.map fun pin => c.hexEncode pin.bytes) = .ok pins := by
  induction pins generalizing i with
  | nil => rfl
  | cons pin pins ih =>
      simp only [List.map_cons, parsePins, parsePinHex_encode hhex, ih]
      rfl

theorem load_files (hhex : c.Hex) {e : Enrolled} {now : UInt64}
    (hreads : c.Reads (identityFile c e now)) {files : Files DataFile UInt8}
    (hfile : files .identityFile = some (c.toVecPretty (identityFile c e now)))
    {key : Bytes32} (hkey : files .keyFile = some key.bytes) :
    load c files =
      if e.serverPins = [] then .error .noServerPins
      else .ok (some { e with signingKey := key }) := by
  obtain ⟨text, htext, hparsed⟩ := Option.bind_eq_some_iff.mp hreads.whole
  have hpins : parsePins c 0 (identityFile c e now).serverPins = .ok e.serverPins :=
    parsePins_encode hhex e.serverPins 0
  simp only [load, hfile, htext, hparsed, hkey, Bytes32.ofBytes_bytes, hpins]
  by_cases hnil : e.serverPins = []
  · rw [if_pos hnil]
    simp [hnil, bind, Except.bind, throw, throwThe, MonadExceptOf.throw]
  · rw [if_neg hnil]
    simp [hnil, bind, Except.bind, identityFile, pure, Except.pure]

theorem load_absent {files : Files DataFile UInt8} (h : files .identityFile = none) :
    load c files = .ok none := by
  simp only [load, h]
  rfl

theorem load_some {files : Files DataFile UInt8} {e : Enrolled}
    (h : load c files = .ok (some e)) :
    ∃ bytes seed, files .identityFile = some bytes ∧
      ((readToString bytes).bind c.fromStr).isSome ∧ files .keyFile = some seed ∧
      Bytes32.ofBytes seed = some e.signingKey := by
  unfold load at h
  split at h
  · rename_i bytes hfile
    split at h
    · rename_i text htext
      split at h
      · rename_i parsed hparsed
        split at h
        · rename_i seed hseed
          split at h
          · rename_i key hkey
            refine ⟨bytes, seed, hfile, by simp [htext, hparsed], hseed, ?_⟩
            cases hpins : parsePins c 0 parsed.serverPins with
            | error err => simp [hpins, bind, Except.bind] at h
            | ok pins =>
                cases pins with
                | nil =>
                    simp [hpins, bind, Except.bind, throw, throwThe, MonadExceptOf.throw] at h
                | cons pin pins =>
                    simp only [hpins, bind, Except.bind, List.isEmpty_cons, Bool.false_eq_true,
                      if_false, pure, Except.pure, Except.ok.injEq, Option.some.injEq] at h
                    rw [← h]
                    exact hkey
          · cases h
        · cases h
      · cases h
    · cases h
  · cases h

theorem load_torn {file : IdentityFile} (hreads : c.Reads file) {n : ℕ}
    (hn : n < (c.toVecPretty file).length) {files : Files DataFile UInt8}
    (hfile : files .identityFile = some ((c.toVecPretty file).take n)) (e : Enrolled) :
    load c files ≠ .ok (some e) := by
  intro h
  obtain ⟨bytes, seed, hbytes, hparsed, -⟩ := load_some h
  cases hfile.symm.trans hbytes
  rw [hreads.torn n hn] at hparsed
  cases hparsed

theorem load_keyless {files : Files DataFile UInt8}
    (hkey : (files .keyFile).bind Bytes32.ofBytes = none) (e : Enrolled) :
    load c files ≠ .ok (some e) := by
  intro h
  obtain ⟨bytes, seed, -, -, hseed, hof⟩ := load_some h
  rw [hseed, Option.bind_some, hof] at hkey
  cases hkey

theorem run_persist (files : Files DataFile UInt8) (e : Enrolled) (now : UInt64) :
    files.run (persist c e now) =
      (files.write .identityFile (c.toVecPretty (identityFile c e now))).write .keyFile
        e.signingKey.bytes := by
  rw [persist, Files.run_append, Files.run_rewrite, Files.run_rewrite]

theorem persisted_concat (history : List (Enrolled × UInt64)) (e : Enrolled) (now : UInt64) :
    persisted c (history ++ [(e, now)]) = (persisted c history).run (persist c e now) := by
  simp [persisted]

theorem persisted_files (history : List (Enrolled × UInt64)) :
    (history.getLast? = none ∧ persisted c history = fun _ => none) ∨
    ∃ old now, history.getLast? = some (old, now) ∧ (old, now) ∈ history ∧
      persisted c history .identityFile = some (c.toVecPretty (identityFile c old now)) ∧
      persisted c history .keyFile = some old.signingKey.bytes := by
  rcases history.eq_nil_or_concat with rfl | ⟨earlier, ⟨old, now⟩, rfl⟩
  · exact Or.inl ⟨rfl, rfl⟩
  · refine Or.inr ⟨old, now, by simp, by simp, ?_, ?_⟩
    · rw [List.concat_eq_append, persisted_concat, run_persist, Files.write_of_ne _ (by decide),
        Files.write_self]
    · rw [List.concat_eq_append, persisted_concat, run_persist, Files.write_self]

/-- Before the first effect the last identity is read. -/
theorem whole_persisted (hhex : c.Hex) {history : List (Enrolled × UInt64)}
    (hreads : ∀ p ∈ history, c.Reads (identityFile c p.1 p.2)) (new : Enrolled) :
    Whole (history.getLast?.map Prod.fst) new (load c (persisted c history)) := by
  intro e he
  rcases persisted_files (c := c) history with ⟨-, hnone⟩ | ⟨old, now, hlast, hmem, hfile, hkey⟩
  · rw [load_absent (by rw [hnone])] at he
    cases he
  · rw [load_files hhex (hreads _ hmem) hfile hkey] at he
    split at he
    · cases he
    · cases he
      exact Or.inl (by rw [hlast]; rfl)

/-- Between the two files the new identity is read with the last key. -/
theorem whole_between (hhex : c.Hex) {history : List (Enrolled × UInt64)} {new : Enrolled}
    {now : UInt64} (hreads : c.Reads (identityFile c new now)) :
    Whole (history.getLast?.map Prod.fst) new (load c ((persisted c history).write .identityFile
        (c.toVecPretty (identityFile c new now)))) ↔
      ∀ old ∈ history.getLast?.map Prod.fst, old.signingKey = new.signingKey ∨
        (old.agentId = new.agentId ∧ old.serverPins = new.serverPins) ∨ new.serverPins = [] := by
  rcases persisted_files (c := c) history with ⟨hlast, hnone⟩ | ⟨old, _, hlast, -, -, hkey⟩
  · have hkeyless : ((persisted c history).write .identityFile
        (c.toVecPretty (identityFile c new now)) .keyFile).bind Bytes32.ofBytes = none := by
      rw [Files.write_of_ne _ (by decide), hnone]
      rfl
    refine iff_of_true (fun e he => absurd he (load_keyless hkeyless e)) ?_
    simp [hlast]
  · have hload := load_files hhex hreads (Files.write_self _ _ _)
      ((Files.write_of_ne (persisted c history) (by decide) _).trans hkey)
    rw [hload, hlast]
    by_cases hpins : new.serverPins = []
    · rw [if_pos hpins]
      refine iff_of_true (fun e he => by cases he) fun _ _ => Or.inr (Or.inr hpins)
    · rw [if_neg hpins]
      constructor
      · intro hwhole o ho
        cases ho
        rcases hwhole _ rfl with hold | hnew
        · have heq := Option.some.inj hold
          exact Or.inr (Or.inl ⟨by rw [heq], by rw [heq]⟩)
        · exact Or.inl (by rw [← hnew])
      · intro hsame e he
        cases he
        rcases hsame old rfl with hkeys | ⟨hagent, hserver⟩ | hnil
        · exact Or.inr (by rw [hkeys])
        · exact Or.inl (by rw [← hagent, ← hserver]; rfl)
        · exact absurd hnil hpins

/-- Once the key file is opened, nothing is read until it is whole. -/
theorem whole_keyWritten (hhex : c.Hex) (files : Files DataFile UInt8) (old : Option Enrolled)
    {new : Enrolled} {now : UInt64} (hreads : c.Reads (identityFile c new now)) (n : ℕ) :
    Whole old new (load c ((files.write .identityFile
      (c.toVecPretty (identityFile c new now))).write .keyFile
        (new.signingKey.bytes.take n))) := by
  intro e he
  by_cases hshort : n < 32
  · refine absurd he (load_keyless ?_ e)
    rw [Files.write_self, Option.bind_some, Bytes32.ofBytes_take hshort]
  · rw [List.take_of_length_le (by rw [new.signingKey.length_eq]; omega)] at he
    rw [load_files hhex hreads ((Files.write_of_ne _ (by decide) _).trans (Files.write_self _ _ _))
      (Files.write_self _ _ _)] at he
    split at he
    · cases he
    · cases he
      exact Or.inr rfl

/-- A persist cut off after `k` effects leaves one identity or none, except between the two
files: there the last key goes with the new id and pins. -/
theorem load_whole_iff (c : IdentityCodec) (history : List (Enrolled × UInt64)) (new : Enrolled)
    (now : UInt64) (k : ℕ) (hhex : c.Hex)
    (hreads : ∀ p ∈ history ++ [(new, now)], c.Reads (identityFile c p.1 p.2)) :
    Whole (history.getLast?.map Prod.fst) new
        (load c ((persisted c history).run ((persist c new now).take k))) ↔
      (k = (c.toVecPretty (identityFile c new now)).length + 1 →
        ∀ old ∈ history.getLast?.map Prod.fst, old.signingKey = new.signingKey ∨
          (old.agentId = new.agentId ∧ old.serverPins = new.serverPins) ∨
          new.serverPins = []) := by
  have hnew : c.Reads (identityFile c new now) := hreads (new, now) (by simp)
  have hold : ∀ p ∈ history, c.Reads (identityFile c p.1 p.2) := fun p hp =>
    hreads p (List.mem_append_left _ hp)
  cases k with
  | zero => exact iff_of_true (whole_persisted hhex hold new) fun hk => by omega
  | succ n =>
      rcases Nat.lt_trichotomy n (c.toVecPretty (identityFile c new now)).length with
        hlt | heq | hgt
      · rw [persist, Files.run_take_of_le _ _ hlt.le]
        refine iff_of_true (fun e he => ?_) fun hk => by omega
        exact absurd he (load_torn hnew hlt (Files.write_self _ _ _) e)
      · rw [persist, heq, Files.run_take_of_le _ _ le_rfl, List.take_length]
        simpa using whole_between hhex hnew
      · obtain ⟨m, rfl⟩ := Nat.exists_eq_add_of_lt hgt
        rw [persist, show (c.toVecPretty (identityFile c new now)).length + m + 1 + 1 =
            (c.toVecPretty (identityFile c new now)).length + 1 + (m + 1) by omega,
          Files.run_take_append, Files.run_take_rewrite]
        exact iff_of_true (whole_keyWritten hhex _ _ hnew m) fun hk => by omega

def hexDigits : List Char := "0123456789abcdef".toList

def hexEncode (bytes : List UInt8) : String :=
  String.ofList (bytes.flatMap fun b =>
    [hexDigits.getD (b.toNat / 16) '0', hexDigits.getD (b.toNat % 16) '0'])

def hexDecode : List Char → Option (List UInt8)
  | [] => some []
  | [_] => none
  | hi :: lo :: rest => do
      let h ← hexDigits.idxOf? hi
      let l ← hexDigits.idxOf? lo
      let bytes ← hexDecode rest
      return UInt8.ofNat (16 * h + l) :: bytes

def prettyPins (pins : List String) : String :=
  if pins.isEmpty then "[]"
  else "[\n    \"" ++ String.intercalate "\",\n    \"" pins ++ "\"\n  ]"

/-- Two spaces for each level, as the pretty printer has it; no string here needs an escape. -/
def prettyJson (file : IdentityFile) : String :=
  "\x7b\n  \"agent_id\": \"" ++ file.agentId ++ "\",\n  \"server_pins\": " ++
    prettyPins file.serverPins ++ ",\n  \"enrolled_at_ns\": " ++
    toString file.enrolledAtNs.toNat ++ "\n\x7d"

/-- Reads the known files. -/
def knownCodec (known : List IdentityFile) : IdentityCodec where
  toVecPretty file := (prettyJson file).toUTF8.data.toList
  fromStr text := known.find? fun file => prettyJson file = text
  hexEncode := hexEncode
  hexDecode s := hexDecode s.toList

theorem readToString_eq_some {bytes : List UInt8} {text : String} :
    readToString bytes = some text ↔ bytes = text.toUTF8.data.toList := by
  unfold readToString String.fromUTF8?
  constructor
  · intro h
    split at h
    · cases h
      rfl
    · cases h
  · rintro rfl
    have hvalid : (⟨text.toUTF8.data.toList.toArray⟩ : ByteArray).IsValidUTF8 := text.isValidUTF8
    rw [dif_pos hvalid]
    rfl

theorem idxOf?_hexDigits {n : ℕ} (h : n < 16) :
    hexDigits.idxOf? (hexDigits.getD n '0') = some n := by
  have hall : ∀ n < 16, hexDigits.idxOf? (hexDigits.getD n '0') = some n := by decide
  exact hall n h

theorem hexDecode_encode (bytes : List UInt8) :
    hexDecode (hexEncode bytes).toList = some bytes := by
  rw [hexEncode, String.toList_ofList]
  induction bytes with
  | nil => rfl
  | cons b bytes ih =>
      have hlt := b.toNat_lt
      have hvalue : UInt8.ofNat (16 * (b.toNat / 16) + b.toNat % 16) = b := by
        rw [Nat.div_add_mod, UInt8.ofNat_toNat]
      rw [List.flatMap_cons, List.cons_append, List.cons_append, List.nil_append, hexDecode,
        idxOf?_hexDigits (by omega), idxOf?_hexDigits (by omega), ih]
      change some (UInt8.ofNat (16 * (b.toNat / 16) + b.toNat % 16) :: bytes) = some (b :: bytes)
      rw [hvalue]

theorem knownCodec_hex (known : List IdentityFile) : (knownCodec known).Hex := by
  refine ⟨hexDecode_encode, fun bytes ch hch => ?_⟩
  have hdigit : ∀ n < 16, hexDigits.getD n '0' ∈ hexDigits := by decide
  change ch ∈ (hexEncode bytes).toList at hch
  rw [hexEncode, String.toList_ofList, List.mem_flatMap] at hch
  obtain ⟨b, -, hb⟩ := hch
  have hlt := b.toNat_lt
  rcases List.mem_pair.mp hb with rfl | rfl
  · exact hdigit _ (by omega)
  · exact hdigit _ (by omega)

/-- Known files none of which is the beginning of another are read. -/
theorem knownCodec_reads {known : List IdentityFile}
    (hknown : ∀ f ∈ known, ∀ g ∈ known,
      (prettyJson f).toUTF8.data.toList <+: (prettyJson g).toUTF8.data.toList → f = g)
    {file : IdentityFile} (hfile : file ∈ known) : (knownCodec known).Reads file := by
  constructor
  · have hread : readToString ((knownCodec known).toVecPretty file) = some (prettyJson file) :=
      readToString_eq_some.mpr rfl
    rw [hread, Option.bind_some]
    cases hfind : (knownCodec known).fromStr (prettyJson file) with
    | none =>
        have hnone := List.find?_eq_none.mp hfind file hfile
        simp at hnone
    | some g =>
        have hg : prettyJson g = prettyJson file := by simpa using List.find?_some hfind
        have hmem := List.mem_of_find?_eq_some hfind
        rw [hknown g hmem file hfile (by rw [hg])]
  · intro n hn
    by_contra hsome
    obtain ⟨g, hread⟩ := Option.ne_none_iff_exists'.mp hsome
    obtain ⟨text, htext, hfind⟩ := Option.bind_eq_some_iff.mp hread
    have hg : prettyJson g = text := by simpa using List.find?_some hfind
    have hbytes := readToString_eq_some.mp htext
    rw [← hg] at hbytes
    have heq := hknown g (List.mem_of_find?_eq_some hfind) file hfile
      (hbytes ▸ List.take_prefix n _)
    subst heq
    have hlength := congrArg List.length hbytes
    rw [List.length_take] at hlength
    change min n (prettyJson g).toUTF8.data.toList.length = _ at hlength
    have hn' : n < (prettyJson g).toUTF8.data.toList.length := hn
    omega

/-- The second enrollment of an agent: another id, another key, the same server. -/
def enrolledAs (agentId : String) (seed : UInt8) : Enrolled :=
  ⟨agentId, ⟨List.replicate 32 seed, by simp⟩, [⟨List.replicate 32 7, by simp⟩]⟩

def knownFiles : List IdentityFile :=
  [identityFile (knownCodec []) (enrolledAs "agent-1" 1) 1000,
    identityFile (knownCodec []) (enrolledAs "agent-2" 2) 2000]

theorem knownFiles_reads : ∀ p ∈ [(enrolledAs "agent-1" 1, 1000), (enrolledAs "agent-2" 2, 2000)],
    (knownCodec knownFiles).Reads (identityFile (knownCodec knownFiles) p.1 p.2) := by
  have hknown : ∀ f ∈ knownFiles, ∀ g ∈ knownFiles,
      (prettyJson f).toUTF8.data.toList <+: (prettyJson g).toUTF8.data.toList → f = g := by
    decide +kernel
  intro p hp
  rcases List.mem_pair.mp hp with rfl | rfl
  · exact knownCodec_reads hknown List.mem_cons_self
  · exact knownCodec_reads hknown (List.mem_cons_of_mem _ List.mem_cons_self)

theorem load_whole_early : Whole (some (enrolledAs "agent-1" 1)) (enrolledAs "agent-2" 2)
    (load (knownCodec knownFiles)
      ((persisted (knownCodec knownFiles) [(enrolledAs "agent-1" 1, 1000)]).run
        ((persist (knownCodec knownFiles) (enrolledAs "agent-2" 2) 2000).take 40))) :=
  (load_whole_iff (knownCodec knownFiles) [(enrolledAs "agent-1" 1, 1000)]
    (enrolledAs "agent-2" 2) 2000 40 (knownCodec_hex _) knownFiles_reads).mpr
    fun hk => absurd hk (by decide +kernel)

/-- Cut off between the two files, the second enrollment has the key of the first. -/
theorem second_id_with_first_key :
    ¬ ∀ (c : IdentityCodec) (history : List (Enrolled × UInt64)) (new : Enrolled) (now : UInt64)
      (k : ℕ), c.Hex → (∀ p ∈ history ++ [(new, now)], c.Reads (identityFile c p.1 p.2)) →
      Whole (history.getLast?.map Prod.fst) new
        (load c ((persisted c history).run ((persist c new now).take k))) := by
  intro h
  have hnew := knownFiles_reads (enrolledAs "agent-2" 2, 2000)
    (List.mem_cons_of_mem _ List.mem_cons_self)
  have hwhole := h (knownCodec knownFiles) [(enrolledAs "agent-1" 1, 1000)]
    (enrolledAs "agent-2" 2) 2000
    (((knownCodec knownFiles).toVecPretty
      (identityFile (knownCodec knownFiles) (enrolledAs "agent-2" 2) 2000)).length + 1)
    (knownCodec_hex _) knownFiles_reads
  rw [persist, Files.run_take_of_le _ _ le_rfl, List.take_length] at hwhole
  have hmixed := (whole_between (knownCodec_hex knownFiles) hnew).mp hwhole _ rfl
  exact absurd hmixed (by decide)

end Identity
end Aegis

import Aegis.Base64
import Aegis.IdentityFiles

/-!
# The secret of an enrollment

The one-time token and the pin of the server reach the `enroll` command in one
line of text, or as a file and an argument. The base64 and hexadecimal codecs
are parameters.
-/

namespace Aegis

/-- The standard engine of the base64 library. -/
structure Base64Codec where
  encode : List UInt8 → String
  decode : String → Option (List UInt8)

/-- Padding is required and no bits are left over, so bytes decode from their own text alone;
the text is of the alphabet. -/
structure Base64Codec.Canonical (b : Base64Codec) : Prop where
  decode_eq_some : ∀ text bytes, b.decode text = some bytes ↔ text = b.encode bytes
  letters : ∀ bytes, ∀ ch ∈ (b.encode bytes).toList, ch ∈ '=' :: Base64.alphabet
  nonempty : ∀ bytes, bytes ≠ [] → (b.encode bytes).toList ≠ []

inductive BlobError where
  | prefixMissing | notBase64 | tooShort | tokenNotUtf8
  deriving DecidableEq, Repr

def BlobError.display : BlobError → String
  | .prefixMissing => "enroll blob must start with `AEGIS-ENROLL`"
  | .notBase64 => "enroll blob is not valid base64"
  | .tooShort => "enroll blob too short: need token bytes plus a 32-byte pin"
  | .tokenNotUtf8 => "enroll token is not valid UTF-8"

namespace EnrollBlob

def marker : List Char := "AEGIS-ENROLL".toList

def utf8 (text : String) : List UInt8 := text.toUTF8.data.toList

variable (b : Base64Codec)

theorem length_pin {raw : List UInt8} (h : ¬raw.length ≤ 32) :
    (raw.drop (raw.length - 32)).length = 32 := by
  rw [List.length_drop]
  omega

/-- The last 32 bytes are the pin; everything before is the token. -/
def splitSecret (raw : List UInt8) : Except BlobError (String × Bytes32) :=
  if h : raw.length ≤ 32 then .error .tooShort
  else match readToString (raw.take (raw.length - 32)) with
    | none => .error .tokenNotUtf8
    | some token => .ok (token, ⟨raw.drop (raw.length - 32), length_pin h⟩)

def parseEnrollBlob (line : String) : Except BlobError (String × Bytes32) :=
  match (trim line).toList.dropPrefix? marker with
  | none => .error .prefixMissing
  | some rest =>
      match b.decode (trim (String.ofList rest)) with
      | none => .error .notBase64
      | some raw => splitSecret raw

def Blank (cs : List Char) : Prop := ∀ ch ∈ cs, isWhitespace ch = true

theorem exists_blanks (text : String) :
    ∃ l r, Blank l ∧ Blank r ∧ text.toList = l ++ (trim text).toList ++ r := by
  refine ⟨text.toList.takeWhile isWhitespace,
    (text.toList.dropWhile isWhitespace).rtakeWhile isWhitespace,
    fun ch hch => List.mem_takeWhile_imp hch, fun ch hch => List.mem_rtakeWhile_imp hch, ?_⟩
  rw [trim, String.toList_ofList, List.append_assoc, List.rdropWhile_append_rtakeWhile,
    List.takeWhile_append_dropWhile]

theorem trim_of_blanks {l r core : List Char} (hl : Blank l) (hr : Blank r) (hne : core ≠ [])
    (hfirst : isWhitespace (core.head hne) = false)
    (hlast : isWhitespace (core.getLast hne) = false) :
    trim (String.ofList (l ++ core ++ r)) = String.ofList core := by
  have hfront : (l ++ (core ++ r)).dropWhile isWhitespace = core ++ r := by
    rw [List.dropWhile_append_of_pos hl, List.dropWhile_eq_self_iff]
    intro hlength
    rw [List.getElem_zero, List.head_append_of_ne_nil hne]
    simp [hfirst]
  have hback : (core ++ r).rdropWhile isWhitespace = core := by
    rw [List.rdropWhile, List.reverse_append,
      List.dropWhile_append_of_pos fun ch hch => hr ch (List.mem_reverse.mp hch)]
    have hself : core.rdropWhile isWhitespace = core :=
      List.rdropWhile_eq_self_iff.mpr fun h => by simp [hlast]
    exact hself
  rw [trim, String.toList_ofList, List.append_assoc, hfront, hback]

theorem length_utf8_pos {text : String} (h : text ≠ "") : 0 < (utf8 text).length := by
  have hsize : (utf8 text).length = text.utf8ByteSize := rfl
  rw [hsize, Nat.pos_iff_ne_zero]
  exact fun hzero => h (String.utf8ByteSize_eq_zero_iff.mp hzero)

theorem splitSecret_eq_ok {raw : List UInt8} {token : String} {pin : Bytes32} :
    splitSecret raw = .ok (token, pin) ↔ token ≠ "" ∧ raw = utf8 token ++ pin.bytes := by
  have hpin := pin.length_eq
  constructor
  · intro h
    unfold splitSecret at h
    split at h
    · cases h
    · rename_i hlength
      split at h
      · cases h
      · rename_i htext
        have hbytes := Identity.readToString_eq_some.mp htext
        cases h
        refine ⟨?_, ?_⟩
        · rintro rfl
          have hnil : (raw.take (raw.length - 32)).length = 0 := by rw [hbytes]; rfl
          rw [List.length_take] at hnil
          omega
        · rw [utf8, ← hbytes, List.take_append_drop]
  · rintro ⟨hne, rfl⟩
    have hpos : 0 < (utf8 token).length := length_utf8_pos hne
    have hlength : (utf8 token ++ pin.bytes).length - 32 = (utf8 token).length := by
      rw [List.length_append]
      omega
    have htoken : readToString ((utf8 token ++ pin.bytes).take
        ((utf8 token ++ pin.bytes).length - 32)) = some token := by
      rw [hlength, List.take_left]
      exact Identity.readToString_eq_some.mpr rfl
    unfold splitSecret
    rw [dif_neg (by rw [List.length_append]; omega), htoken]
    simp only [hlength, List.drop_left]

variable {b}

theorem encode_blankless (hb : b.Canonical) (bytes : List UInt8) :
    ∀ ch ∈ (b.encode bytes).toList, isWhitespace ch = false := by
  have hall : ('=' :: Base64.alphabet).all (fun ch => !isWhitespace ch) = true := by decide +kernel
  exact fun ch hch => by simpa using List.all_eq_true.mp hall ch (hb.letters bytes ch hch)

/-- The lines that carry a token and a pin: the marker and the encoded secret, with blanks
before, between and behind. -/
def Carries (b : Base64Codec) (token : String) (pin : Bytes32) (line : String) : Prop :=
  ∃ l m r, Blank l ∧ Blank m ∧ Blank r ∧
    line.toList = l ++ marker ++ m ++ (b.encode (utf8 token ++ pin.bytes)).toList ++ r

theorem trim_line (hb : b.Canonical) {line : String} {l m r : List Char} {bytes : List UInt8}
    (hl : Blank l) (hr : Blank r) (hbytes : bytes ≠ [])
    (hline : line.toList = l ++ marker ++ m ++ (b.encode bytes).toList ++ r) :
    (trim line).toList = marker ++ (m ++ (b.encode bytes).toList) := by
  have htext : (b.encode bytes).toList ≠ [] := hb.nonempty bytes hbytes
  have hne : marker ++ (m ++ (b.encode bytes).toList) ≠ [] := by simp [htext]
  have hlast : (marker ++ (m ++ (b.encode bytes).toList)).getLast hne ∈
      (b.encode bytes).toList := by
    rw [List.getLast_append_of_ne_nil _ (by simp [htext]), List.getLast_append_of_ne_nil _ htext]
    exact List.getLast_mem htext
  have htrim := trim_of_blanks hl hr hne rfl (encode_blankless hb bytes _ hlast)
  have hwhole : String.ofList (l ++ (marker ++ (m ++ (b.encode bytes).toList)) ++ r) = line := by
    rw [← String.ofList_toList (s := line), hline]
    simp only [List.append_assoc]
  rw [← hwhole, htrim, String.toList_ofList]

/-- A line is read as a token and a pin exactly if it carries them. -/
theorem parseEnrollBlob_eq_ok (hb : b.Canonical) {line token : String} {pin : Bytes32} :
    parseEnrollBlob b line = .ok (token, pin) ↔ token ≠ "" ∧ Carries b token pin line := by
  constructor
  · intro h
    unfold parseEnrollBlob at h
    split at h
    · cases h
    · rename_i rest hrest
      split at h
      · cases h
      · rename_i raw hraw
        obtain ⟨hne, rfl⟩ := splitSecret_eq_ok.mp h
        obtain ⟨p, hp, hmarker⟩ := List.dropPrefix?_eq_some_iff.mp hrest
        obtain ⟨l, r, hl, hr, hline⟩ := exists_blanks line
        obtain ⟨m, r', hm, hr', hgap⟩ := exists_blanks (String.ofList rest)
        rw [eq_of_beq hmarker] at hp
        rw [(hb.decode_eq_some _ _).mp hraw, String.toList_ofList] at hgap
        refine ⟨hne, l, m, r' ++ r, hl, hm, List.forall_mem_append.mpr ⟨hr', hr⟩, ?_⟩
        rw [hline, hp, hgap]
        simp only [List.append_assoc]
  · rintro ⟨hne, l, m, r, hl, hm, hr, hline⟩
    have hbytes : utf8 token ++ pin.bytes ≠ [] := by
      have hpos := length_utf8_pos hne
      intro hnil
      rw [List.append_eq_nil_iff] at hnil
      rw [hnil.1] at hpos
      exact absurd hpos (Nat.lt_irrefl 0)
    have htext := hb.nonempty _ hbytes
    have hblankless := encode_blankless hb (utf8 token ++ pin.bytes)
    have hrest : (trim line).toList.dropPrefix? marker =
        some (m ++ (b.encode (utf8 token ++ pin.bytes)).toList) := by
      rw [trim_line hb hl hr hbytes hline]
      exact List.dropPrefix?_append_of_beq _ (beq_self_eq_true _)
    have hinner : trim (String.ofList (m ++ (b.encode (utf8 token ++ pin.bytes)).toList)) =
        b.encode (utf8 token ++ pin.bytes) := by
      have h := trim_of_blanks hm (r := []) (by simp [Blank]) htext
        (hblankless _ (List.head_mem htext)) (hblankless _ (List.getLast_mem htext))
      rwa [List.append_nil, String.ofList_toList] at h
    have hdecode : b.decode (b.encode (utf8 token ++ pin.bytes)) =
        some (utf8 token ++ pin.bytes) := (hb.decode_eq_some _ _).mpr rfl
    unfold parseEnrollBlob
    simp only [hrest, hinner, hdecode]
    exact splitSecret_eq_ok.mpr ⟨hne, rfl⟩

end EnrollBlob
end Aegis

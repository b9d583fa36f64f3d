import Mathlib.Data.List.GetD
import Mathlib.Tactic.Ring

/-!
# Bytes as text

Three bytes are four letters of six bits each, a shorter last group is padded
with `=`, and the bits that the padding leaves over are zero. Every text then
stands for at most one list of bytes, and each list of bytes has one text.
-/

namespace Aegis.Base64

def alphabet : List Char :=
  "ABCDEFGHIJKLMNOPQRSTUVWXYZabcdefghijklmnopqrstuvwxyz0123456789+/".toList

def letter (n : ℕ) : Char :=
  alphabet.getD n 'A'

def sextet (ch : Char) : Option ℕ :=
  alphabet.idxOf? ch

theorem sextet_letter {n : ℕ} (h : n < 64) : sextet (letter n) = some n := by
  have hall : ∀ n < 64, sextet (letter n) = some n := by decide +kernel
  exact hall n h

theorem letter_ne_pad {n : ℕ} (h : n < 64) : letter n ≠ '=' := by
  have hall : ∀ n < 64, letter n ≠ '=' := by decide +kernel
  exact hall n h

theorem sextet_eq_some {ch : Char} {n : ℕ} : sextet ch = some n ↔ n < 64 ∧ ch = letter n := by
  constructor
  · intro h
    obtain ⟨hn, hch, -⟩ := List.idxOf?_eq_some_iff.mp h
    refine ⟨hn, ?_⟩
    rw [letter, List.getD_eq_getElem _ _ hn]
    simpa using hch.symm
  · rintro ⟨hn, rfl⟩
    exact sextet_letter hn

/-- The four letters of three bytes. -/
def letters (a b c : UInt8) : List Char :=
  [letter (a.toNat / 4), letter (a.toNat % 4 * 16 + b.toNat / 16),
    letter (b.toNat % 16 * 4 + c.toNat / 64), letter (c.toNat % 64)]

def encode : List UInt8 → List Char
  | [] => []
  | [a] => [letter (a.toNat / 4), letter (a.toNat % 4 * 16), '=', '=']
  | [a, b] =>
      [letter (a.toNat / 4), letter (a.toNat % 4 * 16 + b.toNat / 16),
        letter (b.toNat % 16 * 4), '=']
  | a :: b :: c :: rest => letters a b c ++ encode rest

/-- The bytes of a group without padding. -/
def three (p q r s : Char) : Option (List UInt8) := do
  let w ← sextet p
  let x ← sextet q
  let y ← sextet r
  let z ← sextet s
  return [UInt8.ofNat (w * 4 + x / 16), UInt8.ofNat (x % 16 * 16 + y / 4),
    UInt8.ofNat (y % 4 * 64 + z)]

/-- The bytes of a group with one `=`. -/
def two (p q r : Char) : Option (List UInt8) := do
  let w ← sextet p
  let x ← sextet q
  let y ← sextet r
  guard (y % 4 = 0)
  return [UInt8.ofNat (w * 4 + x / 16), UInt8.ofNat (x % 16 * 16 + y / 4)]

/-- The byte of a group with two `=`. -/
def one (p q : Char) : Option (List UInt8) := do
  let w ← sextet p
  let x ← sextet q
  guard (x % 16 = 0)
  return [UInt8.ofNat (w * 4 + x / 16)]

def decode : List Char → Option (List UInt8)
  | [] => some []
  | p :: q :: r :: s :: rest =>
      if s = '=' ∧ rest = [] then
        if r = '=' then one p q else two p q r
      else do
        let bytes ← three p q r s
        let more ← decode rest
        return bytes ++ more
  | _ => none

theorem toNat_ofNat {n : ℕ} (h : n < 256) : (UInt8.ofNat n).toNat = n :=
  UInt8.toNat_ofNat_of_lt' h

theorem eq_ofNat {a : UInt8} {n : ℕ} (h : a.toNat = n) : UInt8.ofNat n = a := by
  rw [← h, UInt8.ofNat_toNat]

theorem three_letters {w x y z : ℕ} (hw : w < 64) (hx : x < 64) (hy : y < 64) (hz : z < 64) :
    three (letter w) (letter x) (letter y) (letter z) =
      some [UInt8.ofNat (w * 4 + x / 16), UInt8.ofNat (x % 16 * 16 + y / 4),
        UInt8.ofNat (y % 4 * 64 + z)] := by
  rw [three, sextet_letter hw, sextet_letter hx, sextet_letter hy, sextet_letter hz]
  rfl

theorem two_letters {w x y : ℕ} (hw : w < 64) (hx : x < 64) (hy : y < 64) :
    two (letter w) (letter x) (letter y) =
      if y % 4 = 0 then some [UInt8.ofNat (w * 4 + x / 16), UInt8.ofNat (x % 16 * 16 + y / 4)]
      else none := by
  rw [two, sextet_letter hw, sextet_letter hx, sextet_letter hy]
  by_cases h : y % 4 = 0 <;> simp [h]

theorem one_letters {w x : ℕ} (hw : w < 64) (hx : x < 64) :
    one (letter w) (letter x) =
      if x % 16 = 0 then some [UInt8.ofNat (w * 4 + x / 16)] else none := by
  rw [one, sextet_letter hw, sextet_letter hx]
  by_cases h : x % 16 = 0 <;> simp [h]

theorem three_eq_some {p q r s : Char} {bytes : List UInt8} :
    three p q r s = some bytes ↔ ∃ a b c, bytes = [a, b, c] ∧ [p, q, r, s] = letters a b c := by
  constructor
  · intro h
    obtain ⟨w, hp, h'⟩ := Option.bind_eq_some_iff.mp h
    obtain ⟨x, hq, h'⟩ := Option.bind_eq_some_iff.mp h'
    obtain ⟨y, hr, h'⟩ := Option.bind_eq_some_iff.mp h'
    obtain ⟨z, hs, -⟩ := Option.bind_eq_some_iff.mp h'
    obtain ⟨hw, rfl⟩ := sextet_eq_some.mp hp
    obtain ⟨hx, rfl⟩ := sextet_eq_some.mp hq
    obtain ⟨hy, rfl⟩ := sextet_eq_some.mp hr
    obtain ⟨hz, rfl⟩ := sextet_eq_some.mp hs
    rw [three_letters hw hx hy hz] at h
    refine ⟨_, _, _, (Option.some.inj h).symm, ?_⟩
    rw [letters, toNat_ofNat (by omega), toNat_ofNat (by omega), toNat_ofNat (by omega),
      show (w * 4 + x / 16) / 4 = w by omega,
      show (w * 4 + x / 16) % 4 * 16 + (x % 16 * 16 + y / 4) / 16 = x by omega,
      show (x % 16 * 16 + y / 4) % 16 * 4 + (y % 4 * 64 + z) / 64 = y by omega,
      show (y % 4 * 64 + z) % 64 = z by omega]
  · rintro ⟨a, b, c, rfl, h⟩
    have ha := a.toNat_lt
    have hb := b.toNat_lt
    have hc := c.toNat_lt
    simp only [letters, List.cons.injEq, and_true] at h
    obtain ⟨rfl, rfl, rfl, rfl⟩ := h
    rw [three_letters (by omega) (by omega) (by omega) (by omega), eq_ofNat (a := a) (by omega),
      eq_ofNat (a := b) (by omega), eq_ofNat (a := c) (by omega)]

theorem two_eq_some {p q r : Char} {bytes : List UInt8} :
    two p q r = some bytes ↔ ∃ a b, bytes = [a, b] ∧ [p, q, r, '='] = encode [a, b] := by
  constructor
  · intro h
    obtain ⟨w, hp, h'⟩ := Option.bind_eq_some_iff.mp h
    obtain ⟨x, hq, h'⟩ := Option.bind_eq_some_iff.mp h'
    obtain ⟨y, hr, -⟩ := Option.bind_eq_some_iff.mp h'
    obtain ⟨hw, rfl⟩ := sextet_eq_some.mp hp
    obtain ⟨hx, rfl⟩ := sextet_eq_some.mp hq
    obtain ⟨hy, rfl⟩ := sextet_eq_some.mp hr
    rw [two_letters hw hx hy] at h
    by_cases hzero : y % 4 = 0
    · rw [if_pos hzero] at h
      refine ⟨_, _, (Option.some.inj h).symm, ?_⟩
      rw [encode, toNat_ofNat (by omega), toNat_ofNat (by omega),
        show (w * 4 + x / 16) / 4 = w by omega,
        show (w * 4 + x / 16) % 4 * 16 + (x % 16 * 16 + y / 4) / 16 = x by omega,
        show (x % 16 * 16 + y / 4) % 16 * 4 = y by omega]
    · rw [if_neg hzero] at h
      cases h
  · rintro ⟨a, b, rfl, h⟩
    have ha := a.toNat_lt
    have hb := b.toNat_lt
    simp only [encode, List.cons.injEq, and_true] at h
    obtain ⟨rfl, rfl, rfl⟩ := h
    rw [two_letters (by omega) (by omega) (by omega), if_pos (by omega),
      eq_ofNat (a := a) (by omega), eq_ofNat (a := b) (by omega)]

theorem one_eq_some {p q : Char} {bytes : List UInt8} :
    one p q = some bytes ↔ ∃ a, bytes = [a] ∧ [p, q, '=', '='] = encode [a] := by
  constructor
  · intro h
    obtain ⟨w, hp, h'⟩ := Option.bind_eq_some_iff.mp h
    obtain ⟨x, hq, -⟩ := Option.bind_eq_some_iff.mp h'
    obtain ⟨hw, rfl⟩ := sextet_eq_some.mp hp
    obtain ⟨hx, rfl⟩ := sextet_eq_some.mp hq
    rw [one_letters hw hx] at h
    by_cases hzero : x % 16 = 0
    · rw [if_pos hzero] at h
      refine ⟨_, (Option.some.inj h).symm, ?_⟩
      rw [encode, toNat_ofNat (by omega), show (w * 4 + x / 16) / 4 = w by omega,
        show (w * 4 + x / 16) % 4 * 16 = x by omega]
    · rw [if_neg hzero] at h
      cases h
  · rintro ⟨a, rfl, h⟩
    have ha := a.toNat_lt
    simp only [encode, List.cons.injEq, and_true] at h
    obtain ⟨rfl, rfl⟩ := h
    rw [one_letters (by omega) (by omega), if_pos (by omega), eq_ofNat (a := a) (by omega)]

theorem decode_encode (bytes : List UInt8) : decode (encode bytes) = some bytes := by
  induction bytes using encode.induct with
  | case1 => rfl
  | case2 a =>
      rw [encode, decode, if_pos ⟨rfl, rfl⟩, if_pos rfl]
      exact one_eq_some.mpr ⟨a, rfl, by rw [encode]⟩
  | case3 a b =>
      have hb := b.toNat_lt
      rw [encode, decode, if_pos ⟨rfl, rfl⟩, if_neg (letter_ne_pad (by omega))]
      exact two_eq_some.mpr ⟨a, b, rfl, by rw [encode]⟩
  | case4 a b c rest ih =>
      have hlast : ¬(letter (c.toNat % 64) = '=' ∧ encode rest = []) := fun h =>
        letter_ne_pad (Nat.mod_lt _ (by omega)) h.1
      rw [encode, letters, List.cons_append, List.cons_append, List.cons_append, List.cons_append,
        List.nil_append, decode, if_neg hlast, three_eq_some.mpr ⟨a, b, c, rfl, rfl⟩, ih]
      rfl

theorem encode_decode {text : List Char} {bytes : List UInt8} (h : decode text = some bytes) :
    encode bytes = text := by
  induction text using decode.induct generalizing bytes with
  | case1 =>
      cases h
      rfl
  | case2 p q s rest hlast =>
      rw [decode, if_pos hlast, if_pos rfl] at h
      obtain ⟨a, rfl, htext⟩ := one_eq_some.mp h
      rw [← htext, hlast.1, hlast.2]
  | case3 p q r s rest hlast hr =>
      rw [decode, if_pos hlast, if_neg hr] at h
      obtain ⟨a, b, rfl, htext⟩ := two_eq_some.mp h
      rw [← htext, hlast.1, hlast.2]
  | case4 p q r s rest hlast ih =>
      rw [decode, if_neg hlast] at h
      obtain ⟨group, hgroup, h⟩ := Option.bind_eq_some_iff.mp h
      obtain ⟨more, hmore, h⟩ := Option.bind_eq_some_iff.mp h
      obtain ⟨a, b, c, rfl, htext⟩ := three_eq_some.mp hgroup
      cases h
      rw [List.cons_append, List.cons_append, List.cons_append, List.nil_append, encode,
        ← htext, ih hmore]
      rfl
  | case5 text hnil hgroup =>
      rw [decode] at h
      · cases h
      · exact hnil
      · exact hgroup

theorem decode_eq_some {text : List Char} {bytes : List UInt8} :
    decode text = some bytes ↔ text = encode bytes := by
  constructor
  · intro h
    exact (encode_decode h).symm
  · rintro rfl
    exact decode_encode bytes

theorem letter_mem {n : ℕ} (h : n < 64) : letter n ∈ alphabet := by
  rw [letter, List.getD_eq_getElem _ _ h]
  exact List.getElem_mem _

theorem mem_encode {bytes : List UInt8} {ch : Char} (h : ch ∈ encode bytes) :
    ch ∈ '=' :: alphabet := by
  have hletter : ∀ n < 64, letter n ∈ '=' :: alphabet := fun n hn =>
    List.mem_cons_of_mem _ (letter_mem hn)
  induction bytes using encode.induct with
  | case1 => cases h
  | case2 a =>
      have ha := a.toNat_lt
      rw [encode] at h
      simp only [List.mem_cons, List.not_mem_nil, or_false, or_self] at h
      rcases h with rfl | rfl | rfl
      · exact hletter _ (by omega)
      · exact hletter _ (by omega)
      · exact List.mem_cons_self
  | case3 a b =>
      have ha := a.toNat_lt
      have hb := b.toNat_lt
      rw [encode] at h
      simp only [List.mem_cons, List.not_mem_nil, or_false] at h
      rcases h with rfl | rfl | rfl | rfl
      · exact hletter _ (by omega)
      · exact hletter _ (by omega)
      · exact hletter _ (by omega)
      · exact List.mem_cons_self
  | case4 a b c rest ih =>
      have ha := a.toNat_lt
      have hb := b.toNat_lt
      have hc := c.toNat_lt
      rw [encode, letters] at h
      rcases List.mem_append.mp h with h | h
      · simp only [List.mem_cons, List.not_mem_nil, or_false] at h
        rcases h with rfl | rfl | rfl | rfl
        · exact hletter _ (by omega)
        · exact hletter _ (by omega)
        · exact hletter _ (by omega)
        · exact hletter _ (by omega)
      · exact ih h

theorem encode_ne_nil {bytes : List UInt8} (h : bytes ≠ []) : encode bytes ≠ [] := by
  induction bytes using encode.induct with
  | case1 => exact absurd rfl h
  | case2 a => simp [encode]
  | case3 a b => simp [encode]
  | case4 a b c rest => simp [encode, letters]

end Aegis.Base64

import Mathlib.Data.List.Basic
import Mathlib.Tactic.SplitIfs
import Mathlib.Tactic.Common

/-!
# Streams that arrive in pieces

A reader holds the pieces of a stream that are still to come, none of them
empty. One read takes at most as much as it is asked for and never more than one
piece; after the last piece it takes nothing. What a loop of reads takes depends
on the stream alone and not on the pieces.
-/

namespace Aegis

structure ChunkReader (α : Type) where
  chunks : List (List α)
  nonempty : ∀ c ∈ chunks, c ≠ []

namespace ChunkReader
variable {α : Type}

/-- The stream that is still to come. -/
def rest (r : ChunkReader α) : List α := r.chunks.flatten

/-- A stream that arrives one element at a time. -/
def trickle (l : List α) : ChunkReader α :=
  ⟨l.map fun a => [a], by
    intro c hc
    obtain ⟨a, -, rfl⟩ := List.mem_map.mp hc
    exact List.cons_ne_nil a []⟩

@[simp] theorem trickle_rest (l : List α) : (trickle l).rest = l := by
  induction l with
  | nil => rfl
  | cons a l ih => exact congrArg (a :: ·) ih

/-- Takes at most `max` elements of the next piece. -/
def read (max : ℕ) (r : ChunkReader α) : List α × ChunkReader α :=
  match h : r.chunks with
  | [] => ([], r)
  | c :: cs => (c.take max,
      if hdrop : c.drop max = [] then ⟨cs, fun x hx => r.nonempty x (by simp [h, hx])⟩
      else ⟨c.drop max :: cs, fun x hx => by
        rcases List.mem_cons.mp hx with rfl | hx
        · exact hdrop
        · exact r.nonempty x (by simp [h, hx])⟩)

theorem read_rest (max : ℕ) (r : ChunkReader α) :
    r.rest = (r.read max).1 ++ (r.read max).2.rest := by
  unfold read
  split
  · simp
  · rename_i c cs h
    split_ifs with hdrop
    · have hall : c.take max = c := by
        rw [← List.append_nil (c.take max), ← hdrop, List.take_append_drop]
      simp [rest, h, hall]
    · simp [rest, h, ← List.append_assoc]

theorem read_length (max : ℕ) (r : ChunkReader α) : (r.read max).1.length ≤ max := by
  unfold read
  split
  · exact Nat.zero_le max
  · exact List.length_take_le max _

theorem read_eq_nil {max : ℕ} (hmax : 0 < max) {r : ChunkReader α} :
    (r.read max).1 = [] ↔ r.rest = [] := by
  constructor
  · intro h
    unfold read at h
    split at h
    · rename_i hchunks
      simp [rest, hchunks]
    · rename_i c cs hchunks
      have hc : c ≠ [] := r.nonempty c (by simp [hchunks])
      rcases List.take_eq_nil_iff.mp h with hzero | hnil
      · omega
      · exact (hc hnil).elim
  · intro h
    have := read_rest max r
    rw [h] at this
    exact (List.append_eq_nil_iff.mp this.symm).1

/-- Reads until `n` elements are there, or the stream ends. -/
def readExact (n : ℕ) (r : ChunkReader α) : Option (List α) × ChunkReader α :=
  if n = 0 then (some [], r) else
    if _hgot : (r.read n).1 = [] then (none, r) else
      let more := readExact (n - (r.read n).1.length) (r.read n).2
      (more.1.map ((r.read n).1 ++ ·), more.2)
termination_by n
decreasing_by
  have hpos := List.length_pos_of_ne_nil _hgot
  have hle := read_length n r
  omega

/-- The outcome of an exact read is that of the whole stream, however it arrives. -/
theorem readExact_spec (n : ℕ) (r : ChunkReader α) :
    (n ≤ r.rest.length → (r.readExact n).1 = some (r.rest.take n) ∧
      (r.readExact n).2.rest = r.rest.drop n) ∧
    (r.rest.length < n → (r.readExact n).1 = none ∧ (r.readExact n).2.rest = []) := by
  induction n, r using readExact.induct with
  | case1 r =>
      rw [readExact]
      simp
  | case2 n r hn hgot =>
      have hrest : r.rest = [] := (read_eq_nil (Nat.pos_of_ne_zero hn)).mp hgot
      rw [readExact, if_neg hn, dif_pos hgot, hrest]
      constructor
      · intro hzero
        exact absurd (Nat.le_zero.mp hzero) hn
      · intro _
        exact ⟨rfl, rfl⟩
  | case3 n r hn hgot ih =>
      have hsplit := read_rest n r
      have hle := read_length n r
      have hlen := congrArg List.length hsplit
      rw [List.length_append] at hlen
      rw [readExact, if_neg hn, dif_neg hgot]
      constructor
      · intro henough
        obtain ⟨hmore, hrest⟩ := ih.1 (by omega)
        constructor
        · simp only [hmore, Option.map_some, Option.some.injEq]
          conv_rhs => rw [hsplit]
          rw [List.take_append, List.take_of_length_le hle]
        · rw [hrest]
          conv_rhs => rw [hsplit]
          rw [List.drop_append, List.drop_of_length_le hle, List.nil_append]
      · intro hshort
        obtain ⟨hmore, hrest⟩ := ih.2 (by omega)
        constructor
        · simp only [hmore, Option.map_none]
        · exact hrest

end ChunkReader
end Aegis

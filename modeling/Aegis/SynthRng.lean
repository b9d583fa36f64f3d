import Aegis.ExactArithmetic
import Aegis.WordMixing
import Mathlib.Algebra.Order.Floor.Semiring

/-!
# The generator behind the synthetic sessions

`Rng` of `synth.rs`, a SplitMix64. Its step is odd and its mixing loses nothing,
so whatever the seed every word comes up once in a cycle of 2^64 draws, a trial
succeeds as often as its probability says up to the 53 bits of a draw, and two
seeds give the same sequence at two places.
-/

namespace Aegis.Eval

structure Rng where
  state : UInt64

namespace Rng

def golden : UInt64 := 0x9E3779B97F4A7C15

def new (seed : UInt64) : Rng := ⟨seed ^^^ golden⟩

def mix (state : UInt64) : UInt64 :=
  let z := (state ^^^ (state >>> 30)) * 0xBF58476D1CE4E5B9
  let z := (z ^^^ (z >>> 27)) * 0x94D049BB133111EB
  z ^^^ (z >>> 31)

def nextU64 (rng : Rng) : UInt64 × Rng :=
  let state := rng.state + golden
  (mix state, ⟨state⟩)

/-- A draw of 53 bits between zero and one. -/
def uniform {F : Type} [F64 F] (rng : Rng) : F × Rng :=
  let (word, rng) := rng.nextU64
  (F64.ofNat (word >>> 11).toNat / F64.ofNat (2 ^ 53), rng)

def bernoulli {F : Type} [F64 F] (rng : Rng) (p : F) : Bool × Rng :=
  let (u, rng) : F × Rng := rng.uniform
  (F64.lt u p, rng)

/-- The generator after some draws. -/
def after (rng : Rng) (draws : ℕ) : Rng := (fun r => r.nextU64.2)^[draws] rng

/-- The mixing of a state as a word. -/
def mixWord (x : BitVec 64) : BitVec 64 := (mix (.ofBitVec x)).toBitVec

theorem golden_odd : golden.toBitVec * 0xF1DE83E19937733D#64 = 1#64 := by decide

theorem mixWord_injective : Function.Injective mixWord := by
  have hfirst : (0xBF58476D1CE4E5B9#64) * 0x96DE1B173F119089#64 = 1#64 := by decide
  have hsecond : (0x94D049BB133111EB#64) * 0x319642B2D24D8EC3#64 = 1#64 := by decide
  have hsteps : mixWord = (fun x : BitVec 64 => x ^^^ (x >>> 31)) ∘
      (fun x : BitVec 64 => x * 0x94D049BB133111EB#64) ∘
      (fun x : BitVec 64 => x ^^^ (x >>> 27)) ∘
      (fun x : BitVec 64 => x * 0xBF58476D1CE4E5B9#64) ∘
      fun x : BitVec 64 => x ^^^ (x >>> 30) := rfl
  rw [hsteps]
  exact (Word.xorShift_injective (by norm_num)).comp <| (Word.mul_injective hsecond).comp <|
    (Word.xorShift_injective (by norm_num)).comp <| (Word.mul_injective hfirst).comp <|
    Word.xorShift_injective (by norm_num)

theorem after_state (rng : Rng) (draws : ℕ) :
    (rng.after draws).state.toBitVec = Word.weyl rng.state.toBitVec golden.toBitVec draws := by
  induction draws with
  | zero => exact (Word.weyl_zero _ _).symm
  | succ draws ih =>
      have hstep : rng.after (draws + 1) = (rng.after draws).nextU64.2 :=
        Function.iterate_succ_apply' _ _ _
      rw [hstep, Word.weyl_succ, ← ih]
      rfl

theorem next_after (rng : Rng) (draws : ℕ) : (rng.after draws).nextU64.1.toBitVec =
    mixWord (Word.weyl (rng.state.toBitVec + golden.toBitVec) golden.toBitVec draws) := by
  have hstart : Word.weyl (rng.state.toBitVec + golden.toBitVec) golden.toBitVec draws =
      (rng.after draws).state.toBitVec + golden.toBitVec := by
    rw [after_state, Word.weyl, Word.weyl, BitVec.add_assoc, BitVec.add_assoc,
      BitVec.add_comm golden.toBitVec]
  rw [hstart]
  rfl

theorem eq_of_toBitVec {rng rng' : Rng} (h : rng.state.toBitVec = rng'.state.toBitVec) :
    rng = rng' := by
  cases rng
  cases rng'
  rw [Rng.mk.injEq]
  exact UInt64.toBitVec_inj.mp h

theorem existsUnique_next (rng : Rng) (v : UInt64) :
    ∃! n, n < 2 ^ 64 ∧ (rng.after n).nextU64.1 = v := by
  obtain ⟨x, hx⟩ : ∃ x, mixWord x = v.toBitVec :=
    Word.surjective_of_injective mixWord_injective v.toBitVec
  obtain ⟨n, hn, hstate⟩ :=
    Word.exists_weyl golden_odd (rng.state.toBitVec + golden.toBitVec) x
  refine ⟨n, ⟨hn, UInt64.toBitVec_inj.mp ?_⟩, ?_⟩
  · rw [next_after, hstate, hx]
  · rintro m ⟨hm, hnext⟩
    have hmix := congrArg UInt64.toBitVec hnext
    rw [next_after, ← hx, ← hstate] at hmix
    exact Word.weyl_injective golden_odd _ hm hn (mixWord_injective hmix)

section Trials
variable {F K : Type} [F64 F] [Field K] [LinearOrder K] [IsStrictOrderedRing K]
variable (E : ExactCounts F K)

theorem uniform_num (rng : Rng) :
    (rng.uniform : F × Rng).1 = E.num (((rng.nextU64.1 >>> 11).toNat : K) / 2 ^ 53) := by
  have hscale : ((2 ^ 53 : ℕ) : K) ≠ 0 := by norm_num
  have hdiv := E.div ((rng.nextU64.1 >>> 11).toNat : K) hscale
  rw [← E.ofNat, ← E.ofNat, Nat.cast_pow, Nat.cast_ofNat] at hdiv
  exact hdiv

theorem bernoulli_num [FloorSemiring K] (rng : Rng) (p : K) :
    (rng.bernoulli (E.num p)).1 = true ↔
      rng.nextU64.1.toBitVec.toNat < ⌈p * 2 ^ 53⌉₊ * 2 ^ 11 := by
  have hscale : (0 : K) < 2 ^ 53 := by norm_num
  have hshift : (rng.nextU64.1 >>> 11).toNat = rng.nextU64.1.toBitVec.toNat / 2 ^ 11 := by
    rw [UInt64.toNat_shiftRight, Nat.shiftRight_eq_div_pow]
    rfl
  have hlt : (rng.bernoulli (E.num p)).1 = F64.lt (rng.uniform : F × Rng).1 (E.num p) := rfl
  rw [hlt, uniform_num E, E.lt, div_lt_iff₀ hscale, ← Nat.lt_ceil, hshift,
    Nat.div_lt_iff_lt_mul (by norm_num)]

theorem card_lt (c : ℕ) : ((Finset.range (2 ^ 64)).filter fun v => v < c * 2 ^ 11).card =
    min c (2 ^ 53) * 2 ^ 11 := by
  have hrange : ((Finset.range (2 ^ 64)).filter fun v => v < c * 2 ^ 11) =
      Finset.range (min c (2 ^ 53) * 2 ^ 11) := by
    ext v
    rw [Finset.mem_filter, Finset.mem_range, Finset.mem_range]
    omega
  rw [hrange, Finset.card_range]

/-- Whatever the seed, every word comes up once in each cycle of 2^64 draws; the seeds give one
sequence at different places; and over a cycle a trial succeeds as often as its probability
says, rounded up to 53 bits. -/
theorem rng_cycle [FloorSemiring K] (seed : UInt64) :
    (∀ v, ∃! n, n < 2 ^ 64 ∧ ((Rng.new seed).after n).nextU64.1 = v) ∧
      (∀ n, (Rng.new seed).after (n + 2 ^ 64) = (Rng.new seed).after n) ∧
      (∀ other, ∃ d < 2 ^ 64, ∀ n, (Rng.new other).after n = (Rng.new seed).after (d + n)) ∧
      ∀ p : K, ((Finset.range (2 ^ 64)).filter fun n =>
          (((Rng.new seed).after n).bernoulli (E.num p)).1 = true).card =
        min ⌈p * 2 ^ 53⌉₊ (2 ^ 53) * 2 ^ 11 := by
  refine ⟨existsUnique_next (Rng.new seed), ?_, ?_, ?_⟩
  · intro n
    apply eq_of_toBitVec
    rw [after_state, after_state, Word.weyl_period]
  · intro other
    obtain ⟨d, hd, hstate⟩ := Word.exists_weyl golden_odd (Rng.new seed).state.toBitVec
      (Rng.new other).state.toBitVec
    refine ⟨d, hd, fun n => eq_of_toBitVec ?_⟩
    rw [after_state, after_state, Word.weyl_add, hstate]
  · intro p
    simp only [bernoulli_num E, next_after]
    rw [Word.card_weyl golden_odd _ mixWord_injective fun v => v < ⌈p * 2 ^ 53⌉₊ * 2 ^ 11, card_lt]

end Trials

theorem rng_cycle_half :
    ((Finset.range (2 ^ 64)).filter fun n =>
      (((Rng.new 7).after n).bernoulli (1 / 2 : ℚ)).1 = true).card = 2 ^ 63 := by
  have hcycle := (rng_cycle ratCounts 7).2.2.2 (1 / 2)
  have hceil : ⌈(1 / 2 : ℚ) * 2 ^ 53⌉₊ = 2 ^ 52 := by
    have hhalf : (1 / 2 : ℚ) * 2 ^ 53 = (2 ^ 52 : ℕ) := by norm_num
    rw [hhalf, Nat.ceil_natCast]
  rw [hceil] at hcycle
  exact hcycle.trans (by norm_num)

end Rng
end Aegis.Eval

import Mathlib.Data.Finite.Prod
import Mathlib.Data.Finset.Card
import Mathlib.Data.Nat.Bitwise
import Mathlib.Tactic.Common

/-!
# Mixing words

Exclusive or with a right shift and multiplication by an invertible word lose
nothing, and adding an invertible word over and over visits every word once
before it repeats.
-/

namespace Aegis.Word
variable {w : ℕ}

/-- A word and its shift together determine the word, from its highest bits down. -/
theorem xorShift_injective {s : ℕ} (hs : 0 < s) :
    Function.Injective fun x : BitVec w => x ^^^ (x >>> s) := by
  intro x y hxy
  have hshift : x ^^^ y = (x ^^^ y) >>> s := by
    rw [BitVec.ushiftRight_xor_distrib, ← BitVec.xor_eq_zero_iff]
    calc x ^^^ y ^^^ (x >>> s ^^^ y >>> s)
      _ = x ^^^ x >>> s ^^^ (y ^^^ y >>> s) := by ac_rfl
      _ = 0#w := BitVec.xor_eq_zero_iff.mpr hxy
  have hnat := congrArg BitVec.toNat hshift
  rw [BitVec.toNat_ushiftRight, Nat.shiftRight_eq_div_pow] at hnat
  have hzero : (x ^^^ y).toNat = 0 := by
    by_contra hne
    have hlt := Nat.div_lt_self (Nat.pos_of_ne_zero hne) (Nat.one_lt_two_pow hs.ne')
    omega
  exact BitVec.xor_eq_zero_iff.mp (BitVec.eq_of_toNat_eq hzero)

theorem mul_injective {m inv : BitVec w} (h : m * inv = 1#w) :
    Function.Injective fun x : BitVec w => x * m := by
  apply Function.LeftInverse.injective (g := fun y => y * inv)
  intro x
  dsimp only
  rw [BitVec.mul_assoc, h, BitVec.mul_one]

theorem surjective_of_injective {mix : BitVec w → BitVec w} (h : Function.Injective mix) :
    Function.Surjective mix := by
  have hfinite : Finite (BitVec w) :=
    Finite.of_injective BitVec.toFin fun _ _ heq => BitVec.toFin_inj.mp heq
  exact Finite.surjective_of_injective h

/-- The word reached from a start after some steps. -/
def weyl (start step : BitVec w) (n : ℕ) : BitVec w := start + BitVec.ofNat w n * step

theorem weyl_zero (start step : BitVec w) : weyl start step 0 = start := by
  rw [weyl, BitVec.zero_mul, BitVec.add_zero]

theorem weyl_add (start step : BitVec w) (m n : ℕ) :
    weyl start step (m + n) = weyl (weyl start step m) step n := by
  rw [weyl, weyl, weyl, BitVec.ofNat_add, BitVec.add_mul, BitVec.add_assoc]

theorem weyl_succ (start step : BitVec w) (n : ℕ) :
    weyl start step (n + 1) = weyl start step n + step := by
  rw [weyl_add, weyl, BitVec.one_mul]

theorem weyl_period (start step : BitVec w) (n : ℕ) :
    weyl start step (n + 2 ^ w) = weyl start step n := by
  have hfull : BitVec.ofNat w (2 ^ w) = 0#w := by
    apply BitVec.eq_of_toNat_eq
    rw [BitVec.toNat_ofNat, Nat.mod_self, BitVec.toNat_zero]
  rw [weyl_add, weyl, hfull, BitVec.zero_mul, BitVec.add_zero]

/-- An invertible step reaches every word from every other. -/
theorem exists_weyl {step inv : BitVec w} (h : step * inv = 1#w) (start x : BitVec w) :
    ∃ n < 2 ^ w, weyl start step n = x := by
  refine ⟨((x - start) * inv).toNat, BitVec.isLt _, ?_⟩
  rw [weyl, BitVec.ofNat_toNat, BitVec.setWidth_eq, BitVec.mul_assoc, BitVec.mul_comm inv, h,
    BitVec.mul_one, BitVec.add_comm, BitVec.sub_add_cancel]

theorem weyl_injective {step inv : BitVec w} (h : step * inv = 1#w) (start : BitVec w) {m n : ℕ}
    (hm : m < 2 ^ w) (hn : n < 2 ^ w) (heq : weyl start step m = weyl start step n) : m = n := by
  have hproduct := mul_injective h ((BitVec.add_right_inj start).mp heq)
  have hnat := congrArg BitVec.toNat hproduct
  rwa [BitVec.toNat_ofNat, BitVec.toNat_ofNat, Nat.mod_eq_of_lt hm, Nat.mod_eq_of_lt hn] at hnat

/-- Within a full cycle an injective function of the state takes every value once, so as many
steps have a property as there are words with it. -/
theorem card_weyl {step inv : BitVec w} (h : step * inv = 1#w) (start : BitVec w)
    {mix : BitVec w → BitVec w} (hmix : Function.Injective mix) (p : ℕ → Prop) [DecidablePred p] :
    ((Finset.range (2 ^ w)).filter fun n => p (mix (weyl start step n)).toNat).card =
      ((Finset.range (2 ^ w)).filter p).card := by
  have hinj : Set.InjOn (fun n => (mix (weyl start step n)).toNat) (Finset.range (2 ^ w)) := by
    intro m hm n hn heq
    exact weyl_injective h start (Finset.mem_range.mp hm) (Finset.mem_range.mp hn)
      (hmix (BitVec.eq_of_toNat_eq heq))
  have himage : (Finset.range (2 ^ w)).image (fun n => (mix (weyl start step n)).toNat) =
      Finset.range (2 ^ w) := by
    apply Finset.eq_of_subset_of_card_le
    · intro v hv
      obtain ⟨n, -, rfl⟩ := Finset.mem_image.mp hv
      exact Finset.mem_range.mpr (BitVec.isLt _)
    · rw [Finset.card_image_of_injOn hinj]
  conv_rhs => rw [← himage, Finset.filter_image]
  rw [Finset.card_image_of_injOn (hinj.mono (Finset.coe_subset.mpr (Finset.filter_subset _ _)))]

end Aegis.Word

import Mathlib.Algebra.BigOperators.Group.List.Basic
import Mathlib.Algebra.Order.BigOperators.Group.List
import Mathlib.Data.List.ProdSigma
import Mathlib.Tactic

/-!
# Rank sums and pairs

The average rank of a value among others, ties sharing theirs, is half of a
number that counts twice what lies below. Summed over one of two classes these
numbers count the pairs that the class wins and draws against the other.
-/

namespace Aegis
namespace RankSum
variable {α : Type} [LinearOrder α]

def below (l : List α) (a : α) : ℕ := l.countP fun b => b < a

def tied (l : List α) (a : α) : ℕ := l.countP fun b => b = a

/-- Twice the mean of the ranks, counted from one, that the values tied with `a` occupy. -/
def doubleRank (l : List α) (a : α) : ℕ := 2 * below l a + tied l a + 1

/-- The pairs in which the first value is the higher one. -/
def wins (pos neg : List α) : ℕ := (pos ×ˢ neg).countP fun p => p.2 < p.1

/-- The pairs of equal values. -/
def draws (pos neg : List α) : ℕ := (pos ×ˢ neg).countP fun p => p.1 = p.2

theorem below_append (l l' : List α) (a : α) : below (l ++ l') a = below l a + below l' a :=
  List.countP_append

theorem tied_append (l l' : List α) (a : α) : tied (l ++ l') a = tied l a + tied l' a :=
  List.countP_append

theorem below_perm {l l' : List α} (h : l.Perm l') (a : α) : below l a = below l' a :=
  h.countP_eq _

theorem tied_perm {l l' : List α} (h : l.Perm l') (a : α) : tied l a = tied l' a :=
  h.countP_eq _

theorem doubleRank_perm {l l' : List α} (h : l.Perm l') (a : α) :
    doubleRank l a = doubleRank l' a := by
  rw [doubleRank, doubleRank, below_perm h, tied_perm h]

theorem doubleRank_of_group {before group after : List α} {a : α}
    (hbefore : ∀ b ∈ before, b < a) (hgroup : ∀ b ∈ group, b = a) (hafter : ∀ b ∈ after, a < b) :
    doubleRank (before ++ (group ++ after)) a =
      2 * before.length + group.length + 1 := by
  have hbelow : below (before ++ (group ++ after)) a = before.length := by
    have hall : below before a = before.length := List.countP_eq_length.mpr (by simpa using hbefore)
    have hsame : below group a = 0 := List.countP_eq_zero.mpr (by
      intro b hb
      simp [hgroup b hb])
    have hnone : below after a = 0 := List.countP_eq_zero.mpr (by
      intro b hb
      simpa using (hafter b hb).le)
    rw [below_append, below_append, hall, hsame, hnone]
    rfl
  have htied : tied (before ++ (group ++ after)) a = group.length := by
    have hlower : tied before a = 0 := List.countP_eq_zero.mpr (by
      intro b hb
      simpa using (hbefore b hb).ne)
    have hall : tied group a = group.length := List.countP_eq_length.mpr (by simpa using hgroup)
    have hhigher : tied after a = 0 := List.countP_eq_zero.mpr (by
      intro b hb
      simpa using (hafter b hb).ne')
    rw [tied_append, tied_append, hlower, hall, hhigher]
    omega
  rw [doubleRank, hbelow, htied]

theorem wins_eq_sum (pos neg : List α) : wins pos neg = (pos.map (below neg)).sum := by
  induction pos with
  | nil => rfl
  | cons a pos ih =>
      rw [List.map_cons, List.sum_cons, ← ih, wins, wins, List.product_cons, List.countP_append,
        List.countP_map]
      rfl

theorem draws_eq_sum (pos neg : List α) : draws pos neg = (pos.map (tied neg)).sum := by
  induction pos with
  | nil => rfl
  | cons a pos ih =>
      rw [List.map_cons, List.sum_cons, ← ih, draws, draws, List.product_cons,
        List.countP_append, List.countP_map, tied]
      congr 2
      funext b
      simp [eq_comm]

theorem below_tied_above (l : List α) (a : α) :
    below l a + tied l a + l.countP (fun b => a < b) = l.length := by
  induction l with
  | nil => rfl
  | cons b l ih =>
      simp only [below, tied, List.countP_cons, List.length_cons] at ih ⊢
      rcases lt_trichotomy b a with h | h | h
      · simp only [h, h.ne, h.not_gt, decide_true, decide_false, if_true, if_false,
          Bool.false_eq_true]
        omega
      · simp only [h, lt_irrefl, decide_true, decide_false, if_true, if_false,
          Bool.false_eq_true]
        omega
      · simp only [h, h.ne', h.not_gt, decide_true, decide_false, if_true, if_false,
          Bool.false_eq_true]
        omega

theorem below_cons (b : α) (l : List α) (a : α) :
    below (b :: l) a = below l a + if b < a then 1 else 0 := by
  simp [below, List.countP_cons]

theorem tied_cons (b : α) (l : List α) (a : α) :
    tied (b :: l) a = tied l a + if b = a then 1 else 0 := by
  simp [tied, List.countP_cons]

theorem sum_indicator {β : Type} (p : β → Prop) [DecidablePred p] (l : List β) :
    (l.map fun a => if p a then 1 else 0).sum = l.countP p := by
  induction l with
  | nil => rfl
  | cons a l ih =>
      rw [List.map_cons, List.sum_cons, ih, List.countP_cons, Nat.add_comm]
      simp

theorem sum_self (l : List α) :
    (l.map fun a => 2 * below l a + tied l a).sum = l.length * l.length := by
  induction l with
  | nil => rfl
  | cons b l ih =>
      have hothers : (l.map fun a => 2 * below (b :: l) a + tied (b :: l) a).sum =
          (l.map fun a => 2 * below l a + tied l a).sum +
            (2 * l.countP (fun a => b < a) + tied l b) := by
        have hterm : ∀ a, 2 * below (b :: l) a + tied (b :: l) a =
            (2 * below l a + tied l a) +
              (((if b < a then 1 else 0) + (if b < a then 1 else 0)) + if b = a then 1 else 0) := by
          intro a
          rw [below_cons, tied_cons]
          omega
        have htied : l.countP (fun a => b = a) = tied l b := by simp only [tied, eq_comm]
        rw [List.map_congr_left fun a _ => hterm a]
        simp only [List.sum_map_add, sum_indicator, htied]
        omega
      have hsplit := below_tied_above l b
      have hself : below (b :: l) b = below l b ∧ tied (b :: l) b = tied l b + 1 := by
        simp [below_cons, tied_cons]
      rw [List.map_cons, List.sum_cons, hothers, ih, hself.1, hself.2, List.length_cons]
      nlinarith

/-- The doubled ranks of one class among both, in terms of pairs across the classes. -/
theorem sum_doubleRank {all pos neg : List α} (h : all.Perm (pos ++ neg)) :
    (pos.map (doubleRank all)).sum =
      2 * wins pos neg + draws pos neg + pos.length * (pos.length + 1) := by
  have hterm : ∀ a, doubleRank all a =
      (2 * below pos a + tied pos a) + (below neg a + below neg a) + tied neg a + 1 := by
    intro a
    rw [doubleRank, below_perm h, tied_perm h, below_append, tied_append]
    omega
  have hones : (pos.map fun _ => 1).sum = pos.length := by simp
  have hself := sum_self pos
  have hwins := wins_eq_sum pos neg
  have hdraws := draws_eq_sum pos neg
  rw [List.map_congr_left fun a _ => hterm a]
  simp only [List.sum_map_add, hones] at hself ⊢
  rw [Nat.mul_add]
  omega

theorem wins_add_draws_le (pos neg : List α) :
    2 * wins pos neg + draws pos neg ≤ 2 * (pos.length * neg.length) := by
  induction pos with
  | nil => simp [wins, draws]
  | cons a pos ih =>
      have hsplit := below_tied_above neg a
      simp only [wins_eq_sum, draws_eq_sum, List.map_cons, List.sum_cons,
        List.length_cons] at ih ⊢
      rw [Nat.add_mul]
      omega

theorem wins_perm {pos pos' neg neg' : List α} (hpos : pos.Perm pos') (hneg : neg.Perm neg') :
    wins pos neg = wins pos' neg' := by
  rw [wins_eq_sum, wins_eq_sum, (hpos.map _).sum_eq]
  congr 2
  funext a
  exact below_perm hneg a

theorem draws_perm {pos pos' neg neg' : List α} (hpos : pos.Perm pos') (hneg : neg.Perm neg') :
    draws pos neg = draws pos' neg' := by
  rw [draws_eq_sum, draws_eq_sum, (hpos.map _).sum_eq]
  congr 2
  funext a
  exact tied_perm hneg a

theorem countP_mul_le_sum {β : Type} {p : β → Bool} {f : β → ℕ} {c : ℕ} {l : List β}
    (h : ∀ a ∈ l, p a = true → c ≤ f a) : l.countP p * c ≤ (l.map f).sum := by
  induction l with
  | nil => simp
  | cons a l ih =>
      have htail := ih fun b hb => h b (List.mem_cons_of_mem _ hb)
      rw [List.countP_cons, List.map_cons, List.sum_cons]
      split_ifs with hp
      · have hhead := h a List.mem_cons_self hp
        rw [Nat.add_mul, Nat.one_mul]
        omega
      · exact htail.trans (Nat.le_add_left _ _)

/-- Who is above a threshold wins against who is below it. -/
theorem countP_mul_le_wins (pos neg : List α) (threshold : α) :
    (pos.countP fun a => threshold ≤ a) * (neg.countP fun b => b < threshold) ≤ wins pos neg := by
  rw [wins_eq_sum]
  apply countP_mul_le_sum
  intro a _ ha
  apply List.countP_mono_left
  intro b _ hb
  have hle : threshold ≤ a := of_decide_eq_true ha
  exact decide_eq_true ((of_decide_eq_true hb).trans_le hle)

/-- Who is below a threshold neither wins nor draws against who is above it. -/
theorem wins_add_draws_add_le (pos neg : List α) (threshold : α) :
    wins pos neg + draws pos neg +
        (pos.countP fun a => a < threshold) * (neg.countP fun b => threshold ≤ b) ≤
      pos.length * neg.length := by
  have hlosses : (pos.countP fun a => a < threshold) * (neg.countP fun b => threshold ≤ b) ≤
      (pos.map fun a => neg.countP fun b => a < b).sum := by
    apply countP_mul_le_sum
    intro a _ ha
    apply List.countP_mono_left
    intro b _ hb
    have hlt : a < threshold := of_decide_eq_true ha
    exact decide_eq_true (hlt.trans_le (of_decide_eq_true hb))
  have hall : wins pos neg + draws pos neg + (pos.map fun a => neg.countP fun b => a < b).sum =
      pos.length * neg.length := by
    rw [wins_eq_sum, draws_eq_sum, ← List.sum_map_add, ← List.sum_map_add]
    simp only [below_tied_above, List.map_const', List.sum_replicate, smul_eq_mul]
  omega

end RankSum
end Aegis

import Aegis.OrderedTable
import Mathlib.Logic.Function.Basic

/-!
# Replayed updates

A map to which a list of updates is applied in order, so that the last one of a
key wins. Replaying the end of a list over what the whole list led to changes
nothing, which is what a replica that starts from a later copy relies on.
-/

namespace Aegis
variable {κ ν : Type} [DecidableEq κ]

def replay (m : κ → Option ν) (l : List (κ × ν)) : κ → Option ν :=
  l.foldl (fun m u => Function.update m u.1 (some u.2)) m

@[simp] theorem replay_nil (m : κ → Option ν) : replay m [] = m := rfl

@[simp] theorem replay_cons (m : κ → Option ν) (u : κ × ν) (l : List (κ × ν)) :
    replay m (u :: l) = replay (Function.update m u.1 (some u.2)) l := rfl

theorem replay_append (m : κ → Option ν) (l n : List (κ × ν)) :
    replay m (l ++ n) = replay (replay m l) n := List.foldl_append

theorem replay_of_notMem {l : List (κ × ν)} {k : κ} (hk : k ∉ l.map Prod.fst) (m : κ → Option ν) :
    replay m l k = m k := by
  induction l generalizing m with
  | nil => rfl
  | cons u l ih =>
      rw [List.map_cons, List.mem_cons, not_or] at hk
      rw [replay_cons, ih hk.2, Function.update_of_ne hk.1]

/-- A key that is updated forgets what it was. -/
theorem replay_of_mem {l : List (κ × ν)} {k : κ} (hk : k ∈ l.map Prod.fst) (m m' : κ → Option ν) :
    replay m l k = replay m' l k := by
  induction l generalizing m m' with
  | nil => cases hk
  | cons u l ih =>
      rw [replay_cons, replay_cons]
      by_cases hl : k ∈ l.map Prod.fst
      · exact ih hl _ _
      · have hku : k = u.1 := (List.mem_cons.mp hk).resolve_right hl
        rw [replay_of_notMem hl, replay_of_notMem hl, hku, Function.update_self,
          Function.update_self]

theorem replay_suffix (m : κ → Option ν) (l n : List (κ × ν)) :
    replay (replay m (l ++ n)) n = replay m (l ++ n) := by
  funext k
  by_cases hk : k ∈ n.map Prod.fst
  · rw [replay_append m, replay_of_mem hk]
  · rw [replay_of_notMem hk]

theorem replay_congr {m m' : κ → Option ν} {k : κ} (h : m k = m' k) (l : List (κ × ν)) :
    replay m l k = replay m' l k := by
  by_cases hk : k ∈ l.map Prod.fst
  · exact replay_of_mem hk m m'
  · rw [replay_of_notMem hk, replay_of_notMem hk, h]

variable {κ' ν' : Type} [DecidableEq κ']

theorem replay_map {f : κ → κ'} (hf : Function.Injective f) (g : ν → ν') (m : κ → Option ν)
    (m' : κ' → Option ν') (l : List (κ × ν)) {k : κ} (h : m' (f k) = (m k).map g) :
    replay m' (l.map fun u => (f u.1, g u.2)) (f k) = (replay m l k).map g := by
  induction l generalizing m m' with
  | nil => exact h
  | cons u l ih =>
      rw [List.map_cons, replay_cons, replay_cons]
      apply ih
      by_cases hk : k = u.1
      · rw [hk, Function.update_self, Function.update_self, Option.map_some]
      · rw [Function.update_of_ne hk, Function.update_of_ne (fun he => hk (hf he)), h]

namespace OrderedTable
variable {κ ν : Type} [LinearOrder κ]

theorem get?_foldl_insert (l : List (κ × ν)) (t : OrderedTable κ ν) (k : κ) :
    (l.foldl (fun t u => t.insert u.1 u.2) t).get? k = replay t.get? l k := by
  induction l generalizing t with
  | nil => rfl
  | cons u l ih =>
      rw [List.foldl_cons, ih, replay_cons]
      apply replay_congr
      rw [get?_insert, Function.update_apply]

theorem get?_eq_replay (t : OrderedTable κ ν) (k : κ) :
    t.get? k = replay (fun _ => none) t.rows k := by
  have hrows := get?_foldl_insert t.rows empty k
  rw [show t.rows.foldl (fun t u => t.insert u.1 u.2) empty = t from ofList_rows t] at hrows
  rw [hrows]
  exact replay_congr rfl _

/-- A table read in key order into another with other keys and values. -/
theorem get?_rekeyed {α : Type} {κ κ' ν ν' : Type} [LinearOrder κ] [LinearOrder κ']
    (t : OrderedTable κ ν) (name : ν → α) {f : α → κ} {g : α → κ'} (hf : Function.Injective f)
    (hg : Function.Injective g) {key : ν → κ'}
    (hkeys : ∀ r ∈ t.rows, r.1 = f (name r.2) ∧ key r.2 = g (name r.2)) (shown : ν → ν') (a : α) :
    ((t.rows.map Prod.snd).foldl (fun u row => u.insert (key row) (shown row)) empty).get? (g a) =
      (t.get? (f a)).map shown := by
  classical
  obtain ⟨named, hnamed⟩ : ∃ named : List (α × ν), named = t.rows.map fun r => (name r.2, r.2) :=
    ⟨_, rfl⟩
  have hrows : t.rows = named.map fun u => (f u.1, id u.2) := by
    rw [hnamed, List.map_map]
    exact (List.map_id t.rows).symm.trans
      (List.map_congr_left fun r hr => Prod.ext (hkeys r hr).1 rfl)
  have hread : (t.rows.map fun r => (key r.2, shown r.2)) =
      named.map fun u => (g u.1, shown u.2) := by
    rw [hnamed, List.map_map]
    exact List.map_congr_left fun r hr => Prod.ext (hkeys r hr).2 rfl
  have hfold : (t.rows.map Prod.snd).foldl (fun u row => u.insert (key row) (shown row)) empty =
      (t.rows.map fun r => (key r.2, shown r.2)).foldl (fun t u => t.insert u.1 u.2) empty := by
    rw [List.foldl_map, List.foldl_map]
  rw [hfold, hread, get?_foldl_insert, get?_eq_replay t, hrows,
    replay_map hg shown (fun _ => none) _ named rfl, replay_map hf id (fun _ => none) _ named rfl]
  rw [Option.map_id_fun, id_eq]

end OrderedTable
end Aegis

import Mathlib.Data.List.Pairwise
import Mathlib.Data.List.Sublists
import Mathlib.Order.Lattice
import Mathlib.Tactic

/-!
# Tables ordered by their keys

A finite map stored as its rows in strictly increasing key order. The order is
a field, so a table with a repeated or misplaced key cannot be built. Embedded
stores and ordered maps of a program are instances; nothing here names one.
-/

namespace Aegis

/-- Rows sorted strictly by key. -/
structure OrderedTable (κ ν : Type) [LinearOrder κ] where
  rows : List (κ × ν)
  sorted : rows.Pairwise fun a b => a.1 < b.1

namespace OrderedTable
variable {κ ν : Type} [LinearOrder κ]

instance [DecidableEq ν] : DecidableEq (OrderedTable κ ν) := fun a b =>
  decidable_of_iff (a.rows = b.rows) ⟨fun h => by cases a; cases b; cases h; rfl, fun h => h ▸ rfl⟩

@[ext] theorem ext {t u : OrderedTable κ ν} (h : t.rows = u.rows) : t = u := by
  cases t; cases u; cases h; rfl

def empty : OrderedTable κ ν := ⟨[], List.Pairwise.nil⟩

@[simp] theorem empty_rows : (empty : OrderedTable κ ν).rows = [] := rfl

/-- One pass: a row goes before the first larger key and replaces an equal one. -/
def insertRow (k : κ) (v : ν) : List (κ × ν) → List (κ × ν)
  | [] => [(k, v)]
  | (a, b) :: t =>
      if k < a then (k, v) :: (a, b) :: t
      else if k = a then (k, v) :: t
      else (a, b) :: insertRow k v t

theorem mem_insertRow {k : κ} {v : ν} {x : κ × ν} {l : List (κ × ν)}
    (h : x ∈ insertRow k v l) : x = (k, v) ∨ x ∈ l := by
  induction l with
  | nil => exact Or.inl (by simpa [insertRow] using h)
  | cons a t ih =>
      obtain ⟨a, b⟩ := a
      simp only [insertRow] at h
      split_ifs at h with h₁ h₂
      · simpa using h
      · rcases List.mem_cons.mp h with h | h
        · exact Or.inl h
        · exact Or.inr (List.mem_cons_of_mem _ h)
      · rcases List.mem_cons.mp h with h | h
        · exact Or.inr (h ▸ List.mem_cons_self)
        · exact (ih h).imp_right (List.mem_cons_of_mem _)

theorem insertRow_sorted (k : κ) (v : ν) {l : List (κ × ν)}
    (h : l.Pairwise fun a b => a.1 < b.1) :
    (insertRow k v l).Pairwise fun a b => a.1 < b.1 := by
  induction l with
  | nil => simp [insertRow]
  | cons a t ih =>
      obtain ⟨a, b⟩ := a
      obtain ⟨hhead, htail⟩ := List.pairwise_cons.mp h
      simp only [insertRow]
      split_ifs with h₁ h₂
      · refine List.pairwise_cons.mpr ⟨?_, h⟩
        intro x hx
        rcases List.mem_cons.mp hx with rfl | hx
        · exact h₁
        · exact h₁.trans (hhead x hx)
      · subst h₂
        exact List.pairwise_cons.mpr ⟨hhead, htail⟩
      · refine List.pairwise_cons.mpr ⟨?_, ih htail⟩
        intro x hx
        rcases mem_insertRow hx with rfl | hx
        · exact lt_of_le_of_ne (not_lt.mp h₁) (Ne.symm h₂)
        · exact hhead x hx

def insert (t : OrderedTable κ ν) (k : κ) (v : ν) : OrderedTable κ ν :=
  ⟨insertRow k v t.rows, insertRow_sorted k v t.sorted⟩

theorem insertRow_above (k : κ) (v : ν) {l : List (κ × ν)} (h : ∀ x ∈ l, x.1 < k) :
    insertRow k v l = l ++ [(k, v)] := by
  induction l with
  | nil => rfl
  | cons a t ih =>
      obtain ⟨a, b⟩ := a
      have ha : a < k := h (a, b) List.mem_cons_self
      simp only [insertRow, not_lt.mpr ha.le, ne_of_gt ha, if_false, List.cons_append]
      rw [ih fun x hx => h x (List.mem_cons_of_mem _ hx)]

theorem insert_rows_above (t : OrderedTable κ ν) (k : κ) (v : ν)
    (h : ∀ x ∈ t.rows, x.1 < k) : (t.insert k v).rows = t.rows ++ [(k, v)] :=
  insertRow_above k v h

def get? (t : OrderedTable κ ν) (k : κ) : Option ν :=
  (t.rows.find? fun r => r.1 = k).map Prod.snd

@[simp] theorem get?_empty (k : κ) : (empty : OrderedTable κ ν).get? k = none := rfl

theorem find?_insertRow_self (k : κ) (v : ν) (l : List (κ × ν)) :
    ((insertRow k v l).find? fun r => r.1 = k) = some (k, v) := by
  induction l with
  | nil => simp [insertRow]
  | cons a t ih =>
      obtain ⟨a, b⟩ := a
      simp only [insertRow]
      split_ifs with h₁ h₂
      · simp
      · simp
      · simp [Ne.symm h₂, ih]

theorem find?_insertRow_ne {k j : κ} (v : ν) (hj : j ≠ k) (l : List (κ × ν)) :
    ((insertRow k v l).find? fun r => r.1 = j) = l.find? fun r => r.1 = j := by
  induction l with
  | nil => simp [insertRow, hj.symm]
  | cons a t ih =>
      obtain ⟨a, b⟩ := a
      simp only [insertRow]
      split_ifs with h₁ h₂
      · simp [hj.symm]
      · subst h₂
        simp [hj.symm]
      · by_cases haj : a = j <;> simp [haj, ih]

@[simp] theorem get?_insert_self (t : OrderedTable κ ν) (k : κ) (v : ν) :
    (t.insert k v).get? k = some v := by
  simp [get?, insert, find?_insertRow_self]

theorem get?_insert_ne (t : OrderedTable κ ν) {k j : κ} (v : ν) (h : j ≠ k) :
    (t.insert k v).get? j = t.get? j := by
  simp [get?, insert, find?_insertRow_ne v h]

/-- Rows that satisfy a test on their keys, in the same order. -/
def restrict (t : OrderedTable κ ν) (p : κ → Bool) : OrderedTable κ ν :=
  ⟨t.rows.filter fun r => p r.1, t.sorted.filter _⟩

theorem get?_insert (t : OrderedTable κ ν) (k : κ) (v : ν) (j : κ) :
    (t.insert k v).get? j = if j = k then some v else t.get? j := by
  split_ifs with h
  · rw [h, get?_insert_self]
  · exact get?_insert_ne t v h

@[simp] theorem restrict_rows (t : OrderedTable κ ν) (p : κ → Bool) :
    (t.restrict p).rows = t.rows.filter fun r => p r.1 := rfl

def erase (t : OrderedTable κ ν) (k : κ) : OrderedTable κ ν := t.restrict fun a => a ≠ k

theorem get?_restrict (t : OrderedTable κ ν) (p : κ → Bool) (k : κ) :
    (t.restrict p).get? k = if p k then t.get? k else none := by
  obtain ⟨rows, _⟩ := t
  simp only [get?, restrict]
  induction rows with
  | nil => simp
  | cons a l ih =>
      by_cases hp : p a.1 <;> by_cases hk : a.1 = k <;>
        simp_all [List.pairwise_cons]

@[simp] theorem get?_erase_self (t : OrderedTable κ ν) (k : κ) : (t.erase k).get? k = none := by
  rw [erase, get?_restrict, if_neg (by simp)]

theorem get?_erase_ne (t : OrderedTable κ ν) {k j : κ} (h : j ≠ k) :
    (t.erase k).get? j = t.get? j := by
  rw [erase, get?_restrict, if_pos (by simpa using h)]

theorem get?_erase (t : OrderedTable κ ν) (k j : κ) :
    (t.erase k).get? j = if j = k then none else t.get? j := by
  split_ifs with h
  · rw [h, get?_erase_self]
  · exact get?_erase_ne t h

theorem get?_erase_some {t : OrderedTable κ ν} {k j : κ} {v : ν}
    (h : (t.erase k).get? j = some v) : j ≠ k ∧ t.get? j = some v := by
  by_cases hj : j = k
  · subst hj
    rw [get?_erase_self] at h
    cases h
  · exact ⟨hj, get?_erase_ne t hj ▸ h⟩

theorem insertRow_filter_of_pos (p : κ → Bool) {k : κ} (v : ν) (hk : p k = true)
    {l : List (κ × ν)} (hs : l.Pairwise fun a b => a.1 < b.1) :
    (insertRow k v l).filter (fun r => p r.1) = insertRow k v (l.filter fun r => p r.1) := by
  induction l with
  | nil => simp [insertRow, hk]
  | cons a t ih =>
      obtain ⟨a, b⟩ := a
      obtain ⟨hhead, htail⟩ := List.pairwise_cons.mp hs
      simp only [insertRow]
      split_ifs with h₁ h₂
      · by_cases ha : p a
        · simp [hk, ha, insertRow, h₁]
        · have hlow : ∀ x ∈ t.filter (fun r => p r.1), k < x.1 := fun x hx =>
            h₁.trans (hhead x (List.mem_of_mem_filter hx))
          have hins : ∀ l : List (κ × ν), (∀ x ∈ l, k < x.1) →
              insertRow k v l = (k, v) :: l := by
            intro l hl
            cases l with
            | nil => rfl
            | cons x l => simp [insertRow, hl x List.mem_cons_self]
          simp [hk, ha, hins _ hlow]
      · subst h₂
        simp [hk, insertRow]
      · by_cases ha : p a
        · simp [ha, insertRow, h₁, h₂, ih htail]
        · simp [ha, ih htail]

theorem insertRow_filter_of_neg (p : κ → Bool) {k : κ} (v : ν) (hk : p k = false)
    (l : List (κ × ν)) :
    (insertRow k v l).filter (fun r => p r.1) = l.filter fun r => p r.1 := by
  induction l with
  | nil => simp [insertRow, hk]
  | cons a t ih =>
      obtain ⟨a, b⟩ := a
      simp only [insertRow]
      split_ifs with h₁ h₂
      · simp [hk]
      · subst h₂
        simp [hk]
      · by_cases ha : p a <;> simp [ha, ih]

theorem restrict_insert_of_pos (t : OrderedTable κ ν) (p : κ → Bool) {k : κ} (v : ν)
    (hk : p k = true) : (t.insert k v).restrict p = (t.restrict p).insert k v :=
  ext (insertRow_filter_of_pos p v hk t.sorted)

theorem restrict_insert_of_neg (t : OrderedTable κ ν) (p : κ → Bool) {k : κ} (v : ν)
    (hk : p k = false) : (t.insert k v).restrict p = t.restrict p :=
  ext (insertRow_filter_of_neg p v hk t.rows)

theorem restrict_restrict_comm (t : OrderedTable κ ν) (p q : κ → Bool) :
    (t.restrict p).restrict q = (t.restrict q).restrict p :=
  ext (by simp [List.filter_filter, Bool.and_comm])

theorem restrict_erase_of_neg (t : OrderedTable κ ν) (p : κ → Bool) {k : κ}
    (hk : p k = false) : (t.erase k).restrict p = t.restrict p := by
  apply ext
  simp only [erase, restrict_rows, List.filter_filter]
  refine List.filter_congr fun r _ => ?_
  by_cases hr : r.1 = k
  · simp [hr, hk]
  · simp [hr]

theorem mem_insert_rows {t : OrderedTable κ ν} {k : κ} {v : ν} {x : κ × ν}
    (h : x ∈ (t.insert k v).rows) : x = (k, v) ∨ x ∈ t.rows := mem_insertRow h

theorem insertRow_mem (k : κ) (v : ν) (l : List (κ × ν)) : (k, v) ∈ insertRow k v l :=
  List.mem_of_find?_eq_some (find?_insertRow_self k v l)

theorem mem_insertRow_of_ne {k : κ} {v : ν} {x : κ × ν} {l : List (κ × ν)}
    (h : x ∈ l) (hk : x.1 ≠ k) : x ∈ insertRow k v l := by
  induction l with
  | nil => cases h
  | cons a t ih =>
      obtain ⟨a, b⟩ := a
      simp only [insertRow]
      split_ifs with h₁ h₂
      · exact List.mem_cons_of_mem _ h
      · subst h₂
        rcases List.mem_cons.mp h with rfl | h
        · exact (hk rfl).elim
        · exact List.mem_cons_of_mem _ h
      · rcases List.mem_cons.mp h with rfl | h
        · exact List.mem_cons_self
        · exact List.mem_cons_of_mem _ (ih h)

theorem keys_nodup (t : OrderedTable κ ν) : (t.rows.map Prod.fst).Nodup :=
  List.pairwise_map.mpr (t.sorted.imp fun hlt => hlt.ne)

theorem get?_eq_some_iff {t : OrderedTable κ ν} {k : κ} {v : ν} :
    t.get? k = some v ↔ (k, v) ∈ t.rows := by
  constructor
  · intro h
    obtain ⟨r, hr, rfl⟩ := Option.map_eq_some_iff.mp h
    have hk : r.1 = k := by simpa using List.find?_some hr
    rw [← hk]
    exact List.mem_of_find?_eq_some hr
  · intro h
    have hfind : (t.rows.find? fun r => r.1 = k) = some (k, v) := by
      cases hfind : t.rows.find? fun r => r.1 = k with
      | none =>
          have hno := List.find?_eq_none.mp hfind (k, v) h
          simp at hno
      | some r =>
          have hk : r.1 = k := by simpa using List.find?_some hfind
          have hr := List.mem_of_find?_eq_some hfind
          rw [List.inj_on_of_nodup_map t.keys_nodup hr h hk]
    simp [get?, hfind]

theorem insertRow_of_mem {k : κ} {v w : ν} {l : List (κ × ν)}
    (hl : l.Pairwise fun a b => a.1 < b.1) (h : (k, v) ∈ l) :
    insertRow k w l = l.map fun r => if r.1 = k then (k, w) else r := by
  induction l with
  | nil => cases h
  | cons a l ih =>
      obtain ⟨hhead, htail⟩ := List.pairwise_cons.mp hl
      simp only [insertRow, List.map_cons]
      rcases List.mem_cons.mp h with rfl | h
      · have hrest : l.map (fun r => if r.1 = k then (k, w) else r) = l := by
          refine (List.map_congr_left fun r hr => ?_).trans (List.map_id l)
          rw [if_neg (hhead r hr).ne', id]
        simp [hrest]
      · have hlt : a.1 < k := hhead (k, v) h
        rw [if_neg hlt.asymm, if_neg hlt.ne', if_neg hlt.ne, ih htail h]

theorem insert_rows_of_get? {t : OrderedTable κ ν} {k : κ} {v : ν} (w : ν)
    (h : t.get? k = some v) :
    (t.insert k w).rows = t.rows.map fun r => if r.1 = k then (k, w) else r :=
  insertRow_of_mem t.sorted (get?_eq_some_iff.mp h)

theorem insert_eq_self_iff {t : OrderedTable κ ν} {k : κ} {v : ν} :
    t.insert k v = t ↔ t.get? k = some v := by
  constructor
  · intro h
    rw [← h, get?_insert_self]
  · intro h
    apply ext
    rw [insert_rows_of_get? v h]
    refine (List.map_congr_left fun r hr => ?_).trans (List.map_id t.rows)
    split
    · rename_i hk
      have hr' := get?_eq_some_iff.mpr hr
      rw [hk, h] at hr'
      exact Prod.ext hk.symm (Option.some.inj hr')
    · rfl

/-- Rows of an association list inserted one by one; a later entry replaces an
earlier one with the same key. -/
def ofList (l : List (κ × ν)) : OrderedTable κ ν :=
  l.foldl (fun t r => t.insert r.1 r.2) empty

theorem mem_ofList {l : List (κ × ν)} {x : κ × ν} (h : x ∈ (ofList l).rows) : x ∈ l := by
  have hfold : ∀ (l : List (κ × ν)) (t : OrderedTable κ ν),
      x ∈ (l.foldl (fun t r => t.insert r.1 r.2) t).rows → x ∈ t.rows ∨ x ∈ l := by
    intro l
    induction l with
    | nil => exact fun t ht => Or.inl ht
    | cons a l ih =>
        intro t ht
        rcases ih (t.insert a.1 a.2) ht with ht | hl
        · rcases mem_insert_rows ht with rfl | ht
          · exact Or.inr List.mem_cons_self
          · exact Or.inl ht
        · exact Or.inr (List.mem_cons_of_mem _ hl)
  exact (hfold l empty h).resolve_left (by simp)

theorem length_insertRow_le (k : κ) (v : ν) (l : List (κ × ν)) :
    (insertRow k v l).length ≤ l.length + 1 := by
  induction l with
  | nil => simp [insertRow]
  | cons a t ih =>
      obtain ⟨a, b⟩ := a
      simp only [insertRow]
      split_ifs
      · simp
      · simp
      · simpa using ih

theorem length_ofList_le (l : List (κ × ν)) : (ofList l).rows.length ≤ l.length := by
  have hfold : ∀ (l : List (κ × ν)) (t : OrderedTable κ ν),
      (l.foldl (fun t r => t.insert r.1 r.2) t).rows.length ≤ t.rows.length + l.length := by
    intro l
    induction l with
    | nil => exact fun t => le_rfl
    | cons a l ih =>
        intro t
        have hrest := ih (t.insert a.1 a.2)
        have hone : (t.insert a.1 a.2).rows.length ≤ t.rows.length + 1 :=
          length_insertRow_le a.1 a.2 t.rows
        rw [List.foldl_cons, List.length_cons]
        omega
  refine (hfold l empty).trans ?_
  rw [empty_rows, List.length_nil, Nat.zero_add]

theorem foldl_insert_rows (l : List (κ × ν)) (t : OrderedTable κ ν)
    (hl : l.Pairwise fun a b => a.1 < b.1) (ht : ∀ x ∈ t.rows, ∀ y ∈ l, x.1 < y.1) :
    (l.foldl (fun t r => t.insert r.1 r.2) t).rows = t.rows ++ l := by
  induction l generalizing t with
  | nil => simp
  | cons a l ih =>
      obtain ⟨hhead, htail⟩ := List.pairwise_cons.mp hl
      have hins := insert_rows_above t a.1 a.2 fun x hx => ht x hx a List.mem_cons_self
      have hstep := ih (t.insert a.1 a.2) htail (by
        intro x hx y hy
        rw [hins] at hx
        rcases List.mem_append.mp hx with hx | hx
        · exact ht x hx y (List.mem_cons_of_mem _ hy)
        · rw [List.mem_singleton.mp hx]
          exact hhead y hy)
      rw [List.foldl_cons, hstep, hins, List.append_assoc]
      rfl

/-- Reading back the rows of a table rebuilds the table. -/
@[simp] theorem ofList_rows (t : OrderedTable κ ν) : ofList t.rows = t :=
  ext (by simpa [ofList] using foldl_insert_rows t.rows empty t.sorted (by simp))

variable {μ : Type}

def mapValues (f : ν → μ) (t : OrderedTable κ ν) : OrderedTable κ μ :=
  ⟨t.rows.map fun r => (r.1, f r.2), List.pairwise_map.mpr t.sorted⟩

@[simp] theorem mapValues_rows (f : ν → μ) (t : OrderedTable κ ν) :
    (t.mapValues f).rows = t.rows.map fun r => (r.1, f r.2) := rfl

theorem mapValues_eq_self_iff (f : ν → ν) (t : OrderedTable κ ν) :
    t.mapValues f = t ↔ ∀ v ∈ t.rows.map Prod.snd, f v = v := by
  have hrows : t.mapValues f = t ↔ t.rows.map (fun r => (r.1, f r.2)) = t.rows :=
    ⟨fun h => congrArg rows h, fun h => ext h⟩
  have hmap : t.rows.map (fun r => (r.1, f r.2)) = t.rows ↔ ∀ r ∈ t.rows, (r.1, f r.2) = r := by
    simpa only [List.map_id, id] using List.map_inj_left (l := t.rows) (g := id)
  rw [hrows, hmap]
  constructor
  · intro h v hv
    obtain ⟨r, hr, rfl⟩ := List.mem_map.mp hv
    exact congrArg Prod.snd (h r hr)
  · intro h r hr
    rw [h r.2 (List.mem_map_of_mem hr)]

end OrderedTable
end Aegis

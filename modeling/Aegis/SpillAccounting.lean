import Aegis.Spill

/-!
# The byte total and the size of a drain

The spill caches the sum of its row lengths in a field of the handle, which
`open` rebuilds and every other operation adjusts. While the cache is exact, the
walk of `enforce_cap` ends within the cap.
-/

namespace Aegis
namespace Spill
variable {ε ρ ι : Type} (c : Codec ε ρ ι)

/-- Encoded bytes of a list of rows. -/
def total (l : List (ℕ × ρ)) : ℕ := (l.map fun r => c.len r.2).sum

@[simp] theorem total_nil : total c ([] : List (ℕ × ρ)) = 0 := rfl

@[simp] theorem total_cons (r : ℕ × ρ) (l : List (ℕ × ρ)) :
    total c (r :: l) = c.len r.2 + total c l := by
  simp [total]

@[simp] theorem total_append (l m : List (ℕ × ρ)) : total c (l ++ m) = total c l + total c m := by
  simp [total]

/-- The cached byte total is the sum over the stored rows. -/
def Counted (s : Spill ρ) : Prop := s.bytes = total c s.rows

theorem reopen_counted (table : OrderedTable ℕ ρ) (maxBytes : ℕ) :
    Counted c (reopen c table maxBytes) := rfl

theorem capWalk_freed (cap running : ℕ) (l : List (ℕ × ρ)) :
    (capWalk c cap running l).2 = total c (l.take (capWalk c cap running l).1.length) := by
  induction l generalizing running with
  | nil => rfl
  | cons x l ih =>
      obtain ⟨k, v⟩ := x
      simp only [capWalk]
      split_ifs
      · rfl
      · simp [ih]

theorem capWalk_within {cap running : ℕ} {l : List (ℕ × ρ)} (h : running ≤ total c l) :
    running - (capWalk c cap running l).2 ≤ cap := by
  induction l generalizing running with
  | nil =>
      simp only [total_nil, nonpos_iff_eq_zero] at h
      simp [h]
  | cons x l ih =>
      obtain ⟨k, v⟩ := x
      simp only [capWalk, total_cons] at h ⊢
      split_ifs with hcap
      · simpa using hcap
      · have hrest : running - min (c.len v) running -
            (capWalk c cap (running - min (c.len v) running) l).2 ≤ cap := ih (by omega)
        change running - (c.len v + _) ≤ cap
        omega

theorem enforceCap_counted {s : Spill ρ} (cap : ℕ) (h : Counted c s) :
    Counted c (enforceCap c s cap) ∧ (enforceCap c s cap).bytes ≤ cap := by
  unfold enforceCap
  split_ifs with hcap
  · exact ⟨h, hcap⟩
  · have hkeys := capWalk_keys c cap s.bytes s.rows
    have hrest := filter_not_mem_take s.table.sorted (capWalk c cap s.bytes s.rows).1.length
    rw [← hkeys] at hrest
    have hfreed := capWalk_freed c cap s.bytes s.rows
    have hsplit : s.bytes = total c (s.rows.take (capWalk c cap s.bytes s.rows).1.length) +
        total c (s.rows.drop (capWalk c cap s.bytes s.rows).1.length) := by
      rw [← total_append, List.take_append_drop]
      exact h
    constructor
    · simp only [Counted, rows, OrderedTable.restrict_rows]
      rw [hrest, hfreed]
      exact Nat.sub_eq_of_eq_add' hsplit
    · exact capWalk_within c (le_of_eq h)

theorem writeRows_bytes {events : List ε} {t u : OrderedTable ℕ ρ} {cursor added bytes n : ℕ}
    {rs : List ρ} (h : c.encodeAll events = some rs)
    (hw : writeRows c t cursor added events = (some (u, bytes), n)) (m : ℕ) :
    bytes = added + total c (numbered m rs) := by
  induction events generalizing t cursor added rs m with
  | nil =>
      simp only [Codec.encodeAll, List.mapM_nil, Option.pure_def, Option.some.injEq] at h
      subst h
      cases hw
      rfl
  | cons e es ih =>
      simp only [Codec.encodeAll, List.mapM_cons, Option.bind_eq_bind, Option.bind_eq_some_iff,
        Option.pure_def, Option.some.injEq] at h
      obtain ⟨r, hr, rs, hrs, rfl⟩ := h
      simp only [writeRows, hr] at hw
      rw [ih hrs hw (m + 1), numbered, total_cons]
      exact Nat.add_assoc _ _ _

/-- Rows of all events of a push in a committed transaction, with the cap not
yet enforced. -/
def appended (s : Spill ρ) (events : List ε) : Spill ρ :=
  match writeRows c s.table s.writeCursor 0 events with
  | (none, cursor) => { s with writeCursor := cursor }
  | (some (t, added), cursor) =>
      { s with table := t, writeCursor := cursor, bytes := s.bytes + added }

theorem appended_some {s : Spill ρ} {events : List ε} {rs : List ρ}
    (h : c.encodeAll events = some rs) (hb : s.Below) :
    (appended c s events).rows = s.rows ++ numbered s.writeCursor rs ∧
    (appended c s events).writeCursor = s.writeCursor + rs.length ∧
    (appended c s events).bytes = s.bytes + total c (numbered s.writeCursor rs) ∧
    (appended c s events).maxBytes = s.maxBytes ∧ (appended c s events).dropped = s.dropped := by
  obtain ⟨u, bytes, hw, hrows⟩ := writeRows_some c h s.table s.writeCursor 0 hb
  have hbytes := writeRows_bytes c h hw s.writeCursor
  rw [Nat.zero_add] at hbytes
  simp only [appended, hw]
  exact ⟨hrows, trivial, by rw [hbytes], trivial, trivial⟩

theorem appended_none {s : Spill ρ} {events : List ε} (h : c.encodeAll events = none) :
    ∃ cursor, s.writeCursor ≤ cursor ∧ appended c s events = { s with writeCursor := cursor } := by
  obtain ⟨cursor, hw, hle⟩ := writeRows_none c h s.table s.writeCursor 0
  exact ⟨cursor, hle, by simp only [appended, hw]⟩

theorem push_eq_enforceCap {s : Spill ρ} {events : List ε} (hne : events ≠ [])
    (h : (push c s events).1 = true) :
    (push c s events).2 = enforceCap c (appended c s events) s.maxBytes ∧
      ∃ rs, c.encodeAll events = some rs := by
  cases events with
  | nil => exact (hne rfl).elim
  | cons e es =>
      cases hall : c.encodeAll (e :: es) with
      | none => rw [(push_none c hall).1] at h; cases h
      | some rs =>
          refine ⟨?_, rs, rfl⟩
          simp only [push, List.isEmpty_cons, Bool.false_eq_true, if_false, appended] at h ⊢
          split at h <;> simp_all

/-- A drained batch: the parsed form of a leading run of rows, within both caps
unless it is a single row, and empty only for an empty spill. -/
def Drained (s : Spill ρ) (maxEvents maxBytes : ℕ) (out : List (SpilledEvent ε)) : Prop :=
  (∃ n, List.Forall₂ (ReadsAs c) (s.rows.take n) out ∧
    (total c (s.rows.take n) ≤ maxBytes ∨ out.length ≤ 1)) ∧
  out.length ≤ max 1 maxEvents ∧ (s.rows ≠ [] → out ≠ [])

theorem drainLoop_bounds {maxEvents maxBytes : ℕ} {out out' : List (SpilledEvent ε)} {acc : ℕ}
    {before rest : List (ℕ × ρ)} (hout : List.Forall₂ (ReadsAs c) before out)
    (hacc : acc = total c before) (hlen : out.length ≤ max 1 maxEvents)
    (hroom : acc ≤ maxBytes ∨ out.length ≤ 1)
    (h : drainLoop c maxEvents maxBytes out acc rest = some out') :
    (∃ n, List.Forall₂ (ReadsAs c) (before ++ rest.take n) out' ∧
      (total c (before ++ rest.take n) ≤ maxBytes ∨ out'.length ≤ 1)) ∧
    out'.length ≤ max 1 maxEvents := by
  have hdone : (∃ n, List.Forall₂ (ReadsAs c) (before ++ rest.take n) out ∧
      (total c (before ++ rest.take n) ≤ maxBytes ∨ out.length ≤ 1)) ∧
      out.length ≤ max 1 maxEvents := by
    apply And.intro _ hlen
    exact ⟨0, by simpa using hout, by simpa [← hacc] using hroom⟩
  induction rest generalizing before out acc with
  | nil =>
      cases h
      exact hdone
  | cons x rest ih =>
      obtain ⟨k, v⟩ := x
      simp only [drainLoop] at h
      split_ifs at h with hstop
      · cases h
        exact hdone
      · cases hd : c.decode v with
        | none => simp [hd] at h
        | some e =>
            simp only [hd] at h
            have hreads : List.Forall₂ (ReadsAs c) (before ++ [(k, v)])
                (out ++ [(⟨k, e⟩ : SpilledEvent ε)]) :=
              List.rel_append hout (.cons ⟨rfl, hd⟩ .nil)
            have hsum : acc + c.len v = total c (before ++ [(k, v)]) := by simp [hacc]
            have hsize : (out ++ [(⟨k, e⟩ : SpilledEvent ε)]).length ≤ max 1 maxEvents ∧
                (acc + c.len v ≤ maxBytes ∨ (out ++ [(⟨k, e⟩ : SpilledEvent ε)]).length ≤ 1) := by
              -- only the first row is taken without a look at the caps
              by_cases hfirst : out = []
              · simp [hfirst]
              · simp only [hfirst, ne_eq, not_false_eq_true, true_and, not_or] at hstop
                simp only [List.length_append, List.length_singleton]
                omega
            have hnow : (∃ n, List.Forall₂ (ReadsAs c) (before ++ [(k, v)] ++ rest.take n)
                (out ++ [(⟨k, e⟩ : SpilledEvent ε)]) ∧
                (total c (before ++ [(k, v)] ++ rest.take n) ≤ maxBytes ∨
                  (out ++ [(⟨k, e⟩ : SpilledEvent ε)]).length ≤ 1)) ∧
                (out ++ [(⟨k, e⟩ : SpilledEvent ε)]).length ≤ max 1 maxEvents := by
              apply And.intro _ hsize.1
              exact ⟨0, by simpa using hreads, by simpa [hsum] using hsize.2⟩
            have hend : (∃ n, List.Forall₂ (ReadsAs c) (before ++ [(k, v)] ++ rest.take n) out' ∧
                (total c (before ++ [(k, v)] ++ rest.take n) ≤ maxBytes ∨ out'.length ≤ 1)) ∧
                out'.length ≤ max 1 maxEvents := by
              split_ifs at h with hfull
              · cases h
                exact hnow
              · exact ih hreads hsum hsize.1 hsize.2 h hnow
            obtain ⟨⟨n, hn⟩, hmax⟩ := hend
            apply And.intro _ hmax
            exact ⟨n + 1, by simpa using hn⟩

theorem drainBatch_drained {s : Spill ρ} {maxEvents maxBytes : ℕ} {out : List (SpilledEvent ε)}
    (h : drainBatch c s maxEvents maxBytes = some out) : Drained c s maxEvents maxBytes out := by
  have hbounds := drainLoop_bounds c (List.Forall₂.nil (R := ReadsAs c)) (total_nil c).symm
    (by simp) (by simp) h
  simp only [List.nil_append] at hbounds
  exact ⟨hbounds.1, hbounds.2, fun hs => drainBatch_ne_nil c hs h⟩

end Spill
end Aegis

import Aegis.Codec
import Aegis.OrderedTable

/-!
# The disk spill

`spill.rs`: rows under a sequence number that only grows, read from the low
end, deleted by an acknowledged high-water mark, and dropped from the low end
when the byte cap is exceeded. A transaction either commits or leaves the table
as it was; the cursor is a field of the handle and is not rolled back.
-/

namespace Aegis

/-- The open spill: its table, the next sequence number, the cached byte total,
the cap and the lifetime count of capped rows. -/
structure Spill (ρ : Type) where
  table : OrderedTable ℕ ρ
  writeCursor : ℕ
  bytes : ℕ
  maxBytes : ℕ
  dropped : ℕ
deriving DecidableEq

/-- One drained, sequence-tagged event awaiting acknowledgement. -/
structure SpilledEvent (ε : Type) where
  seq : ℕ
  event : ε
deriving DecidableEq, Repr

namespace Spill
variable {ε ρ ι : Type} (c : Codec ε ρ ι)

abbrev rows (s : Spill ρ) : List (ℕ × ρ) := s.table.rows

/-- The recovery state of `open`: one past the last key, and the sum of the
row lengths. -/
def reopen (table : OrderedTable ℕ ρ) (maxBytes : ℕ) : Spill ρ where
  table := table
  writeCursor := (table.rows.getLast?.map fun r => r.1 + 1).getD 0
  bytes := (table.rows.map fun r => c.len r.2).sum
  maxBytes := maxBytes
  dropped := 0

/-- The oldest keys to delete, and the bytes they free, until the running total
is within the cap. -/
def capWalk (cap : ℕ) : ℕ → List (ℕ × ρ) → List ℕ × ℕ
  | _, [] => ([], 0)
  | running, (k, v) :: rest =>
      if running ≤ cap then ([], 0) else
        let walk := capWalk cap (running - min (c.len v) running) rest
        (k :: walk.1, c.len v + walk.2)

/-- Drops oldest rows until the retained total is at or below the cap. The keys
were read in the same transaction, so each removal counts. -/
def enforceCap (s : Spill ρ) (cap : ℕ) : Spill ρ :=
  if s.bytes ≤ cap then s else
    let walk := capWalk c cap s.bytes s.rows
    { s with
      table := s.table.restrict fun k => k ∉ walk.1
      bytes := s.bytes - walk.2
      dropped := s.dropped + walk.1.length }

/-- The insert loop of `push`: the table to commit with the bytes added, or
nothing when an event does not serialize, and the cursor either way. -/
def writeRows : OrderedTable ℕ ρ → ℕ → ℕ → List ε → Option (OrderedTable ℕ ρ × ℕ) × ℕ
  | t, cursor, added, [] => (some (t, added), cursor)
  | t, cursor, added, e :: es =>
      match c.encode e with
      | none => (none, cursor)
      | some r => writeRows (t.insert cursor r) (cursor + 1) (added + c.len r) es

/-- Appends events at the tail and enforces the cap; `false` on an error. -/
def push (s : Spill ρ) (events : List ε) : Bool × Spill ρ :=
  if events.isEmpty then (true, s) else
    match writeRows c s.table s.writeCursor 0 events with
    | (none, cursor) => (false, { s with writeCursor := cursor })
    | (some (t, added), cursor) =>
        (true, enforceCap c
          { s with table := t, writeCursor := cursor, bytes := s.bytes + added } s.maxBytes)

/-- The scan of `drain_batch`: stops at a cap, fails on a row that does not
parse, and always takes the first row. -/
def drainLoop (maxEvents maxBytes : ℕ) :
    List (SpilledEvent ε) → ℕ → List (ℕ × ρ) → Option (List (SpilledEvent ε))
  | out, _, [] => some out
  | out, acc, (k, v) :: rest =>
      if out ≠ [] ∧ (maxEvents ≤ out.length ∨ maxBytes < acc + c.len v) then some out else
        match c.decode v with
        | none => none
        | some e =>
            let out' := out ++ [⟨k, e⟩]
            if maxEvents ≤ out'.length then some out'
            else drainLoop maxEvents maxBytes out' (acc + c.len v) rest

/-- Reads, without removing, from the low end. -/
def drainBatch (s : Spill ρ) (maxEvents maxBytes : ℕ) : Option (List (SpilledEvent ε)) :=
  drainLoop c maxEvents maxBytes [] 0 s.rows

/-- Deletes every row with `seq ≤ through`. -/
def ackThrough (s : Spill ρ) (through : ℕ) : Spill ρ :=
  { s with
    table := s.table.restrict fun k => through < k
    bytes := s.bytes - ((s.rows.filter fun r => r.1 ≤ through).map fun r => c.len r.2).sum }

/-- Every row was assigned a number below the cursor. -/
def Below (s : Spill ρ) : Prop := ∀ r ∈ s.rows, r.1 < s.writeCursor

/-- Rows numbered upward from a cursor. -/
def numbered : ℕ → List ρ → List (ℕ × ρ)
  | _, [] => []
  | n, r :: rs => (n, r) :: numbered (n + 1) rs

theorem numbered_snd (n : ℕ) (rs : List ρ) : (numbered n rs).map Prod.snd = rs := by
  induction rs generalizing n <;> simp [numbered, *]

theorem mem_numbered {n : ℕ} {rs : List ρ} {x : ℕ × ρ} (h : x ∈ numbered n rs) :
    n ≤ x.1 ∧ x.1 < n + rs.length := by
  induction rs generalizing n with
  | nil => cases h
  | cons r rs ih =>
      rcases List.mem_cons.mp h with rfl | h
      · simp
      · have := ih h
        simp only [List.length_cons]
        omega

theorem numbered_sorted (n : ℕ) (rs : List ρ) :
    (numbered n rs).Pairwise fun a b : ℕ × ρ => a.1 < b.1 := by
  induction rs generalizing n with
  | nil => exact List.Pairwise.nil
  | cons r rs ih => exact List.pairwise_cons.mpr ⟨fun x hx => (mem_numbered hx).1, ih (n + 1)⟩

/-- The ids of rows. -/
def rowUids (l : List (ℕ × ρ)) : List ι := l.map fun r => c.rowUid r.2

@[simp] theorem rowUids_nil : rowUids c ([] : List (ℕ × ρ)) = [] := rfl

@[simp] theorem rowUids_append (l m : List (ℕ × ρ)) :
    rowUids c (l ++ m) = rowUids c l ++ rowUids c m := List.map_append

@[simp] theorem rowUids_length (l : List (ℕ × ρ)) : (rowUids c l).length = l.length :=
  List.length_map _

theorem rowUids_sublist {l m : List (ℕ × ρ)} (h : l.Sublist m) :
    (rowUids c l).Sublist (rowUids c m) := h.map _

theorem rowUid_mem {l : List (ℕ × ρ)} {r : ℕ × ρ} (h : r ∈ l) : c.rowUid r.2 ∈ rowUids c l :=
  List.mem_map_of_mem h

theorem numbered_uids (n : ℕ) (rs : List ρ) : rowUids c (numbered n rs) = rs.map c.rowUid := by
  rw [rowUids, ← Function.comp_def c.rowUid Prod.snd, ← List.map_map, numbered_snd]

theorem reopen_below (table : OrderedTable ℕ ρ) (maxBytes : ℕ) :
    (reopen c table maxBytes).Below := by
  intro r hr
  obtain ⟨rows, hs⟩ := table
  rcases List.eq_nil_or_concat rows with rfl | ⟨front, last, rfl⟩
  · cases hr
  · simp only [reopen, rows, List.concat_eq_append, List.getLast?_append, List.getLast?_singleton,
      Option.some_or, Option.map_some, Option.getD_some] at hr ⊢
    rcases List.mem_append.mp hr with hr | hr
    · have := (List.pairwise_append.mp (by simpa using hs)).2.2 r hr last List.mem_cons_self
      omega
    · rw [List.mem_singleton.mp hr]
      omega

theorem capWalk_keys (cap running : ℕ) (l : List (ℕ × ρ)) :
    (capWalk c cap running l).1 = (l.take (capWalk c cap running l).1.length).map Prod.fst := by
  induction l generalizing running with
  | nil => simp [capWalk]
  | cons x l ih =>
      obtain ⟨k, v⟩ := x
      simp only [capWalk]
      split_ifs
      · simp
      · simpa using ih _

theorem filter_not_mem_take {l : List (ℕ × ρ)} (h : l.Pairwise fun a b => a.1 < b.1) (n : ℕ) :
    l.filter (fun r => decide (r.1 ∉ (l.take n).map Prod.fst)) = l.drop n := by
  induction l generalizing n with
  | nil => simp
  | cons x l ih =>
      obtain ⟨hhead, htail⟩ := List.pairwise_cons.mp h
      cases n with
      | zero => simp
      | succ n =>
          simp only [List.take_succ_cons, List.map_cons, List.drop_succ_cons]
          rw [List.filter_cons_of_neg (by simp)]
          refine (List.filter_congr fun r hr => ?_).trans (ih htail n)
          have hne : r.1 ≠ x.1 := ne_of_gt (hhead r hr)
          simp [hne]

theorem enforceCap_rows (s : Spill ρ) (cap : ℕ) :
    ∃ lost : List (ℕ × ρ), s.rows = lost ++ (enforceCap c s cap).rows ∧
      (enforceCap c s cap).dropped = s.dropped + lost.length ∧
      (enforceCap c s cap).writeCursor = s.writeCursor ∧
      (enforceCap c s cap).maxBytes = s.maxBytes := by
  unfold enforceCap
  split_ifs with h
  · exact ⟨[], rfl, rfl, rfl, rfl⟩
  · have hkeys := capWalk_keys c cap s.bytes s.rows
    refine ⟨s.rows.take (capWalk c cap s.bytes s.rows).1.length, ?_, ?_, rfl, rfl⟩
    · have hrest := filter_not_mem_take s.table.sorted (capWalk c cap s.bytes s.rows).1.length
      rw [← hkeys] at hrest
      simp only [rows, OrderedTable.restrict_rows]
      rw [hrest, List.take_append_drop]
    · have := congrArg List.length hkeys
      simp only [List.length_map] at this
      simp [← this]

theorem writeRows_some {events : List ε} {rs : List ρ} (h : c.encodeAll events = some rs)
    (t : OrderedTable ℕ ρ) (cursor added : ℕ) (hb : ∀ r ∈ t.rows, r.1 < cursor) :
    ∃ u bytes, writeRows c t cursor added events = (some (u, bytes), cursor + rs.length) ∧
      u.rows = t.rows ++ numbered cursor rs := by
  induction events generalizing t cursor added rs with
  | nil =>
      simp only [Codec.encodeAll, List.mapM_nil, Option.pure_def, Option.some.injEq] at h
      subst h
      exact ⟨t, added, rfl, by simp [numbered]⟩
  | cons e es ih =>
      simp only [Codec.encodeAll, List.mapM_cons, Option.bind_eq_bind, Option.bind_eq_some_iff,
        Option.pure_def, Option.some.injEq] at h
      obtain ⟨r, hr, rs, hrs, rfl⟩ := h
      have hins := OrderedTable.insert_rows_above t cursor r hb
      have hb' : ∀ x ∈ (t.insert cursor r).rows, x.1 < cursor + 1 := by
        intro x hx
        rw [hins] at hx
        rcases List.mem_append.mp hx with hx | hx
        · exact (hb x hx).trans (Nat.lt_succ_self _)
        · rw [List.mem_singleton.mp hx]
          exact Nat.lt_succ_self _
      obtain ⟨u, bytes, hu, hrows⟩ := ih hrs (t.insert cursor r) (cursor + 1) (added + c.len r) hb'
      refine ⟨u, bytes, ?_, ?_⟩
      · simp only [writeRows, hr, hu, List.length_cons]
        rw [Nat.add_assoc, Nat.add_comm 1]
      · rw [hrows, hins, List.append_assoc]
        rfl

theorem writeRows_none {events : List ε} (h : c.encodeAll events = none)
    (t : OrderedTable ℕ ρ) (cursor added : ℕ) :
    ∃ cursor', writeRows c t cursor added events = (none, cursor') ∧ cursor ≤ cursor' := by
  induction events generalizing t cursor added with
  | nil => simp [Codec.encodeAll] at h
  | cons e es ih =>
      simp only [writeRows]
      cases hr : c.encode e with
      | none => exact ⟨cursor, rfl, le_rfl⟩
      | some r =>
          have hes : c.encodeAll es = none := by
            cases hes : c.encodeAll es with
            | none => rfl
            | some rs =>
                simp only [Codec.encodeAll] at hes
                simp [Codec.encodeAll, List.mapM_cons, hr, hes] at h
          obtain ⟨cursor', heq, hle⟩ := ih hes (t.insert cursor r) (cursor + 1) (added + c.len r)
          exact ⟨cursor', heq, by omega⟩

/-- A spill that appended the rows `fresh` and then capped the rows `lost`. -/
structure Grown (s : Spill ρ) (fresh lost : List (ℕ × ρ)) (s' : Spill ρ) : Prop where
  rows : s.rows ++ fresh = lost ++ s'.rows
  above : ∀ r ∈ fresh, s.writeCursor ≤ r.1 ∧ r.1 < s'.writeCursor
  sorted : fresh.Pairwise fun a b => a.1 < b.1
  cursor : s.writeCursor ≤ s'.writeCursor
  dropped : s'.dropped = s.dropped + lost.length

theorem Grown.below {s s' : Spill ρ} {fresh lost : List (ℕ × ρ)} (h : Grown s fresh lost s')
    (hb : s.Below) : s'.Below := by
  intro r hr
  have hmem : r ∈ s.rows ++ fresh := by
    rw [h.rows]
    exact List.mem_append_right _ hr
  rcases List.mem_append.mp hmem with hm | hm
  · exact (hb r hm).trans_le h.cursor
  · exact (h.above r hm).2

theorem Grown.trans {s s' s'' : Spill ρ} {fresh fresh' lost lost' : List (ℕ × ρ)}
    (h : Grown s fresh lost s') (h' : Grown s' fresh' lost' s'') :
    Grown s (fresh ++ fresh') (lost ++ lost') s'' where
  rows := by rw [← List.append_assoc, h.rows, List.append_assoc, h'.rows, List.append_assoc]
  above := by
    intro r hr
    rcases List.mem_append.mp hr with hr | hr
    · exact ⟨(h.above r hr).1, (h.above r hr).2.trans_le h'.cursor⟩
    · exact ⟨h.cursor.trans (h'.above r hr).1, (h'.above r hr).2⟩
  sorted := List.pairwise_append.mpr ⟨h.sorted, h'.sorted, fun a ha b hb =>
    (h.above a ha).2.trans_le (h'.above b hb).1⟩
  cursor := h.cursor.trans h'.cursor
  dropped := by rw [h'.dropped, h.dropped, List.length_append, Nat.add_assoc]

theorem Grown.all_sorted {s s' : Spill ρ} {fresh lost : List (ℕ × ρ)} (h : Grown s fresh lost s')
    (hb : s.Below) : (s.rows ++ fresh).Pairwise fun a b => a.1 < b.1 :=
  List.pairwise_append.mpr ⟨s.table.sorted, h.sorted, fun a ha b hr =>
    (hb a ha).trans_le (h.above b hr).1⟩

theorem Grown.uids {s s' : Spill ρ} {fresh lost : List (ℕ × ρ)} (h : Grown s fresh lost s') :
    rowUids c s.rows ++ rowUids c fresh = rowUids c lost ++ rowUids c s'.rows := by
  simpa only [rowUids_append] using congrArg (rowUids c) h.rows

/-- A push of serializable events appends their rows and may then cap the
oldest ones. -/
theorem push_some {s : Spill ρ} {events : List ε} {rs : List ρ}
    (h : c.encodeAll events = some rs) (hb : s.Below) :
    (push c s events).1 = true ∧ (push c s events).2.writeCursor = s.writeCursor + rs.length ∧
    ∃ lost, Grown s (numbered s.writeCursor rs) lost (push c s events).2 := by
  cases events with
  | nil =>
      simp only [Codec.encodeAll, List.mapM_nil, Option.pure_def, Option.some.injEq] at h
      subst h
      exact ⟨rfl, rfl, [], by simp [push, numbered], by simp [numbered], List.Pairwise.nil, le_rfl,
        rfl⟩
  | cons e es =>
      obtain ⟨u, bytes, hw, hrows⟩ := writeRows_some c h s.table s.writeCursor 0 hb
      simp only [push, List.isEmpty_cons, Bool.false_eq_true, if_false, hw]
      obtain ⟨lost, hl, hd, hcur, -⟩ := enforceCap_rows c
        { s with table := u, writeCursor := s.writeCursor + rs.length, bytes := s.bytes + bytes }
        s.maxBytes
      refine ⟨trivial, hcur, lost, ?_⟩
      exact
        { rows := by rw [← hl]; exact hrows.symm
          above := fun r hr => by rw [hcur]; exact mem_numbered hr
          sorted := numbered_sorted _ _
          cursor := by rw [hcur]; exact Nat.le_add_right _ _
          dropped := hd }

theorem push_none {s : Spill ρ} {events : List ε} (h : c.encodeAll events = none) :
    (push c s events).1 = false ∧ Grown s [] [] (push c s events).2 := by
  cases events with
  | nil => simp [Codec.encodeAll] at h
  | cons e es =>
      obtain ⟨cursor', hw, hle⟩ := writeRows_none c h s.table s.writeCursor 0
      simp only [push, List.isEmpty_cons, Bool.false_eq_true, if_false, hw]
      exact ⟨trivial, by simp, by simp, List.Pairwise.nil, hle, rfl⟩

/-- What a push appends: the rows of all its events, or none. -/
def pushed (s : Spill ρ) (events : List ε) : List (ℕ × ρ) :=
  numbered s.writeCursor ((c.encodeAll events).getD [])

theorem push_grown {s : Spill ρ} (events : List ε) (hb : s.Below) :
    ∃ lost, Grown s (pushed c s events) lost (push c s events).2 := by
  unfold pushed
  cases h : c.encodeAll events with
  | none => exact ⟨[], (push_none c h).2⟩
  | some rs => exact (push_some c h hb).2.2

theorem pushed_uids {s : Spill ρ} {events : List ε} (h : ∀ e ∈ events, (c.encode e).isSome) :
    rowUids c (pushed c s events) = events.map c.uid := by
  obtain ⟨rs, hrs⟩ := c.encodeAll_isSome h
  rw [pushed, numbered_uids, hrs, Option.getD_some, c.encodeAll_uid hrs]

theorem pushed_uids_sublist (s : Spill ρ) (events : List ε) :
    (rowUids c (pushed c s events)).Sublist (events.map c.uid) := by
  rw [pushed, numbered_uids]
  cases h : c.encodeAll events with
  | none => exact List.nil_sublist _
  | some rs => rw [Option.getD_some, c.encodeAll_uid h]

/-- In key order the rows at or below a mark come first. -/
theorem filter_le_append_filter_lt {l : List (ℕ × ρ)}
    (h : l.Pairwise fun a b => a.1 < b.1) (mark : ℕ) :
    (l.filter fun r => r.1 ≤ mark) ++ (l.filter fun r => mark < r.1) = l := by
  induction l with
  | nil => rfl
  | cons x l ih =>
      obtain ⟨hhead, htail⟩ := List.pairwise_cons.mp h
      by_cases hx : x.1 ≤ mark
      · simp [hx, not_lt.mpr hx, ih htail]
      · have hx' : mark < x.1 := not_le.mp hx
        have hnone : l.filter (fun r => r.1 ≤ mark) = [] := by
          refine List.filter_eq_nil_iff.mpr fun r hr => ?_
          have := hhead r hr
          simp only [decide_eq_true_eq]
          omega
        have hrest := ih htail
        rw [hnone, List.nil_append] at hrest
        simp [hx, hx', hnone, hrest]

theorem filter_le_prefix {l : List (ℕ × ρ)} (h : l.Pairwise fun a b => a.1 < b.1) (mark : ℕ) :
    l.filter (fun r => r.1 ≤ mark) <+: l :=
  ⟨_, filter_le_append_filter_lt h mark⟩

theorem filter_le_append {l m : List (ℕ × ρ)} {mark : ℕ} (hl : ∀ r ∈ l, r.1 ≤ mark)
    (hm : ∀ r ∈ m, mark < r.1) : (l ++ m).filter (fun r => r.1 ≤ mark) = l := by
  have hkeep : l.filter (fun r => r.1 ≤ mark) = l :=
    List.filter_eq_self.mpr fun r hr => by simpa using hl r hr
  have hskip : m.filter (fun r => r.1 ≤ mark) = [] :=
    List.filter_eq_nil_iff.mpr fun r hr => by simpa using hm r hr
  rw [List.filter_append, hkeep, hskip, List.append_nil]

/-- In key order the rows up to one of them are a leading run. -/
theorem filter_le_getLast {l : List (ℕ × ρ)} (h : l.Pairwise fun a b => a.1 < b.1) {n : ℕ}
    {last : ℕ × ρ} (hlast : (l.take n).getLast? = some last) :
    (l.filter fun r => r.1 ≤ last.1) = l.take n := by
  obtain ⟨front, hfront⟩ := List.getLast?_eq_some_iff.mp hlast
  rw [← List.take_append_drop n l] at h
  obtain ⟨hrun, -, hcross⟩ := List.pairwise_append.mp h
  conv_lhs => rw [← List.take_append_drop n l]
  refine filter_le_append ?_ fun r hr => ?_
  · intro r hr
    rw [hfront] at hr hrun
    rcases List.mem_append.mp hr with hr | hr
    · exact ((List.pairwise_append.mp hrun).2.2 r hr last List.mem_cons_self).le
    · rw [List.mem_singleton.mp hr]
  · exact hcross last (List.mem_of_getLast? hlast) r hr

theorem Grown.filter_le {s s' : Spill ρ} {fresh lost : List (ℕ × ρ)} (h : Grown s fresh lost s')
    {high : ℕ} (hhigh : high < s.writeCursor) :
    (s.rows ++ fresh).filter (fun r => r.1 ≤ high) = s.rows.filter fun r => r.1 ≤ high := by
  have hskip : fresh.filter (fun r => r.1 ≤ high) = [] := by
    refine List.filter_eq_nil_iff.mpr fun r hr => ?_
    have := (h.above r hr).1
    simp only [decide_eq_true_eq]
    omega
  rw [List.filter_append, hskip, List.append_nil]

theorem Grown.filter_le_sublist {s s' : Spill ρ} {fresh lost : List (ℕ × ρ)}
    (h : Grown s fresh lost s') {high : ℕ} (hhigh : high < s.writeCursor) :
    (s'.rows.filter fun r => r.1 ≤ high).Sublist (s.rows.filter fun r => r.1 ≤ high) := by
  rw [← h.filter_le hhigh, h.rows, List.filter_append]
  exact List.sublist_append_right _ _

/-- An acknowledgement removes a leading run of rows. -/
theorem ackThrough_split (s : Spill ρ) (through : ℕ) :
    (s.rows.filter fun r => r.1 ≤ through) ++ (ackThrough c s through).rows = s.rows :=
  filter_le_append_filter_lt s.table.sorted through

theorem ackThrough_below {s : Spill ρ} (through : ℕ) (hb : s.Below) :
    (ackThrough c s through).Below := fun r hr =>
  hb r (List.mem_of_mem_filter hr)

/-- A drained event is the parsed form of its row. -/
def ReadsAs (r : ℕ × ρ) (o : SpilledEvent ε) : Prop := o.seq = r.1 ∧ c.decode r.2 = some o.event

theorem ReadsAs.seqs {l : List (ℕ × ρ)} {out : List (SpilledEvent ε)}
    (h : List.Forall₂ (ReadsAs c) l out) : out.map SpilledEvent.seq = l.map Prod.fst := by
  induction h with
  | nil => rfl
  | cons hr _ ih => simp only [List.map_cons, hr.1, ih]

theorem ReadsAs.uids {l : List (ℕ × ρ)} {out : List (SpilledEvent ε)}
    (h : List.Forall₂ (ReadsAs c) l out) :
    (out.map SpilledEvent.event).map c.uid = rowUids c l := by
  unfold rowUids
  induction h with
  | nil => rfl
  | cons hr _ ih => simp only [List.map_cons, c.decode_uid _ _ hr.2, ih]

theorem ReadsAs.exists_row {l : List (ℕ × ρ)} {out : List (SpilledEvent ε)}
    (h : List.Forall₂ (ReadsAs c) l out) {o : SpilledEvent ε} (ho : o ∈ out) :
    ∃ r ∈ l, ReadsAs c r o := by
  induction h with
  | nil => cases ho
  | cons hr _ ih =>
      rcases List.mem_cons.mp ho with rfl | ho
      · exact ⟨_, List.mem_cons_self, hr⟩
      · obtain ⟨r, hmem, hreads⟩ := ih ho
        exact ⟨r, List.mem_cons_of_mem _ hmem, hreads⟩

theorem drainLoop_reads {maxEvents maxBytes : ℕ} {out out' : List (SpilledEvent ε)} {acc : ℕ}
    {before rest : List (ℕ × ρ)} (hout : List.Forall₂ (ReadsAs c) before out)
    (h : drainLoop c maxEvents maxBytes out acc rest = some out') :
    ∃ n, List.Forall₂ (ReadsAs c) (before ++ rest.take n) out' := by
  induction rest generalizing before out acc with
  | nil =>
      simp only [drainLoop, Option.some.injEq] at h
      subst h
      exact ⟨0, by simpa using hout⟩
  | cons x rest ih =>
      obtain ⟨k, v⟩ := x
      simp only [drainLoop] at h
      split_ifs at h with hstop
      · cases h
        exact ⟨0, by simpa using hout⟩
      · cases hd : c.decode v with
        | none => simp [hd] at h
        | some e =>
            simp only [hd] at h
            have hout' : List.Forall₂ (ReadsAs c) (before ++ [(k, v)])
                (out ++ [(⟨k, e⟩ : SpilledEvent ε)]) :=
              List.rel_append hout (.cons ⟨rfl, hd⟩ .nil)
            split_ifs at h with hfull
            · cases h
              exact ⟨1, by simpa using hout'⟩
            · obtain ⟨n, hn⟩ := ih hout' h
              exact ⟨n + 1, by simpa using hn⟩

/-- A successful drain is the parsed form of a leading run of rows. -/
theorem drainBatch_reads {s : Spill ρ} {maxEvents maxBytes : ℕ} {out : List (SpilledEvent ε)}
    (h : drainBatch c s maxEvents maxBytes = some out) :
    ∃ n, List.Forall₂ (ReadsAs c) (s.rows.take n) out := by
  have hread := drainLoop_reads c (List.Forall₂.nil (R := ReadsAs c)) h
  simpa only [List.nil_append] using hread

/-- The scan, having read the rows `before`, goes on to read the row `r`. -/
def Reaches (maxEvents maxBytes : ℕ) (before : List (ℕ × ρ)) (r : ρ) : Prop :=
  before ≠ [] → before.length < maxEvents ∧
    (before.map fun x => c.len x.2).sum + c.len r ≤ maxBytes

theorem drainLoop_eq_none {maxEvents maxBytes : ℕ} {out : List (SpilledEvent ε)} {acc : ℕ}
    {rest : List (ℕ × ρ)} :
    drainLoop c maxEvents maxBytes out acc rest = none ↔
      ∃ before x after, rest = before ++ x :: after ∧ (∀ y ∈ before, (c.decode y.2).isSome) ∧
        c.decode x.2 = none ∧ (out ≠ [] ∨ before ≠ [] → out.length + before.length < maxEvents ∧
          acc + (before.map fun y => c.len y.2).sum + c.len x.2 ≤ maxBytes) := by
  induction rest generalizing out acc with
  | nil => simp [drainLoop]
  | cons row rest ih =>
      obtain ⟨k, v⟩ := row
      simp only [drainLoop]
      constructor
      · intro h
        split_ifs at h with hstop
        cases hd : c.decode v with
        | none =>
            refine ⟨[], (k, v), rest, rfl, by simp, hd, fun hne => ?_⟩
            have hout : out ≠ [] := hne.elim id fun hnil => (hnil rfl).elim
            simp only [hout, ne_eq, not_false_eq_true, true_and, not_or, not_le, not_lt] at hstop
            simpa using hstop
        | some e =>
            simp only [hd, List.length_append, List.length_singleton] at h
            split_ifs at h with hfull
            obtain ⟨before, x, after, rfl, hbefore, hx, hreach⟩ := ih.mp h
            refine ⟨(k, v) :: before, x, after, rfl, ?_, hx, fun _ => ?_⟩
            · exact List.forall_mem_cons.mpr ⟨by rw [hd]; rfl, hbefore⟩
            · have hroom := hreach (Or.inl (by simp))
              simp only [List.length_append, List.length_cons, List.map_cons, List.sum_cons]
                at hroom ⊢
              omega
      · rintro ⟨before, x, after, heq, hbefore, hx, hreach⟩
        cases before with
        | nil =>
            obtain ⟨rfl, rfl⟩ := List.cons.inj heq
            have hgo : ¬(out ≠ [] ∧ (maxEvents ≤ out.length ∨ maxBytes < acc + c.len v)) := by
              rintro ⟨hout, hstop⟩
              have := hreach (Or.inl hout)
              simp only [List.length_nil, List.map_nil, List.sum_nil] at this
              omega
            rw [if_neg hgo, hx]
        | cons y before =>
            obtain ⟨rfl, rfl⟩ := List.cons.inj heq
            have hroom := hreach (Or.inr (List.cons_ne_nil _ _))
            simp only [List.length_cons, List.map_cons, List.sum_cons] at hroom
            obtain ⟨e, he⟩ := Option.isSome_iff_exists.mp (hbefore (k, v) List.mem_cons_self)
            rw [if_neg (by omega), he]
            simp only [List.length_append, List.length_singleton]
            rw [if_neg (by omega)]
            refine ih.mpr ⟨before, x, after, rfl, fun z hz => hbefore z (List.mem_cons_of_mem _ hz),
              hx, fun _ => ?_⟩
            simp only [List.length_append, List.length_singleton]
            omega

/-- A drain fails exactly when its scan reaches a row that does not parse. -/
theorem drainBatch_eq_none {s : Spill ρ} {maxEvents maxBytes : ℕ} :
    drainBatch c s maxEvents maxBytes = none ↔ ∃ before x after, s.rows = before ++ x :: after ∧
      (∀ y ∈ before, (c.decode y.2).isSome) ∧ c.decode x.2 = none ∧
      Reaches c maxEvents maxBytes before x.2 := by
  simp [drainBatch, drainLoop_eq_none, Reaches]

theorem drainLoop_length_le {maxEvents maxBytes : ℕ} {out out' : List (SpilledEvent ε)} {acc : ℕ}
    {rest : List (ℕ × ρ)} (h : drainLoop c maxEvents maxBytes out acc rest = some out') :
    out.length ≤ out'.length := by
  induction rest generalizing out acc with
  | nil => simp_all [drainLoop]
  | cons x rest ih =>
      obtain ⟨k, v⟩ := x
      simp only [drainLoop] at h
      split_ifs at h with hstop
      · cases h
        exact le_rfl
      · cases hd : c.decode v with
        | none => simp [hd] at h
        | some e =>
            simp only [hd] at h
            split_ifs at h with hfull
            · cases h
              simp
            · have := ih h
              simp only [List.length_append, List.length_singleton] at this
              omega

theorem drainBatch_ne_nil {s : Spill ρ} {maxEvents maxBytes : ℕ} {out : List (SpilledEvent ε)}
    (hs : s.rows ≠ []) (h : drainBatch c s maxEvents maxBytes = some out) : out ≠ [] := by
  unfold drainBatch at h
  cases hrows : s.rows with
  | nil => exact (hs hrows).elim
  | cons x rest =>
      obtain ⟨k, v⟩ := x
      rw [hrows] at h
      simp only [drainLoop, ne_eq, not_true_eq_false, false_and, if_false, List.nil_append] at h
      cases hd : c.decode v with
      | none => simp [hd] at h
      | some e =>
          simp only [hd] at h
          split_ifs at h with hfull
          · cases h
            exact List.cons_ne_nil _ _
          · have hlen := drainLoop_length_le c h
            intro hnil
            simp [hnil] at hlen

end Spill
end Aegis

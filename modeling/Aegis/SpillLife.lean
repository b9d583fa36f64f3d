import Aegis.EventRoundTrip
import Aegis.GuardedRun
import Aegis.SpillAccounting

/-!
# The life of a spill database

Pushes, drains, acknowledgements, cap enforcements and restarts on one file. A
push may be cut short by a storage error; the other operations write in one
transaction, so an error there changes nothing. The byte total, the cursor and
the drop counter belong to the open handle, and a run keeps the history they
are compared with.
-/

namespace Aegis

/-- Where a storage error ends a push: before the commit, with so many events
already numbered, or in the transaction that enforces the cap. -/
inductive PushFault
  | uncommitted (numbered : ℕ)
  | uncapped
deriving DecidableEq, Repr

namespace SpillLife
open Spill

/-- Operations on the database; `reopen` closes the handle first. -/
inductive Act (ε : Type)
  | push (events : List ε)
  | pushFails (events : List ε) (fault : PushFault)
  | drain (maxEvents maxBytes : ℕ)
  | ack (through : ℕ)
  | cap (maxBytes : ℕ)
  | reopen (maxBytes : ℕ)

/-- The open handle with its table, every row that a push ever committed, the
number of rows acknowledged, and the drop counters of the closed handles. -/
structure Life (ρ : Type) where
  spill : Spill ρ
  stored : List (ℕ × ρ)
  acked : ℕ
  retired : ℕ

variable {ε ρ ι : Type} (c : Codec ε ρ ι)

/-- The file does not exist yet. -/
def created (maxBytes : ℕ) : Life ρ := ⟨Spill.reopen c .empty maxBytes, [], 0, 0⟩

/-- Rows counted dropped, summed over the opens. -/
def Life.dropped (s : Life ρ) : ℕ := s.retired + s.spill.dropped

def step (s : Life ρ) : Act ε → Option (Life ρ)
  | .push events => some
      { s with
        spill := (Spill.push c s.spill events).2
        stored := s.stored ++ pushed c s.spill events }
  | .pushFails events (.uncommitted n) =>
      if n ≤ events.length ∧ events ≠ [] then
        some { s with spill := { s.spill with writeCursor := s.spill.writeCursor + n } }
      else none
  | .pushFails events .uncapped =>
      if events ≠ [] then some
        { s with
          spill := appended c s.spill events
          stored := s.stored ++ pushed c s.spill events }
      else none
  | .drain _ _ => some s
  | .ack through => some
      { s with
        spill := ackThrough c s.spill through
        acked := s.acked + (s.spill.rows.filter fun r => r.1 ≤ through).length }
  | .cap maxBytes => some { s with spill := enforceCap c s.spill maxBytes }
  | .reopen maxBytes => some
      { s with
        spill := Spill.reopen c s.spill.table maxBytes
        retired := s.retired + s.spill.dropped }

/-- The cache is exact, numbers are below the cursor, and the rows that are left
are the newest ones, all others having been acknowledged or counted dropped. -/
structure Sound (s : Life ρ) : Prop where
  counted : Spill.Counted c s.spill
  below : s.spill.Below
  newest : ∃ gone, s.stored = gone ++ s.spill.rows ∧ gone.length = s.acked + s.dropped

theorem created_sound (maxBytes : ℕ) : Sound c (created c maxBytes) where
  counted := rfl
  below := nofun
  newest := ⟨[], rfl, rfl⟩

/-- A handle that appends rows and then caps some keeps the history exact. -/
theorem Sound.grow {s : Life ρ} {u : Spill ρ} {fresh lost : List (ℕ × ρ)} (h : Sound c s)
    (hgrown : Spill.Grown s.spill fresh lost u) (hcount : Spill.Counted c u) :
    Sound c { s with spill := u, stored := s.stored ++ fresh } where
  counted := hcount
  below := hgrown.below h.below
  newest := by
    obtain ⟨gone, hstored, hgone⟩ := h.newest
    have hdropped := hgrown.dropped
    use gone ++ lost
    constructor
    · simp only [hstored, List.append_assoc, hgrown.rows]
    · simp only [Life.dropped, List.length_append, hgone] at *
      omega

theorem appended_grown {s : Spill ρ} (events : List ε) (hb : s.Below) (hc : Spill.Counted c s) :
    Spill.Grown s (pushed c s events) [] (appended c s events) ∧
      Spill.Counted c (appended c s events) := by
  unfold pushed
  cases h : c.encodeAll events with
  | none =>
      obtain ⟨cursor, hle, heq⟩ := appended_none c (s := s) h
      rw [heq]
      exact ⟨⟨List.append_nil _, nofun, List.Pairwise.nil, hle, rfl⟩, hc⟩
  | some rs =>
      obtain ⟨hrows, hcursor, hbytes, -, hdropped⟩ := appended_some c h hb
      simp only [Option.getD_some]
      constructor
      · exact
          { rows := hrows.symm
            above := fun r hr => by rw [hcursor]; exact mem_numbered hr
            sorted := numbered_sorted _ _
            cursor := by rw [hcursor]; exact Nat.le_add_right _ _
            dropped := hdropped }
      · rw [Spill.Counted, hbytes, hrows, total_append, hc]

theorem push_within {s : Spill ρ} {events : List ε} (hb : s.Below) (hc : Spill.Counted c s)
    (hne : events ≠ []) (h : (Spill.push c s events).1 = true) :
    Spill.Counted c (Spill.push c s events).2 ∧ (Spill.push c s events).2.bytes ≤ s.maxBytes := by
  rw [(push_eq_enforceCap c hne h).1]
  exact enforceCap_counted c s.maxBytes (appended_grown c events hb hc).2

theorem push_counted {s : Spill ρ} (events : List ε) (hb : s.Below) (hc : Spill.Counted c s) :
    Spill.Counted c (Spill.push c s events).2 := by
  cases events with
  | nil => exact hc
  | cons e es =>
      cases h : c.encodeAll (e :: es) with
      | none =>
          obtain ⟨cursor, hw, -⟩ := writeRows_none c h s.table s.writeCursor 0
          simp only [Spill.push, List.isEmpty_cons, Bool.false_eq_true, if_false, hw]
          exact hc
      | some rs => exact (push_within c hb hc (List.cons_ne_nil _ _) (push_some c h hb).1).1

theorem step_sound {s u : Life ρ} {a : Act ε} (h : Sound c s) (hstep : step c s a = some u) :
    Sound c u := by
  cases a with
  | push events =>
      cases hstep
      obtain ⟨lost, hgrown⟩ := push_grown c events h.below
      exact h.grow c hgrown (push_counted c events h.below h.counted)
  | pushFails events fault =>
      cases fault with
      | uncommitted n =>
          simp only [step] at hstep
          split_ifs at hstep
          cases hstep
          exact ⟨h.counted, fun r hr => Nat.lt_add_right n (h.below r hr), h.newest⟩
      | uncapped =>
          simp only [step] at hstep
          split_ifs at hstep
          cases hstep
          have happended := appended_grown c events h.below h.counted
          exact h.grow c happended.1 happended.2
  | drain maxEvents maxBytes =>
      cases hstep
      exact h
  | ack through =>
      cases hstep
      have hsplit := ackThrough_split c s.spill through
      constructor
      · have hsum : s.spill.bytes = total c (s.spill.rows.filter fun r => r.1 ≤ through) +
            total c (ackThrough c s.spill through).rows := by
          rw [← total_append, hsplit]
          exact h.counted
        exact Nat.sub_eq_of_eq_add' hsum
      · exact ackThrough_below c through h.below
      · obtain ⟨gone, hstored, hgone⟩ := h.newest
        use gone ++ s.spill.rows.filter fun r => r.1 ≤ through
        constructor
        · rw [List.append_assoc, hsplit, hstored]
        · change _ = s.acked + _ + s.dropped
          rw [List.length_append, hgone]
          omega
  | cap maxBytes =>
      cases hstep
      obtain ⟨lost, hrows, hdropped, hcursor, -⟩ := enforceCap_rows c s.spill maxBytes
      have hgrown : Spill.Grown s.spill [] lost (enforceCap c s.spill maxBytes) :=
        ⟨by rw [List.append_nil, hrows], nofun, List.Pairwise.nil, hcursor.ge, hdropped⟩
      simpa using h.grow c hgrown (enforceCap_counted c maxBytes h.counted).1
  | reopen maxBytes =>
      cases hstep
      exact ⟨reopen_counted c s.spill.table maxBytes, reopen_below c s.spill.table maxBytes,
        h.newest⟩

theorem run_sound {maxBytes : ℕ} {l : List (Act ε)} {s : Life ρ}
    (h : FreeRun (step c) (created c maxBytes) l s) : Sound c s :=
  h.invariant (Sound c) (fun _ _ _ hs _ ht => step_sound c hs ht) (created_sound c maxBytes)

/-- In every state of a run the representation is sound, a successful push of
at least one event ends within the cap, the cap removes oldest rows only and
counts them, a drain succeeds where the rows it reaches parse, and what it gets is a leading
run of rows within its caps. -/
theorem represented {maxBytes : ℕ} {l : List (Act ε)} {s : Life ρ}
    (h : FreeRun (step c) (created c maxBytes) l s) :
    Sound c s ∧
    (∀ events, events ≠ [] → (Spill.push c s.spill events).1 = true →
      total c (Spill.push c s.spill events).2.rows ≤ s.spill.maxBytes) ∧
    (∀ events, ∃ lost, s.spill.rows ++ pushed c s.spill events =
      lost ++ (Spill.push c s.spill events).2.rows ∧
      (Spill.push c s.spill events).2.dropped = s.spill.dropped + lost.length) ∧
    (∀ cap, ∃ lost, s.spill.rows = lost ++ (enforceCap c s.spill cap).rows ∧
      (enforceCap c s.spill cap).dropped = s.spill.dropped + lost.length) ∧
    (∀ maxEvents maxBytes out, drainBatch c s.spill maxEvents maxBytes = some out →
      Drained c s.spill maxEvents maxBytes out) ∧
    (∀ maxEvents maxBytes, (∀ before x after, s.spill.rows = before ++ x :: after →
        Reaches c maxEvents maxBytes before x.2 → (c.decode x.2).isSome) →
      (drainBatch c s.spill maxEvents maxBytes).isSome) := by
  have hs := run_sound c h
  refine ⟨hs, ?_, ?_, ?_, fun _ _ _ hd => drainBatch_drained c hd, ?_⟩
  · intro events hne hpush
    have hwithin := push_within c hs.below hs.counted hne hpush
    exact hwithin.1 ▸ hwithin.2
  · intro events
    obtain ⟨lost, hgrown⟩ := push_grown c events hs.below
    exact ⟨lost, hgrown.rows, hgrown.dropped⟩
  · intro cap
    obtain ⟨lost, hrows, hdropped, -⟩ := enforceCap_rows c s.spill cap
    exact ⟨lost, hrows, hdropped⟩
  · intro maxEvents maxBytes hparses
    by_contra hfailed
    obtain ⟨before, x, after, hrows, -, hnone, hreached⟩ :=
      (drainBatch_eq_none c).mp (Option.not_isSome_iff_eq_none.mp hfailed)
    have hsome := hparses before x after hrows hreached
    rw [hnone] at hsome
    cases hsome

/-- Four rows of which the cap keeps two, one of them acknowledged before a
restart, a push that a storage error cuts short, and one more row. -/
def cappedRun : List (Act (Event ℚ)) :=
  [.push [heartbeat 1, heartbeat 2], .push [heartbeat 3, heartbeat 4], .drain 10 100, .ack 2,
    .reopen 400, .pushFails [heartbeat 5] (.uncommitted 1), .push [heartbeat 6]]

theorem represented_cappedRun :
    ∃ s ∈ execute (step (eventCodec ℚ)) (fun _ _ => True) (created (eventCodec ℚ) 400) cappedRun,
      Sound (eventCodec ℚ) s := by
  have hend : ∃ s ∈ execute (step (eventCodec ℚ)) (fun _ _ => True)
      (created (eventCodec ℚ) 400) cappedRun,
      s.dropped = 2 ∧ s.spill.rows.map Prod.fst = [3, 5] := by
    decide +kernel
  obtain ⟨s, hs, -⟩ := hend
  exact ⟨s, hs, (represented (eventCodec ℚ) (run_of_execute hs)).1⟩

/-- An empty push returns before the cap is looked at, and a restart may have
lowered the cap. -/
theorem empty_push_exceeds :
    ∃ s ∈ execute (step (eventCodec ℚ)) (fun _ _ => True) (created (eventCodec ℚ) 400)
        [.push [heartbeat 1], .reopen 10],
      (Spill.push (eventCodec ℚ) s.spill []).1 = true ∧
      s.spill.maxBytes < total (eventCodec ℚ) (Spill.push (eventCodec ℚ) s.spill []).2.rows := by
  decide +kernel

/-- A restart finds a row numbered at least as high as any ever stored. -/
def KeepsHighest (s : Life ρ) : Act ε → Prop
  | .reopen _ => ∀ old ∈ s.stored, ∃ r ∈ s.spill.rows, old.1 ≤ r.1
  | _ => True

instance (s : Life ρ) (a : Act ε) : Decidable (KeepsHighest s a) := by
  cases a <;> simp only [KeepsHighest] <;> infer_instance

/-- Every number ever stored is below the cursor, and each row was numbered
above all rows stored before it. -/
structure Unrepeated (s : Life ρ) : Prop where
  sound : Sound c s
  used : ∀ r ∈ s.stored, r.1 < s.spill.writeCursor
  rising : s.stored.Pairwise fun a b => a.1 < b.1

theorem Unrepeated.grow {s : Life ρ} {u : Spill ρ} {fresh lost : List (ℕ × ρ)}
    (h : Unrepeated c s) (hgrown : Spill.Grown s.spill fresh lost u)
    (hsound : Sound c { s with spill := u, stored := s.stored ++ fresh }) :
    Unrepeated c { s with spill := u, stored := s.stored ++ fresh } where
  sound := hsound
  used := by
    intro r hr
    rcases List.mem_append.mp hr with hr | hr
    · exact (h.used r hr).trans_le hgrown.cursor
    · exact (hgrown.above r hr).2
  rising := List.pairwise_append.mpr ⟨h.rising, hgrown.sorted, fun a ha b hb =>
    (h.used a ha).trans_le (hgrown.above b hb).1⟩

theorem step_unrepeated {s u : Life ρ} {a : Act ε} (h : Unrepeated c s) (hg : KeepsHighest s a)
    (hstep : step c s a = some u) : Unrepeated c u := by
  have hsound := step_sound c h.sound hstep
  cases a with
  | push events =>
      cases hstep
      obtain ⟨lost, hgrown⟩ := push_grown c events h.sound.below
      exact h.grow c hgrown hsound
  | pushFails events fault =>
      cases fault with
      | uncommitted n =>
          simp only [step] at hstep
          split_ifs at hstep
          cases hstep
          exact ⟨hsound, fun r hr => Nat.lt_add_right n (h.used r hr), h.rising⟩
      | uncapped =>
          simp only [step] at hstep
          split_ifs at hstep
          cases hstep
          exact h.grow c (appended_grown c events h.sound.below h.sound.counted).1 hsound
  | drain maxEvents maxBytes =>
      cases hstep
      exact h
  | ack through =>
      cases hstep
      exact ⟨hsound, h.used, h.rising⟩
  | cap maxBytes =>
      cases hstep
      obtain ⟨lost, -, -, hcursor, -⟩ := enforceCap_rows c s.spill maxBytes
      exact ⟨hsound, fun r hr => hcursor ▸ h.used r hr, h.rising⟩
  | reopen maxBytes =>
      cases hstep
      constructor
      · exact hsound
      · intro old hold
        obtain ⟨r, hr, hle⟩ := hg old hold
        exact hle.trans_lt (hsound.below r hr)
      · exact h.rising

/-- When every restart finds the highest number still in the table, each row is
numbered above every row stored before it, and so will be those of the next push. -/
theorem numbers_rise {maxBytes : ℕ} {l : List (Act ε)} {s : Life ρ}
    (h : GuardedRun (step c) KeepsHighest (created c maxBytes) l s) :
    (s.stored.Pairwise fun a b => a.1 < b.1) ∧
    ∀ events, ∀ r ∈ pushed c s.spill events, ∀ old ∈ s.stored, old.1 < r.1 := by
  have hs : Unrepeated c s := h.invariant (Unrepeated c)
    (fun _ _ _ hs hg ht => step_unrepeated c hs hg ht)
    ⟨created_sound c maxBytes, nofun, List.Pairwise.nil⟩
  apply And.intro hs.rising
  intro events r hr old hold
  exact (hs.used old hold).trans_le (mem_numbered hr).1

/-- A restart that finds no row numbered so high numbers the next row at or
below one that was stored before. -/
theorem reopened_repeats {s : Life ρ} {maxBytes : ℕ} {e : ε} {row : ρ}
    (he : c.encode e = some row) (hlost : ¬KeepsHighest (ε := ε) s (.reopen maxBytes)) :
    ∃ old ∈ s.stored, ∃ r ∈ pushed c (Spill.reopen c s.spill.table maxBytes) [e], r.1 ≤ old.1 := by
  simp only [KeepsHighest, not_forall, not_exists, not_and, not_le] at hlost
  obtain ⟨old, hold, habove⟩ := hlost
  refine ⟨old, hold, ((Spill.reopen c s.spill.table maxBytes).writeCursor, row), ?_, ?_⟩
  · simp [pushed, Codec.encodeAll, he, numbered]
  · cases hlast : s.spill.table.rows.getLast? with
    | none => simp [Spill.reopen, hlast]
    | some last =>
        have hmem := List.mem_of_getLast? hlast
        simp only [Spill.reopen, hlast, Option.map_some, Option.getD_some]
        exact habove last hmem

theorem numbers_rise_cappedRun :
    ∃ s ∈ execute (step (eventCodec ℚ)) KeepsHighest (created (eventCodec ℚ) 400) cappedRun,
      s.stored.Pairwise fun a b => a.1 < b.1 := by
  have hend : ∃ s ∈ execute (step (eventCodec ℚ)) KeepsHighest
      (created (eventCodec ℚ) 400) cappedRun, s.stored.map Prod.fst = [0, 1, 2, 3, 5] := by
    decide +kernel
  obtain ⟨s, hs, -⟩ := hend
  exact ⟨s, hs, (numbers_rise (eventCodec ℚ) (run_of_execute hs)).1⟩

/-- All rows are acknowledged, the agent restarts, and the next row is number 0
again. -/
theorem acked_restart_repeats :
    ∃ s ∈ execute (step (eventCodec ℚ)) (fun _ _ => True) (created (eventCodec ℚ) 400)
        [.push [heartbeat 1], .ack 0, .reopen 400, .push [heartbeat 2]],
      s.stored.map Prod.fst = [0, 0] := by
  decide +kernel

end SpillLife
end Aegis

import Aegis.EventRoundTrip
import Aegis.Forwarder

/-!
# No silent loss

Where every event went, by id: the ring, the spill, the rows deleted by acks,
and the drops that are counted. A flush that takes ring events over rows it
leaves behind breaks the count, since one high-water mark then covers rows that
are not in the batch.
-/

namespace Aegis
namespace Forwarder
variable {ε ρ ι : Type} [DecidableEq ι] (c : Codec ε ρ ι) (cfg : TransportConfig)

def ringUids (s : Forwarder ε ρ ι) : List ι := s.ring.inner.map c.uid

def spillUids (s : Forwarder ε ρ ι) : List ι := Spill.rowUids c s.spill.rows

def offeredUids (s : Forwarder ε ρ ι) : List ι := s.offered.map c.uid

/-- Everything accepted, in order. -/
def acceptedUids (old : List ι) (s : Forwarder ε ρ ι) : List ι := old ++ offeredUids c s

/-- Every event that was in the spill at the start or was offered since is in
the ring, in the spill, in an acknowledged batch, or counted as dropped. -/
def Conserved (old : List ι) (s : Forwarder ε ρ ι) : Prop :=
  ∃ cleared ringLost spillLost : List ι,
    s.ring.dropped = ringLost.length ∧ s.spill.dropped = spillLost.length ∧
    (∀ u ∈ cleared, ∃ b ∈ s.acked, u ∈ b.2.map c.uid) ∧
    ∀ u, old.count u + (offeredUids c s).count u =
      (ringUids c s).count u + (spillUids c s).count u + cleared.count u +
        (ringLost.count u + spillLost.count u)

/-- The ack of a batch deletes no row of another. -/
def AckExact (s : Forwarder ε ρ ι) : Prop :=
  ∀ batchId accepted u, step c cfg s (.ack batchId accepted) = some u →
    ∀ r ∈ s.spill.rows, r ∉ u.spill.rows →
      ∃ p, (batchId, p) ∈ s.pending ∧ c.rowUid r.2 ∈ p.events.map c.uid

/-- The rows at or below a batch's mark are, by id, among its events. -/
def Covered (s : Forwarder ε ρ ι) : Prop :=
  ∀ b ∈ s.pending, ∃ high, b.2.spillHigh = some high ∧ high < s.spill.writeCursor ∧
    (Spill.rowUids c (s.spill.rows.filter fun r => r.1 ≤ high)).Sublist (b.2.events.map c.uid)

variable {c cfg}

omit [DecidableEq ι] in
theorem Covered.grow {s u : Forwarder ε ρ ι} (h : Covered c s) {fresh lost : List (ℕ × ρ)}
    (hgrown : Spill.Grown s.spill fresh lost u.spill) {b : ι × PendingBatch ε}
    (hb : b ∈ s.pending) :
    ∃ high, b.2.spillHigh = some high ∧ high < u.spill.writeCursor ∧
      (Spill.rowUids c (u.spill.rows.filter fun r => r.1 ≤ high)).Sublist
        (b.2.events.map c.uid) := by
  obtain ⟨high, hhigh, hlt, hsub⟩ := h b hb
  exact ⟨high, hhigh, hlt.trans_le hgrown.cursor,
    (Spill.rowUids_sublist c (hgrown.filter_le_sublist hlt)).trans hsub⟩

theorem Move.covered {s u : Forwarder ε ρ ι}
    (h : Move c cfg (fun s a => Serializes c cfg s a ∧ NoSkip c cfg s a) s u)
    (hs : Sound s) (hI : Covered c s) : Covered c u := by
  obtain ⟨lost, hg⟩ := TryFlush.gather_gathers c cfg s.ring hs.below
  cases h with
  | offer _ => exact hI
  | clear _ => exact fun b hb => nomatch hb
  | gather _ _ _ => exact fun b hb => hI.grow hg.grown hb
  | oversize hguard _ hne hdoc hlen _ => exact (not_oversize hguard.1 hne hdoc hlen).elim
  | send hguard hfree hne _ _ _ =>
      intro b hb
      rcases List.mem_append.mp hb with hb | hb
      · exact hI.grow hg.grown hb
      · rw [List.mem_singleton.mp hb]
        obtain ⟨high, hhigh, hlt, -, hcover⟩ := hg.mark hne
        refine ⟨high, hhigh, hlt, ?_⟩
        rw [← hcover (hguard.2 hfree), hg.grown.rows, List.filter_append, Spill.rowUids_append]
        exact List.sublist_append_right _ _
  | @ack batchId p hmem _ =>
      obtain ⟨mark, hmark, -, -⟩ := hI _ hmem
      have hp : p.spillHigh = some mark := hmark
      intro b hb
      obtain ⟨high, hhigh, hlt, hsub⟩ := hI b (List.mem_of_mem_filter hb)
      simp only [acknowledge, hp, Option.elim_some]
      exact ⟨high, hhigh, hlt, (Spill.rowUids_sublist c (List.filter_sublist.filter _)).trans hsub⟩
  | persist =>
      obtain ⟨-, lost, hgrown⟩ := persistRing_spec (c := c) hs
      exact fun b hb => hI.grow hgrown hb

/-- Moving ring events into the spill keeps the account. -/
theorem Conserved.shift {old : List ι} {s u : Forwarder ε ρ ι} (h : Conserved c old s)
    (he : Encodable c s) (hshift : ∃ fresh lost, Shifts c s u fresh lost) : Conserved c old u := by
  obtain ⟨fresh, lost, hshift⟩ := hshift
  obtain ⟨cleared, ringLost, spillLost, hring, hspill, hcleared, hcount⟩ := h
  refine ⟨cleared, ringLost, spillLost ++ Spill.rowUids c lost, by rw [hshift.ringDropped, hring],
    ?_, by rw [hshift.acked]; exact hcleared, fun v => ?_⟩
  · rw [hshift.grown.dropped, hspill, List.length_append, Spill.rowUids_length]
  · have hv := hcount v
    have h₁ := congrArg (List.count v) (hshift.grown.uids c)
    have h₂ := congrArg (List.count v) (hshift.complete he)
    simp only [offeredUids, ringUids, spillUids, hshift.offered, List.count_append] at hv h₁ h₂ ⊢
    omega

theorem Move.conserved {old : List ι} {s u : Forwarder ε ρ ι}
    (h : Move c cfg (fun s a => Serializes c cfg s a ∧ NoSkip c cfg s a) s u)
    (hs : Sound s) (he : Encodable c s) (hI : Covered c s) (hC : Conserved c old s) :
    Conserved c old u := by
  cases h with
  | @offer e _ =>
      obtain ⟨cleared, ringLost, spillLost, hring, hspill, hcleared, hcount⟩ := hC
      refine ⟨cleared, ringLost ++ s.ring.evicted.map c.uid, spillLost, ?_, hspill, hcleared,
        fun v => ?_⟩
      · rw [Ring.offer_dropped _ _ hs.capacity, hring, List.length_append, List.length_map]
      · have hv := hcount v
        have hoffer := congrArg (fun l => List.count v (List.map c.uid l))
          (Ring.evicted_append_offer s.ring e)
        simp only [offeredUids, ringUids, spillUids, List.map_append, List.count_append]
          at hv hoffer ⊢
        omega
  | clear _ => exact hC
  | gather _ _ _ =>
      exact hC.shift he (gather_shifts hs rfl rfl rfl rfl)
  | oversize hguard _ hne hdoc hlen _ => exact (not_oversize hguard.1 hne hdoc hlen).elim
  | send _ _ _ _ _ _ =>
      exact hC.shift he (gather_shifts hs rfl rfl rfl rfl)
  | @ack batchId p hmem _ =>
      obtain ⟨high, hhigh, -, hsub⟩ := hI _ hmem
      have hp : p.spillHigh = some high := hhigh
      obtain ⟨cleared, ringLost, spillLost, hring, hspill, hcleared, hcount⟩ := hC
      refine ⟨cleared ++ Spill.rowUids c (s.spill.rows.filter fun r => r.1 ≤ high),
        ringLost, spillLost, hring, ?_, ?_, fun v => ?_⟩
      · simpa only [acknowledge, hp, Option.elim_some, Spill.ackThrough] using hspill
      · intro v hv
        rcases List.mem_append.mp hv with hv | hv
        · obtain ⟨b, hb, hm⟩ := hcleared v hv
          exact ⟨b, List.mem_append_left _ hb, hm⟩
        · exact ⟨(batchId, p.events), List.mem_append_right _ List.mem_cons_self, hsub.subset hv⟩
      · have hv := hcount v
        have hsplit := congrArg (fun l => List.count v (Spill.rowUids c l))
          (Spill.ackThrough_split c s.spill high)
        simp only [offeredUids, ringUids, spillUids, acknowledge, hp, Option.elim_some,
          Spill.rowUids_append, List.count_append] at hv hsplit ⊢
        omega
  | persist =>
      exact hC.shift he (persistRing_shifts hs)

theorem Covered.ackExact {s : Forwarder ε ρ ι} (h : Covered c s) : AckExact c cfg s := by
  intro batchId accepted u hstep r hr hgone
  rcases step_ack hstep with rfl | ⟨p, hmem, -, rfl⟩
  · exact (hgone hr).elim
  · obtain ⟨high, hhigh, -, hsub⟩ := h _ hmem
    have hp : p.spillHigh = some high := hhigh
    simp only [acknowledge, hp, Option.elim_some] at hgone
    have hle : r.1 ≤ high := by
      by_contra hlt
      exact hgone (List.mem_filter.mpr ⟨hr, by simpa using hlt⟩)
    exact ⟨p, hmem, hsub.subset (Spill.rowUid_mem c (List.mem_filter.mpr ⟨hr, by simpa using hle⟩))⟩

omit [DecidableEq ι] in
theorem start_covered (table : OrderedTable ℕ ρ) : Covered c (start c cfg table) :=
  fun _ hb => nomatch hb

theorem start_conserved (table : OrderedTable ℕ ρ) :
    Conserved c (Spill.rowUids c table.rows) (start c cfg table) :=
  ⟨[], [], [], rfl, rfl, by simp, fun u => by
    simp [offeredUids, ringUids, spillUids, start, Ring.new, Spill.reopen]⟩

/-- In a run whose flushes skip no rows, marks cover only their batches and the account is kept. -/
theorem run_conserved (table : OrderedTable ℕ ρ) {l : List (Act ε ι)} {s : Forwarder ε ρ ι}
    (h : GuardedRun (step c cfg) (fun s a => Serializes c cfg s a ∧ NoSkip c cfg s a)
      (start c cfg table) l s) :
    Covered c s ∧ Conserved c (Spill.rowUids c table.rows) s := by
  have hkeep : ∀ s u : Forwarder ε ρ ι, Sound s →
      Encodable c s ∧ Covered c s ∧ Conserved c (Spill.rowUids c table.rows) s →
      Move c cfg (fun s a => Serializes c cfg s a ∧ NoSkip c cfg s a) s u →
      Encodable c u ∧ Covered c u ∧ Conserved c (Spill.rowUids c table.rows) u := by
    intro s u hs ⟨he, hI, hC⟩ hmove
    exact ⟨hmove.encodable (fun _ _ hg => hg.1) hs he, hmove.covered hs hI,
      hmove.conserved hs he hI hC⟩
  exact (run_invariant _ hkeep h (start_sound table)
    ⟨start_encodable table, start_covered table, start_conserved table⟩).2.2

variable (c cfg) in
/-- In a run whose flushes skip no rows, no event is lost without a count and
no ack deletes a row of another batch. -/
theorem conserved_of_noSkip (table : OrderedTable ℕ ρ) {l : List (Act ε ι)} {s : Forwarder ε ρ ι}
    (h : GuardedRun (step c cfg) (fun s a => Serializes c cfg s a ∧ NoSkip c cfg s a)
      (start c cfg table) l s) :
    Conserved c (Spill.rowUids c table.rows) s ∧ AckExact c cfg s := by
  obtain ⟨hcovered, hconserved⟩ := run_conserved table h
  exact ⟨hconserved, hcovered.ackExact⟩

def driftAlert (d : Fin 10) (detail : String) : Event ℚ :=
  .new (.ofDigit d) 0 "agent-1" "plugin-tamper"
    (.alert .high "integrity drift" detail (some "binary"))

/-- An alert too long to share a batch of 400 bytes with a heartbeat. -/
def longAlert (d : Fin 10) : Event ℚ :=
  driftAlert d ("drift detected on 1 path(s): " ++
    "/etc/aegis/agent.toml, /usr/local/bin/aegis-agent, /usr/lib/systemd/system/aegis.service")

def smallBatches : TransportConfig := { batchMaxBytes := 400 }

/-- A failed send, its retry in two batches, and a stop. -/
def retryRun : List (Act (Event ℚ) Uuid) :=
  [.offer (heartbeat 1), .offer (longAlert 2), .connect, .flush (.ofDigit 7) true false,
    .connect, .flush (.ofDigit 8) true true, .ack (.ofDigit 8) 1, .offer (heartbeat 3),
    .flush (.ofDigit 9) true true, .stop]

theorem conserved_of_noSkip_retry :
    ∃ s ∈ execute (step (eventCodec ℚ) smallBatches)
        (fun s a => Serializes (eventCodec ℚ) smallBatches s a ∧
          NoSkip (eventCodec ℚ) smallBatches s a)
        (start (eventCodec ℚ) smallBatches .empty) retryRun,
      Conserved (eventCodec ℚ) [] s ∧ AckExact (eventCodec ℚ) smallBatches s := by
  have hend : ∃ s ∈ execute (step (eventCodec ℚ) smallBatches)
      (fun s a => Serializes (eventCodec ℚ) smallBatches s a ∧
        NoSkip (eventCodec ℚ) smallBatches s a)
      (start (eventCodec ℚ) smallBatches .empty) retryRun,
      s.phase = .stopped := by
    decide +kernel
  obtain ⟨s, hs, -⟩ := hend
  exact ⟨s, hs, conserved_of_noSkip (eventCodec ℚ) smallBatches .empty (run_of_execute hs)⟩

/-- The alert is spilled behind a heartbeat, a retry reads only the heartbeat
back, and a later heartbeat joins that batch above the alert's number. -/
def skippingRun : List (Act (Event ℚ) Uuid) :=
  [.offer (heartbeat 1), .offer (longAlert 2), .connect, .flush (.ofDigit 8) false false,
    .offer (heartbeat 3), .connect, .flush (.ofDigit 9) true true, .ack (.ofDigit 9) 2]

/-- The ack of a batch of two heartbeats deletes an alert that was never sent. -/
theorem skippingRun_loses :
    ¬∀ cfg : TransportConfig, 0 < cfg.batchMaxEvents → 0 < cfg.batchMaxBytes →
      ∀ (l : List (Act (Event ℚ) Uuid)) (s : Forwarder (Event ℚ) (Json ℚ) Uuid),
        GuardedRun (step (eventCodec ℚ) cfg) (Serializes (eventCodec ℚ) cfg)
          (start (eventCodec ℚ) cfg .empty) l s →
        Conserved (eventCodec ℚ) [] s := by
  intro h
  have hend : ∃ s ∈ execute (step (eventCodec ℚ) smallBatches)
      (Serializes (eventCodec ℚ) smallBatches) (start (eventCodec ℚ) smallBatches .empty)
      skippingRun,
      (offeredUids (eventCodec ℚ) s).count (.ofDigit 2) = 1 ∧
      ringUids (eventCodec ℚ) s = [] ∧ spillUids (eventCodec ℚ) s = [] ∧
      s.ring.dropped = 0 ∧ s.spill.dropped = 0 ∧
      s.acked.map (fun b => b.2.map (eventCodec ℚ).uid) = [[.ofDigit 1, .ofDigit 3]] := by
    decide +kernel
  obtain ⟨s, hs, hoffered, hring, hspill, hringDropped, hspillDropped, hacked⟩ := hend
  obtain ⟨cleared, ringLost, spillLost, hringLost, hspillLost, hcleared, hcount⟩ :=
    h smallBatches (by decide) (by decide) skippingRun s (run_of_execute hs)
  rw [hringDropped] at hringLost
  rw [hspillDropped] at hspillLost
  have hone := hcount (.ofDigit 2)
  rw [hoffered, hring, hspill, List.eq_nil_of_length_eq_zero hringLost.symm,
    List.eq_nil_of_length_eq_zero hspillLost.symm] at hone
  simp only [List.count_nil, Nat.zero_add, Nat.add_zero] at hone
  obtain ⟨b, hb, hmem⟩ := hcleared (.ofDigit 2) (List.count_pos_iff.mp (by omega))
  have hbatch : b.2.map (eventCodec ℚ).uid ∈ [[Uuid.ofDigit 1, Uuid.ofDigit 3]] := by
    rw [← hacked]
    exact List.mem_map_of_mem hb
  rw [List.mem_singleton.mp hbatch] at hmem
  revert hmem
  decide

end Forwarder
end Aegis

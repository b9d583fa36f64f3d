import Aegis.ForwarderConservation
import Aegis.InOrder

/-!
# First-in first-out with one batch in flight

The pending sequence is the spill followed by the ring. While no flush skips
rows and nothing is capped, a batch is a leading run of it, an ack removes
exactly that run, and what reached the wire covers the accepted sequence from
its start.
-/

namespace Aegis
namespace Forwarder
variable {ε ρ ι : Type} [DecidableEq ι] (c : Codec ε ρ ι) (cfg : TransportConfig)

/-- What waits to be acknowledged, in the order it will be sent. -/
def pendingUids (s : Forwarder ε ρ ι) : List ι := spillUids c s ++ ringUids c s

def wireUids (s : Forwarder ε ρ ι) : List (List ι) := s.wire.map fun b => b.2.map c.uid

/-- The pending sequence is what was accepted after `done` events, the wire
covers at least those, and the batch in flight is the rows up to its mark. -/
structure Ordered (old : List ι) (s : Forwarder ε ρ ι) (done covered : ℕ) : Prop where
  accepted : (acceptedUids c old s).drop done = pendingUids c s
  done_le : done ≤ (acceptedUids c old s).length
  covered_le : covered ≤ (acceptedUids c old s).length
  done_le_covered : done ≤ covered
  wire : InOrder (acceptedUids c old s) (wireUids c s) covered
  single : s.pending.length ≤ 1
  batch : ∀ b ∈ s.pending, ∃ high, b.2.spillHigh = some high ∧ high < s.spill.writeCursor ∧
    Spill.rowUids c (s.spill.rows.filter fun r => r.1 ≤ high) = b.2.events.map c.uid ∧
    (b.1 ∈ s.wire.map Prod.fst → done + b.2.events.length ≤ covered)

/-- Nothing was evicted from the ring or capped in the spill. -/
def Undropped (s : Forwarder ε ρ ι) : Prop := s.ring.dropped = 0 ∧ s.spill.dropped = 0

variable {c cfg}

omit [DecidableEq ι] in
theorem Shifts.pendingUids {s u : Forwarder ε ρ ι} {fresh lost : List (ℕ × ρ)}
    (h : Shifts c s u fresh lost) (he : Encodable c s) (hu : u.spill.dropped = 0) :
    lost = [] ∧ pendingUids c u = pendingUids c s := by
  have hlost : lost = [] := by
    have := h.grown.dropped
    exact List.eq_nil_of_length_eq_zero (by omega)
  refine ⟨hlost, ?_⟩
  have huids := h.grown.uids c
  rw [hlost, Spill.rowUids_nil, List.nil_append] at huids
  unfold Forwarder.pendingUids spillUids ringUids
  rw [← huids, ← h.complete he, List.append_assoc]

theorem Move.undropped {guard : Forwarder ε ρ ι → Act ε ι → Prop} {s u : Forwarder ε ρ ι}
    (h : Move c cfg guard s u) (hs : Sound s) (hu : Undropped u) : Undropped s := by
  obtain ⟨lost, hg⟩ := TryFlush.gather_gathers c cfg s.ring hs.below
  cases h with
  | @offer e _ =>
      have hring : (s.ring.offer e).dropped = 0 := hu.1
      have := Ring.offer_dropped s.ring e hs.capacity
      exact ⟨by omega, hu.2⟩
  | clear _ => exact hu
  | gather _ _ _ =>
      exact ⟨hg.ringDropped ▸ hu.1, Nat.eq_zero_of_add_eq_zero_right (hg.grown.dropped ▸ hu.2)⟩
  | oversize _ _ _ _ _ _ =>
      exact ⟨hg.ringDropped ▸ hu.1, Nat.eq_zero_of_add_eq_zero_right (hg.grown.dropped ▸ hu.2)⟩
  | send _ _ _ _ _ _ =>
      exact ⟨hg.ringDropped ▸ hu.1, Nat.eq_zero_of_add_eq_zero_right (hg.grown.dropped ▸ hu.2)⟩
  | @ack batchId p _ _ =>
      refine ⟨hu.1, ?_⟩
      have hspill := hu.2
      cases hp : p.spillHigh <;> simpa [acknowledge, hp, Spill.ackThrough] using hspill
  | persist =>
      obtain ⟨-, lost, hgrown⟩ := persistRing_spec (c := c) hs
      exact ⟨hu.1, Nat.eq_zero_of_add_eq_zero_right (hgrown.dropped ▸ hu.2)⟩

omit [DecidableEq ι] in
theorem Ordered.shift {old : List ι} {s u : Forwarder ε ρ ι} {done covered : ℕ}
    (h : Ordered c old s done covered) (he : Encodable c s)
    (hshift : ∃ fresh lost, Shifts c s u fresh lost) (hu : u.spill.dropped = 0)
    (hwire : u.wire = s.wire) (hpending : u.pending = s.pending) :
    Ordered c old u done covered := by
  obtain ⟨fresh, lost, hshift⟩ := hshift
  obtain ⟨rfl, hsame⟩ := hshift.pendingUids he hu
  have haccepted : acceptedUids c old u = acceptedUids c old s := by
    simp only [acceptedUids, offeredUids, hshift.offered]
  have hwires : wireUids c u = wireUids c s := by simp only [wireUids, hwire]
  refine
    { accepted := by rw [haccepted, h.accepted, hsame]
      done_le := haccepted ▸ h.done_le
      covered_le := haccepted ▸ h.covered_le
      done_le_covered := h.done_le_covered
      wire := by rw [haccepted, hwires]; exact h.wire
      single := hpending ▸ h.single
      batch := fun b hb => ?_ }
  rw [hpending] at hb
  obtain ⟨high, hhigh, hlt, hrows, hcovered⟩ := h.batch b hb
  refine ⟨high, hhigh, hlt.trans_le hshift.grown.cursor, ?_, by rw [hwire]; exact hcovered⟩
  have hgrown := hshift.grown.rows
  rw [List.nil_append] at hgrown
  rw [← hgrown, hshift.grown.filter_le hlt, hrows]

omit [DecidableEq ι] in
/-- The batch a flush sends is a leading run of the pending sequence. -/
theorem gather_prefix {s : Forwarder ε ρ ι} (hs : Sound s) (he : Encodable c s)
    (hskip : ¬TryFlush.Skips c cfg s.ring s.spill) :
    (TryFlush.gather c cfg s.ring s.spill).events.map c.uid <+: pendingUids c s := by
  obtain ⟨lost, hg⟩ := TryFlush.gather_gathers c cfg s.ring hs.below
  by_cases hnil : (TryFlush.gather c cfg s.ring s.spill).events = []
  · rw [hnil]
    exact List.nil_prefix
  · obtain ⟨high, -, -, -, hmark⟩ := hg.mark hnil
    have hrun : Spill.rowUids c ((s.spill.rows ++ TryFlush.appended c cfg s.ring s.spill).filter
        fun r => r.1 ≤ high) <+:
        Spill.rowUids c (s.spill.rows ++ TryFlush.appended c cfg s.ring s.spill) :=
      (Spill.filter_le_prefix (hg.grown.all_sorted hs.below) high).map _
    rw [hmark hskip, Spill.rowUids_append] at hrun
    refine hrun.trans ?_
    unfold pendingUids spillUids ringUids
    rw [← hg.complete he, ← List.append_assoc]
    exact List.prefix_append _ _

omit [DecidableEq ι] in
/-- An event that evicts none joins the end of what was accepted and of what is pending. -/
theorem Ordered.offer {old : List ι} {s : Forwarder ε ρ ι} {done covered : ℕ}
    (h : Ordered c old s done covered) {e : ε}
    (hring : (s.ring.offer e).inner = s.ring.inner ++ [e]) :
    Ordered c old { s with ring := s.ring.offer e, offered := s.offered ++ [e] } done covered := by
  refine ⟨?_, ?_, ?_, h.done_le_covered, ?_, h.single, h.batch⟩
  · have hacc := h.accepted
    have hle := h.done_le
    simp only [acceptedUids, offeredUids, Forwarder.pendingUids, spillUids, ringUids, hring,
      List.map_append] at hacc hle ⊢
    rw [← List.append_assoc, List.drop_append_of_le_length hle, hacc, List.append_assoc]
  · have hle := h.done_le
    simp only [acceptedUids, offeredUids, List.map_append, List.length_append] at hle ⊢
    omega
  · have hle := h.covered_le
    simp only [acceptedUids, offeredUids, List.map_append, List.length_append] at hle ⊢
    omega
  · have hwire := h.wire.extend [c.uid e] h.covered_le
    simpa only [acceptedUids, offeredUids, wireUids, List.map_append, List.append_assoc,
      List.map_cons, List.map_nil] using hwire

omit [DecidableEq ι] in
/-- A leading run of the pending sequence is sent, and covered if it reaches the wire. -/
theorem Ordered.send {old : List ι} {s u : Forwarder ε ρ ι} {done covered high : ℕ}
    (h : Ordered c old s done covered) {batchId : ι} {p : PendingBatch ε} (delivered : Bool)
    (hrun : p.events.map c.uid <+: pendingUids c s)
    (hsame : pendingUids c u = pendingUids c s) (hoffered : u.offered = s.offered)
    (hpending : u.pending = [(batchId, p)])
    (hwire : u.wire = if delivered then s.wire ++ [(batchId, p.events)] else s.wire)
    (hid : batchId ∉ s.wire.map Prod.fst) (hhigh : p.spillHigh = some high)
    (hlt : high < u.spill.writeCursor)
    (hrows : Spill.rowUids c (u.spill.rows.filter fun r => r.1 ≤ high) = p.events.map c.uid) :
    ∃ covered, Ordered c old u done covered := by
  have haccepted : acceptedUids c old u = acceptedUids c old s := by
    simp only [acceptedUids, offeredUids, hoffered]
  rw [← h.accepted] at hrun
  have hlen := hrun.length_le
  simp only [List.length_map, List.length_drop] at hlen
  have hdone := h.done_le
  have hcovered := h.covered_le
  have hbetween := h.done_le_covered
  refine ⟨if delivered then max covered (done + p.events.length) else covered, ?_⟩
  refine
    { accepted := by rw [haccepted, h.accepted, hsame]
      done_le := haccepted ▸ hdone
      covered_le := ?_
      done_le_covered := by split_ifs <;> omega
      wire := ?_
      single := by simp [hpending]
      batch := fun b hb => ?_ }
  · rw [haccepted]
    split_ifs <;> omega
  · rw [haccepted]
    cases delivered with
    | false =>
        have hwires : wireUids c u = wireUids c s := by simp [wireUids, hwire]
        rw [hwires]
        exact h.wire
    | true =>
        have hwires : wireUids c u = wireUids c s ++ [p.events.map c.uid] := by
          simp [wireUids, hwire]
        have hnext := InOrder.snoc h.wire hbetween hrun
        rw [List.length_map] at hnext
        rw [hwires]
        exact hnext
  · rw [hpending, List.mem_singleton] at hb
    subst hb
    refine ⟨high, hhigh, hlt, hrows, fun hmem => ?_⟩
    rw [hwire] at hmem
    cases delivered with
    | false => exact (hid hmem).elim
    | true => exact le_max_right _ _

theorem Ordered.ack {old : List ι} {s : Forwarder ε ρ ι} {done covered : ℕ}
    (h : Ordered c old s done covered) {batchId : ι} {p : PendingBatch ε}
    (hmem : (batchId, p) ∈ s.pending) (hwire : batchId ∈ s.wire.map Prod.fst) :
    Ordered c old (acknowledge c s batchId p) (done + p.events.length) covered := by
  obtain ⟨high, hhigh, -, hrows, hcovered⟩ := h.batch _ hmem
  have hp : p.spillHigh = some high := hhigh
  have hle : done + p.events.length ≤ covered := hcovered hwire
  have honly : s.pending = [(batchId, p)] := by
    obtain ⟨b, hb⟩ := List.length_eq_one_iff.mp
      (Nat.le_antisymm h.single (List.length_pos_of_mem hmem))
    rw [hb, List.mem_singleton] at hmem
    rw [hb, hmem]
  have hrest : (Forwarder.pendingUids c s).drop p.events.length =
      Forwarder.pendingUids c (acknowledge c s batchId p) := by
    have hsplit := congrArg (Spill.rowUids c) (Spill.ackThrough_split c s.spill high)
    rw [Spill.rowUids_append, hrows] at hsplit
    simp only [Forwarder.pendingUids, spillUids, ringUids, acknowledge, hp, Option.elim_some]
    rw [← hsplit, List.append_assoc, List.drop_left' (by simp)]
  refine ⟨?_, hle.trans h.covered_le, h.covered_le, hle, h.wire, by simp [acknowledge, honly],
    by simp [acknowledge, honly]⟩
  have hacc := congrArg (List.drop p.events.length) h.accepted
  rw [List.drop_drop, hrest] at hacc
  exact hacc

theorem Move.ordered (hone : cfg.maxInFlight = 1) {old : List ι} {s u : Forwarder ε ρ ι}
    (h : Move c cfg (fun s a => Serializes c cfg s a ∧ NoSkip c cfg s a) s u)
    (hs : Sound s) (he : Encodable c s) (hu : Undropped u) {done covered : ℕ}
    (hI : Ordered c old s done covered) :
    ∃ done covered, Ordered c old u done covered := by
  cases h with
  | @offer e _ =>
      have hkept : s.ring.evicted = [] := by
        have hring : (s.ring.offer e).dropped = 0 := hu.1
        have := Ring.offer_dropped s.ring e hs.capacity
        exact List.eq_nil_of_length_eq_zero (by omega)
      have hring := Ring.evicted_append_offer s.ring e
      rw [hkept, List.nil_append] at hring
      exact ⟨done, covered, hI.offer hring⟩
  | clear _ =>
      exact ⟨done, covered, hI.accepted, hI.done_le, hI.covered_le, hI.done_le_covered, hI.wire,
        by simp, by simp⟩
  | gather _ _ _ =>
      exact ⟨done, covered, hI.shift he (gather_shifts hs rfl rfl rfl rfl) hu.2 rfl rfl⟩
  | oversize hguard _ hne hdoc hlen _ => exact (not_oversize hguard.1 hne hdoc hlen).elim
  | @send batchId delivered _ hguard hfree hne _ hwireId hpendingId =>
      have hskip := hguard.2 hfree
      obtain ⟨lost, hg⟩ := TryFlush.gather_gathers c cfg s.ring hs.below
      have hnone : s.pending = [] := List.eq_nil_of_length_eq_zero (by omega)
      have hshift : Shifts c s { s with
          ring := (TryFlush.gather c cfg s.ring s.spill).ring
          spill := (TryFlush.gather c cfg s.ring s.spill).spill }
          (TryFlush.appended c cfg s.ring s.spill) lost :=
        ⟨hg.grown, hg.taken, hg.complete, hg.ringDropped, rfl, rfl⟩
      have hsame := hshift.pendingUids he hu.2
      have hrun := gather_prefix hs he hskip
      obtain ⟨high, hhigh, hlt, -, hmark⟩ := hg.mark hne
      have hrows : (TryFlush.gather c cfg s.ring s.spill).spill.rows =
          s.spill.rows ++ TryFlush.appended c cfg s.ring s.spill := by
        have hgrown := hshift.grown.rows
        rw [hsame.1, List.nil_append] at hgrown
        exact hgrown.symm
      refine ⟨done, hI.send (p := ⟨(TryFlush.gather c cfg s.ring s.spill).events,
        (TryFlush.gather c cfg s.ring s.spill).spillHigh⟩) delivered
        hrun hsame.2 rfl ?_ rfl hwireId hhigh hlt ?_⟩
      · rw [hnone, List.nil_append]
      · rw [hrows]
        exact hmark hskip
  | ack hmem hwire => exact ⟨_, covered, hI.ack hmem hwire⟩
  | persist =>
      exact ⟨done, covered, hI.shift he (persistRing_shifts hs) hu.2 rfl rfl⟩

omit [DecidableEq ι] in
theorem start_ordered (table : OrderedTable ℕ ρ) :
    Ordered c (Spill.rowUids c table.rows) (start c cfg table) 0 0 where
  accepted := by
    simp [acceptedUids, offeredUids, pendingUids, spillUids, ringUids, start, Ring.new,
      Spill.reopen]
  done_le := Nat.zero_le _
  covered_le := Nat.zero_le _
  done_le_covered := le_rfl
  wire := .nil
  single := by simp [start]
  batch := by simp [start]

variable (c cfg) in
/-- With one batch in flight, no drops and no flush that skips rows, each batch
is a leading run of the pending sequence and events first reach the wire in the
order they were accepted. -/
theorem fifo_of_noSkip (hone : cfg.maxInFlight = 1) (table : OrderedTable ℕ ρ)
    {l : List (Act ε ι)} {s : Forwarder ε ρ ι}
    (h : GuardedRun (step c cfg) (fun s a => Serializes c cfg s a ∧ NoSkip c cfg s a)
      (start c cfg table) l s)
    (hdrop : Undropped s) :
    (∀ batchId p ring' spill', ¬TryFlush.Skips c cfg s.ring s.spill →
      TryFlush.tryFlush c cfg batchId s.pending.length s.ring s.spill = (.batch p, ring', spill') →
        p.events.map c.uid <+: pendingUids c s) ∧
    ∃ covered, InOrder (acceptedUids c (Spill.rowUids c table.rows) s)
        (wireUids c s) covered ∧
      ((acceptedUids c (Spill.rowUids c table.rows) s).Nodup →
        firstReached (wireUids c s) =
          (acceptedUids c (Spill.rowUids c table.rows) s).take covered) := by
  have hkeep : ∀ s u : Forwarder ε ρ ι, Sound s →
      (Encodable c s ∧ (Undropped s →
        ∃ done covered, Ordered c (Spill.rowUids c table.rows) s done covered)) →
      Move c cfg (fun s a => Serializes c cfg s a ∧ NoSkip c cfg s a) s u →
      Encodable c u ∧ (Undropped u →
        ∃ done covered, Ordered c (Spill.rowUids c table.rows) u done covered) := by
    intro s u hs ⟨he, hI⟩ hmove
    refine ⟨hmove.encodable (fun _ _ hg => hg.1) hs he, fun hu => ?_⟩
    obtain ⟨done, covered, hord⟩ := hI (hmove.undropped hs hu)
    exact hmove.ordered hone hs he hu hord
  obtain ⟨hs, he, hI⟩ := run_invariant _ hkeep h (start_sound table)
    ⟨start_encodable table, fun _ => ⟨0, 0, start_ordered table⟩⟩
  obtain ⟨done, covered, hord⟩ := hI hdrop
  refine ⟨?_, covered, hord.wire, fun hnodup => hord.wire.firstReached_eq hnodup⟩
  intro batchId p ring' spill' hskip hflush
  rw [(TryFlush.tryFlush_batch c cfg hflush).1]
  exact gather_prefix hs he hskip

instance (s : Forwarder ε ρ ι) : Decidable (Undropped s) :=
  inferInstanceAs (Decidable (_ ∧ _))

theorem fifo_of_noSkip_retry :
    ∃ s ∈ execute (step (eventCodec ℚ) smallBatches)
        (fun s a => Serializes (eventCodec ℚ) smallBatches s a ∧
          NoSkip (eventCodec ℚ) smallBatches s a)
        (start (eventCodec ℚ) smallBatches .empty) retryRun,
      ∃ covered, InOrder (acceptedUids (eventCodec ℚ) [] s) (wireUids (eventCodec ℚ) s) covered ∧
        firstReached (wireUids (eventCodec ℚ) s) =
          (acceptedUids (eventCodec ℚ) [] s).take covered := by
  have hend : ∃ s ∈ execute (step (eventCodec ℚ) smallBatches)
      (fun s a => Serializes (eventCodec ℚ) smallBatches s a ∧
        NoSkip (eventCodec ℚ) smallBatches s a)
      (start (eventCodec ℚ) smallBatches .empty) retryRun,
      Undropped s ∧ (acceptedUids (eventCodec ℚ) [] s).Nodup := by
    decide +kernel
  obtain ⟨s, hs, hdrop, hnodup⟩ := hend
  obtain ⟨-, covered, horder, hfirst⟩ := fifo_of_noSkip (eventCodec ℚ) smallBatches rfl .empty
    (run_of_execute hs) hdrop
  exact ⟨s, hs, covered, horder, hfirst hnodup⟩

/-- A later heartbeat reaches the wire while the alert before it stays behind. -/
theorem skippingRun_reorders :
    ¬∀ cfg : TransportConfig, 0 < cfg.batchMaxEvents → 0 < cfg.batchMaxBytes →
      cfg.maxInFlight = 1 →
      ∀ (l : List (Act (Event ℚ) Uuid)) (s : Forwarder (Event ℚ) (Json ℚ) Uuid),
        GuardedRun (step (eventCodec ℚ) cfg) (Serializes (eventCodec ℚ) cfg)
          (start (eventCodec ℚ) cfg .empty) l s →
        Undropped s → (acceptedUids (eventCodec ℚ) [] s).Nodup →
        firstReached (wireUids (eventCodec ℚ) s) <+: acceptedUids (eventCodec ℚ) [] s := by
  intro h
  have hend : ∃ s ∈ execute (step (eventCodec ℚ) smallBatches)
      (Serializes (eventCodec ℚ) smallBatches) (start (eventCodec ℚ) smallBatches .empty)
      skippingRun,
      Undropped s ∧ (acceptedUids (eventCodec ℚ) [] s).Nodup ∧
      acceptedUids (eventCodec ℚ) [] s = [.ofDigit 1, .ofDigit 2, .ofDigit 3] ∧
      firstReached (wireUids (eventCodec ℚ) s) = [.ofDigit 1, .ofDigit 3] := by
    decide +kernel
  obtain ⟨s, hs, hdrop, hnodup, haccepted, hreached⟩ := hend
  have hprefix := h smallBatches (by decide) (by decide) rfl skippingRun s (run_of_execute hs)
    hdrop hnodup
  rw [haccepted, hreached] at hprefix
  revert hprefix
  decide

end Forwarder
end Aegis

import Aegis.ForwarderConservation

/-!
# Several batches in flight

A flush reads the spill from its head, where the rows of an unacknowledged
batch still are. Batches stay apart exactly as long as a flush finds no row at
or below the mark of a batch in flight; with a window of one that is always so.
No assumption on encodings is made here.
-/

namespace Aegis
namespace Forwarder
variable {ε ρ ι : Type} [DecidableEq ι] (c : Codec ε ρ ι) (cfg : TransportConfig)

/-- A flush that sends a batch finds every mark in flight below every row. -/
def Apart (s : Forwarder ε ρ ι) : Act ε ι → Prop
  | .flush batchId _ _ =>
      match (TryFlush.tryFlush c cfg batchId s.pending.length s.ring s.spill).1 with
      | .batch _ => ∀ b ∈ s.pending, ∀ high ∈ b.2.spillHigh, ∀ r ∈ s.spill.rows, high < r.1
      | _ => True
  | _ => True

instance (sent : TryFlush.Outcome ε) (p : Prop) [Decidable p] :
    Decidable (match sent with
      | .batch _ => p
      | _ => True) :=
  match sent with
  | .batch _ => inferInstanceAs (Decidable p)
  | .windowFull => .isTrue trivial
  | .nothing => .isTrue trivial
  | .tooLarge => .isTrue trivial
  | .unserializable => .isTrue trivial

instance (s : Forwarder ε ρ ι) (a : Act ε ι) : Decidable (Apart c cfg s a) :=
  match a with
  | .flush batchId _ _ => inferInstanceAs (Decidable
      (match (TryFlush.tryFlush c cfg batchId s.pending.length s.ring s.spill).1 with
        | .batch _ => ∀ b ∈ s.pending, ∀ high ∈ b.2.spillHigh, ∀ r ∈ s.spill.rows, high < r.1
        | _ => True))
  | .offer _ => .isTrue trivial
  | .connect => .isTrue trivial
  | .refused => .isTrue trivial
  | .ack _ _ => .isTrue trivial
  | .fail => .isTrue trivial
  | .stop => .isTrue trivial

omit [DecidableEq ι] in
theorem apart_of_single (h : cfg.maxInFlight ≤ 1) (s : Forwarder ε ρ ι) (a : Act ε ι) :
    Apart c cfg s a := by
  cases a with
  | flush batchId _ _ =>
      by_cases hfull : cfg.maxInFlight ≤ s.pending.length
      · simp [Apart, TryFlush.tryFlush, hfull]
      · have hnone : s.pending = [] := List.eq_nil_of_length_eq_zero (by omega)
        simp only [Apart, hnone, List.not_mem_nil, false_imp_iff, implies_true]
        split <;> trivial
  | _ => trivial

def batchUids (l : List (ι × PendingBatch ε)) : List ι :=
  l.flatMap fun b => b.2.events.map c.uid

/-- The rows above every mark in flight. -/
def uncovered (s : Forwarder ε ρ ι) : List (ℕ × ρ) :=
  s.spill.rows.filter fun r => ∀ b ∈ s.pending, ∀ high ∈ b.2.spillHigh, high < r.1

/-- Only the newest batch may have rows in the spill, and neither the older
batches with all rows nor all batches with the rows above every mark hold more
copies of an event than were accepted. -/
structure Separate (old : List ι) (s : Forwarder ε ρ ι) : Prop where
  ids : (s.pending.map Prod.fst).Nodup
  below : ∀ b ∈ s.pending, ∀ high ∈ b.2.spillHigh, high < s.spill.writeCursor
  clean : ∀ b ∈ s.pending.dropLast, ∀ high ∈ b.2.spillHigh, ∀ r ∈ s.spill.rows, high < r.1
  older : ∀ u, (batchUids c s.pending.dropLast).count u + (spillUids c s).count u +
    (ringUids c s).count u ≤ (acceptedUids c old s).count u
  all : ∀ u, (batchUids c s.pending).count u + (Spill.rowUids c (uncovered s)).count u +
    (ringUids c s).count u ≤ (acceptedUids c old s).count u

variable {c cfg}

omit [DecidableEq ι] in
theorem batchUids_sublist {l m : List (ι × PendingBatch ε)} (h : l.Sublist m) :
    (batchUids c l).Sublist (batchUids c m) := h.flatMap _

theorem dropLast_filter_sublist {α : Type} (p : α → Bool) (l : List α) :
    (l.filter p).dropLast.Sublist l.dropLast := by
  rcases List.eq_nil_or_concat l with rfl | ⟨front, last, rfl⟩
  · exact List.Sublist.refl _
  · rw [List.concat_eq_append, List.dropLast_concat, List.filter_append]
    by_cases hp : p last
    · rw [List.filter_cons_of_pos hp, List.filter_nil, List.dropLast_concat]
      exact List.filter_sublist
    · rw [List.filter_cons_of_neg hp, List.filter_nil, List.append_nil]
      exact (List.dropLast_sublist _).trans List.filter_sublist

theorem Separate.advance {old : List ι} {s u : Forwarder ε ρ ι} (h : Separate c old s)
    {fresh : List (ℕ × ρ)} (hrows : u.spill.rows.Sublist (s.spill.rows ++ fresh))
    (habove : ∀ r ∈ fresh, s.spill.writeCursor ≤ r.1)
    (hcursor : s.spill.writeCursor ≤ u.spill.writeCursor)
    (htaken : (Spill.rowUids c fresh ++ u.ring.inner.map c.uid).Sublist (s.ring.inner.map c.uid))
    (hoffered : u.offered = s.offered) (hpending : u.pending = s.pending) :
    Separate c old u := by
  have haccepted : acceptedUids c old u = acceptedUids c old s := by
    simp only [acceptedUids, offeredUids, hoffered]
  refine
    { ids := hpending ▸ h.ids
      below := fun b hb high hh => (h.below b (hpending ▸ hb) high hh).trans_le hcursor
      clean := ?_
      older := fun v => ?_
      all := fun v => ?_ }
  · intro b hb high hh r hr
    rw [hpending] at hb
    rcases List.mem_append.mp (hrows.subset hr) with hr | hr
    · exact h.clean b hb high hh r hr
    · exact (h.below b (List.mem_of_mem_dropLast hb) high hh).trans_le (habove r hr)
  · have hv := h.older v
    have hspill := (Spill.rowUids_sublist c hrows).count_le v
    have hring := htaken.count_le v
    rw [haccepted, hpending]
    simp only [Spill.rowUids_append, List.count_append, spillUids, ringUids] at hv hspill hring ⊢
    omega
  · have hv := h.all v
    have hfilter : (uncovered u).Sublist (uncovered s ++ fresh) := by
      unfold uncovered
      rw [hpending]
      refine (hrows.filter _).trans ?_
      rw [List.filter_append]
      exact (List.Sublist.refl _).append List.filter_sublist
    have hspill := (Spill.rowUids_sublist c hfilter).count_le v
    have hring := htaken.count_le v
    rw [haccepted, hpending]
    simp only [Spill.rowUids_append, List.count_append, ringUids] at hv hspill hring ⊢
    omega

/-- An event from outside evicts at most ring events that were accepted too. -/
theorem Separate.offer {old : List ι} {s : Forwarder ε ρ ι} (h : Separate c old s) (e : ε) :
    Separate c old { s with ring := s.ring.offer e, offered := s.offered ++ [e] } := by
  have hkept := congrArg (List.map c.uid) (Ring.evicted_append_offer s.ring e)
  rw [List.map_append, List.map_append] at hkept
  have hcount : ∀ v, ((s.ring.offer e).inner.map c.uid).count v ≤
      (s.ring.inner.map c.uid).count v + [c.uid e].count v := by
    intro v
    have := congrArg (List.count v) hkept
    simp only [List.count_append, List.map_cons, List.map_nil] at this
    omega
  refine ⟨h.ids, h.below, h.clean, fun v => ?_, fun v => ?_⟩
  · have hv := h.older v
    have := hcount v
    simp only [acceptedUids, offeredUids, ringUids, spillUids, List.map_append, List.map_cons,
      List.map_nil, List.count_append] at hv ⊢
    omega
  · have hv := h.all v
    have := hcount v
    simp only [acceptedUids, offeredUids, ringUids, uncovered, List.map_append, List.map_cons,
      List.map_nil, List.count_append] at hv ⊢
    omega

theorem Separate.clear {old : List ι} {s : Forwarder ε ρ ι} (h : Separate c old s)
    (phase : Phase) : Separate c old { s with phase := phase, pending := [] } := by
  have hrest : ∀ v, (spillUids c s).count v + (ringUids c s).count v ≤
      (acceptedUids c old s).count v := fun v => by
    have := h.older v
    omega
  refine ⟨List.nodup_nil, by simp, by simp, fun v => ?_, fun v => ?_⟩
  · have hv := hrest v
    change 0 + (spillUids c s).count v + (ringUids c s).count v ≤ (acceptedUids c old s).count v
    omega
  · have hall : uncovered { s with phase := phase, pending := [] } = s.spill.rows :=
      List.filter_eq_self.mpr fun r _ => by simp
    have hv := hrest v
    rw [hall]
    change 0 + (spillUids c s).count v + (ringUids c s).count v ≤ (acceptedUids c old s).count v
    omega

/-- A batch that is sent when every mark in flight is below every row stays apart from the
batches before it. -/
theorem Separate.send {old : List ι} {s u : Forwarder ε ρ ι} (h : Separate c old s)
    {batchId : ι} {p : PendingBatch ε} {high : ℕ} {fresh : List (ℕ × ρ)}
    (hid : batchId ∉ s.pending.map Prod.fst)
    (hclear : ∀ b ∈ s.pending, ∀ high ∈ b.2.spillHigh, ∀ r ∈ s.spill.rows, high < r.1)
    (hrows : u.spill.rows.Sublist (s.spill.rows ++ fresh))
    (hsorted : (s.spill.rows ++ fresh).Pairwise fun a b => a.1 < b.1)
    (habove : ∀ r ∈ fresh, s.spill.writeCursor ≤ r.1)
    (hcursor : s.spill.writeCursor ≤ u.spill.writeCursor)
    (htaken : (Spill.rowUids c fresh ++ u.ring.inner.map c.uid).Sublist (s.ring.inner.map c.uid))
    (hoffered : u.offered = s.offered) (hpending : u.pending = s.pending ++ [(batchId, p)])
    (hhigh : p.spillHigh = some high) (hlt : high < u.spill.writeCursor)
    (hbatch : (p.events.map c.uid).Sublist
      (Spill.rowUids c ((s.spill.rows ++ fresh).filter fun r => r.1 ≤ high))) :
    Separate c old u := by
  have haccepted : acceptedUids c old u = acceptedUids c old s := by
    simp only [acceptedUids, offeredUids, hoffered]
  have huncovered : uncovered s = s.spill.rows :=
    List.filter_eq_self.mpr fun r hr => by
      simpa using fun a b hb h hh => hclear (a, b) hb h hh r hr
  refine
    { ids := ?_
      below := ?_
      clean := ?_
      older := fun v => ?_
      all := fun v => ?_ }
  · rw [hpending, List.map_append, List.nodup_append]
    refine ⟨h.ids, by simp, ?_⟩
    rintro a ha b hb rfl
    have hsame : a = batchId := by simpa using hb
    exact hid (hsame ▸ ha)
  · intro b hb mark hmark
    rw [hpending] at hb
    rcases List.mem_append.mp hb with hb | hb
    · exact (h.below b hb mark hmark).trans_le hcursor
    · rw [List.mem_singleton.mp hb] at hmark
      have : high = mark := by simpa [hhigh] using hmark
      exact this ▸ hlt
  · intro b hb mark hmark r hr
    rw [hpending, List.dropLast_concat] at hb
    rcases List.mem_append.mp (hrows.subset hr) with hr | hr
    · exact hclear b hb mark hmark r hr
    · exact (h.below b hb mark hmark).trans_le (habove r hr)
  · have hv := h.all v
    have hspill := (Spill.rowUids_sublist c hrows).count_le v
    have hring := htaken.count_le v
    rw [huncovered] at hv
    rw [haccepted, hpending, List.dropLast_concat]
    simp only [Spill.rowUids_append, List.count_append, spillUids, ringUids] at hv hspill hring ⊢
    omega
  · have hv := h.all v
    have hring := htaken.count_le v
    have hnew := hbatch.count_le v
    -- the new mark covers the rows of the batch, so these are not counted twice
    have hnewest : (uncovered u).Sublist
        ((s.spill.rows ++ fresh).filter fun r => high < r.1) := by
      refine (List.monotone_filter_right _ ?_).trans (hrows.filter _)
      intro r hr
      rw [hpending] at hr
      have hmarks : ∀ b ∈ s.pending ++ [(batchId, p)], ∀ mark ∈ b.2.spillHigh, mark < r.1 :=
        of_decide_eq_true hr
      exact decide_eq_true (hmarks _ (List.mem_append_right _ List.mem_cons_self) high hhigh)
    have hsplit := congrArg (fun l => (Spill.rowUids c l).count v)
      (Spill.filter_le_append_filter_lt hsorted high)
    have hspill := (Spill.rowUids_sublist c hnewest).count_le v
    rw [huncovered] at hv
    rw [haccepted, hpending]
    simp only [batchUids, List.flatMap_append, List.flatMap_cons, List.flatMap_nil,
      List.append_nil, Spill.rowUids_append, List.count_append,
      ringUids] at hv hspill hring hnew hsplit ⊢
    omega

/-- With a batch its rows go, which no other batch has. -/
theorem Separate.ack {old : List ι} {s : Forwarder ε ρ ι} (h : Separate c old s)
    {batchId : ι} {p : PendingBatch ε} {high : ℕ} (hmem : (batchId, p) ∈ s.pending)
    (hp : p.spillHigh = some high) : Separate c old (acknowledge c s batchId p) := by
  have hrows : (acknowledge c s batchId p).spill.rows =
      s.spill.rows.filter fun r => high < r.1 := by
    simp only [Forwarder.acknowledge, hp, Option.elim_some]
    rfl
  have hsub : (acknowledge c s batchId p).spill.rows.Sublist s.spill.rows :=
    hrows ▸ List.filter_sublist
  have holder : ((acknowledge c s batchId p).pending.dropLast).Sublist
      s.pending.dropLast := dropLast_filter_sublist _ _
  have hcursor : (acknowledge c s batchId p).spill.writeCursor =
      s.spill.writeCursor := by
    simp only [Forwarder.acknowledge, hp, Option.elim_some, Spill.ackThrough]
  refine
    { ids := h.ids.sublist (List.filter_sublist.map _)
      below := fun b hb mark hmark =>
        hcursor ▸ h.below b (List.mem_of_mem_filter hb) mark hmark
      clean := fun b hb mark hmark r hr =>
        h.clean b (holder.subset hb) mark hmark r (hsub.subset hr)
      older := fun v => ?_
      all := fun v => ?_ }
  · have hv := h.older v
    have hbatches := (batchUids_sublist (c := c) holder).count_le v
    have hspill := (Spill.rowUids_sublist c hsub).count_le v
    simp only [spillUids, ringUids, acceptedUids, offeredUids] at hv ⊢
    simp only [Forwarder.acknowledge] at hbatches hspill ⊢
    omega
  · have hv := h.all v
    have hbatches := (batchUids_sublist (c := c)
      (List.filter_sublist (l := s.pending) (p := fun b => b.1 ≠ batchId))).count_le v
    have hfilter : (uncovered (acknowledge c s batchId p)).Sublist (uncovered s) := by
      unfold uncovered
      rw [hrows, List.filter_filter]
      refine List.monotone_filter_right _ fun r hr => ?_
      simp only [Bool.and_eq_true, decide_eq_true_eq] at hr ⊢
      intro b hb mark hmark
      by_cases hid : b.1 = batchId
      · have hsame : b = (batchId, p) := List.inj_on_of_nodup_map h.ids hb hmem hid
        rw [hsame] at hmark
        have : high = mark := by simpa [hp] using hmark
        exact this ▸ hr.2
      · exact hr.1 b (List.mem_filter.mpr ⟨hb, by simpa using hid⟩) mark hmark
    have hspill := (Spill.rowUids_sublist c hfilter).count_le v
    simp only [ringUids, acceptedUids, offeredUids] at hv ⊢
    simp only [Forwarder.acknowledge] at hbatches hspill ⊢
    omega

theorem Move.separate {old : List ι} {s u : Forwarder ε ρ ι} (h : Move c cfg (Apart c cfg) s u)
    (hs : Sound s) (hI : Separate c old s) : Separate c old u := by
  obtain ⟨lost, hg⟩ := TryFlush.gather_gathers c cfg s.ring hs.below
  have hrows : (TryFlush.gather c cfg s.ring s.spill).spill.rows.Sublist
      (s.spill.rows ++ TryFlush.appended c cfg s.ring s.spill) := by
    rw [hg.grown.rows]
    exact List.sublist_append_right _ _
  have habove := fun r hr => (hg.grown.above r hr).1
  cases h with
  | @offer e _ => exact hI.offer e
  | clear phase => exact hI.clear phase
  | gather _ _ _ => exact hI.advance hrows habove hg.grown.cursor hg.taken rfl rfl
  | oversize _ _ _ _ _ _ =>
      exact hI.advance (List.filter_sublist.trans hrows) habove hg.grown.cursor hg.taken rfl rfl
  | send hguard hfree hne hsent hwire hpending =>
      have hclear : ∀ b ∈ s.pending, ∀ high ∈ b.2.spillHigh, ∀ r ∈ s.spill.rows, high < r.1 := by
        simpa only [Apart, hsent] using hguard
      obtain ⟨high, hhigh, hlt, hbatch, -⟩ := hg.mark hne
      exact hI.send hpending hclear hrows (hg.grown.all_sorted hs.below) habove hg.grown.cursor
        hg.taken rfl rfl hhigh hlt hbatch
  | @ack batchId p hmem _ =>
      obtain ⟨high, hhigh⟩ := Option.isSome_iff_exists.mp (hs.marked _ hmem)
      exact hI.ack hmem hhigh
  | persist =>
      obtain ⟨hempty, lost, hgrown⟩ := persistRing_spec (c := c) hs
      refine hI.advance ?_ (fun r hr => (hgrown.above r hr).1) hgrown.cursor ?_ rfl rfl
      · rw [hgrown.rows]
        exact List.sublist_append_right _ _
      · rw [hempty, List.map_nil, List.append_nil]
        exact Spill.pushed_uids_sublist c _ _

theorem start_separate (table : OrderedTable ℕ ρ) :
    Separate c (Spill.rowUids c table.rows) (start c cfg table) where
  ids := List.nodup_nil
  below := by simp [start]
  clean := by simp [start]
  older u := by simp [batchUids, spillUids, ringUids, acceptedUids, offeredUids, start, Ring.new,
    Spill.reopen]
  all u := by simp [batchUids, ringUids, acceptedUids, offeredUids, start, Ring.new, Spill.reopen,
    uncovered]

variable (c cfg) in
/-- In a run whose batches are sent over rows above every mark in flight, events
told apart by their ids are in at most one batch in flight, and an ack deletes
no row of a batch that stays in flight. -/
theorem disjoint_of_apart (table : OrderedTable ℕ ρ) {l : List (Act ε ι)} {s : Forwarder ε ρ ι}
    (h : GuardedRun (step c cfg) (Apart c cfg) (start c cfg table) l s)
    (hnodup : (acceptedUids c (Spill.rowUids c table.rows) s).Nodup) :
    s.pending.Pairwise (fun a b => (a.2.events.map c.uid).Disjoint (b.2.events.map c.uid)) ∧
    ∀ batchId accepted u, step c cfg s (.ack batchId accepted) = some u →
      ∀ r ∈ s.spill.rows, r ∉ u.spill.rows →
        ∀ b ∈ u.pending, c.rowUid r.2 ∉ b.2.events.map c.uid := by
  obtain ⟨hs, hI⟩ := run_invariant _ (fun _ _ hs hI hmove => hmove.separate hs hI) h
    (start_sound table) (start_separate table)
  refine ⟨?_, ?_⟩
  · have hbatches : (batchUids c s.pending).Nodup := by
      refine List.nodup_iff_count_le_one.mpr fun v => ?_
      have hv := hI.all v
      have := List.nodup_iff_count_le_one.mp hnodup v
      omega
    exact (List.nodup_flatMap.mp hbatches).2
  · intro batchId accepted u hstep r hr hgone b hb hbatch
    rcases step_ack hstep with rfl | ⟨p, hmem, -, rfl⟩
    · exact hgone hr
    obtain ⟨high, hhigh⟩ := Option.isSome_iff_exists.mp (hs.marked _ hmem)
    have hp : p.spillHigh = some high := hhigh
    simp only [acknowledge, hp, Option.elim_some] at hgone hb
    obtain ⟨hbmem, hbid⟩ := List.mem_filter.mp hb
    have hle : ¬high < r.1 := fun hlt => hgone (List.mem_filter.mpr ⟨hr, by simpa using hlt⟩)
    -- the acknowledged batch is the newest, so `b` is an older one
    obtain ⟨front, last, hpending⟩ := List.eq_nil_or_concat s.pending |>.resolve_left
      (List.ne_nil_of_mem hmem)
    rw [List.concat_eq_append] at hpending
    have holder : s.pending.dropLast = front := by rw [hpending, List.dropLast_concat]
    have hlast : (batchId, p) = last := by
      rw [hpending] at hmem
      rcases List.mem_append.mp hmem with hm | hm
      · exact (hle (hI.clean _ (holder ▸ hm) high hhigh r hr)).elim
      · exact List.mem_singleton.mp hm
    have hfront : b ∈ s.pending.dropLast := by
      rw [hpending] at hbmem
      rcases List.mem_append.mp hbmem with hm | hm
      · exact holder ▸ hm
      · rw [List.mem_singleton.mp hm, ← hlast] at hbid
        simp at hbid
    have hcount := hI.older (c.rowUid r.2)
    have hone := List.nodup_iff_count_le_one.mp hnodup (c.rowUid r.2)
    have hin : 0 < (batchUids c s.pending.dropLast).count (c.rowUid r.2) :=
      List.count_pos_iff.mpr (List.mem_flatMap.mpr ⟨b, hfront, hbatch⟩)
    have hrow : 0 < (spillUids c s).count (c.rowUid r.2) :=
      List.count_pos_iff.mpr (Spill.rowUid_mem c hr)
    omega

/-- A spill with room for a heartbeat and none for the long alert. -/
def smallSpill : TransportConfig := { maxInFlight := 2, spillMaxBytes := 300 }

/-- The cap drops the alert's row while the alert is in flight, so the heartbeat's row is above
its mark. -/
def apartRun : List (Act (Event ℚ) Uuid) :=
  [.offer (longAlert 1), .connect, .flush (.ofDigit 8) true true, .offer (heartbeat 2),
    .flush (.ofDigit 9) true true]

theorem disjoint_of_apart_two :
    ∃ s ∈ execute (step (eventCodec ℚ) smallSpill) (Apart (eventCodec ℚ) smallSpill)
        (start (eventCodec ℚ) smallSpill .empty) apartRun,
      s.pending.map (fun b => (b.1, b.2.events.map (eventCodec ℚ).uid)) =
        [(.ofDigit 8, [.ofDigit 1]), (.ofDigit 9, [.ofDigit 2])] ∧
      s.pending.Pairwise (fun a b =>
        (a.2.events.map (eventCodec ℚ).uid).Disjoint (b.2.events.map (eventCodec ℚ).uid)) ∧
      ∃ u ∈ step (eventCodec ℚ) smallSpill s (.ack (.ofDigit 9) 1),
        s.spill.rows.map (fun r => (eventCodec ℚ).rowUid r.2) = [.ofDigit 2] ∧
        u.spill.rows = [] ∧
        ∀ r ∈ s.spill.rows, ∀ b ∈ u.pending,
          (eventCodec ℚ).rowUid r.2 ∉ b.2.events.map (eventCodec ℚ).uid := by
  have hend : ∃ s ∈ execute (step (eventCodec ℚ) smallSpill) (Apart (eventCodec ℚ) smallSpill)
      (start (eventCodec ℚ) smallSpill .empty) apartRun,
      (acceptedUids (eventCodec ℚ) [] s).Nodup ∧
      s.pending.map (fun b => (b.1, b.2.events.map (eventCodec ℚ).uid)) =
        [(.ofDigit 8, [.ofDigit 1]), (.ofDigit 9, [.ofDigit 2])] ∧
      ∃ u ∈ step (eventCodec ℚ) smallSpill s (.ack (.ofDigit 9) 1),
        s.spill.rows.map (fun r => (eventCodec ℚ).rowUid r.2) = [.ofDigit 2] ∧
        u.spill.rows = [] := by
    decide +kernel
  obtain ⟨s, hs, hnodup, hpending, u, hu, hrows, hgone⟩ := hend
  obtain ⟨hdisjoint, hack⟩ :=
    disjoint_of_apart (eventCodec ℚ) smallSpill .empty (run_of_execute hs) hnodup
  refine ⟨s, hs, hpending, hdisjoint, u, hu, hrows, hgone, fun r hr b hb => ?_⟩
  exact hack (.ofDigit 9) 1 u hu r hr (by simp [hgone]) b hb

def twoInFlight : TransportConfig := { maxInFlight := 2 }

/-- With two slots, a second flush sends the first batch again. -/
theorem second_flush_repeats :
    ¬∀ cfg : TransportConfig, 1 ≤ cfg.maxInFlight →
      ∀ (l : List (Act (Event ℚ) Uuid)) (s : Forwarder (Event ℚ) (Json ℚ) Uuid),
        GuardedRun (step (eventCodec ℚ) cfg) (fun _ _ => True)
          (start (eventCodec ℚ) cfg .empty) l s →
        (acceptedUids (eventCodec ℚ) [] s).Nodup →
        s.pending.Pairwise fun a b =>
          (a.2.events.map (eventCodec ℚ).uid).Disjoint (b.2.events.map (eventCodec ℚ).uid) := by
  intro h
  have hend : ∃ s ∈ execute (step (eventCodec ℚ) twoInFlight) (fun _ _ => True)
      (start (eventCodec ℚ) twoInFlight .empty)
      [.offer (heartbeat 1), .connect, .flush (.ofDigit 8) true true,
        .flush (.ofDigit 9) true true],
      (acceptedUids (eventCodec ℚ) [] s).Nodup ∧
      s.pending.map (fun b => b.2.events.map (eventCodec ℚ).uid) =
        [[.ofDigit 1], [.ofDigit 1]] := by
    decide +kernel
  obtain ⟨s, hs, hnodup, hpending⟩ := hend
  have hdisjoint := h twoInFlight (by decide) _ s (run_of_execute hs) hnodup
  have hpairs : (s.pending.map fun b => b.2.events.map (eventCodec ℚ).uid).Pairwise
      List.Disjoint := List.pairwise_map.mpr hdisjoint
  rw [hpending, List.pairwise_pair] at hpairs
  exact hpairs List.mem_cons_self List.mem_cons_self

end Forwarder
end Aegis

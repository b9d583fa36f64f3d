import Aegis.FlushLoss

/-!
# What a flush assembles

The caps that the drain, the collection and the plan apply one after the other
hold for the batch as a whole, what was pulled from the ring is in the spill
when the call returns, and something pending makes a batch.
-/

namespace Aegis
variable {ε ρ ι : Type}

/-- So many events of so many bytes are within the caps, or one alone. -/
structure Fits (maxEvents maxBytes n bytes : ℕ) : Prop where
  count : n ≤ maxEvents
  size : bytes ≤ maxBytes ∨ n ≤ 1

theorem Fits.add {maxEvents maxBytes n bytes sz : ℕ} (hcap : 0 < maxEvents)
    (hroom : batchHasRoom n bytes sz maxEvents maxBytes = true) :
    Fits maxEvents maxBytes (n + 1) (bytes + sz) := by
  unfold batchHasRoom at hroom
  split_ifs at hroom with hzero
  · subst hzero
    exact ⟨hcap, Or.inr le_rfl⟩
  · simp only [Bool.and_eq_true, decide_eq_true_eq] at hroom
    exact ⟨hroom.1, Or.inl hroom.2⟩

theorem planLoop_fits {maxEvents maxBytes n bytes : ℕ} (hcap : 0 < maxEvents)
    (h : Fits maxEvents maxBytes n bytes) (size : ε → ℕ) (taken : List ε) (l : List ε) :
    ∃ more, (planLoop maxEvents maxBytes taken [] n bytes (l.map fun e => (e, size e))).1 =
        taken ++ more ∧
      Fits maxEvents maxBytes (n + more.length) (bytes + (more.map size).sum) := by
  induction l generalizing taken n bytes with
  | nil => exact ⟨[], by simp [planLoop], by simpa using h⟩
  | cons e l ih =>
      by_cases hroom : batchHasRoom n bytes (size e) maxEvents maxBytes = true
      · obtain ⟨more, hmore, hfits⟩ := ih (Fits.add hcap hroom) (taken ++ [e])
        refine ⟨e :: more, ?_, ?_⟩
        · simpa [planLoop, hroom] using hmore
        · simpa [Nat.add_assoc, Nat.add_comm 1, Nat.add_left_comm] using hfits
      · exact ⟨[], by simp [planLoop, hroom, planLoop_overflow], by simpa using h⟩

namespace TryFlush
variable {c : Codec ε ρ ι} {cfg : TransportConfig}

def estimated (c : Codec ε ρ ι) (events : List ε) : ℕ := (events.map c.estimateSize).sum

/-- The collected events are counted as they are and fit. -/
structure Collected.Counted (c : Codec ε ρ ι) (cfg : TransportConfig) (b : Collected ε) : Prop where
  bytes : b.estBytes = estimated c b.events
  fits : Fits cfg.batchMaxEvents cfg.batchMaxBytes b.events.length b.estBytes

theorem collectLoop_counted (hcap : 0 < cfg.batchMaxEvents) {b : Collected ε}
    (h : b.Counted c cfg) (l : List (SpilledEvent ε)) : (collectLoop c cfg b l).Counted c cfg := by
  induction l generalizing b with
  | nil => exact h
  | cons se l ih =>
      simp only [collectLoop]
      split
      · rename_i hroom
        apply ih
        exact ⟨by simp [estimated, h.bytes], by simpa using Fits.add hcap hroom⟩
      · exact h

theorem collect_counted (hcap : 0 < cfg.batchMaxEvents) (spill : Spill ρ) :
    (collect c cfg spill).Counted c cfg := by
  have hnone : (⟨[], none, 0⟩ : Collected ε).Counted c cfg :=
    ⟨rfl, ⟨Nat.zero_le _, Or.inr (Nat.zero_le _)⟩⟩
  unfold collect
  split
  · exact collectLoop_counted hcap hnone _
  · exact hnone

theorem topUp_fits (hcap : 0 < cfg.batchMaxEvents) {b : Collected ε} (hb : b.Counted c cfg)
    (ring : Ring ε) :
    Fits cfg.batchMaxEvents cfg.batchMaxBytes
      (b.events.length + (topUp c cfg b ring).keep.length)
      (b.estBytes + estimated c (topUp c cfg b ring).keep) := by
  unfold topUp
  split
  · dsimp only
    split
    · simpa [estimated] using hb.fits
    · obtain ⟨more, hmore, hfits⟩ := planLoop_fits hcap hb.fits c.estimateSize []
        (ring.drain (cfg.batchMaxEvents - b.events.length)).1
      rw [List.nil_append] at hmore
      simpa only [planBatch, hmore, estimated] using hfits
  · simpa [estimated] using hb.fits

/-- The events that a call pulls from the ring. -/
def pulledEvents (c : Codec ε ρ ι) (cfg : TransportConfig) (inFlight : ℕ) (ring : Ring ε)
    (spill : Spill ρ) : List ε :=
  if cfg.maxInFlight ≤ inFlight then [] else
    (topUp c cfg (collect c cfg spill) ring).keep ++
      (topUp c cfg (collect c cfg spill) ring).overflow

variable (c cfg) in
/-- The events of the batch: what the collection took, and behind it what the top-up kept. -/
theorem gather_events (ring : Ring ε) {spill : Spill ρ} (hbelow : spill.Below) :
    (spill.pushed c (topUp c cfg (collect c cfg spill) ring).keep = [] ∧
      (gather c cfg ring spill).events = (collect c cfg spill).events) ∨
    (gather c cfg ring spill).events =
      (collect c cfg spill).events ++ (topUp c cfg (collect c cfg spill) ring).keep := by
  rcases gather_kept ring hbelow with ⟨hpushed, hevents, -⟩ | ⟨ks, -, -, hevents, -⟩
  · exact Or.inl ⟨hpushed, hevents⟩
  · exact Or.inr hevents

theorem gather_fits (hcap : 0 < cfg.batchMaxEvents) (ring : Ring ε) {spill : Spill ρ}
    (hbelow : spill.Below) :
    Fits cfg.batchMaxEvents cfg.batchMaxBytes (gather c cfg ring spill).events.length
      (estimated c (gather c cfg ring spill).events) := by
  have hcollect := collect_counted (c := c) hcap spill
  have htop := topUp_fits hcap hcollect ring
  rcases gather_events c cfg ring hbelow with ⟨-, hevents⟩ | hevents
  · rw [hevents, ← hcollect.bytes]
    exact hcollect.fits
  · rw [hevents, List.length_append]
    simpa [estimated, hcollect.bytes] using htop

theorem topUp_keep_ne_nil (hevents : 0 < cfg.batchMaxEvents) (hbytes : 0 < cfg.batchMaxBytes)
    {b : Collected ε} (hb : b.Counted c cfg) (hempty : b.events = []) {ring : Ring ε}
    (hring : ring.inner ≠ []) : (topUp c cfg b ring).keep ≠ [] := by
  have hest : b.estBytes = 0 := by rw [hb.bytes, hempty]; rfl
  have hdrained : (ring.drain cfg.batchMaxEvents).1 ≠ [] := by
    simpa [Ring.drain, List.take_eq_nil_iff, hring] using hevents.ne'
  unfold topUp
  rw [if_pos ⟨by rw [hempty]; exact hevents, by rw [hest]; exact hbytes⟩]
  simp only [hempty, List.length_nil, Nat.sub_zero, List.isEmpty_iff, hdrained, if_false]
  exact planBatch_keep_ne_nil (by simpa using hdrained) _ _ _

theorem gather_ne_nil (hevents : 0 < cfg.batchMaxEvents) (hbytes : 0 < cfg.batchMaxBytes)
    {ring : Ring ε} {spill : Spill ρ} (hbelow : spill.Below)
    (hdrain : (spill.drainBatch c cfg.batchMaxEvents cfg.batchMaxBytes).isSome)
    (hencode : ∀ e ∈ (topUp c cfg (collect c cfg spill) ring).keep, (c.encode e).isSome)
    (hpending : spill.rows ≠ [] ∨ ring.inner ≠ []) : (gather c cfg ring spill).events ≠ [] := by
  by_cases hempty : (collect c cfg spill).events = []
  · have hrows : spill.rows = [] := by
      by_contra hrows
      rw [(collect_eq_nil hrows).mp hempty] at hdrain
      cases hdrain
    have hkeep := topUp_keep_ne_nil hevents hbytes (collect_counted (c := c) hevents spill) hempty
      (hpending.resolve_left fun hne => hne hrows)
    rcases gather_events c cfg ring hbelow with ⟨hpushed, -⟩ | hg
    · have hlength := congrArg List.length (Spill.pushed_uids c (s := spill) hencode)
      rw [hpushed, List.length_map] at hlength
      exact absurd (List.eq_nil_of_length_eq_zero hlength.symm) hkeep
    · rw [hg]
      exact fun hnil => hkeep (List.append_eq_nil_iff.mp hnil).2
  · rcases gather_events c cfg ring hbelow with ⟨-, hg⟩ | hg
    · rwa [hg]
    · rw [hg]
      exact fun hnil => hempty (List.append_eq_nil_iff.mp hnil).1

end TryFlush

theorem Spill.numbered_append (n : ℕ) (rs rs' : List ρ) :
    numbered n (rs ++ rs') = numbered n rs ++ numbered (n + rs.length) rs' := by
  induction rs generalizing n with
  | nil => rfl
  | cons r rs ih => simp [numbered, ih, Nat.add_assoc, Nat.add_comm 1]

theorem Spill.lt_of_mem_ackThrough {c : Codec ε ρ ι} {s : Spill ρ} {through : ℕ} {x : ℕ × ρ}
    (h : x ∈ (s.ackThrough c through).rows) : through < x.1 := by
  simpa using (List.mem_filter.mp h).2

theorem Codec.encodeAll_append (c : Codec ε ρ ι) {xs ys : List ε} {rs rs' : List ρ}
    (hxs : c.encodeAll xs = some rs) (hys : c.encodeAll ys = some rs') :
    c.encodeAll (xs ++ ys) = some (rs ++ rs') := by
  simp only [encodeAll] at hxs hys ⊢
  simp [List.mapM_append, hxs, hys]

namespace TryFlush
variable {c : Codec ε ρ ι} {cfg : TransportConfig}

variable (cfg) in
theorem appended_rows {ring : Ring ε} {spill : Spill ρ} (hbelow : spill.Below)
    (hkeep : ∀ e ∈ (topUp c cfg (collect c cfg spill) ring).keep, (c.encode e).isSome)
    (hover : ∀ e ∈ (topUp c cfg (collect c cfg spill) ring).overflow, (c.encode e).isSome) :
    ∃ pulled rows, ring.inner = pulled ++ (gather c cfg ring spill).ring.inner ∧
      c.encodeAll pulled = some rows ∧
      appended c cfg ring spill = Spill.numbered spill.writeCursor rows := by
  obtain ⟨ks, hks⟩ := c.encodeAll_isSome hkeep
  obtain ⟨os, hos⟩ := c.encodeAll_isSome hover
  refine ⟨_, ks ++ os, (topUp_split c cfg (collect c cfg spill) ring).symm,
    c.encodeAll_append hks hos, ?_⟩
  rw [Spill.numbered_append, appended]
  simp only [Spill.pushed, hks, hos, Option.getD_some, (Spill.push_some c hks hbelow).2.1]

/-- What an oversize frame takes away of the fresh rows was in its batch. -/
theorem appended_marked {ring : Ring ε} {spill : Spill ρ} (hbelow : spill.Below) {high : ℕ}
    (hhigh : (gather c cfg ring spill).spillHigh = some high) {x : ℕ × ρ}
    (hx : x ∈ appended c cfg ring spill) (hle : x.1 ≤ high) :
    c.rowUid x.2 ∈ (gather c cfg ring spill).events.map c.uid := by
  have hmark := appended_mark hbelow hhigh
  rcases List.mem_append.mp hx with hx | hx
  · have huid := (Spill.pushed_uids_sublist c spill
      (topUp c cfg (collect c cfg spill) ring).keep).subset (Spill.rowUid_mem c hx)
    rcases gather_events c cfg ring hbelow with ⟨hnil, -⟩ | hg
    · rw [hnil] at hx
      cases hx
    · rw [hg, List.map_append]
      exact List.mem_append_right _ huid
  · exact absurd (hmark.2 x hx) (Nat.not_lt.mpr hle)

/-- What a flush pulled from the ring and where it is afterwards: in the spill, among the rows
that the cap took and counted, or in a batch whose frame was too large. -/
def KeepsPulled (c : Codec ε ρ ι) (cfg : TransportConfig) (batchId : ι) (inFlight : ℕ)
    (ring : Ring ε) (spill : Spill ρ) : Prop :=
  let r := tryFlush c cfg batchId inFlight ring spill
  ∃ pulled rows lost, ring.inner = pulled ++ r.2.1.inner ∧ c.encodeAll pulled = some rows ∧
    r.2.2.dropped = spill.dropped + lost.length ∧
    lost <+: spill.rows ++ Spill.numbered spill.writeCursor rows ∧
    ∀ x ∈ Spill.numbered spill.writeCursor rows, x ∈ r.2.2.rows ∨ x ∈ lost ∨
      (r.1 = .tooLarge ∧ c.rowUid x.2 ∈ (gather c cfg ring spill).events.map c.uid)

theorem keepsPulled (batchId : ι) {inFlight : ℕ} {ring : Ring ε} {spill : Spill ρ}
    (hbelow : spill.Below)
    (hencode : ∀ e ∈ pulledEvents c cfg inFlight ring spill, (c.encode e).isSome) :
    KeepsPulled c cfg batchId inFlight ring spill := by
  unfold KeepsPulled
  by_cases hfull : cfg.maxInFlight ≤ inFlight
  · refine ⟨[], [], [], ?_⟩
    simp [tryFlush, hfull, Codec.encodeAll, Spill.numbered]
  simp only [pulledEvents, hfull, if_false, List.forall_mem_append] at hencode
  obtain ⟨pulled, rows, hring, hrows, hfresh⟩ := appended_rows cfg hbelow hencode.1 hencode.2
  obtain ⟨lost, hgathers⟩ := gather_gathers c cfg ring hbelow
  have hgrown := hgathers.grown
  rw [hfresh] at hgrown
  have hwhere : ∀ x ∈ Spill.numbered spill.writeCursor rows,
      x ∈ (gather c cfg ring spill).spill.rows ∨ x ∈ lost := by
    intro x hx
    have hmem := hgrown.rows ▸ List.mem_append_right spill.rows hx
    exact (List.mem_append.mp hmem).symm
  have hprefix : lost <+: spill.rows ++ Spill.numbered spill.writeCursor rows :=
    ⟨_, hgrown.rows.symm⟩
  obtain ⟨hr, ⟨doc, high, -, -, hhigh, hlarge, hspill⟩ | ⟨-, hspill, -⟩⟩ :=
    tryFlush_free c batchId (not_le.mp hfull) ring spill
  · refine ⟨pulled, rows, lost, by rw [hr]; exact hring, hrows, ?_, hprefix, fun x hx => ?_⟩
    · rw [hspill]
      exact hgrown.dropped
    · rcases hwhere x hx with hkept | hlost
      · by_cases hle : x.1 ≤ high
        · exact Or.inr (Or.inr ⟨hlarge, appended_marked hbelow hhigh (hfresh ▸ hx) hle⟩)
        · rw [hspill]
          exact Or.inl (List.mem_filter.mpr ⟨hkept, by simpa using hle⟩)
      · exact Or.inr (Or.inl hlost)
  · refine ⟨pulled, rows, lost, by rw [hr]; exact hring, hrows, ?_, hprefix, fun x hx => ?_⟩
    · rw [hspill]
      exact hgrown.dropped
    · rw [hspill]
      exact (hwhere x hx).imp_right Or.inl

theorem batch_of_tryFlush {batchId : ι} {inFlight : ℕ} {ring : Ring ε} {spill : Spill ρ}
    {p : PendingBatch ε} (h : (tryFlush c cfg batchId inFlight ring spill).1 = .batch p) :
    p.events = (gather c cfg ring spill).events ∧ p.events ≠ [] := by
  rcases tryFlush_cases c cfg batchId inFlight ring spill with
    ⟨-, hr⟩ | ⟨-, ⟨-, hr⟩ | ⟨hne, doc, -, ⟨-, hr⟩ | ⟨-, hr⟩⟩⟩
  · rw [hr] at h
    cases h
  · rw [hr] at h
    cases h
  · rw [hr] at h
    cases h
  · rw [hr] at h
    cases h
    exact ⟨rfl, hne⟩

variable (c cfg) in
/-- The plan splits its candidates in order, the batch is within the caps or a single event, the
events pulled from the ring are kept, and a free slot with something pending makes a batch if
its frame fits. -/
theorem batch_assembly (batchId : ι) (inFlight : ℕ) (ring : Ring ε) (spill : Spill ρ)
    (hevents : 0 < cfg.batchMaxEvents) (hbytes : 0 < cfg.batchMaxBytes) (hbelow : spill.Below)
    (hdrain : inFlight < cfg.maxInFlight →
      (spill.drainBatch c cfg.batchMaxEvents cfg.batchMaxBytes).isSome)
    (hencode : ∀ e ∈ pulledEvents c cfg inFlight ring spill, (c.encode e).isSome) :
    (∀ (candidates : List (ε × ℕ)) (startEvents startBytes maxEvents maxBytes : ℕ),
      let (taken, overflow) := planBatch candidates startEvents startBytes maxEvents maxBytes
      taken ++ overflow = candidates.map Prod.fst) ∧
    (∀ p, (tryFlush c cfg batchId inFlight ring spill).1 = .batch p →
      p.events.length ≤ cfg.batchMaxEvents ∧
        (estimated c p.events ≤ cfg.batchMaxBytes ∨ p.events.length = 1)) ∧
    KeepsPulled c cfg batchId inFlight ring spill ∧
    (inFlight < cfg.maxInFlight → spill.rows ≠ [] ∨ ring.inner ≠ [] →
      (∀ doc ∈ c.frame batchId (gather c cfg ring spill).events, c.len doc ≤ maxFrameBytes) →
      ∃ p, (tryFlush c cfg batchId inFlight ring spill).1 = .batch p) := by
  refine ⟨planBatch_split, fun p hp => ?_, keepsPulled batchId hbelow hencode,
    fun hfree hpending hframe => ?_⟩
  · obtain ⟨hgathered, hne⟩ := batch_of_tryFlush hp
    have hfits := gather_fits (c := c) hevents ring hbelow
    rw [← hgathered] at hfits
    have hpos := List.length_pos_iff.mpr hne
    exact ⟨hfits.count, hfits.size.imp_right fun hle => by omega⟩
  · simp only [pulledEvents, not_le.mpr hfree, if_false, List.forall_mem_append] at hencode
    have hne := gather_ne_nil hevents hbytes hbelow (hdrain hfree) hencode.1 hpending
    rcases tryFlush_cases c cfg batchId inFlight ring spill with
      ⟨hfull, -⟩ | ⟨-, ⟨hnil, -⟩ | ⟨-, doc, hdoc, ⟨hlarge, -⟩ | ⟨-, hr⟩⟩⟩
    · omega
    · exact absurd hnil hne
    · exact absurd (hframe doc hdoc) (Nat.not_le.mpr hlarge)
    · exact ⟨_, congrArg Prod.fst hr⟩

/-- Four events of 1000 bytes a batch: room for two heartbeats and one long alert. -/
def mixedBatches : TransportConfig := { batchMaxEvents := 4, batchMaxBytes := 1000 }

def spilledAlert : Spill (Json ℚ) :=
  (freshSpill.push (eventCodec ℚ) [heartbeat 3, Forwarder.longAlert 4]).2

/-- The last event does not serialize, and is behind those that a call pulls. -/
def mixedRing : Ring (Event ℚ) :=
  ⟨[heartbeat 1, Forwarder.longAlert 2, listPayload 5], 50000, 0⟩

/-- The batch takes the rows and one ring event, and the alert behind it overflows to the spill. -/
theorem batch_assembly_mixed :
    (pulledEvents (eventCodec ℚ) mixedBatches 0 mixedRing spilledAlert).map (eventCodec ℚ).uid =
        [.ofDigit 1, .ofDigit 2] ∧
      KeepsPulled (eventCodec ℚ) mixedBatches .nil 0 mixedRing spilledAlert ∧
      ∃ p, (tryFlush (eventCodec ℚ) mixedBatches .nil 0 mixedRing spilledAlert).1 = .batch p ∧
        p.events.map (eventCodec ℚ).uid = [.ofDigit 3, .ofDigit 4, .ofDigit 1] ∧
        p.events.length ≤ 4 ∧
        (estimated (eventCodec ℚ) p.events ≤ 1000 ∨ p.events.length = 1) := by
  have hfresh : freshSpill.Below := Spill.reopen_below _ _ _
  obtain ⟨_, hgrown⟩ := Spill.push_grown (eventCodec ℚ)
    [heartbeat 3, Forwarder.longAlert 4] hfresh
  have hbelow : spilledAlert.Below := hgrown.below hfresh
  have hmixed : (spilledAlert.drainBatch (eventCodec ℚ) mixedBatches.batchMaxEvents
        mixedBatches.batchMaxBytes).isSome ∧
      (∀ e ∈ pulledEvents (eventCodec ℚ) mixedBatches 0 mixedRing spilledAlert,
        ((eventCodec ℚ).encode e).isSome) ∧
      (∀ doc ∈ (eventCodec ℚ).frame .nil
          (gather (eventCodec ℚ) mixedBatches mixedRing spilledAlert).events,
        (eventCodec ℚ).len doc ≤ maxFrameBytes) ∧
      (pulledEvents (eventCodec ℚ) mixedBatches 0 mixedRing spilledAlert).map
        (eventCodec ℚ).uid = [.ofDigit 1, .ofDigit 2] ∧
      (gather (eventCodec ℚ) mixedBatches mixedRing spilledAlert).events.map
        (eventCodec ℚ).uid = [.ofDigit 3, .ofDigit 4, .ofDigit 1] := by
    decide +kernel
  obtain ⟨hdrain, hencode, hframe, hpulled, huids⟩ := hmixed
  obtain ⟨-, hcaps, hkept, hbatch⟩ := batch_assembly (eventCodec ℚ) mixedBatches .nil 0 mixedRing
    spilledAlert (by decide) (by decide) hbelow (fun _ => hdrain) hencode
  obtain ⟨p, hp⟩ := hbatch (by decide) (Or.inr (by simp [mixedRing])) hframe
  rw [← (batch_of_tryFlush hp).1] at huids
  exact ⟨hpulled, hkept, p, hp, huids, hcaps p hp⟩

section DriftAlert
open Forwarder (driftAlert)

theorem driftAlert_encodes (detail : String) :
    ∃ doc, (eventCodec ℚ).encode (driftAlert 1 detail) = some doc ∧
      doc.textLen = 228 + Json.strLen detail := by
  have hrow : ∀ doc, (eventCodec ℚ).encode (driftAlert 1 "") = some doc → doc.textLen = 230 := by
    decide +kernel
  have hempty : Json.strLen "" = 2 := rfl
  obtain ⟨doc, hdoc⟩ : ∃ doc, (eventCodec ℚ).encode (driftAlert 1 "") = some doc := ⟨_, rfl⟩
  have hlength := hrow doc hdoc
  cases hdoc
  refine ⟨_, rfl, ?_⟩
  have hid : (driftAlert 1 detail).id = (driftAlert 1 "").id := rfl
  have hts : (driftAlert 1 detail).tsNs = (driftAlert 1 "").tsNs := rfl
  have hagent : (driftAlert 1 detail).agentId = (driftAlert 1 "").agentId := rfl
  have hsource : (driftAlert 1 detail).source = (driftAlert 1 "").source := rfl
  have hkind : (driftAlert 1 detail).kind = (driftAlert 1 "").kind := rfl
  have hlabels : (driftAlert 1 detail).labels = (driftAlert 1 "").labels := rfl
  simp only [Json.textLen, Json.entriesLen, List.isEmpty_cons, List.isEmpty_nil,
    Bool.false_eq_true, if_false, if_true, hempty] at hlength ⊢
  rw [hid, hts, hagent, hsource, hkind, hlabels]
  linarith only [hlength]

theorem driftAlert_frame (detail : String) :
    ∃ doc, (eventCodec ℚ).frame .nil [driftAlert 1 detail] = some doc ∧
      Json.strLen detail ≤ (eventCodec ℚ).len doc := by
  obtain ⟨row, hrow, hlength⟩ := driftAlert_encodes detail
  have hserialize : (driftAlert 1 detail).serialize = some row := hrow
  refine ⟨_, by simp only [eventCodec, Message.serialize, List.mapM_cons, hserialize]; rfl, ?_⟩
  simp only [eventCodec, Json.textLen, Json.entriesLen, Json.itemsLen, hlength]
  omega

theorem exists_strLen (n : ℕ) : ∃ detail, Json.strLen detail = n + 2 := by
  have hchar : Json.charLen 'a' = 1 := by decide
  exact ⟨String.ofList (List.replicate n 'a'), by simp [Json.strLen, hchar]⟩

theorem collect_freshSpill : collect (eventCodec ℚ) {} freshSpill = ⟨[], none, 0⟩ := rfl

theorem topUp_driftAlert (detail : String) :
    topUp (eventCodec ℚ) {} ⟨[], none, 0⟩ ⟨[driftAlert 1 detail], 50000, 0⟩ =
      ⟨[driftAlert 1 detail], [], ⟨[], 50000, 0⟩⟩ := by
  simp [topUp, Ring.drain, planBatch, planLoop, batchHasRoom]

theorem push_driftAlert {detail : String} (h : Json.strLen detail ≤ 67000000) :
    ((freshSpill.push (eventCodec ℚ) [driftAlert 1 detail]).2).dropped = 0 := by
  obtain ⟨row, hrow, hlength⟩ := driftAlert_encodes detail
  have hle : (eventCodec ℚ).len row ≤ 67108864 := by
    change row.textLen ≤ 67108864
    omega
  have hbytes : freshSpill.bytes = 0 := rfl
  have hmax : freshSpill.maxBytes = 67108864 := rfl
  have hdropped : freshSpill.dropped = 0 := rfl
  simp [Spill.push, Spill.writeRows, hrow, Spill.enforceCap, hbytes, hmax, hdropped, hle]

theorem gather_driftAlert (detail : String) :
    gather (eventCodec ℚ) {} ⟨[driftAlert 1 detail], 50000, 0⟩ freshSpill =
      ⟨[driftAlert 1 detail], some 0, ⟨[], 50000, 0⟩,
        (freshSpill.push (eventCodec ℚ) [driftAlert 1 detail]).2⟩ := by
  obtain ⟨row, hrow, -⟩ := driftAlert_encodes detail
  have hks : (eventCodec ℚ).encodeAll [driftAlert 1 detail] = some [row] := by
    simp [Codec.encodeAll, hrow]
  have hkeep := spillKeep_of_some ⟨[], none, 0⟩ (List.cons_ne_nil (driftAlert 1 detail) []) hks
    (Spill.reopen_below (eventCodec ℚ) .empty 67108864)
  simp only [gather, collect_freshSpill, topUp_driftAlert]
  change spillKeep (eventCodec ℚ) ⟨[], none, 0⟩ [driftAlert 1 detail] freshSpill = _ at hkeep
  rw [hkeep]
  simp only [List.isEmpty_nil, if_true, List.nil_append]
  rfl

theorem flush_driftAlert (detail : String) (hlarge : maxFrameBytes < Json.strLen detail) :
    tryFlush (eventCodec ℚ) {} .nil 0 ⟨[driftAlert 1 detail], 50000, 0⟩ freshSpill =
      (.tooLarge, ⟨[], 50000, 0⟩,
        (freshSpill.push (eventCodec ℚ) [driftAlert 1 detail]).2.ackThrough (eventCodec ℚ) 0) := by
  obtain ⟨doc, hdoc, hlength⟩ := driftAlert_frame detail
  have hover := hlarge.trans_le hlength
  unfold tryFlush guardFrame
  rw [if_neg (by decide), gather_driftAlert, hdoc]
  simp only [List.isEmpty_cons, Bool.false_eq_true, if_false]
  rw [if_pos hover]
  rfl

theorem not_kept_of_ackThrough {c : Codec ε ρ ι} {s : Spill ρ} {lost : List (ℕ × ρ)} {row : ρ}
    (hnone : s.dropped = 0) (hdropped : (s.ackThrough c 0).dropped = 0 + lost.length) :
    ¬ ((0, row) ∈ (s.ackThrough c 0).rows ∨ (0, row) ∈ lost) := by
  have hlost : lost = [] := List.eq_nil_of_length_eq_zero (by
    rw [← Nat.zero_add lost.length, ← hdropped]
    exact hnone)
  subst hlost
  rintro (hmem | hmem)
  · exact absurd (Spill.lt_of_mem_ackThrough hmem) (lt_irrefl 0)
  · cases hmem

/-- The alert goes to the spill and is acked away with its frame: it is pulled from the ring and
neither in the spill nor counted by the cap. -/
theorem oversize_alert_dropped :
    ¬ ∀ (cfg : TransportConfig) (batchId : Uuid) (inFlight : ℕ) (ring : Ring (Event ℚ))
      (spill : Spill (Json ℚ)), 0 < cfg.batchMaxEvents → 0 < cfg.batchMaxBytes → spill.Below →
      (inFlight < cfg.maxInFlight →
        (spill.drainBatch (eventCodec ℚ) cfg.batchMaxEvents cfg.batchMaxBytes).isSome) →
      (∀ e ∈ pulledEvents (eventCodec ℚ) cfg inFlight ring spill,
        ((eventCodec ℚ).encode e).isSome) →
      let r := tryFlush (eventCodec ℚ) cfg batchId inFlight ring spill
      ∃ pulled rows lost, ring.inner = pulled ++ r.2.1.inner ∧
        (eventCodec ℚ).encodeAll pulled = some rows ∧
        r.2.2.dropped = spill.dropped + lost.length ∧
        lost <+: spill.rows ++ Spill.numbered spill.writeCursor rows ∧
        ∀ x ∈ Spill.numbered spill.writeCursor rows, x ∈ r.2.2.rows ∨ x ∈ lost := by
  intro h
  obtain ⟨detail, hdetail⟩ := exists_strLen 16777216
  obtain ⟨row, hrow, -⟩ := driftAlert_encodes detail
  have hflush := flush_driftAlert detail (by rw [hdetail]; decide)
  have hpulled : pulledEvents (eventCodec ℚ) {} 0 ⟨[driftAlert 1 detail], 50000, 0⟩ freshSpill =
      [driftAlert 1 detail] := by
    simp [pulledEvents, collect_freshSpill, topUp_driftAlert]
  obtain ⟨pulled, rows, lost, hring, hrows, hdropped, -, hkept⟩ :=
    h {} .nil 0 ⟨[driftAlert 1 detail], 50000, 0⟩ freshSpill (by decide) (by decide)
      (Spill.reopen_below _ _ _) (fun _ => by decide) (by simp [hpulled, hrow])
  rw [hflush] at hring hdropped hkept
  dsimp only at hring hdropped hkept
  rw [List.append_nil] at hring
  subst hring
  have hsome : (eventCodec ℚ).encodeAll [driftAlert 1 detail] = some [row] := by
    simp [Codec.encodeAll, hrow]
  cases hsome.symm.trans hrows
  have hcursor : freshSpill.writeCursor = 0 := rfl
  have hmem := hkept (0, row) (hcursor ▸ List.mem_cons_self)
  have hnone : (freshSpill.push (eventCodec ℚ) [driftAlert 1 detail]).2.dropped = 0 :=
    push_driftAlert (by omega)
  exact not_kept_of_ackThrough hnone hdropped hmem

end DriftAlert
end TryFlush
end Aegis

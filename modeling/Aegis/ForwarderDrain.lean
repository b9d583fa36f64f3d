import Aegis.ForwarderConservation

/-!
# Draining the forwarder

Once connected and offered no more events, an actor whose batches arrive and are
acknowledged is empty after at most as many flushes as it held events. A row
that does not parse is what would stop it: the rows behind it are never read.
-/

namespace Aegis
namespace Forwarder
variable {ε ρ ι : Type} [DecidableEq ι] (c : Codec ε ρ ι) (cfg : TransportConfig)

/-- Serializes to a row that parses again. -/
def Storable (e : ε) : Prop := ∃ r ∈ c.encode e, (c.decode r).isSome

instance (e : ε) : Decidable (Storable c e) := by unfold Storable; infer_instance

/-- Only storable events come from the bus. -/
def OffersStorable (_ : Forwarder ε ρ ι) : Act ε ι → Prop
  | .offer e => Storable c e
  | _ => True

instance (s : Forwarder ε ρ ι) (a : Act ε ι) : Decidable (OffersStorable c s a) :=
  match a with
  | .offer e => inferInstanceAs (Decidable (Storable c e))
  | .connect | .refused | .fail | .stop => isTrue trivial
  | .flush _ _ _ => isTrue trivial
  | .ack _ _ => isTrue trivial

structure Legible (s : Forwarder ε ρ ι) : Prop where
  ring : ∀ e ∈ s.ring.inner, Storable c e
  rows : ∀ r ∈ s.spill.rows, (c.decode r.2).isSome

/-- What is still to be delivered. -/
def backlog (s : Forwarder ε ρ ι) : ℕ := s.spill.rows.length + s.ring.inner.length

/-- Nothing is left to deliver and nothing waits for an ack. -/
structure Drained (s : Forwarder ε ρ ι) : Prop where
  ring : s.ring.inner = []
  rows : s.spill.rows = []
  pending : s.pending = []
  online : s.phase = .online

/-- Every event is in an acknowledged batch or counted as dropped. -/
def Delivered (old : List ι) (s : Forwarder ε ρ ι) : Prop :=
  ∃ cleared lost : List ι, lost.length = s.ring.dropped + s.spill.dropped ∧
    (∀ u ∈ cleared, ∃ b ∈ s.acked, u ∈ b.2.map c.uid) ∧
    ∀ u, old.count u + (offeredUids c s).count u = cleared.count u + lost.count u

/-- Flushes whose batches arrive, each with its ack. -/
def deliveries (rounds : List (ι × ℕ)) : List (Act ε ι) :=
  rounds.flatMap fun r => [.flush r.1 true true, .ack r.1 r.2]

variable {c cfg}

omit [DecidableEq ι] in
theorem encodeAll_decodes {events : List ε} (h : ∀ e ∈ events, Storable c e) {rs : List ρ}
    (hrs : c.encodeAll events = some rs) : ∀ r ∈ rs, (c.decode r).isSome := by
  induction events generalizing rs with
  | nil =>
      cases hrs
      exact List.forall_mem_nil _
  | cons e es ih =>
      simp only [Codec.encodeAll, List.mapM_cons, Option.bind_eq_bind, Option.bind_eq_some_iff,
        Option.pure_def, Option.some.injEq] at hrs
      obtain ⟨r, hr, rest, hrest, rfl⟩ := hrs
      obtain ⟨r', hr', hdecode⟩ := h e List.mem_cons_self
      have hsame : r = r' := Option.some.inj (hr.symm.trans hr')
      exact List.forall_mem_cons.mpr
        ⟨hsame ▸ hdecode, ih (fun x hx => h x (List.mem_cons_of_mem _ hx)) hrest⟩

omit [DecidableEq ι] in
theorem pushed_decodes {events : List ε} (h : ∀ e ∈ events, Storable c e) (spill : Spill ρ) :
    ∀ r ∈ spill.pushed c events, (c.decode r.2).isSome := by
  intro r hr
  have hmem : r.2 ∈ (c.encodeAll events).getD [] := by
    rw [← Spill.numbered_snd spill.writeCursor ((c.encodeAll events).getD [])]
    exact List.mem_map_of_mem hr
  cases hrs : c.encodeAll events with
  | none =>
      rw [hrs] at hmem
      cases hmem
  | some rs =>
      rw [hrs] at hmem
      exact encodeAll_decodes h hrs r.2 hmem

variable (cfg) in
omit [DecidableEq ι] in
/-- What a flush leaves in the buffers parses if what it found did. -/
theorem gather_legible {s : Forwarder ε ρ ι} (hs : Sound s) (hl : Legible c s) :
    (∀ e ∈ (TryFlush.gather c cfg s.ring s.spill).ring.inner, Storable c e) ∧
      ∀ r ∈ (TryFlush.gather c cfg s.ring s.spill).spill.rows, (c.decode r.2).isSome := by
  obtain ⟨lost, hg⟩ := TryFlush.gather_gathers c cfg s.ring hs.below
  have hsplit := TryFlush.topUp_split c cfg (TryFlush.collect c cfg s.spill) s.ring
  refine ⟨fun e he => hl.ring e (hg.ringSuffix.subset he), fun r hr => ?_⟩
  have hmem : r ∈ s.spill.rows ++ TryFlush.appended c cfg s.ring s.spill := by
    rw [hg.grown.rows]
    exact List.mem_append_right _ hr
  have htaken : ∀ e, e ∈ (TryFlush.topUp c cfg (TryFlush.collect c cfg s.spill) s.ring).keep ∨
      e ∈ (TryFlush.topUp c cfg (TryFlush.collect c cfg s.spill) s.ring).overflow →
      Storable c e := by
    intro e he
    apply hl.ring
    rw [← hsplit, List.append_assoc, List.mem_append, List.mem_append, ← or_assoc]
    exact Or.inl he
  rcases List.mem_append.mp hmem with hold | hnew
  · exact hl.rows r hold
  · rcases List.mem_append.mp hnew with hkeep | hover
    · exact pushed_decodes (fun e he => htaken e (Or.inl he)) _ r hkeep
    · exact pushed_decodes (fun e he => htaken e (Or.inr he)) _ r hover

theorem Move.legible {s u : Forwarder ε ρ ι} (h : Move c cfg (OffersStorable c) s u)
    (hs : Sound s) (hl : Legible c s) : Legible c u := by
  obtain ⟨hring, hrows⟩ := gather_legible cfg hs hl
  cases h with
  | @offer e hoffer =>
      refine ⟨fun x hx => ?_, hl.rows⟩
      have hmem : x ∈ s.ring.inner ++ [e] := by
        rw [← Ring.evicted_append_offer]
        exact List.mem_append_right _ hx
      rcases List.mem_append.mp hmem with hm | hm
      · exact hl.ring x hm
      · rw [List.mem_singleton.mp hm]
        exact hoffer
  | clear _ => exact ⟨hl.ring, hl.rows⟩
  | gather _ _ _ => exact ⟨hring, hrows⟩
  | oversize _ _ _ _ _ _ => exact ⟨hring, fun r hr => hrows r (List.mem_of_mem_filter hr)⟩
  | send _ _ _ _ _ _ => exact ⟨hring, hrows⟩
  | @ack batchId p hmem _ =>
      refine ⟨hl.ring, ?_⟩
      obtain ⟨high, hhigh⟩ := Option.isSome_iff_exists.mp (hs.marked _ hmem)
      have hp : p.spillHigh = some high := hhigh
      simp only [acknowledge, hp, Option.elim_some]
      exact fun r hr => hl.rows r (List.mem_of_mem_filter hr)
  | persist =>
      obtain ⟨hempty, lost, hgrown⟩ := persistRing_spec (c := c) hs
      refine ⟨by simp [hempty], fun r hr => ?_⟩
      have hmem : r ∈ s.spill.rows ++ s.spill.pushed c s.ring.inner := by
        rw [hgrown.rows]
        exact List.mem_append_right _ hr
      rcases List.mem_append.mp hmem with hold | hnew
      · exact hl.rows r hold
      · exact pushed_decodes hl.ring _ r hnew

omit [DecidableEq ι] in
theorem collectLoop_ne_nil (b : TryFlush.Collected ε) (rest : List (SpilledEvent ε))
    (h : b.events ≠ []) : (TryFlush.collectLoop c cfg b rest).events ≠ [] := by
  induction rest generalizing b with
  | nil => exact h
  | cons se rest ih =>
      simp only [TryFlush.collectLoop]
      split_ifs
      · exact ih _ (by simp)
      · exact h

variable (cfg) in
omit [DecidableEq ι] in
theorem collect_ne_nil {spill : Spill ρ} (hrows : ∀ r ∈ spill.rows, (c.decode r.2).isSome)
    (hne : spill.rows ≠ []) : (TryFlush.collect c cfg spill).events ≠ [] := by
  unfold TryFlush.collect
  cases hdrain : spill.drainBatch c cfg.batchMaxEvents cfg.batchMaxBytes with
  | none =>
      obtain ⟨before, x, after, hsplit, -, hx, -⟩ := (Spill.drainBatch_eq_none c).mp hdrain
      have hsome := hrows x (hsplit ▸ List.mem_append_right _ List.mem_cons_self)
      rw [hx] at hsome
      cases hsome
  | some spilled =>
      cases spilled with
      | nil => exact (Spill.drainBatch_ne_nil c hne hdrain rfl).elim
      | cons se rest =>
          -- an empty batch has room for the first row, however long it is
          exact collectLoop_ne_nil _ rest (List.cons_ne_nil _ _)

omit [DecidableEq ι] in
theorem topUp_ne_nil (hevents : 0 < cfg.batchMaxEvents) (hbytes : 0 < cfg.batchMaxBytes)
    {spill : Spill ρ} {ring : Ring ε} (hempty : spill.rows = []) (hne : ring.inner ≠ []) :
    (TryFlush.topUp c cfg (TryFlush.collect c cfg spill) ring).keep ≠ [] := by
  have hcollect : TryFlush.collect c cfg spill = ⟨[], none, 0⟩ := by
    simp [TryFlush.collect, Spill.drainBatch, Spill.drainLoop, hempty, TryFlush.collectLoop]
  have htake : ring.inner.take cfg.batchMaxEvents ≠ [] := by
    simp [hne, hevents.ne']
  simp only [hcollect, TryFlush.topUp, List.length_nil, hevents, hbytes, and_self, if_true,
    Ring.drain, Nat.sub_zero, List.isEmpty_iff, htake, if_false]
  exact planBatch_keep_ne_nil (by simpa using htake) 0 _ _

omit [DecidableEq ι] in
/-- A flush finds something to send in buffers that hold anything. -/
theorem gather_ne_nil (hevents : 0 < cfg.batchMaxEvents) (hbytes : 0 < cfg.batchMaxBytes)
    {s : Forwarder ε ρ ι} (hs : Sound s) (hl : Legible c s) (hsome : backlog s ≠ 0) :
    (TryFlush.gather c cfg s.ring s.spill).events ≠ [] := by
  by_cases hrows : s.spill.rows = []
  · have hring : s.ring.inner ≠ [] := by
      intro hnil
      simp [backlog, hrows, hnil] at hsome
    have hkeep := topUp_ne_nil (c := c) hevents hbytes hrows hring
    have hencode : ∀ e ∈ (TryFlush.topUp c cfg (TryFlush.collect c cfg s.spill) s.ring).keep,
        (c.encode e).isSome := by
      intro e he
      have hmem : e ∈ s.ring.inner := by
        rw [← TryFlush.topUp_split c cfg (TryFlush.collect c cfg s.spill) s.ring]
        simp [he]
      obtain ⟨r, hr, -⟩ := hl.ring e hmem
      exact Option.isSome_iff_exists.mpr ⟨r, hr⟩
    obtain ⟨ks, hks⟩ := c.encodeAll_isSome hencode
    have hevents := congrArg Prod.fst
      (TryFlush.spillKeep_of_some (TryFlush.collect c cfg s.spill) hkeep hks hs.below)
    change _ = (TryFlush.collect c cfg s.spill).events ++ _ at hevents
    have hg : (TryFlush.gather c cfg s.ring s.spill).events = _ := hevents
    rw [hg]
    exact List.append_ne_nil_of_right_ne_nil _ hkeep
  · have hcollect := collect_ne_nil cfg hl.rows hrows
    rcases @TryFlush.gather_kept _ _ _ c cfg s.ring _ hs.below with
      ⟨-, hevents, -⟩ | ⟨ks, -, -, hevents, -⟩
    · rw [hevents]
      exact hcollect
    · rw [hevents]
      exact List.append_ne_nil_of_left_ne_nil hcollect _

variable (c cfg) in
omit [DecidableEq ι] in
theorem gather_backlog {s : Forwarder ε ρ ι} (hs : Sound s) :
    (TryFlush.gather c cfg s.ring s.spill).spill.rows.length +
      (TryFlush.gather c cfg s.ring s.spill).ring.inner.length ≤ backlog s := by
  obtain ⟨lost, hg⟩ := TryFlush.gather_gathers c cfg s.ring hs.below
  have hrows := congrArg List.length hg.grown.rows
  have htaken := hg.taken.length_le
  simp only [List.length_append, List.length_map, Spill.rowUids_length] at hrows htaken
  simp only [backlog]
  omega

omit [DecidableEq ι] in
/-- The rows at or below the mark of a batch are at least as many as its events. -/
theorem gather_acked_backlog {s : Forwarder ε ρ ι} (hs : Sound s)
    (hne : (TryFlush.gather c cfg s.ring s.spill).events ≠ []) {high : ℕ}
    (hhigh : (TryFlush.gather c cfg s.ring s.spill).spillHigh = some high) :
    ((TryFlush.gather c cfg s.ring s.spill).spill.ackThrough c high).rows.length +
      (TryFlush.gather c cfg s.ring s.spill).ring.inner.length < backlog s := by
  obtain ⟨lost, hg⟩ := TryFlush.gather_gathers c cfg s.ring hs.below
  obtain ⟨high', hhigh', -, hcover, -⟩ := hg.mark hne
  have hsame : high' = high := Option.some.inj (hhigh'.symm.trans hhigh)
  subst hsame
  have hevents := List.length_pos_iff.mpr hne
  have hcovered := hcover.length_le
  have htaken := hg.taken.length_le
  have hsplit := congrArg List.length
    (Spill.filter_le_append_filter_lt (hg.grown.all_sorted hs.below) high')
  have hlater : ((TryFlush.gather c cfg s.ring s.spill).spill.ackThrough c high').rows.length ≤
      ((s.spill.rows ++ TryFlush.appended c cfg s.ring s.spill).filter
        fun r => high' < r.1).length := by
    rw [hg.grown.rows, List.filter_append]
    exact (List.sublist_append_right _ _).length_le
  simp only [List.length_append, List.length_map, Spill.rowUids_length] at hcovered htaken hsplit
  simp only [backlog]
  omega

variable (c) in
/-- Online with nothing in flight. -/
structure Ready (s : Forwarder ε ρ ι) : Prop where
  sound : Sound s
  legible : Legible c s
  online : s.phase = .online
  idle : s.pending = []

theorem step_legible {s u : Forwarder ε ρ ι} {a : Act ε ι} (hs : Sound s) (hl : Legible c s)
    (ha : OffersStorable c s a) (h : step c cfg s a = some u) : Sound u ∧ Legible c u := by
  have hrun : GuardedRun (step c cfg) (OffersStorable c) s [a] u := .cons ha h (.nil u)
  exact run_invariant (Legible c) (fun s u hs hl hmove => hmove.legible hs hl) hrun hs hl

theorem flush_ack (hevents : 0 < cfg.batchMaxEvents) (hbytes : 0 < cfg.batchMaxBytes)
    (hwindow : 0 < cfg.maxInFlight) {s : Forwarder ε ρ ι} (h : Ready c s) (batchId : ι)
    (accepted : ℕ) :
    ∃ v, step c cfg (flush c cfg s batchId true true) (.ack batchId accepted) = some v ∧
      v.phase = .online ∧ v.pending = [] ∧ backlog v ≤ backlog s - 1 ∧
      ∀ id ∈ v.wire.map Prod.fst, id ∈ s.wire.map Prod.fst ∨ id = batchId := by
  rcases TryFlush.tryFlush_cases c cfg batchId s.pending.length s.ring s.spill with
    ⟨hfull, -⟩ | ⟨-, hr⟩
  · rw [h.idle, List.length_nil] at hfull
    omega
  -- an ack that names nothing in flight changes nothing
  have hignored : ∀ u : Forwarder ε ρ ι, u.phase = .online → u.pending = [] →
      step c cfg u (.ack batchId accepted) = some u := by
    intro u honline hidle
    simp only [step, honline, hidle, if_true, List.find?_nil]
  rcases hr with ⟨hnil, hr⟩ | ⟨hne, doc, -, hr⟩
  · have hempty : backlog s = 0 := by
      by_contra hsome
      exact gather_ne_nil hevents hbytes h.sound h.legible hsome hnil
    have hle := gather_backlog c cfg h.sound
    simp only [flush, hr]
    refine ⟨_, hignored _ h.online h.idle, h.online, h.idle, ?_, fun id hid => Or.inl hid⟩
    exact hle.trans (by omega)
  obtain ⟨high, hhigh⟩ := Option.isSome_iff_exists.mp (TryFlush.gather_mark_isSome c cfg hne)
  have hless := gather_acked_backlog h.sound hne hhigh
  rcases hr with ⟨-, hr⟩ | ⟨-, hr⟩
  · -- an oversize frame leaves without being sent
    simp only [flush, hr, hhigh, Option.elim_some]
    exact ⟨_, hignored _ h.online h.idle, h.online, h.idle, Nat.le_sub_one_of_lt hless,
      fun id hid => Or.inl hid⟩
  · have hsent : flush c cfg s batchId true true =
        { s with
          ring := (TryFlush.gather c cfg s.ring s.spill).ring
          spill := (TryFlush.gather c cfg s.ring s.spill).spill
          pending := [(batchId, ⟨(TryFlush.gather c cfg s.ring s.spill).events, some high⟩)]
          wire := s.wire ++ [(batchId, (TryFlush.gather c cfg s.ring s.spill).events)] } := by
      simp only [flush, hr, hhigh, if_true]
      rw [h.idle, List.nil_append]
    have hack : step c cfg (flush c cfg s batchId true true) (.ack batchId accepted) =
        some (acknowledge c (flush c cfg s batchId true true) batchId
          ⟨(TryFlush.gather c cfg s.ring s.spill).events, some high⟩) := by
      rw [hsent]
      simp [step, h.online]
    rw [hsent] at hack ⊢
    refine ⟨_, hack, h.online, by simp [acknowledge], ?_, ?_⟩
    · exact Nat.le_sub_one_of_lt hless
    · simp only [acknowledge, List.map_append, List.map_cons, List.map_nil, List.mem_append,
        List.mem_singleton]
      exact fun id hid => hid

/-- A flush and its ack leave less to deliver. -/
theorem round_spec (hevents : 0 < cfg.batchMaxEvents) (hbytes : 0 < cfg.batchMaxBytes)
    (hwindow : 0 < cfg.maxInFlight) {s : Forwarder ε ρ ι} (h : Ready c s) {batchId : ι}
    (hfresh : batchId ∉ s.wire.map Prod.fst) (accepted : ℕ) :
    ∃ u v, step c cfg s (.flush batchId true true) = some u ∧
      step c cfg u (.ack batchId accepted) = some v ∧ Ready c v ∧ backlog v ≤ backlog s - 1 ∧
      ∀ id ∈ v.wire.map Prod.fst, id ∈ s.wire.map Prod.fst ∨ id = batchId := by
  have hflush : step c cfg s (.flush batchId true true) =
      some (flush c cfg s batchId true true) := by
    simp only [step, h.online, h.idle, hfresh, List.map_nil, List.not_mem_nil, not_false_eq_true,
      and_self, if_true]
  obtain ⟨v, hack, honline, hidle, hless, hwire⟩ :=
    flush_ack hevents hbytes hwindow h batchId accepted
  obtain ⟨husound, hulegible⟩ :=
    step_legible (a := .flush batchId true true) h.sound h.legible trivial hflush
  obtain ⟨hvsound, hvlegible⟩ :=
    step_legible (a := .ack batchId accepted) husound hulegible trivial hack
  exact ⟨_, v, hflush, hack, ⟨hvsound, hvlegible, honline, hidle⟩, hless, hwire⟩

theorem deliveries_spec (hevents : 0 < cfg.batchMaxEvents) (hbytes : 0 < cfg.batchMaxBytes)
    (hwindow : 0 < cfg.maxInFlight) {s : Forwarder ε ρ ι} (h : Ready c s) {rounds : List (ι × ℕ)}
    (hfresh : ∀ r ∈ rounds, r.1 ∉ s.wire.map Prod.fst) (hnodup : (rounds.map Prod.fst).Nodup) :
    ∃ v, FreeRun (step c cfg) s (deliveries rounds) v ∧ Ready c v ∧
      backlog v ≤ backlog s - rounds.length := by
  induction rounds generalizing s with
  | nil => exact ⟨s, .nil s, h, le_rfl⟩
  | cons r rounds ih =>
      obtain ⟨u, v, hflush, hack, hv, hless, hwire⟩ := round_spec hevents hbytes hwindow h
        (hfresh r List.mem_cons_self) r.2
      rw [List.map_cons, List.nodup_cons] at hnodup
      have hfresh' : ∀ x ∈ rounds, x.1 ∉ v.wire.map Prod.fst := by
        intro x hx hmem
        rcases hwire x.1 hmem with hold | hnew
        · exact hfresh x (List.mem_cons_of_mem _ hx) hold
        · exact hnodup.1 (hnew ▸ List.mem_map_of_mem hx)
      obtain ⟨w, hrun, hw, hrest⟩ := ih hv hfresh' hnodup.2
      refine ⟨w, GuardedRun.cons trivial hflush (GuardedRun.cons trivial hack hrun), hw, ?_⟩
      rw [List.length_cons]
      omega

theorem Conserved.delivered {old : List ι} {s : Forwarder ε ρ ι} (h : Conserved c old s)
    (hring : s.ring.inner = []) (hrows : s.spill.rows = []) : Delivered c old s := by
  obtain ⟨cleared, ringLost, spillLost, hringLost, hspillLost, hcleared, hcount⟩ := h
  refine ⟨cleared, ringLost ++ spillLost, ?_, hcleared, fun u => ?_⟩
  · rw [List.length_append, hringLost, hspillLost]
  · have hu := hcount u
    simp only [ringUids, spillUids, hring, hrows, Spill.rowUids_nil, List.map_nil, List.count_nil]
      at hu
    rw [List.count_append]
    omega

variable (c cfg) in
/-- A forwarder that reconnects after any run is drained by as many flushes as
it held events and rows; if no flush of the run skipped rows, all was delivered
or counted. -/
theorem connected_drains (hevents : 0 < cfg.batchMaxEvents) (hbytes : 0 < cfg.batchMaxBytes)
    (hwindow : 0 < cfg.maxInFlight) (table : OrderedTable ℕ ρ)
    (htable : ∀ r ∈ table.rows, (c.decode r.2).isSome) {l : List (Act ε ι)}
    {s : Forwarder ε ρ ι} (h : GuardedRun (step c cfg) (OffersStorable c) (start c cfg table) l s)
    (hphase : s.phase = .between) {rounds : List (ι × ℕ)}
    (hfresh : ∀ r ∈ rounds, r.1 ∉ s.wire.map Prod.fst) (hnodup : (rounds.map Prod.fst).Nodup)
    (henough : backlog s ≤ rounds.length) :
    ∃ v, FreeRun (step c cfg) s (.connect :: deliveries rounds) v ∧ Drained v ∧
      (GuardedRun (step c cfg) (fun s a => Serializes c cfg s a ∧ NoSkip c cfg s a)
        (start c cfg table) (l ++ .connect :: deliveries rounds) v →
        Delivered c (Spill.rowUids c table.rows) v) := by
  have hstart : Legible c (start c cfg table) := ⟨List.forall_mem_nil _, htable⟩
  obtain ⟨hsound, hlegible⟩ := run_invariant (Legible c)
    (fun s u hs hl hmove => hmove.legible hs hl) h (start_sound table) hstart
  have hconnect : step c cfg s .connect = some { s with phase := .online, pending := [] } := by
    rw [step, if_pos hphase]
  obtain ⟨husound, hulegible⟩ := step_legible (a := .connect) hsound hlegible trivial hconnect
  obtain ⟨v, hrun, hv, hleft⟩ := deliveries_spec hevents hbytes hwindow
    ⟨husound, hulegible, rfl, rfl⟩ hfresh hnodup
  have hnone : backlog v = 0 :=
    Nat.le_zero.mp (hleft.trans (Nat.sub_eq_zero_of_le henough).le)
  have hring : v.ring.inner = [] :=
    List.eq_nil_of_length_eq_zero (Nat.eq_zero_of_add_eq_zero_left hnone)
  have hrows : v.spill.rows = [] :=
    List.eq_nil_of_length_eq_zero (Nat.eq_zero_of_add_eq_zero_right hnone)
  refine ⟨v, GuardedRun.cons trivial hconnect hrun, ⟨hring, hrows, hv.idle, hv.online⟩, ?_⟩
  intro hguarded
  exact (run_conserved table hguarded).2.delivered hring hrows

/-- A batch that reached the wire but whose write failed, so it is sent again. -/
def unsureRun : List (Act (Event ℚ) Uuid) :=
  [.offer (heartbeat 1), .offer (longAlert 2), .connect, .flush (.ofDigit 7) true false]

/-- It and the other event are delivered after the reconnect. -/
theorem connected_drains_unsure :
    ∃ s ∈ execute (step (eventCodec ℚ) smallBatches) (OffersStorable (eventCodec ℚ))
        (start (eventCodec ℚ) smallBatches .empty) unsureRun,
      backlog s = 2 ∧ ∃ v, FreeRun (step (eventCodec ℚ) smallBatches) s
        (.connect :: deliveries [(.ofDigit 8, 1), (.ofDigit 9, 0)]) v ∧ Drained v ∧
        Delivered (eventCodec ℚ) [] v := by
  have hend : ∃ s ∈ execute (step (eventCodec ℚ) smallBatches) (OffersStorable (eventCodec ℚ))
      (start (eventCodec ℚ) smallBatches .empty) unsureRun,
      s.phase = .between ∧ (∀ r ∈ [(Uuid.ofDigit 8, 1), (.ofDigit 9, 0)],
        r.1 ∉ s.wire.map Prod.fst) ∧ backlog s = 2 := by
    decide +kernel
  have hguarded : ∃ w ∈ execute (step (eventCodec ℚ) smallBatches)
      (fun s a =>
        Serializes (eventCodec ℚ) smallBatches s a ∧ NoSkip (eventCodec ℚ) smallBatches s a)
      (start (eventCodec ℚ) smallBatches .empty)
      (unsureRun ++ .connect :: deliveries [(.ofDigit 8, 1), (.ofDigit 9, 0)]),
      w.phase = .online := by
    decide +kernel
  obtain ⟨s, hs, hphase, hfresh, hheld⟩ := hend
  obtain ⟨w, hw, -⟩ := hguarded
  have hrun := run_of_execute hs
  obtain ⟨v, hdrain, hv, hall⟩ := connected_drains (eventCodec ℚ) smallBatches (by decide)
    (by decide) (by decide) .empty (List.forall_mem_nil _) hrun hphase hfresh (by decide) hheld.le
  have hsame : v = w := (hrun.free.append hdrain).unique (run_of_execute hw)
  exact ⟨s, hs, hheld, v, hdrain, hv, hall (hsame ▸ run_of_execute hw)⟩

end Forwarder
end Aegis

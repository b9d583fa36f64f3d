import Aegis.ForwarderConservation

/-!
# What one flush discards

An event is bad when it cannot go through JSON or when its own frame is too
large. A flush should drop bad events only. It drops others with them in three
ways: a push is all or nothing, an oversize frame is acked away whole, and a
scan of the spill fails on the first row it cannot read.
-/

namespace Aegis
namespace TryFlush
variable {ε ρ ι : Type} (c : Codec ε ρ ι) (cfg : TransportConfig) (batchId : ι)

/-- It cannot be encoded, or not be decoded again, or not be framed alone. -/
def BadEvent (e : ε) : Prop :=
  c.encode e = none ∨ (∃ r ∈ c.encode e, c.decode r = none) ∨
    ∃ doc ∈ c.frame batchId [e], maxFrameBytes < c.len doc

instance (e : ε) : Decidable (BadEvent c batchId e) := inferInstanceAs (Decidable (_ ∨ _ ∨ _))

/-- A row that cannot be decoded, or holds a bad event. -/
def BadRow (r : ρ) : Prop := ∀ e, c.decode r = some e → BadEvent c batchId e

/-- The ids of the batch that a flush sends. -/
def sentUids : Outcome ε → List ι
  | .batch p => p.events.map c.uid
  | _ => []

/-- The ids of the rows that the cap removes during a flush. -/
def cappedUids (ring : Ring ε) (spill : Spill ρ) : List ι :=
  Spill.rowUids c ((spill.rows ++ appended c cfg ring spill).take
    ((gather c cfg ring spill).spill.dropped - spill.dropped))

/-- An id that a flush neither leaves in the buffers nor sends nor caps. -/
def Vanishes (inFlight : ℕ) (ring : Ring ε) (spill : Spill ρ) (u : ι) : Prop :=
  let r := tryFlush c cfg batchId inFlight ring spill
  u ∉ r.2.1.inner.map c.uid ∧ u ∉ Spill.rowUids c r.2.2.rows ∧ u ∉ sentUids c r.1 ∧
    u ∉ cappedUids c cfg ring spill

instance [DecidableEq ι] (inFlight : ℕ) (ring : Ring ε) (spill : Spill ρ) (u : ι) :
    Decidable (Vanishes c cfg batchId inFlight ring spill u) :=
  inferInstanceAs (Decidable (_ ∧ _ ∧ _ ∧ _))

/-- Only bad events vanish, and a row that cannot be decoded does not keep a
flush with a free slot from collecting events while there are some behind it. -/
structure Protects (inFlight : ℕ) (ring : Ring ε) (spill : Spill ρ) : Prop where
  offered : ∀ e ∈ ring.inner, Vanishes c cfg batchId inFlight ring spill (c.uid e) →
    BadEvent c batchId e
  spilled : ∀ x ∈ spill.rows, Vanishes c cfg batchId inFlight ring spill (c.rowUid x.2) →
    BadRow c batchId x.2
  behind : inFlight < cfg.maxInFlight → ∀ before x after, spill.rows = before ++ x :: after →
    c.decode x.2 = none → (∃ y ∈ after, (c.decode y.2).isSome) →
      (collect c cfg spill).events ≠ []

/-- The events pulled into the batch all serialize or are all bad, and so are
those that overflow it; everything at or below the mark of a frame that is too
large is bad; and the first row that cannot be decoded is out of the reach of
the scan, or none of those behind it can be decoded. -/
structure Harmless (ring : Ring ε) (spill : Spill ρ) : Prop where
  keep : (∃ e ∈ (topUp c cfg (collect c cfg spill) ring).keep, c.encode e = none) →
    ∀ e ∈ (topUp c cfg (collect c cfg spill) ring).keep, BadEvent c batchId e
  overflow : (∃ e ∈ (topUp c cfg (collect c cfg spill) ring).overflow, c.encode e = none) →
    ∀ e ∈ (topUp c cfg (collect c cfg spill) ring).overflow, BadEvent c batchId e
  frame : ∀ doc high, c.frame batchId (gather c cfg ring spill).events = some doc →
    maxFrameBytes < c.len doc → (gather c cfg ring spill).spillHigh = some high →
      (∀ x ∈ spill.rows, x.1 ≤ high → c.rowUid x.2 ∉ cappedUids c cfg ring spill →
        BadRow c batchId x.2) ∧
      ((∀ e ∈ (topUp c cfg (collect c cfg spill) ring).keep, (c.encode e).isSome) →
        ∀ e ∈ (topUp c cfg (collect c cfg spill) ring).keep,
          c.uid e ∉ cappedUids c cfg ring spill → BadEvent c batchId e)
  behind : ∀ before x after, spill.rows = before ++ x :: after →
    (∀ y ∈ before, (c.decode y.2).isSome) → c.decode x.2 = none →
      Spill.Reaches c cfg.batchMaxEvents cfg.batchMaxBytes before x.2 →
        ∀ y ∈ after, c.decode y.2 = none

variable {c cfg batchId}

theorem collectLoop_ne_nil {b : Collected ε} (hb : b.events ≠ []) (l : List (SpilledEvent ε)) :
    (collectLoop c cfg b l).events ≠ [] := by
  induction l generalizing b with
  | nil => exact hb
  | cons se l ih =>
      simp only [collectLoop]
      split_ifs
      · exact ih (by simp)
      · exact hb

theorem collect_eq_nil {spill : Spill ρ} (hs : spill.rows ≠ []) :
    (collect c cfg spill).events = [] ↔
      spill.drainBatch c cfg.batchMaxEvents cfg.batchMaxBytes = none := by
  unfold collect
  cases hd : spill.drainBatch c cfg.batchMaxEvents cfg.batchMaxBytes with
  | none => simp
  | some out =>
      cases out with
      | nil => exact (Spill.drainBatch_ne_nil c hs hd rfl).elim
      | cons se out =>
          have hne : (collectLoop c cfg ⟨[], none, 0⟩ (se :: out)).events ≠ [] := by
            simp only [collectLoop, batchHasRoom, List.length_nil, if_true]
            exact collectLoop_ne_nil (by simp) out
          simpa using hne

/-- Two splits of one list at a first element that fails a test, and at any. -/
theorem subset_after {l before after before' after' : List (ℕ × ρ)} {x x' : ℕ × ρ}
    (h : l = before ++ x :: after) (h' : l = before' ++ x' :: after')
    (hfirst : ∀ y ∈ before', (c.decode y.2).isSome) (hx : c.decode x.2 = none) :
    after ⊆ after' := by
  rw [h] at h'
  rcases List.append_eq_append_iff.mp h' with ⟨m, hm, hrest⟩ | ⟨m, hm, hrest⟩
  · cases m with
    | nil =>
        rw [List.nil_append] at hrest
        rw [(List.cons.inj hrest).2]
        exact List.Subset.refl _
    | cons z m =>
        have hz : z = x := (List.cons.inj hrest).1.symm
        have hsome := hfirst z (by simp [hm])
        rw [hz, hx] at hsome
        cases hsome
  · cases m with
    | nil =>
        rw [List.nil_append] at hrest
        rw [(List.cons.inj hrest).2]
        exact List.Subset.refl _
    | cons z m =>
        rw [(List.cons.inj hrest).2]
        intro y hy
        simp [hy]

theorem mem_gather_of_not_capped {ring : Ring ε} {spill : Spill ρ} (hb : spill.Below)
    {x : ℕ × ρ} (hx : x ∈ spill.rows ++ appended c cfg ring spill)
    (hcap : c.rowUid x.2 ∉ cappedUids c cfg ring spill) :
    x ∈ (gather c cfg ring spill).spill.rows := by
  obtain ⟨lost, hg⟩ := gather_gathers c cfg ring hb
  have hlost : (spill.rows ++ appended c cfg ring spill).take
      ((gather c cfg ring spill).spill.dropped - spill.dropped) = lost := by
    rw [hg.grown.dropped, Nat.add_sub_cancel_left, hg.grown.rows, List.take_left']
    rfl
  rw [hg.grown.rows] at hx
  rcases List.mem_append.mp hx with hx | hx
  · rw [cappedUids, hlost] at hcap
    exact (hcap (Spill.rowUid_mem c hx)).elim
  · exact hx

/-- Rows of kept events are at or below the mark, rows of overflowing ones above it. -/
theorem appended_mark {ring : Ring ε} {spill : Spill ρ} (hb : spill.Below) {high : ℕ}
    (h : (gather c cfg ring spill).spillHigh = some high) :
    (∀ x ∈ spill.pushed c (topUp c cfg (collect c cfg spill) ring).keep, x.1 ≤ high) ∧
    ∀ x ∈ (spill.push c (topUp c cfg (collect c cfg spill) ring).keep).2.pushed c
      (topUp c cfg (collect c cfg spill) ring).overflow, high < x.1 := by
  obtain ⟨lost, hgrown⟩ := Spill.push_grown c (topUp c cfg (collect c cfg spill) ring).keep hb
  obtain ⟨lost', hgrown'⟩ := Spill.push_grown c
    (topUp c cfg (collect c cfg spill) ring).overflow (hgrown.below hb)
  rcases gather_kept ring hb with ⟨hnil, -, hmark⟩ | ⟨ks, hk, hks, -, hmark⟩
  · rw [hmark] at h
    obtain ⟨⟨r, hr, rfl⟩, -⟩ := collect_mark c cfg h
    constructor
    · simp [hnil]
    · intro x hx
      have := hb r hr
      have := (hgrown'.above x hx).1
      have := hgrown.cursor
      omega
  · have hlen : ks.length = (topUp c cfg (collect c cfg spill) ring).keep.length := by
      simpa using congrArg List.length (c.encodeAll_uid hks)
    have hpos := List.length_pos_iff.mpr hk
    have hcur := (Spill.push_some c hks hb).2.1
    rw [hmark, Option.some.injEq] at h
    constructor
    · intro x hx
      simp only [Spill.pushed, hks, Option.getD_some] at hx
      have := (Spill.mem_numbered hx).2
      omega
    · intro x hx
      have := (hgrown'.above x hx).1
      omega

variable (c batchId) in
/-- With a free slot a flush ends in an oversize frame, whose rows it acks away,
or leaves everything it gathered in the spill. -/
theorem tryFlush_free {inFlight : ℕ} (hfree : inFlight < cfg.maxInFlight) (ring : Ring ε)
    (spill : Spill ρ) :
    let g := gather c cfg ring spill
    let r := tryFlush c cfg batchId inFlight ring spill
    r.2.1 = g.ring ∧
    ((∃ doc high, c.frame batchId g.events = some doc ∧ maxFrameBytes < c.len doc ∧
        g.spillHigh = some high ∧ r.1 = .tooLarge ∧ r.2.2 = g.spill.ackThrough c high) ∨
      ((∀ doc, c.frame batchId g.events = some doc → g.events ≠ [] → c.len doc ≤ maxFrameBytes) ∧
        r.2.2 = g.spill ∧ sentUids c r.1 ⊆ g.events.map c.uid)) := by
  intro g r
  have hcases := tryFlush_cases c cfg batchId inFlight ring spill
  rcases hcases with ⟨hfull, -⟩ | ⟨-, ⟨hnil, hr⟩ | ⟨hne, doc, hdoc, ⟨hlen, hr⟩ | ⟨hlen, hr⟩⟩⟩
  · omega
  · have hr' : r = (.nothing, g.ring, g.spill) := hr
    rw [hr']
    exact ⟨rfl, Or.inr ⟨fun _ _ hne => (hne hnil).elim, rfl, List.nil_subset _⟩⟩
  · obtain ⟨high, hhigh⟩ := Option.isSome_iff_exists.mp (gather_mark_isSome c cfg hne)
    have hr' : r = (.tooLarge, g.ring, g.spillHigh.elim g.spill fun high =>
      g.spill.ackThrough c high) := hr
    rw [hr']
    exact ⟨rfl, Or.inl ⟨doc, high, hdoc, hlen, hhigh, rfl, by simp [g, hhigh]⟩⟩
  · have hr' : r = (.batch ⟨g.events, g.spillHigh⟩, g.ring, g.spill) := hr
    rw [hr']
    refine ⟨rfl, Or.inr ⟨fun doc' hdoc' _ => ?_, rfl, List.Subset.refl _⟩⟩
    rw [hdoc] at hdoc'
    cases hdoc'
    exact hlen

theorem gather_ne_nil_of_mark {ring : Ring ε} {spill : Spill ρ} (hb : spill.Below) {high : ℕ}
    (h : (gather c cfg ring spill).spillHigh = some high) :
    (gather c cfg ring spill).events ≠ [] := by
  rcases gather_kept ring hb with ⟨-, hevents, hmark⟩ | ⟨ks, hk, -, hevents, -⟩
  · obtain ⟨out, -, hout, hhigh⟩ := collect_spec c cfg spill
    rw [hmark, hhigh] at h
    rw [hevents, hout]
    intro hnil
    rw [List.map_eq_nil_iff.mp hnil] at h
    cases h
  · rw [hevents]
    exact fun hnil => hk (List.append_eq_nil_iff.mp hnil).2

theorem exists_pushed (spill : Spill ρ) {events : List ε}
    (h : ∀ e ∈ events, (c.encode e).isSome) {e : ε} (he : e ∈ events) :
    ∃ x ∈ spill.pushed c events, c.rowUid x.2 = c.uid e := by
  have hmem : c.uid e ∈ Spill.rowUids c (spill.pushed c events) := by
    rw [Spill.pushed_uids c h]
    exact List.mem_map_of_mem he
  obtain ⟨x, hx, huid⟩ := List.mem_map.mp hmem
  exact ⟨x, hx, huid⟩

/-- A row that vanishes is at or below the mark of an oversize frame. -/
theorem vanished_row {inFlight : ℕ} {ring : Ring ε} {spill : Spill ρ} (hb : spill.Below)
    (hfree : inFlight < cfg.maxInFlight) {x : ℕ × ρ}
    (hx : x ∈ spill.rows ++ appended c cfg ring spill)
    (hv : Vanishes c cfg batchId inFlight ring spill (c.rowUid x.2)) :
    ∃ doc high, c.frame batchId (gather c cfg ring spill).events = some doc ∧
      maxFrameBytes < c.len doc ∧ (gather c cfg ring spill).spillHigh = some high ∧ x.1 ≤ high := by
  have hkept := mem_gather_of_not_capped hb hx hv.2.2.2
  obtain ⟨-, ⟨doc, high, hdoc, hlen, hhigh, -, hspill⟩ | ⟨-, hspill, -⟩⟩ :=
    tryFlush_free c batchId hfree ring spill
  · refine ⟨doc, high, hdoc, hlen, hhigh, ?_⟩
    by_contra hlt
    apply hv.2.1
    rw [hspill]
    exact Spill.rowUid_mem c (List.mem_filter.mpr ⟨hkept, by simpa using hlt⟩)
  · refine (hv.2.1 ?_).elim
    rw [hspill]
    exact Spill.rowUid_mem c hkept

/-- Where the condition holds only bad events vanish. -/
theorem Harmless.protects {inFlight : ℕ} {ring : Ring ε} {spill : Spill ρ} (hb : spill.Below)
    (h : inFlight < cfg.maxInFlight → Harmless c cfg batchId ring spill) :
    Protects c cfg batchId inFlight ring spill := by
  by_cases hfree : inFlight < cfg.maxInFlight
  swap
  · have hr : tryFlush c cfg batchId inFlight ring spill = (.windowFull, ring, spill) := by
      simp [tryFlush, not_lt.mp hfree]
    constructor
    · intro e he hv
      exact (hv.1 (by rw [hr]; exact List.mem_map_of_mem he)).elim
    · intro x hx hv
      exact (hv.2.1 (by rw [hr]; exact Spill.rowUid_mem c hx)).elim
    · exact fun hfree' => (hfree hfree').elim
  have hcond := h hfree
  constructor
  · intro e he hv
    rw [← topUp_split c cfg (collect c cfg spill) ring] at he
    rcases List.mem_append.mp he with he | he
    · rcases List.mem_append.mp he with he | he
      · by_cases hall : ∀ e ∈ (topUp c cfg (collect c cfg spill) ring).keep, (c.encode e).isSome
        · obtain ⟨x, hx, huid⟩ := exists_pushed spill hall he
          rw [← huid] at hv
          obtain ⟨doc, high, hdoc, hlen, hhigh, -⟩ :=
            vanished_row hb hfree (by simp [appended, hx]) hv
          exact (hcond.frame doc high hdoc hlen hhigh).2 hall e he (huid ▸ hv.2.2.2)
        · push Not at hall
          exact hcond.keep (by simpa using hall) e he
      · by_cases hall : ∀ e ∈ (topUp c cfg (collect c cfg spill) ring).overflow,
            (c.encode e).isSome
        · obtain ⟨x, hx, huid⟩ := exists_pushed
            (spill.push c (topUp c cfg (collect c cfg spill) ring).keep).2 hall he
          rw [← huid] at hv
          obtain ⟨doc, high, -, -, hhigh, hle⟩ := vanished_row hb hfree (by simp [appended, hx]) hv
          have := (appended_mark hb hhigh).2 x hx
          omega
        · push Not at hall
          exact hcond.overflow (by simpa using hall) e he
    · obtain ⟨hring, -⟩ := tryFlush_free c batchId hfree ring spill
      refine (hv.1 ?_).elim
      rw [hring]
      exact List.mem_map_of_mem he
  · intro x hx hv
    obtain ⟨doc, high, hdoc, hlen, hhigh, hle⟩ :=
      vanished_row hb hfree (List.mem_append_left _ hx) hv
    exact (hcond.frame doc high hdoc hlen hhigh).1 x hx hle hv.2.2.2
  · intro _ before x after hrows hx hlater hnil
    obtain ⟨y, hy, hsome⟩ := hlater
    have hne : spill.rows ≠ [] := by simp [hrows]
    obtain ⟨before', x', after', hrows', hfirst, hx', hreach⟩ :=
      (Spill.drainBatch_eq_none c).mp ((collect_eq_nil hne).mp hnil)
    have hnone := hcond.behind before' x' after' hrows' hfirst hx' hreach y
      (subset_after hrows hrows' hfirst hx hy)
    rw [hnone] at hsome
    cases hsome

theorem vanishes_of_not_mem {inFlight : ℕ} (hfree : inFlight < cfg.maxInFlight) {ring : Ring ε}
    {spill : Spill ρ} (hb : spill.Below) {u : ι}
    (hspill : u ∉ Spill.rowUids c spill.rows)
    (happended : u ∉ Spill.rowUids c (appended c cfg ring spill))
    (hring : u ∉ (gather c cfg ring spill).ring.inner.map c.uid) :
    Vanishes c cfg batchId inFlight ring spill u := by
  obtain ⟨lost, hg⟩ := gather_gathers c cfg ring hb
  have hall : u ∉ Spill.rowUids c (spill.rows ++ appended c cfg ring spill) := by
    rw [Spill.rowUids_append]
    exact fun hu => (List.mem_append.mp hu).elim hspill happended
  have hrows : u ∉ Spill.rowUids c (gather c cfg ring spill).spill.rows := by
    intro hu
    apply hall
    rw [hg.grown.rows, Spill.rowUids_append]
    exact List.mem_append_right _ hu
  have hcapped : u ∉ cappedUids c cfg ring spill := fun hu =>
    hall ((Spill.rowUids_sublist c (List.take_sublist _ _)).subset hu)
  obtain ⟨hr, ⟨doc, high, -, -, -, hout, hack⟩ | ⟨-, hkeep, hsent⟩⟩ :=
    tryFlush_free c batchId hfree ring spill
  · refine ⟨by rw [hr]; exact hring, ?_, by rw [hout]; simp [sentUids], hcapped⟩
    rw [hack]
    exact fun hu => hrows ((Spill.rowUids_sublist c List.filter_sublist).subset hu)
  · refine ⟨by rw [hr]; exact hring, by rw [hkeep]; exact hrows, fun hu => ?_, hcapped⟩
    have hmem := hsent hu
    by_cases hne : (gather c cfg ring spill).events = []
    · simp [hne] at hmem
    · obtain ⟨high, -, -, hsub, -⟩ := hg.mark hne
      exact hall ((Spill.rowUids_sublist c List.filter_sublist).subset (hsub.subset hmem))

/-- With distinct ids, an uncapped row at or below the mark of an oversize frame vanishes. -/
theorem vanishes_of_mark {inFlight : ℕ} (hfree : inFlight < cfg.maxInFlight) {ring : Ring ε}
    {spill : Spill ρ} (hb : spill.Below)
    (hnodup : (Spill.rowUids c spill.rows ++ ring.inner.map c.uid).Nodup) {doc : ρ} {high : ℕ}
    (hdoc : c.frame batchId (gather c cfg ring spill).events = some doc)
    (hlen : maxFrameBytes < c.len doc)
    (hhigh : (gather c cfg ring spill).spillHigh = some high) {x : ℕ × ρ}
    (hx : x ∈ spill.rows ++ appended c cfg ring spill) (hle : x.1 ≤ high)
    (hcap : c.rowUid x.2 ∉ cappedUids c cfg ring spill) :
    Vanishes c cfg batchId inFlight ring spill (c.rowUid x.2) := by
  obtain ⟨lost, hg⟩ := gather_gathers c cfg ring hb
  have hnodup' : (Spill.rowUids c (spill.rows ++ appended c cfg ring spill) ++
      (gather c cfg ring spill).ring.inner.map c.uid).Nodup := by
    rw [Spill.rowUids_append, List.append_assoc]
    exact hnodup.sublist ((List.Sublist.refl _).append hg.taken)
  obtain ⟨hrows, -, hcross⟩ := List.nodup_append.mp hnodup'
  obtain ⟨hr, ⟨-, high', -, -, hhigh', hout, hack⟩ | ⟨hfits, -, -⟩⟩ :=
    tryFlush_free c batchId hfree ring spill
  · rw [hhigh, Option.some.injEq] at hhigh'
    subst hhigh'
    refine ⟨fun hu => ?_, fun hu => ?_, by rw [hout]; simp [sentUids], hcap⟩
    · rw [hr] at hu
      exact hcross _ (Spill.rowUid_mem c hx) _ hu rfl
    · rw [hack] at hu
      obtain ⟨y, hy, huid⟩ := List.mem_map.mp hu
      obtain ⟨hmem, hlt⟩ := List.mem_filter.mp hy
      have hy' : y ∈ spill.rows ++ appended c cfg ring spill := by
        rw [hg.grown.rows]
        exact List.mem_append_right _ hmem
      have hxy : y = x := List.inj_on_of_nodup_map hrows hy' hx huid
      rw [hxy] at hlt
      simp only [decide_eq_true_eq] at hlt
      omega
  · have := hfits doc hdoc (gather_ne_nil_of_mark hb hhigh)
    omega

theorem Protects.harmless {inFlight : ℕ} {ring : Ring ε} {spill : Spill ρ} (hb : spill.Below)
    (hnodup : (Spill.rowUids c spill.rows ++ ring.inner.map c.uid).Nodup)
    (h : Protects c cfg batchId inFlight ring spill) (hfree : inFlight < cfg.maxInFlight) :
    Harmless c cfg batchId ring spill := by
  have hsplit := topUp_split c cfg (collect c cfg spill) ring
  have hdistinct := hnodup
  rw [← hsplit] at hdistinct
  simp only [List.map_append, List.nodup_append, List.mem_append] at hdistinct
  obtain ⟨-, ⟨⟨-, -, hko⟩, -, hkor⟩, hspill⟩ := hdistinct
  constructor
  · intro hfails e he
    obtain ⟨bad, hbad, hnone⟩ := hfails
    have hks := c.encodeAll_none_of_mem hbad hnone
    have hu := List.mem_map_of_mem (f := c.uid) he
    apply h.offered e (by rw [← hsplit]; simp [he])
    apply vanishes_of_not_mem hfree hb
    · exact fun hu' => hspill _ hu' _ (Or.inl (Or.inl hu)) rfl
    · simp only [appended, Spill.pushed, hks, Option.getD_none, Spill.numbered, List.nil_append]
      exact fun hu' => hko _ hu _ ((Spill.pushed_uids_sublist c _ _).subset hu') rfl
    · exact fun hu' => hkor _ (Or.inl hu) _ hu' rfl
  · intro hfails e he
    obtain ⟨bad, hbad, hnone⟩ := hfails
    have hos := c.encodeAll_none_of_mem hbad hnone
    have hu := List.mem_map_of_mem (f := c.uid) he
    apply h.offered e (by rw [← hsplit]; simp [he])
    apply vanishes_of_not_mem hfree hb
    · exact fun hu' => hspill _ hu' _ (Or.inl (Or.inr hu)) rfl
    · simp only [appended, Spill.pushed, hos, Option.getD_none, Spill.numbered, List.append_nil]
      exact fun hu' => hko _ ((Spill.pushed_uids_sublist c _ _).subset hu') _ hu rfl
    · exact fun hu' => hkor _ (Or.inr hu) _ hu' rfl
  · intro doc high hdoc hlen hhigh
    constructor
    · intro x hx hle hcap
      exact h.spilled x hx (vanishes_of_mark hfree hb hnodup hdoc hlen hhigh
        (List.mem_append_left _ hx) hle hcap)
    · intro hall e he hcap
      obtain ⟨x, hx, huid⟩ := exists_pushed spill hall he
      apply h.offered e (by rw [← hsplit]; simp [he])
      rw [← huid] at hcap ⊢
      exact vanishes_of_mark hfree hb hnodup hdoc hlen hhigh (by simp [appended, hx])
        ((appended_mark hb hhigh).1 x hx) hcap
  · intro before x after hrows hfirst hx hreach y hy
    by_contra hsome
    apply h.behind hfree before x after hrows hx ⟨y, hy, Option.isSome_iff_ne_none.mpr hsome⟩
    exact (collect_eq_nil (by simp [hrows])).mpr
      ((Spill.drainBatch_eq_none c).mpr ⟨before, x, after, hrows, hfirst, hx, hreach⟩)

variable (c cfg batchId) in
/-- A flush loses bad events only and gets past the rows it cannot read, if and
only if none of the three ways is taken over a good event. -/
theorem protects_iff_harmless (inFlight : ℕ) (ring : Ring ε) {spill : Spill ρ}
    (hb : spill.Below) :
    ((inFlight < cfg.maxInFlight → Harmless c cfg batchId ring spill) →
      Protects c cfg batchId inFlight ring spill) ∧
    ((Spill.rowUids c spill.rows ++ ring.inner.map c.uid).Nodup →
      Protects c cfg batchId inFlight ring spill →
        inFlight < cfg.maxInFlight → Harmless c cfg batchId ring spill) :=
  ⟨Harmless.protects hb, Protects.harmless hb⟩

/-- A spill that was just opened on an empty file. -/
def freshSpill : Spill (Json ℚ) := .reopen (eventCodec ℚ) .empty 67108864

/-- A custom payload that is not an object cannot be serialized under a tag. -/
def listPayload (d : Fin 10) : Event ℚ :=
  .new (.ofDigit d) 0 "agent-1" "host" (.custom ⟨.arr [], trivial⟩)

def twoEvents : TransportConfig := { batchMaxEvents := 2 }

/-- A spill with a heartbeat in it. -/
def spilledHeartbeat : Spill (Json ℚ) :=
  (freshSpill.push (eventCodec ℚ) [heartbeat 3]).2

/-- The event that does not serialize is pulled alone, and is the only one to vanish. -/
theorem protects_iff_harmless_listPayload :
    Protects (eventCodec ℚ) twoEvents .nil 0
        ⟨[listPayload 1, heartbeat 2], 50000, 0⟩ spilledHeartbeat ∧
      Vanishes (eventCodec ℚ) twoEvents .nil 0
        ⟨[listPayload 1, heartbeat 2], 50000, 0⟩ spilledHeartbeat
        ((eventCodec ℚ).uid (listPayload 1)) ∧
      Harmless (eventCodec ℚ) twoEvents .nil
        ⟨[listPayload 1, heartbeat 2], 50000, 0⟩ spilledHeartbeat := by
  have hfresh : freshSpill.Below := Spill.reopen_below _ _ _
  obtain ⟨_, hgrown⟩ := Spill.push_grown (eventCodec ℚ) [heartbeat 3] hfresh
  have hb : spilledHeartbeat.Below := hgrown.below hfresh
  have hiff := protects_iff_harmless (eventCodec ℚ) twoEvents .nil 0
    ⟨[listPayload 1, heartbeat 2], 50000, 0⟩ hb
  have hdistinct : (Spill.rowUids (eventCodec ℚ) spilledHeartbeat.rows ++
      [listPayload 1, heartbeat 2].map (eventCodec ℚ).uid).Nodup := by
    decide +kernel
  have hkeep : ∀ e ∈ (topUp (eventCodec ℚ) twoEvents
      (collect (eventCodec ℚ) twoEvents spilledHeartbeat)
      ⟨[listPayload 1, heartbeat 2], 50000, 0⟩).keep,
      BadEvent (eventCodec ℚ) .nil e := by
    decide +kernel
  have hoverflow : (topUp (eventCodec ℚ) twoEvents
      (collect (eventCodec ℚ) twoEvents spilledHeartbeat)
      ⟨[listPayload 1, heartbeat 2], 50000, 0⟩).overflow.length = 0 := by
    decide +kernel
  have hfits : ∀ doc ∈ (eventCodec ℚ).frame .nil (gather (eventCodec ℚ) twoEvents
      ⟨[listPayload 1, heartbeat 2], 50000, 0⟩ spilledHeartbeat).events,
      (eventCodec ℚ).len doc ≤ maxFrameBytes := by
    decide +kernel
  have hreadable : ∀ y ∈ spilledHeartbeat.rows, ((eventCodec ℚ).decode y.2).isSome := by
    decide +kernel
  have hprotects : Protects (eventCodec ℚ) twoEvents .nil 0
      ⟨[listPayload 1, heartbeat 2], 50000, 0⟩ spilledHeartbeat := by
    refine hiff.1 fun _ => ⟨fun _ => hkeep, ?_, ?_, ?_⟩
    · rintro ⟨e, he, -⟩
      rw [List.eq_nil_of_length_eq_zero hoverflow] at he
      cases he
    · intro doc high hdoc hlen _
      exact (Nat.not_lt.mpr (hfits doc hdoc) hlen).elim
    · intro before x after hrows _ hx
      have hsome := hreadable x (hrows ▸ List.mem_append_right _ List.mem_cons_self)
      rw [hx] at hsome
      cases hsome
  refine ⟨hprotects, by decide +kernel, hiff.2 hdistinct hprotects (by decide)⟩

/-- A heartbeat shares a push with an event that does not serialize, and is lost. -/
theorem heartbeat_lost_with_listPayload :
    ¬∀ (cfg : TransportConfig) (batchId : Uuid) (inFlight : ℕ) (ring : Ring (Event ℚ))
      (spill : Spill (Json ℚ)), 0 < cfg.batchMaxEvents → 0 < cfg.batchMaxBytes → spill.Below →
        Protects (eventCodec ℚ) cfg batchId inFlight ring spill := by
  intro h
  have hlost : Vanishes (eventCodec ℚ) {} .nil 0 ⟨[listPayload 1, heartbeat 2], 50000, 0⟩
      freshSpill ((eventCodec ℚ).uid (heartbeat 2)) := by
    decide +kernel
  have hgood : ¬BadEvent (eventCodec ℚ) .nil (heartbeat 2) := by
    decide +kernel
  apply hgood
  exact (h {} .nil 0 ⟨[listPayload 1, heartbeat 2], 50000, 0⟩ freshSpill
    (by decide) (by decide) (Spill.reopen_below _ _ _)).offered _ (by simp) hlost

end TryFlush
end Aegis

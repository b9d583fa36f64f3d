import Aegis.Ring
import Aegis.Spill
import Aegis.Wire

/-!
# One flush

`try_flush` of `actor.rs` up to the send: rows from the spill first, then a
top-up from the ring that is written to the spill before it is relied on, then
the frame-size guard. The ring is touched once and the spill lock is held for
each spill operation, so an event offered meanwhile comes before or after the
whole call.
-/

namespace Aegis

/-- The caps of `TransportConfig`; its addresses and timings decide when a step
happens, not what it does. -/
structure TransportConfig where
  batchMaxEvents : ℕ := 512
  batchMaxBytes : ℕ := 1048576
  ringCapacity : ℕ := 50000
  spillMaxBytes : ℕ := 67108864
  maxInFlight : ℕ := 1
deriving DecidableEq, Repr

/-- A batch awaiting its ack, with the highest spill sequence it covers. -/
structure PendingBatch (ε : Type) where
  events : List ε
  spillHigh : Option ℕ
deriving DecidableEq, Repr

/-- The first event is always allowed; later ones respect both caps. -/
def batchHasRoom (curEvents curBytes sz maxEvents maxBytes : ℕ) : Bool :=
  if curEvents = 0 then true
  else decide (curEvents < maxEvents) && decide (curBytes + sz ≤ maxBytes)

section Plan
variable {ε : Type}

/-- The loop of `plan_batch`: once an event overflows, all later ones do. -/
def planLoop (maxEvents maxBytes : ℕ) :
    List ε → List ε → ℕ → ℕ → List (ε × ℕ) → List ε × List ε
  | taken, overflow, _, _, [] => (taken, overflow)
  | taken, overflow, n, bytes, (ev, sz) :: rest =>
      if !overflow.isEmpty || !batchHasRoom n bytes sz maxEvents maxBytes then
        planLoop maxEvents maxBytes taken (overflow ++ [ev]) n bytes rest
      else planLoop maxEvents maxBytes (taken ++ [ev]) overflow (n + 1) (bytes + sz) rest

def planBatch (candidates : List (ε × ℕ)) (startEvents startBytes maxEvents maxBytes : ℕ) :
    List ε × List ε := planLoop maxEvents maxBytes [] [] startEvents startBytes candidates

theorem planLoop_overflow (maxEvents maxBytes n bytes : ℕ) (taken overflow : List ε)
    (h : overflow ≠ []) (l : List (ε × ℕ)) :
    planLoop maxEvents maxBytes taken overflow n bytes l =
      (taken, overflow ++ l.map Prod.fst) := by
  induction l generalizing overflow with
  | nil => simp [planLoop]
  | cons x l ih =>
      have hne : overflow.isEmpty = false := by simpa using h
      simp only [planLoop, hne, Bool.not_false, Bool.true_or, if_true]
      rw [ih _ (by simp)]
      simp

theorem planLoop_split (maxEvents maxBytes n bytes : ℕ) (taken : List ε) (l : List (ε × ℕ)) :
    (planLoop maxEvents maxBytes taken [] n bytes l).1 ++
      (planLoop maxEvents maxBytes taken [] n bytes l).2 = taken ++ l.map Prod.fst := by
  induction l generalizing taken n bytes with
  | nil => simp [planLoop]
  | cons x l ih =>
      by_cases hroom : batchHasRoom n bytes x.2 maxEvents maxBytes
      · simp [planLoop, hroom, ih]
      · simp [planLoop, hroom, planLoop_overflow]

theorem planBatch_split (candidates : List (ε × ℕ)) (startEvents startBytes m b : ℕ) :
    (planBatch candidates startEvents startBytes m b).1 ++
      (planBatch candidates startEvents startBytes m b).2 = candidates.map Prod.fst :=
  planLoop_split m b startEvents startBytes [] candidates

theorem planLoop_taken_le (maxEvents maxBytes n bytes : ℕ) (taken : List ε) (l : List (ε × ℕ)) :
    taken.length ≤ (planLoop maxEvents maxBytes taken [] n bytes l).1.length := by
  induction l generalizing taken n bytes with
  | nil => simp [planLoop]
  | cons x l ih =>
      by_cases hroom : batchHasRoom n bytes x.2 maxEvents maxBytes
      · have := ih (n + 1) (bytes + x.2) (taken ++ [x.1])
        simp only [List.length_append, List.length_singleton] at this
        simp only [planLoop, hroom, List.isEmpty_nil, Bool.not_true, Bool.or_self,
          Bool.false_eq_true, if_false]
        omega
      · simp [planLoop, hroom, planLoop_overflow]

theorem planBatch_keep_ne_nil {candidates : List (ε × ℕ)} (h : candidates ≠ [])
    (startBytes m b : ℕ) : (planBatch candidates 0 startBytes m b).1 ≠ [] := by
  cases candidates with
  | nil => exact (h rfl).elim
  | cons x l =>
      have hlen := planLoop_taken_le m b 1 (startBytes + x.2) [x.1] l
      intro hnil
      simp only [planBatch, planLoop, batchHasRoom, List.isEmpty_nil, Bool.not_true, if_true,
        Bool.or_self, Bool.false_eq_true, if_false, List.nil_append, Nat.zero_add] at hnil
      rw [hnil] at hlen
      simp at hlen

end Plan

namespace TryFlush
variable {ε ρ ι : Type} (c : Codec ε ρ ι) (cfg : TransportConfig)

/-- What the batch holds before the top-up. -/
structure Collected (ε : Type) where
  events : List ε
  spillHigh : Option ℕ
  estBytes : ℕ

def collectLoop : Collected ε → List (SpilledEvent ε) → Collected ε
  | b, [] => b
  | b, se :: rest =>
      let sz := c.estimateSize se.event
      if batchHasRoom b.events.length b.estBytes sz cfg.batchMaxEvents cfg.batchMaxBytes then
        collectLoop ⟨b.events ++ [se.event], some se.seq, b.estBytes + sz⟩ rest
      else b

/-- Rows from the spill; none when the drain fails. -/
def collect (spill : Spill ρ) : Collected ε :=
  match spill.drainBatch c cfg.batchMaxEvents cfg.batchMaxBytes with
  | some spilled => collectLoop c cfg ⟨[], none, 0⟩ spilled
  | none => ⟨[], none, 0⟩

/-- Events pulled from the ring: those that fit the batch and those that do not. -/
structure TopUp (ε : Type) where
  keep : List ε
  overflow : List ε
  ring : Ring ε

def topUp (b : Collected ε) (ring : Ring ε) : TopUp ε :=
  if b.events.length < cfg.batchMaxEvents ∧ b.estBytes < cfg.batchMaxBytes then
    let (ringEvents, ring') := ring.drain (cfg.batchMaxEvents - b.events.length)
    if ringEvents.isEmpty then ⟨[], [], ring'⟩ else
      let (keep, overflow) := planBatch (ringEvents.map fun e => (e, c.estimateSize e))
        b.events.length b.estBytes cfg.batchMaxEvents cfg.batchMaxBytes
      ⟨keep, overflow, ring'⟩
  else ⟨[], [], ring⟩

/-- The batch and the buffers just before the frame-size guard. -/
structure Gathered (ε ρ : Type) where
  events : List ε
  spillHigh : Option ℕ
  ring : Ring ε
  spill : Spill ρ

/-- Persists the kept events; they join the batch only if that succeeds. -/
def spillKeep (b : Collected ε) (keep : List ε) (spill : Spill ρ) :
    List ε × Option ℕ × Spill ρ :=
  if keep.isEmpty then (b.events, b.spillHigh, spill) else
    let beforeSeq := spill.writeCursor
    match spill.push c keep with
    | (false, spill') => (b.events, b.spillHigh, spill')
    | (true, spill') =>
        let high := beforeSeq + keep.length - 1
        (b.events ++ keep, some (b.spillHigh.elim high fun h => max h high), spill')

def gather (ring : Ring ε) (spill : Spill ρ) : Gathered ε ρ :=
  let b := collect c cfg spill
  let t := topUp c cfg b ring
  let (events, spillHigh, spill') := spillKeep c b t.keep spill
  let spill'' := if t.overflow.isEmpty then spill' else (spill'.push c t.overflow).2
  ⟨events, spillHigh, t.ring, spill''⟩

/-- What a flush hands to the sender. -/
inductive Outcome (ε : Type) where
  | windowFull
  | nothing
  | tooLarge
  | unserializable
  | batch (p : PendingBatch ε)
deriving DecidableEq

/-- The frame-size guard: an oversize frame is acked away. -/
def guardFrame (batchId : ι) (g : Gathered ε ρ) : Outcome ε × Ring ε × Spill ρ :=
  if g.events.isEmpty then (.nothing, g.ring, g.spill) else
    match c.frame batchId g.events with
    | none => (.unserializable, g.ring, g.spill)
    | some doc =>
        if maxFrameBytes < c.len doc then
          (.tooLarge, g.ring, g.spillHigh.elim g.spill fun high => g.spill.ackThrough c high)
        else (.batch ⟨g.events, g.spillHigh⟩, g.ring, g.spill)

/-- `try_flush` up to the send. -/
def tryFlush (batchId : ι) (inFlight : ℕ) (ring : Ring ε) (spill : Spill ρ) :
    Outcome ε × Ring ε × Spill ρ :=
  if cfg.maxInFlight ≤ inFlight then (.windowFull, ring, spill)
  else guardFrame c batchId (gather c cfg ring spill)

theorem collectLoop_spec (done rest : List (SpilledEvent ε)) (est : ℕ) :
    ∃ n b, collectLoop c cfg ⟨done.map SpilledEvent.event, done.getLast?.map SpilledEvent.seq, est⟩
        rest =
      ⟨(done ++ rest.take n).map SpilledEvent.event,
        (done ++ rest.take n).getLast?.map SpilledEvent.seq, b⟩ := by
  induction rest generalizing done est with
  | nil => exact ⟨0, est, by simp [collectLoop]⟩
  | cons se rest ih =>
      simp only [collectLoop]
      split_ifs with hroom
      · obtain ⟨n, b, hb⟩ := ih (done ++ [se]) (est + c.estimateSize se.event)
        refine ⟨n + 1, b, ?_⟩
        simpa using hb
      · exact ⟨0, est, by simp⟩

/-- The collected events are the parsed forms of a leading run of rows, and the
high-water mark is the last of them. -/
theorem collect_spec (spill : Spill ρ) :
    ∃ out : List (SpilledEvent ε),
      List.Forall₂ (Spill.ReadsAs c) (spill.rows.take out.length) out ∧
      (collect c cfg spill).events = out.map SpilledEvent.event ∧
      (collect c cfg spill).spillHigh = out.getLast?.map SpilledEvent.seq := by
  unfold collect
  cases hd : spill.drainBatch c cfg.batchMaxEvents cfg.batchMaxBytes with
  | none => exact ⟨[], by simp, rfl, rfl⟩
  | some spilled =>
      obtain ⟨n, hn⟩ := Spill.drainBatch_reads c hd
      obtain ⟨k, b, hk⟩ := collectLoop_spec c cfg [] spilled 0
      have hlen := hn.length_eq
      refine ⟨spilled.take k, ?_, by simpa using congrArg Collected.events hk,
        by simpa using congrArg Collected.spillHigh hk⟩
      have htake := List.forall₂_take k hn
      rw [List.take_take] at htake
      have hrows : spill.rows.take (spilled.take k).length = spill.rows.take (min k n) := by
        rw [List.take_eq_take_iff]
        simp only [List.length_take] at hlen ⊢
        omega
      rw [hrows]
      exact htake

theorem collect_uids (spill : Spill ρ) :
    (collect c cfg spill).events.map c.uid =
      Spill.rowUids c (spill.rows.take (collect c cfg spill).events.length) := by
  obtain ⟨out, hreads, hevents, -⟩ := collect_spec c cfg spill
  rw [hevents, List.length_map]
  exact Spill.ReadsAs.uids c hreads

theorem collect_mark_isSome {spill : Spill ρ} (h : (collect c cfg spill).events ≠ []) :
    ∃ high, (collect c cfg spill).spillHigh = some high := by
  obtain ⟨out, -, hevents, hhigh⟩ := collect_spec c cfg spill
  rw [hevents] at h
  have hout : out ≠ [] := fun hnil => h (by rw [hnil]; rfl)
  exact ⟨(out.getLast hout).seq, by rw [hhigh, List.getLast?_eq_some_getLast hout]; rfl⟩

theorem collect_mark {spill : Spill ρ} {high : ℕ}
    (h : (collect c cfg spill).spillHigh = some high) :
    (∃ r ∈ spill.rows, r.1 = high) ∧ spill.rows.filter (fun r => r.1 ≤ high) =
      spill.rows.take (collect c cfg spill).events.length := by
  obtain ⟨out, hreads, hevents, hhigh⟩ := collect_spec c cfg spill
  rw [hevents, List.length_map]
  rw [hhigh] at h
  have hlast : ((spill.rows.take out.length).getLast?.map Prod.fst) = some high := by
    rw [← List.getLast?_map, ← Spill.ReadsAs.seqs c hreads, List.getLast?_map, h]
  obtain ⟨last, hl, rfl⟩ := Option.map_eq_some_iff.mp hlast
  exact ⟨⟨last, List.mem_of_mem_take (List.mem_of_getLast? hl), rfl⟩,
    Spill.filter_le_getLast spill.table.sorted hl⟩

theorem topUp_split (b : Collected ε) (ring : Ring ε) :
    (topUp c cfg b ring).keep ++ (topUp c cfg b ring).overflow ++
      (topUp c cfg b ring).ring.inner = ring.inner := by
  unfold topUp
  split_ifs with hroom
  · simp only
    split_ifs with hempty
    · have hnil : ring.inner.take (cfg.batchMaxEvents - b.events.length) = [] := by
        simpa [Ring.drain] using hempty
      have hsplit := Ring.drain_append ring (cfg.batchMaxEvents - b.events.length)
      simpa [Ring.drain, hnil] using hsplit
    · have hsplit := planBatch_split ((ring.drain (cfg.batchMaxEvents - b.events.length)).1.map
        fun e => (e, c.estimateSize e)) b.events.length b.estBytes cfg.batchMaxEvents
        cfg.batchMaxBytes
      simp only [hsplit, List.map_map, Function.comp_def, List.map_id', Ring.drain_append]
  · simp

@[simp] theorem topUp_dropped (b : Collected ε) (ring : Ring ε) :
    (topUp c cfg b ring).ring.dropped = ring.dropped := by
  unfold topUp
  split_ifs with h
  · simp only
    split_ifs <;> rfl
  · rfl

@[simp] theorem topUp_capacity (b : Collected ε) (ring : Ring ε) :
    (topUp c cfg b ring).ring.capacity = ring.capacity := by
  unfold topUp
  split_ifs with h
  · simp only
    split_ifs <;> rfl
  · rfl

theorem push_nil (spill : Spill ρ) : spill.push c ([] : List ε) = (true, spill) := rfl

theorem gather_spill (ring : Ring ε) (spill : Spill ρ) :
    (gather c cfg ring spill).spill =
      ((spill.push c (topUp c cfg (collect c cfg spill) ring).keep).2.push c
        (topUp c cfg (collect c cfg spill) ring).overflow).2 := by
  have hkeep : (spillKeep c (collect c cfg spill) (topUp c cfg (collect c cfg spill) ring).keep
      spill).2.2 = (spill.push c (topUp c cfg (collect c cfg spill) ring).keep).2 := by
    unfold spillKeep
    split_ifs with h
    · rw [List.isEmpty_iff.mp h, push_nil]
    · simp only
      split <;> simp_all
  simp only [gather, hkeep]
  split_ifs with h
  · rw [List.isEmpty_iff.mp h, push_nil]
  · rfl

@[simp] theorem gather_ring (ring : Ring ε) (spill : Spill ρ) :
    (gather c cfg ring spill).ring = (topUp c cfg (collect c cfg spill) ring).ring := rfl

theorem gather_mark_isSome {ring : Ring ε} {spill : Spill ρ}
    (h : (gather c cfg ring spill).events ≠ []) : (gather c cfg ring spill).spillHigh.isSome := by
  have hcollected : (collect c cfg spill).events ≠ [] →
      (collect c cfg spill).spillHigh.isSome := fun hne => by
    obtain ⟨high, hhigh⟩ := collect_mark_isSome c cfg hne
    rw [hhigh, Option.isSome_some]
  simp only [gather, spillKeep] at h ⊢
  split_ifs at h ⊢ with hk
  · exact hcollected h
  · cases hpush : spill.push c (topUp c cfg (collect c cfg spill) ring).keep with
    | mk ok spill' =>
        simp only [hpush] at h ⊢
        cases ok with
        | false => exact hcollected h
        | true => rfl

theorem gather_encodes (ring : Ring ε) (spill : Spill ρ) :
    ∀ e ∈ (gather c cfg ring spill).events, (c.encode e).isSome := by
  have hcollected : ∀ e ∈ (collect c cfg spill).events, (c.encode e).isSome := by
    obtain ⟨out, hreads, hevents, -⟩ := collect_spec c cfg spill
    intro e he
    rw [hevents] at he
    obtain ⟨o, ho, rfl⟩ := List.mem_map.mp he
    obtain ⟨r, -, hr⟩ := Spill.ReadsAs.exists_row c hreads ho
    exact c.decode_encodes _ _ hr.2
  simp only [gather, spillKeep]
  split_ifs with hk
  · exact hcollected
  · cases hks : c.encodeAll (topUp c cfg (collect c cfg spill) ring).keep with
    | none =>
        have hpush := (Spill.push_none c (s := spill) hks).1
        split
        · exact hcollected
        · rename_i htrue
          rw [htrue] at hpush
          cases hpush
    | some ks =>
        split
        · exact hcollected
        · intro e he
          rcases List.mem_append.mp he with he | he
          · exact hcollected e he
          · exact c.isSome_of_encodeAll hks e he

theorem tryFlush_cases (batchId : ι) (inFlight : ℕ) (ring : Ring ε) (spill : Spill ρ) :
    let g := gather c cfg ring spill
    let r := tryFlush c cfg batchId inFlight ring spill
    (cfg.maxInFlight ≤ inFlight ∧ r = (.windowFull, ring, spill)) ∨
    (inFlight < cfg.maxInFlight ∧
      ((g.events = [] ∧ r = (.nothing, g.ring, g.spill)) ∨
      (g.events ≠ [] ∧ ∃ doc, c.frame batchId g.events = some doc ∧
        ((maxFrameBytes < c.len doc ∧ r = (.tooLarge, g.ring,
            g.spillHigh.elim g.spill fun high => g.spill.ackThrough c high)) ∨
          (c.len doc ≤ maxFrameBytes ∧
            r = (.batch ⟨g.events, g.spillHigh⟩, g.ring, g.spill)))))) := by
  intro g r
  by_cases hfull : cfg.maxInFlight ≤ inFlight
  · exact Or.inl ⟨hfull, by simp [r, tryFlush, hfull]⟩
  · refine Or.inr ⟨not_le.mp hfull, ?_⟩
    have hr : r = guardFrame c batchId g := by simp [r, tryFlush, hfull, g]
    rw [hr]
    by_cases hnil : g.events = []
    · exact Or.inl ⟨hnil, by simp [guardFrame, hnil]⟩
    · obtain ⟨doc, hdoc⟩ := Option.isSome_iff_exists.mp
        (c.frame_isSome batchId g.events (gather_encodes c cfg ring spill))
      refine Or.inr ⟨hnil, doc, hdoc, ?_⟩
      by_cases hlen : maxFrameBytes < c.len doc
      · exact Or.inl ⟨hlen, by simp [guardFrame, hnil, hdoc, hlen]⟩
      · exact Or.inr ⟨not_lt.mp hlen, by simp [guardFrame, hnil, hdoc, hlen]⟩

theorem tryFlush_batch {batchId : ι} {inFlight : ℕ} {ring ring' : Ring ε} {spill spill' : Spill ρ}
    {p : PendingBatch ε}
    (h : tryFlush c cfg batchId inFlight ring spill = (.batch p, ring', spill')) :
    p.events = (gather c cfg ring spill).events ∧
      p.spillHigh = (gather c cfg ring spill).spillHigh := by
  have hp : (tryFlush c cfg batchId inFlight ring spill).1 = .batch p := by rw [h]
  rcases tryFlush_cases c cfg batchId inFlight ring spill with ⟨-, hr⟩ | ⟨-, hr⟩
  · rw [hr] at hp
    cases hp
  · rcases hr with ⟨-, hr⟩ | ⟨-, doc, -, ⟨-, hr⟩ | ⟨-, hr⟩⟩
    · rw [hr] at hp
      cases hp
    · rw [hr] at hp
      cases hp
    · rw [hr] at hp
      cases hp
      exact ⟨rfl, rfl⟩

/-- The flush leaves rows of the spill behind and yet takes events from the
ring, which are numbered above the rows left behind. -/
def Skips (ring : Ring ε) (spill : Spill ρ) : Prop :=
  (collect c cfg spill).events.length < spill.rows.length ∧
    (topUp c cfg (collect c cfg spill) ring).keep ≠ []

instance (ring : Ring ε) (spill : Spill ρ) : Decidable (Skips c cfg ring spill) :=
  inferInstanceAs (Decidable (_ ∧ (_ ≠ [])))

variable {c cfg}

theorem spillKeep_of_nil (b : Collected ε) (spill : Spill ρ) :
    spillKeep c b [] spill = (b.events, b.spillHigh, spill) := rfl

theorem spillKeep_of_none (b : Collected ε) {keep : List ε} (hks : c.encodeAll keep = none)
    (spill : Spill ρ) :
    spillKeep c b keep spill = (b.events, b.spillHigh, (spill.push c keep).2) := by
  have hfalse := (Spill.push_none c (s := spill) hks).1
  simp only [spillKeep]
  split_ifs with hk
  · rw [List.isEmpty_iff.mp hk] at hfalse
    cases hfalse
  · split
    · rename_i hpush
      rw [hpush]
    · rename_i hpush
      rw [hpush] at hfalse
      cases hfalse

theorem spillKeep_of_some (b : Collected ε) {keep : List ε} (hk : keep ≠ []) {ks : List ρ}
    (hks : c.encodeAll keep = some ks) {spill : Spill ρ} (hb : spill.Below) :
    spillKeep c b keep spill = (b.events ++ keep, some (b.spillHigh.elim
      (spill.writeCursor + keep.length - 1) fun h => max h (spill.writeCursor + keep.length - 1)),
      (spill.push c keep).2) := by
  have htrue := (Spill.push_some c hks hb).1
  have hempty : keep.isEmpty = false := by simpa using hk
  simp only [spillKeep, hempty, Bool.false_eq_true, if_false]
  split
  · rename_i hpush
    rw [hpush] at htrue
    cases htrue
  · rename_i hpush
    rw [hpush]

/-- Either the kept events are left out of the batch and of the spill, or they
are the end of both. -/
theorem gather_kept (ring : Ring ε) {spill : Spill ρ} (hb : spill.Below) :
    let b := collect c cfg spill
    let keep := (topUp c cfg b ring).keep
    let g := gather c cfg ring spill
    (spill.pushed c keep = [] ∧ g.events = b.events ∧ g.spillHigh = b.spillHigh) ∨
    ∃ ks, keep ≠ [] ∧ c.encodeAll keep = some ks ∧ g.events = b.events ++ keep ∧
      g.spillHigh = some (spill.writeCursor + keep.length - 1) := by
  intro b keep g
  by_cases hk : keep = []
  · left
    simp [g, gather, b, keep, hk, spillKeep_of_nil, Spill.pushed, Codec.encodeAll, Spill.numbered]
  cases hks : c.encodeAll keep with
  | none =>
      left
      simp [g, gather, b, keep, hks, spillKeep_of_none _ hks, Spill.pushed, Spill.numbered]
  | some ks =>
      right
      refine ⟨ks, hk, rfl, ?_, ?_⟩
      · simp [g, gather, b, keep, spillKeep_of_some _ hk hks hb]
      · have hpos : 0 < keep.length := List.length_pos_iff.mpr hk
        simp only [g, gather, b, keep, spillKeep_of_some _ hk hks hb, Option.some.injEq]
        cases hhigh : (collect c cfg spill).spillHigh with
        | none => rfl
        | some h =>
            obtain ⟨⟨r, hr, rfl⟩, -⟩ := collect_mark c cfg hhigh
            have hlt : r.1 < spill.writeCursor := hb r hr
            simp only [Option.elim_some]
            omega

variable (c cfg)

/-- The rows a flush appends. -/
def appended (ring : Ring ε) (spill : Spill ρ) : List (ℕ × ρ) :=
  let t := topUp c cfg (collect c cfg spill) ring
  spill.pushed c t.keep ++ (spill.push c t.keep).2.pushed c t.overflow

/-- What a flush does to the buffers: it appends the rows `fresh` and the cap
removes the rows `lost`. Events that do not serialize may vanish on the way. -/
structure Gathers (ring : Ring ε) (spill : Spill ρ) (g : Gathered ε ρ) (fresh lost : List (ℕ × ρ)) :
    Prop where
  grown : Spill.Grown spill fresh lost g.spill
  taken : (Spill.rowUids c fresh ++ g.ring.inner.map c.uid).Sublist (ring.inner.map c.uid)
  complete : (∀ e ∈ ring.inner, (c.encode e).isSome) →
    Spill.rowUids c fresh ++ g.ring.inner.map c.uid = ring.inner.map c.uid
  ringSuffix : g.ring.inner <:+ ring.inner
  ringDropped : g.ring.dropped = ring.dropped
  ringCapacity : g.ring.capacity = ring.capacity
  mark : g.events ≠ [] → ∃ high, g.spillHigh = some high ∧ high < g.spill.writeCursor ∧
    (g.events.map c.uid).Sublist
      (Spill.rowUids c ((spill.rows ++ fresh).filter fun r => r.1 ≤ high)) ∧
    (¬Skips c cfg ring spill →
      Spill.rowUids c ((spill.rows ++ fresh).filter fun r => r.1 ≤ high) = g.events.map c.uid)

variable {c cfg}

/-- A batch of rows only: its mark is the last of them. -/
theorem collect_gathers_mark {spill spill' : Spill ρ} {fresh lost : List (ℕ × ρ)}
    (hb : spill.Below) (hgrown : Spill.Grown spill fresh lost spill')
    (hne : (collect c cfg spill).events ≠ []) :
    ∃ high, (collect c cfg spill).spillHigh = some high ∧ high < spill'.writeCursor ∧
      Spill.rowUids c ((spill.rows ++ fresh).filter fun r => r.1 ≤ high) =
        (collect c cfg spill).events.map c.uid := by
  obtain ⟨high, hhigh⟩ := collect_mark_isSome c cfg hne
  obtain ⟨⟨r, hr, rfl⟩, hfilter⟩ := collect_mark c cfg hhigh
  have hlt : r.1 < spill.writeCursor := hb r hr
  exact ⟨r.1, hhigh, hlt.trans_le hgrown.cursor, by
    rw [hgrown.filter_le hlt, hfilter, collect_uids]⟩

/-- A batch with ring events: its mark is the last of their rows. -/
theorem keep_gathers_mark (ring : Ring ε) {spill : Spill ρ} {more : List (ℕ × ρ)}
    {keep : List ε} {ks : List ρ} {high : ℕ} (hb : spill.Below)
    (hks : c.encodeAll keep = some ks) (hhigh : high + 1 = spill.writeCursor + ks.length)
    (hmore : ∀ r ∈ more, high < r.1) (hkeep : keep = (topUp c cfg (collect c cfg spill) ring).keep)
    (hk : keep ≠ []) :
    let marked := Spill.rowUids c
      ((spill.rows ++ (Spill.numbered spill.writeCursor ks ++ more)).filter fun r => r.1 ≤ high)
    (((collect c cfg spill).events ++ keep).map c.uid).Sublist marked ∧
      (¬Skips c cfg ring spill → marked = ((collect c cfg spill).events ++ keep).map c.uid) := by
  have hlow : ∀ r ∈ spill.rows ++ Spill.numbered spill.writeCursor ks, r.1 ≤ high := by
    intro r hr
    rcases List.mem_append.mp hr with hr | hr
    · have := hb r hr
      omega
    · have := (Spill.mem_numbered hr).2
      omega
  rw [← List.append_assoc, Spill.filter_le_append hlow hmore]
  simp only [List.map_append, Spill.rowUids_append, Spill.numbered_uids, c.encodeAll_uid hks,
    collect_uids]
  refine ⟨(Spill.rowUids_sublist c (List.take_sublist _ _)).append (List.Sublist.refl _),
    fun hskip => ?_⟩
  have hall : spill.rows.take (collect c cfg spill).events.length = spill.rows :=
    List.take_of_length_le (not_lt.mp fun hlt => hskip ⟨hlt, hkeep ▸ hk⟩)
  rw [hall]

variable (c cfg) in
theorem gather_gathers (ring : Ring ε) {spill : Spill ρ} (hb : spill.Below) :
    ∃ lost, Gathers c cfg ring spill (gather c cfg ring spill) (appended c cfg ring spill)
      lost := by
  have hsplit := topUp_split c cfg (collect c cfg spill) ring
  obtain ⟨lost, hgrown⟩ := Spill.push_grown c (topUp c cfg (collect c cfg spill) ring).keep hb
  obtain ⟨lost', hgrown'⟩ := Spill.push_grown c
    (topUp c cfg (collect c cfg spill) ring).overflow (hgrown.below hb)
  have hboth := hgrown.trans hgrown'
  refine ⟨lost ++ lost', ?_⟩
  refine
    { grown := by rw [gather_spill]; exact hboth
      taken := ?_
      complete := ?_
      ringSuffix := ⟨_, hsplit⟩
      ringDropped := topUp_dropped c cfg _ ring
      ringCapacity := topUp_capacity c cfg _ ring
      mark := ?_ }
  · rw [gather_ring, ← hsplit]
    simp only [appended, List.map_append, Spill.rowUids_append]
    exact ((Spill.pushed_uids_sublist c _ _).append (Spill.pushed_uids_sublist c _ _)).append
      (List.Sublist.refl _)
  · intro hring
    have hkeep : ∀ e ∈ (topUp c cfg (collect c cfg spill) ring).keep, (c.encode e).isSome :=
      fun e he => hring e (by rw [← hsplit]; simp [he])
    have hoverflow : ∀ e ∈ (topUp c cfg (collect c cfg spill) ring).overflow,
        (c.encode e).isSome := fun e he => hring e (by rw [← hsplit]; simp [he])
    rw [gather_ring, ← hsplit]
    simp only [appended, List.map_append, Spill.rowUids_append, Spill.pushed_uids c hkeep,
      Spill.pushed_uids c hoverflow]
  · intro hne
    rcases gather_kept ring hb with ⟨-, hevents, hmark⟩ | ⟨ks, hk, hks, hevents, hmark⟩
    · obtain ⟨high, hhigh, hlt, hcover⟩ := collect_gathers_mark hb hboth (hevents ▸ hne)
      rw [gather_spill, hevents, hmark]
      exact ⟨high, hhigh, hlt, hcover ▸ List.Sublist.refl _, fun _ => hcover⟩
    · have hlen : ks.length = (topUp c cfg (collect c cfg spill) ring).keep.length := by
        simpa using congrArg List.length (c.encodeAll_uid hks)
      have hpos : 0 < (topUp c cfg (collect c cfg spill) ring).keep.length :=
        List.length_pos_iff.mpr hk
      have hcur := (Spill.push_some c hks hb).2.1
      have hmore : ∀ r ∈ (spill.push c (topUp c cfg (collect c cfg spill) ring).keep).2.pushed c
          (topUp c cfg (collect c cfg spill) ring).overflow, spill.writeCursor +
            (topUp c cfg (collect c cfg spill) ring).keep.length - 1 < r.1 := by
        intro r hr
        have := (hgrown'.above r hr).1
        omega
      have hcover := keep_gathers_mark ring hb hks (by omega) hmore rfl hk
      have hfresh : appended c cfg ring spill = Spill.numbered spill.writeCursor ks ++
          (spill.push c (topUp c cfg (collect c cfg spill) ring).keep).2.pushed c
            (topUp c cfg (collect c cfg spill) ring).overflow := by
        simp only [appended, Spill.pushed, hks, Option.getD_some]
      refine ⟨_, hmark, ?_, ?_⟩
      · rw [gather_spill]
        have := hgrown'.cursor
        omega
      · rw [hevents, hfresh]
        exact hcover

end TryFlush
end Aegis

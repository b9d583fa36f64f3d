import Aegis.GuardedRun
import Aegis.TryFlush
import Mathlib.Logic.Relation

/-!
# The forwarder actor

`run` and `serve_online` of `actor.rs` as a transition function. Offers come
from the bus at any time; flushes, acks and failures belong to an online
session; a stop persists what the ring still holds. `offered`, `wire` and
`acked` record the past and no step reads more of them than the batch ids on
the wire: the server acknowledges only what it received.
-/

namespace Aegis

inductive Phase where
  | between | online | stopped
deriving DecidableEq, Repr

structure Forwarder (ε ρ ι : Type) where
  ring : Ring ε
  spill : Spill ρ
  phase : Phase
  pending : List (ι × PendingBatch ε)
  offered : List ε
  wire : List (ι × List ε)
  acked : List (ι × List ε)

/-- `delivered` says whether a sent batch reached the wire, `sent` whether the
write returned without an error. -/
inductive Forwarder.Act (ε ι : Type) where
  | offer (event : ε)
  | connect
  | refused
  | flush (batchId : ι) (delivered sent : Bool)
  | ack (batchId : ι) (accepted : ℕ)
  | fail
  | stop

namespace Forwarder
variable {ε ρ ι : Type} [DecidableEq ι] (c : Codec ε ρ ι) (cfg : TransportConfig)

/-- The actor on an existing spill file. -/
def start (cfg : TransportConfig) (table : OrderedTable ℕ ρ) : Forwarder ε ρ ι where
  ring := .new cfg.ringCapacity
  spill := .reopen c table cfg.spillMaxBytes
  phase := .between
  pending := []
  offered := []
  wire := []
  acked := []

/-- The end of a session: batches without spill rows are spilled again, in
send order. -/
def teardown (s : Forwarder ε ρ ι) : Forwarder ε ρ ι :=
  { s with
    phase := .between
    pending := []
    spill := s.pending.foldl
      (fun spill b => if b.2.spillHigh.isNone then (spill.push c b.2.events).2 else spill)
      s.spill }

/-- The end of `run`: whatever is still in the ring goes to disk. -/
def persistRing (s : Forwarder ε ρ ι) : Forwarder ε ρ ι :=
  let (leftover, ring') := s.ring.drain s.ring.inner.length
  { s with
    phase := .stopped
    ring := ring'
    spill := if leftover.isEmpty then s.spill else (s.spill.push c leftover).2 }

/-- A flush and the send of its batch. -/
def flush (s : Forwarder ε ρ ι) (batchId : ι) (delivered sent : Bool) : Forwarder ε ρ ι :=
  match TryFlush.tryFlush c cfg batchId s.pending.length s.ring s.spill with
  | (.batch p, ring', spill') =>
      let s' : Forwarder ε ρ ι :=
        { s with
          ring := ring'
          spill := spill'
          pending := s.pending ++ [(batchId, p)]
          wire := if delivered then s.wire ++ [(batchId, p.events)] else s.wire }
      if sent then s' else teardown c s'
  | (_, ring', spill') => { s with ring := ring', spill := spill' }

/-- The ack arm: the batch leaves the window and its rows leave the spill,
whatever the accepted count says. -/
def acknowledge (s : Forwarder ε ρ ι) (batchId : ι) (p : PendingBatch ε) : Forwarder ε ρ ι :=
  { s with
    pending := s.pending.filter fun b => b.1 ≠ batchId
    spill := p.spillHigh.elim s.spill fun high => s.spill.ackThrough c high
    acked := s.acked ++ [(batchId, p.events)] }

def step (s : Forwarder ε ρ ι) : Act ε ι → Option (Forwarder ε ρ ι)
  | .offer e => some { s with ring := s.ring.offer e, offered := s.offered ++ [e] }
  | .connect => if s.phase = .between then some { s with phase := .online, pending := [] } else none
  | .refused => if s.phase = .between then some (persistRing c s) else none
  | .flush batchId delivered sent =>
      if s.phase = .online ∧ batchId ∉ s.wire.map Prod.fst ∧ batchId ∉ s.pending.map Prod.fst then
        some (flush c cfg s batchId delivered sent)
      else none
  | .ack batchId _ =>
      if s.phase = .online then
        match s.pending.find? fun b => b.1 = batchId with
        | none => some s
        | some b =>
            if batchId ∈ s.wire.map Prod.fst then some (acknowledge c s batchId b.2) else none
      else none
  | .fail => if s.phase = .online then some (teardown c s) else none
  | .stop =>
      if s.phase = .online then some (persistRing c (teardown c s))
      else if s.phase = .between then some (persistRing c s)
      else none

/-- Encodings succeed and frames fit, where the step encodes or frames. -/
def Serializes (s : Forwarder ε ρ ι) : Act ε ι → Prop
  | .offer e => (c.encode e).isSome
  | .flush batchId _ _ => (TryFlush.gather c cfg s.ring s.spill).events ≠ [] →
      ∃ doc ∈ c.frame batchId (TryFlush.gather c cfg s.ring s.spill).events,
        c.len doc ≤ maxFrameBytes
  | _ => True

instance (s : Forwarder ε ρ ι) (a : Act ε ι) : Decidable (Serializes c cfg s a) := by
  cases a <;> unfold Serializes <;> infer_instance

/-- A flush with a free slot does not take events from the ring over rows that
it leaves in the spill. -/
def NoSkip (s : Forwarder ε ρ ι) : Act ε ι → Prop
  | .flush _ _ _ => s.pending.length < cfg.maxInFlight → ¬TryFlush.Skips c cfg s.ring s.spill
  | _ => True

instance (s : Forwarder ε ρ ι) (a : Act ε ι) : Decidable (NoSkip c cfg s a) := by
  cases a <;> unfold NoSkip <;> infer_instance

/-- Every batch in flight has spill rows, so a teardown writes nothing. -/
def Marked (s : Forwarder ε ρ ι) : Prop := ∀ b ∈ s.pending, b.2.spillHigh.isSome

variable {c cfg}

omit [DecidableEq ι] in
theorem teardown_of_marked {s : Forwarder ε ρ ι} (h : s.Marked) :
    teardown c s = { s with phase := .between, pending := [] } := by
  have hfold : ∀ (l : List (ι × PendingBatch ε)) (spill : Spill ρ),
      (∀ b ∈ l, b.2.spillHigh.isSome) →
      l.foldl (fun spill b => if b.2.spillHigh.isNone then (spill.push c b.2.events).2 else spill)
        spill = spill := by
    intro l
    induction l with
    | nil => intro _ _; rfl
    | cons b l ih =>
        intro spill hl
        have hb : b.2.spillHigh.isNone = false := by
          simpa [Option.isSome_iff_ne_none] using hl b List.mem_cons_self
        rw [List.foldl_cons, hb]
        exact ih spill fun x hx => hl x (List.mem_cons_of_mem _ hx)
  simp only [teardown, hfold s.pending s.spill h]

theorem step_ack {s u : Forwarder ε ρ ι} {batchId : ι} {accepted : ℕ}
    (h : step c cfg s (.ack batchId accepted) = some u) :
    u = s ∨ ∃ p, (batchId, p) ∈ s.pending ∧ batchId ∈ s.wire.map Prod.fst ∧
      u = acknowledge c s batchId p := by
  rw [step] at h
  by_cases honline : s.phase = .online
  swap
  · simp [honline] at h
  rw [if_pos honline] at h
  cases hfind : s.pending.find? fun b => b.1 = batchId with
  | none =>
      simp only [hfind, Option.some.injEq] at h
      exact Or.inl h.symm
  | some b =>
      simp only [hfind] at h
      split_ifs at h with hwire
      have hid : b.1 = batchId := by simpa using List.find?_some hfind
      have hmem : (batchId, b.2) ∈ s.pending := hid ▸ List.mem_of_find?_eq_some hfind
      exact Or.inr ⟨b.2, hmem, hwire, (Option.some.inj h).symm⟩

variable (c cfg) in
/-- The changes a step is made of; `guard` holds where an event is offered or a
flush with a free slot gathers. -/
inductive Move (guard : Forwarder ε ρ ι → Act ε ι → Prop) :
    Forwarder ε ρ ι → Forwarder ε ρ ι → Prop
  | offer {s : Forwarder ε ρ ι} {e : ε} : guard s (.offer e) →
      Move guard s { s with ring := s.ring.offer e, offered := s.offered ++ [e] }
  | clear {s : Forwarder ε ρ ι} (phase : Phase) :
      Move guard s { s with phase := phase, pending := [] }
  | gather {s : Forwarder ε ρ ι} {batchId : ι} {delivered sent : Bool} :
      guard s (.flush batchId delivered sent) → s.pending.length < cfg.maxInFlight →
      (TryFlush.gather c cfg s.ring s.spill).events = [] →
      Move guard s
        { s with
          ring := (TryFlush.gather c cfg s.ring s.spill).ring
          spill := (TryFlush.gather c cfg s.ring s.spill).spill }
  | oversize {s : Forwarder ε ρ ι} {batchId : ι} {delivered sent : Bool} {doc : ρ} {high : ℕ} :
      guard s (.flush batchId delivered sent) → s.pending.length < cfg.maxInFlight →
      (TryFlush.gather c cfg s.ring s.spill).events ≠ [] →
      c.frame batchId (TryFlush.gather c cfg s.ring s.spill).events = some doc →
      maxFrameBytes < c.len doc →
      (TryFlush.gather c cfg s.ring s.spill).spillHigh = some high →
      Move guard s
        { s with
          ring := (TryFlush.gather c cfg s.ring s.spill).ring
          spill := (TryFlush.gather c cfg s.ring s.spill).spill.ackThrough c high }
  | send {s : Forwarder ε ρ ι} {batchId : ι} {delivered sent : Bool} :
      guard s (.flush batchId delivered sent) → s.pending.length < cfg.maxInFlight →
      (TryFlush.gather c cfg s.ring s.spill).events ≠ [] →
      (TryFlush.tryFlush c cfg batchId s.pending.length s.ring s.spill).1 =
        .batch ⟨(TryFlush.gather c cfg s.ring s.spill).events,
          (TryFlush.gather c cfg s.ring s.spill).spillHigh⟩ →
      batchId ∉ s.wire.map Prod.fst → batchId ∉ s.pending.map Prod.fst →
      Move guard s
        { s with
          ring := (TryFlush.gather c cfg s.ring s.spill).ring
          spill := (TryFlush.gather c cfg s.ring s.spill).spill
          pending := s.pending ++ [(batchId, ⟨(TryFlush.gather c cfg s.ring s.spill).events,
            (TryFlush.gather c cfg s.ring s.spill).spillHigh⟩)]
          wire := if delivered then
              s.wire ++ [(batchId, (TryFlush.gather c cfg s.ring s.spill).events)]
            else s.wire }
  | ack {s : Forwarder ε ρ ι} {batchId : ι} {p : PendingBatch ε} : (batchId, p) ∈ s.pending →
      batchId ∈ s.wire.map Prod.fst → Move guard s (acknowledge c s batchId p)
  | persist {s : Forwarder ε ρ ι} : Move guard s (persistRing c s)

theorem step_moves {guard : Forwarder ε ρ ι → Act ε ι → Prop} {s u : Forwarder ε ρ ι}
    {a : Act ε ι} (hm : s.Marked) (hg : guard s a) (h : step c cfg s a = some u) :
    Relation.ReflTransGen (Move c cfg guard) s u := by
  cases a with
  | offer e =>
      cases h
      exact .single (.offer hg)
  | connect =>
      simp only [step] at h
      split_ifs at h
      cases h
      exact .single (.clear .online)
  | refused =>
      simp only [step] at h
      split_ifs at h
      cases h
      exact .single .persist
  | flush batchId delivered sent =>
      simp only [step] at h
      split_ifs at h with hpre
      cases h
      obtain ⟨-, hwire, hpending⟩ := hpre
      rcases TryFlush.tryFlush_cases c cfg batchId s.pending.length s.ring s.spill with
        ⟨-, hr⟩ | ⟨hfree, hr⟩
      · simp only [flush, hr]
        exact .refl
      rcases hr with ⟨hnil, hr⟩ | ⟨hne, doc, hdoc, hr⟩
      · simp only [flush, hr]
        exact .single (.gather hg hfree hnil)
      obtain ⟨high, hhigh⟩ := Option.isSome_iff_exists.mp (TryFlush.gather_mark_isSome c cfg hne)
      rcases hr with ⟨hlen, hr⟩ | ⟨-, hr⟩
      · simp only [flush, hr, hhigh, Option.elim_some]
        exact .single (.oversize hg hfree hne hdoc hlen hhigh)
      · have hsend := Move.send hg hfree hne (congrArg Prod.fst hr) hwire hpending
        simp only [flush, hr]
        cases sent with
        | true => exact .single hsend
        | false =>
            -- a failed write tears the session down at once
            simp only [Bool.false_eq_true, if_false]
            rw [teardown_of_marked]
            · exact .tail (.single hsend) (.clear .between)
            · intro b hb
              rcases List.mem_append.mp hb with hb | hb
              · exact hm b hb
              · rw [List.mem_singleton.mp hb]
                exact TryFlush.gather_mark_isSome c cfg hne
  | ack batchId accepted =>
      rcases step_ack h with rfl | ⟨p, hmem, hwire, rfl⟩
      · exact .refl
      · exact .single (.ack hmem hwire)
  | fail =>
      simp only [step] at h
      split_ifs at h
      cases h
      rw [teardown_of_marked hm]
      exact .single (.clear .between)
  | stop =>
      simp only [step] at h
      split_ifs at h
      · cases h
        rw [teardown_of_marked hm]
        exact .tail (.single (.clear .between)) .persist
      · cases h
        exact .single .persist

/-- Buffers are well formed, and every batch in flight has a mark. -/
structure Sound (s : Forwarder ε ρ ι) : Prop where
  below : s.spill.Below
  capacity : 0 < s.ring.capacity
  marked : s.Marked

omit [DecidableEq ι] in
theorem start_sound (table : OrderedTable ℕ ρ) : Sound (start c cfg table) where
  below := Spill.reopen_below c table cfg.spillMaxBytes
  capacity := by simp [start, Ring.new]
  marked := by simp [Marked, start]

omit [DecidableEq ι] in
theorem persistRing_spec {s : Forwarder ε ρ ι} (hs : Sound s) :
    (persistRing c s).ring.inner = [] ∧
    ∃ lost, Spill.Grown s.spill (s.spill.pushed c s.ring.inner) lost (persistRing c s).spill := by
  refine ⟨by simp [persistRing, Ring.drain], ?_⟩
  obtain ⟨lost, hgrown⟩ := Spill.push_grown c s.ring.inner hs.below
  refine ⟨lost, ?_⟩
  simp only [persistRing, Ring.drain, List.take_length]
  split_ifs with hempty
  · rw [List.isEmpty_iff.mp hempty, TryFlush.push_nil] at hgrown
    rw [List.isEmpty_iff.mp hempty]
    exact hgrown
  · exact hgrown

theorem Move.sound {guard : Forwarder ε ρ ι → Act ε ι → Prop} {s u : Forwarder ε ρ ι}
    (h : Move c cfg guard s u) (hs : Sound s) : Sound u := by
  cases h with
  | offer _ => exact ⟨hs.below, by simpa using hs.capacity, hs.marked⟩
  | clear phase => exact ⟨hs.below, hs.capacity, by simp [Marked]⟩
  | gather _ _ _ =>
      obtain ⟨lost, hg⟩ := TryFlush.gather_gathers c cfg s.ring hs.below
      exact ⟨hg.grown.below hs.below, hg.ringCapacity ▸ hs.capacity, hs.marked⟩
  | oversize _ _ _ _ _ _ =>
      obtain ⟨lost, hg⟩ := TryFlush.gather_gathers c cfg s.ring hs.below
      exact ⟨Spill.ackThrough_below c _ (hg.grown.below hs.below), hg.ringCapacity ▸ hs.capacity,
        hs.marked⟩
  | send _ _ hne _ _ _ =>
      obtain ⟨lost, hg⟩ := TryFlush.gather_gathers c cfg s.ring hs.below
      refine ⟨hg.grown.below hs.below, hg.ringCapacity ▸ hs.capacity, ?_⟩
      intro b hb
      rcases List.mem_append.mp hb with hb | hb
      · exact hs.marked b hb
      · rw [List.mem_singleton.mp hb]
        exact TryFlush.gather_mark_isSome c cfg hne
  | @ack batchId p hmem _ =>
      refine ⟨?_, hs.capacity, fun b hb => hs.marked b (List.mem_of_mem_filter hb)⟩
      obtain ⟨high, hhigh⟩ := Option.isSome_iff_exists.mp (hs.marked _ hmem)
      have hp : p.spillHigh = some high := hhigh
      simp only [acknowledge, hp, Option.elim_some]
      exact Spill.ackThrough_below c high hs.below
  | persist =>
      obtain ⟨-, lost, hgrown⟩ := persistRing_spec (c := c) hs
      exact ⟨hgrown.below hs.below, hs.capacity, hs.marked⟩

theorem run_invariant {guard : Forwarder ε ρ ι → Act ε ι → Prop} (I : Forwarder ε ρ ι → Prop)
    (keep : ∀ s u, Sound s → I s → Move c cfg guard s u → I u)
    {s u : Forwarder ε ρ ι} {l : List (Act ε ι)}
    (h : GuardedRun (step c cfg) guard s l u) (hs : Sound s) (hI : I s) : Sound u ∧ I u := by
  refine h.invariant (fun s => Sound s ∧ I s) ?_ ⟨hs, hI⟩
  rintro s a u ⟨hs, hI⟩ hg hstep
  have hmoves := step_moves hs.marked hg hstep
  clear hstep
  induction hmoves with
  | refl => exact ⟨hs, hI⟩
  | tail _ hmove ih => exact ⟨hmove.sound ih.1, keep _ _ ih.1 ih.2 hmove⟩

variable (c) in
/-- Every event in the ring serializes. -/
def Encodable (s : Forwarder ε ρ ι) : Prop := ∀ e ∈ s.ring.inner, (c.encode e).isSome

omit [DecidableEq ι] in
theorem start_encodable (table : OrderedTable ℕ ρ) :
    Encodable c (start c cfg table : Forwarder ε ρ ι) := by
  simp [Encodable, start, Ring.new]

variable {guard : Forwarder ε ρ ι → Act ε ι → Prop}

theorem Move.encodable (hguard : ∀ s a, guard s a → Serializes c cfg s a)
    {s u : Forwarder ε ρ ι} (h : Move c cfg guard s u) (hs : Sound s) (he : Encodable c s) :
    Encodable c u := by
  have hgather : ∀ e ∈ (TryFlush.gather c cfg s.ring s.spill).ring.inner, (c.encode e).isSome := by
    obtain ⟨lost, hg⟩ := TryFlush.gather_gathers c cfg s.ring hs.below
    exact fun e hm => he e (hg.ringSuffix.subset hm)
  cases h with
  | @offer e hoffer =>
      intro x hx
      have hmem : x ∈ s.ring.inner ++ [e] := by
        rw [← Ring.evicted_append_offer]
        exact List.mem_append_right _ hx
      rcases List.mem_append.mp hmem with hm | hm
      · exact he x hm
      · rw [List.mem_singleton.mp hm]
        exact hguard _ _ hoffer
  | clear _ => exact he
  | gather _ _ _ => exact hgather
  | oversize _ _ _ _ _ _ => exact hgather
  | send _ _ _ _ _ _ => exact hgather
  | ack _ _ => exact he
  | persist =>
      intro x hx
      rw [(persistRing_spec (c := c) hs).1] at hx
      cases hx

omit [DecidableEq ι] in
theorem not_oversize {s : Forwarder ε ρ ι} {batchId : ι} {delivered sent : Bool} {doc : ρ}
    (h : Serializes c cfg s (.flush batchId delivered sent))
    (hne : (TryFlush.gather c cfg s.ring s.spill).events ≠ [])
    (hdoc : c.frame batchId (TryFlush.gather c cfg s.ring s.spill).events = some doc) :
    ¬maxFrameBytes < c.len doc := by
  obtain ⟨doc', hdoc', hlen⟩ := h hne
  rw [Option.mem_def.mp hdoc', Option.some.injEq] at hdoc
  exact not_lt.mpr (hdoc ▸ hlen)

/-- What a move does to the buffers, apart from offers, oversize frames and acks. -/
structure Shifts (c : Codec ε ρ ι) (s u : Forwarder ε ρ ι) (fresh lost : List (ℕ × ρ)) : Prop where
  grown : Spill.Grown s.spill fresh lost u.spill
  taken : (Spill.rowUids c fresh ++ u.ring.inner.map c.uid).Sublist (s.ring.inner.map c.uid)
  complete : Encodable c s →
    Spill.rowUids c fresh ++ u.ring.inner.map c.uid = s.ring.inner.map c.uid
  ringDropped : u.ring.dropped = s.ring.dropped
  offered : u.offered = s.offered
  acked : u.acked = s.acked

omit [DecidableEq ι] in
theorem gather_shifts {s u : Forwarder ε ρ ι} (hs : Sound s)
    (hring : u.ring = (TryFlush.gather c cfg s.ring s.spill).ring)
    (hspill : u.spill = (TryFlush.gather c cfg s.ring s.spill).spill)
    (hoffered : u.offered = s.offered) (hacked : u.acked = s.acked) :
    ∃ fresh lost, Shifts c s u fresh lost := by
  obtain ⟨lost, hg⟩ := TryFlush.gather_gathers c cfg s.ring hs.below
  exact ⟨_, lost, hspill ▸ hg.grown, hring ▸ hg.taken, fun he => hring ▸ hg.complete he,
    hring ▸ hg.ringDropped, hoffered, hacked⟩

omit [DecidableEq ι] in
theorem persistRing_shifts {s : Forwarder ε ρ ι} (hs : Sound s) :
    ∃ fresh lost, Shifts c s (persistRing c s) fresh lost := by
  obtain ⟨hempty, lost, hgrown⟩ := persistRing_spec (c := c) hs
  refine ⟨_, lost, hgrown, ?_, fun he => ?_, rfl, rfl, rfl⟩
  · rw [hempty, List.map_nil, List.append_nil]
    exact Spill.pushed_uids_sublist c _ _
  · rw [hempty, List.map_nil, List.append_nil]
    exact Spill.pushed_uids c he

end Forwarder
end Aegis

import Aegis.EventRetention
import Aegis.Ingest

/-!
# The order of an agent's events

The pages of an agent's events are documented to come newest first, and the cap
of the index to evict the oldest. The index is kept in the order of arrival, so
both hold of every prefix of a sequence of writes exactly if the agent's events
arrived in the order of their times.
-/

namespace Aegis
variable {F : Type}

namespace Store

theorem capped_capped (keys : List CompositeKey) (key : CompositeKey) :
    capped (capped keys ++ [key]) = capped (keys ++ [key]) := by
  unfold capped
  generalize agentEventIndexLimit = limit
  have hover : keys.length - limit ≤ keys.length := Nat.sub_le _ _
  rw [← List.drop_append_of_le_length hover, List.drop_drop]
  congr 1
  simp only [List.length_drop, List.length_append, List.length_singleton]
  omega

theorem last_mem_capped (keys : List CompositeKey) (key : CompositeKey) :
    key ∈ capped (keys ++ [key]) := by
  have hle : (keys ++ [key]).length - agentEventIndexLimit ≤ keys.length := by
    rw [List.length_append, List.length_singleton, agentEventIndexLimit]
    omega
  rw [capped, List.drop_append_of_le_length hle]
  exact List.mem_append_right _ List.mem_cons_self

/-- Where the retained keys are in order and no evicted one is later, none of the earlier keys is
later than the last. -/
theorem le_last {keys : List CompositeKey} {last k : CompositeKey}
    (hsorted : (capped (keys ++ [last])).Pairwise fun k k' => keyTs k ≤ keyTs k')
    (hevicted : ∀ k ∈ (keys ++ [last]).take ((keys ++ [last]).length - agentEventIndexLimit),
      ∀ k' ∈ capped (keys ++ [last]), keyTs k ≤ keyTs k')
    (hk : k ∈ keys) : keyTs k ≤ keyTs last := by
  have hsplit : (keys ++ [last]).take ((keys ++ [last]).length - agentEventIndexLimit) ++
      capped (keys ++ [last]) = keys ++ [last] := List.take_append_drop _ _
  have hmem : k ∈ (keys ++ [last]).take ((keys ++ [last]).length - agentEventIndexLimit) ++
      capped (keys ++ [last]) := by
    rw [hsplit]
    exact List.mem_append_left _ hk
  rcases List.mem_append.mp hmem with hgone | hkept
  · exact hevicted k hgone last (last_mem_capped keys last)
  · have hle : (keys ++ [last]).length - agentEventIndexLimit ≤ keys.length := by
      rw [List.length_append, List.length_singleton, agentEventIndexLimit]
      omega
    rw [capped, List.drop_append_of_le_length hle] at hsorted hkept
    rcases List.mem_append.mp hkept with hkept | hkept
    · exact (List.pairwise_append.mp hsorted).2.2 k hkept last List.mem_cons_self
    · rw [List.mem_singleton.mp hkept]

variable [JsonFloat F]

/-- The store after a sequence of writes. -/
def writes (events : List (Event F)) : Store F :=
  events.foldl (fun s ev => (s.writeEvent ev).getD s) empty

/-- The events of an agent that the store took. -/
def storedOf (agentId : String) (events : List (Event F)) : List (Event F) :=
  events.filter fun ev => decide (ev.agentId = agentId) && ev.payload.serialize.isSome

def keysOfEvents (events : List (Event F)) : List CompositeKey :=
  events.map fun ev => compositeKey ev.tsNs ev.id

/-- What the listing promises of a store that took an agent's events: the pages together never
go up in time, and what was evicted is no later than what is retained. -/
def NewestFirst (agentId : String) (stored : List (Event F)) (s : Store F) : Prop :=
  (∀ pageSize pages, (s.indexOf agentId).length ≤ pages * pageSize →
    ((List.range pages).flatMap fun page => s.eventsForAgent agentId page pageSize).Pairwise
      fun r r' => r'.tsNs ≤ r.tsNs) ∧
  ∃ evicted, keysOfEvents stored = evicted ++ s.indexOf agentId ∧
    ∀ k ∈ evicted, ∀ k' ∈ s.indexOf agentId, keyTs k ≤ keyTs k'

theorem writes_snoc (events : List (Event F)) (ev : Event F) :
    writes (events ++ [ev]) = ((writes events).writeEvent ev).getD (writes events) := by
  rw [writes, List.foldl_append]
  rfl

theorem storedOf_snoc (agentId : String) (events : List (Event F)) (ev : Event F) :
    storedOf agentId (events ++ [ev]) = storedOf agentId events ++
      if ev.agentId = agentId ∧ ev.payload.serialize.isSome then [ev] else [] := by
  rw [storedOf, List.filter_append, storedOf]
  congr 1
  by_cases hagent : ev.agentId = agentId <;> cases hser : ev.payload.serialize.isSome <;>
    simp [List.filter, hagent, hser]

theorem writes_index (agentId : String) (events : List (Event F)) :
    (writes events).indexOf agentId = capped (keysOfEvents (storedOf agentId events)) ∧
      ∀ k ∈ keysOfEvents (storedOf agentId events), ((writes events).events.get? k).isSome := by
  induction events using List.reverseRecOn with
  | nil => exact ⟨List.drop_nil.symm, nofun⟩
  | append_singleton events ev ih =>
      obtain ⟨hindex, hrows⟩ := ih
      rw [writes_snoc, storedOf_snoc]
      cases hwrite : (writes events).writeEvent ev with
      | none =>
          have hser : ev.payload.serialize = none := Option.map_eq_none_iff.mp hwrite
          rw [hser, if_neg (by simp), List.append_nil]
          exact ⟨hindex, hrows⟩
      | some s =>
          have hser : ev.payload.serialize.isSome := by
            obtain ⟨payloadJson, hjson, -⟩ := Option.map_eq_some_iff.mp hwrite
            rw [hjson]
            rfl
          obtain ⟨⟨row, hrow, -⟩, hothers⟩ := events_writeEvent hwrite
          have hkept : ∀ k, ((writes events).events.get? k).isSome →
              (s.events.get? k).isSome := by
            intro k hk
            by_cases hkey : k = compositeKey ev.tsNs ev.id
            · rw [hkey, hrow]
              rfl
            · rwa [hothers k hkey]
          rw [Option.getD_some, indexOf_writeEvent hwrite, hindex]
          by_cases hagent : ev.agentId = agentId
          · have hsnoc : keysOfEvents (storedOf agentId events ++ [ev]) =
                keysOfEvents (storedOf agentId events) ++ [compositeKey ev.tsNs ev.id] :=
              List.map_append
            rw [if_pos hagent.symm, if_pos ⟨hagent, hser⟩, hsnoc]
            refine ⟨capped_capped _ _, ?_⟩
            intro k hk
            rcases List.mem_append.mp hk with hk | hk
            · exact hkept k (hrows k hk)
            · rw [List.mem_singleton.mp hk, hrow]
              rfl
          · rw [if_neg (Ne.symm hagent), if_neg (fun h => hagent h.1), List.append_nil]
            exact ⟨rfl, fun k hk => hkept k (hrows k hk)⟩

theorem newestFirst_iff (agentId : String) (events : List (Event F)) :
    NewestFirst agentId (storedOf agentId events) (writes events) ↔
      (capped (keysOfEvents (storedOf agentId events))).Pairwise
        (fun k k' => keyTs k ≤ keyTs k') ∧
      ∀ k ∈ (keysOfEvents (storedOf agentId events)).take
          ((keysOfEvents (storedOf agentId events)).length - agentEventIndexLimit),
        ∀ k' ∈ capped (keysOfEvents (storedOf agentId events)), keyTs k ≤ keyTs k' := by
  obtain ⟨hindex, hrows⟩ := writes_index agentId events
  obtain ⟨keys, hkeys⟩ : ∃ keys, keys = keysOfEvents (storedOf agentId events) := ⟨_, rfl⟩
  rw [NewestFirst, hindex, ← hkeys]
  rw [← hkeys] at hindex hrows
  apply and_congr
  · have hpages : ∀ pageSize pages, (capped keys).length ≤ pages * pageSize →
        (((List.range pages).flatMap fun page =>
          (writes events).eventsForAgent agentId page pageSize).Pairwise
            (fun r r' => r'.tsNs ≤ r.tsNs) ↔
          (capped keys).Pairwise fun k k' => keyTs k ≤ keyTs k') := by
      intro pageSize pages hall
      obtain ⟨rows, hrow⟩ : ∃ rows, rows =
        (capped keys).reverse.filterMap (writes events).events.get? := ⟨_, rfl⟩
      have hresolved : (rows.map fun r => compositeKey r.tsNs r.id) = (capped keys).reverse := by
        rw [hrow]
        apply resolved_keys
        intro k hk
        exact hrows k ((capped_sublist keys).subset (List.mem_reverse.mp hk))
      rw [pages_eq, hindex, Nat.sub_eq_zero_of_le hall, List.drop_zero, ← hrow]
      calc rows.Pairwise (fun r r' => r'.tsNs ≤ r.tsNs)
          ↔ (rows.map fun r => compositeKey r.tsNs r.id).Pairwise
              (fun k k' => keyTs k' ≤ keyTs k) := by
            rw [List.pairwise_map]
            exact Iff.rfl
        _ ↔ (capped keys).reverse.Pairwise (fun k k' => keyTs k' ≤ keyTs k) := by rw [hresolved]
        _ ↔ (capped keys).Pairwise fun k k' => keyTs k ≤ keyTs k' := List.pairwise_reverse
    constructor
    · intro h
      exact (hpages 1 (capped keys).length (Nat.mul_one _).ge).mp
        (h 1 (capped keys).length (Nat.mul_one _).ge)
    · intro h pageSize pages hall
      exact (hpages pageSize pages hall).mpr h
  · have hsplit : keys = keys.take (keys.length - agentEventIndexLimit) ++ capped keys :=
      (List.take_append_drop _ _).symm
    constructor
    · rintro ⟨evicted, heq, hevicted⟩
      rwa [← List.append_cancel_right (hsplit.symm.trans heq)] at hevicted
    · exact fun h => ⟨_, hsplit, h⟩

/-- Whatever the writes, the listing keeps its promise of one agent after every part of them
exactly if the agent's events came in the order of their times. -/
theorem newest_first_iff_in_order (agentId : String) (events : List (Event F)) :
    (∀ before, before <+: events →
      NewestFirst agentId (storedOf agentId before) (writes before)) ↔
    (storedOf agentId events).Pairwise fun ev ev' => ev.tsNs ≤ ev'.tsNs := by
  have hkeys : ∀ evs : List (Event F), (keysOfEvents evs).Pairwise
      (fun k k' => keyTs k ≤ keyTs k') ↔ evs.Pairwise fun ev ev' => ev.tsNs ≤ ev'.tsNs :=
    fun evs => List.pairwise_map
  constructor
  · intro h
    induction events using List.reverseRecOn with
    | nil => exact List.Pairwise.nil
    | append_singleton events ev ih =>
        have hbefore := ih fun before hpre => h before (hpre.trans (List.prefix_append _ _))
        have hlast := (newestFirst_iff agentId _).mp (h _ List.prefix_rfl)
        rw [storedOf_snoc] at hlast ⊢
        split_ifs at hlast ⊢ with hstored
        · obtain ⟨hsorted, hevicted⟩ := hlast
          obtain ⟨keys, hkeys⟩ : ∃ keys, keys = keysOfEvents (storedOf agentId events) := ⟨_, rfl⟩
          have hsnoc : keysOfEvents (storedOf agentId events ++ [ev]) =
              keys ++ [compositeKey ev.tsNs ev.id] := by
            rw [hkeys]
            exact List.map_append
          rw [hsnoc] at hsorted hevicted
          rw [List.pairwise_append]
          refine ⟨hbefore, List.pairwise_singleton _ _, ?_⟩
          intro ev' hev' _ hsame
          rw [List.mem_singleton.mp hsame]
          have hmem : compositeKey ev'.tsNs ev'.id ∈ keys := by
            rw [hkeys]
            exact List.mem_map_of_mem hev'
          exact le_last hsorted hevicted hmem
        · rwa [List.append_nil]
  · rintro hsorted before ⟨after, rfl⟩
    rw [newestFirst_iff]
    have hprefix : (storedOf agentId before).Pairwise fun ev ev' => ev.tsNs ≤ ev'.tsNs := by
      rw [storedOf, List.filter_append] at hsorted
      exact (List.pairwise_append.mp hsorted).1
    have hall := (hkeys _).mpr hprefix
    obtain ⟨keys, hname⟩ : ∃ keys, keys = keysOfEvents (storedOf agentId before) := ⟨_, rfl⟩
    rw [← hname] at hall ⊢
    rw [← List.take_append_drop (keys.length - agentEventIndexLimit) keys,
      List.pairwise_append] at hall
    exact ⟨hall.2.1, hall.2.2⟩

/-- Two heartbeats of the agent, the later one of the earlier time. -/
def delayedBeats : List (UInt64 × Event ℚ) :=
  [(10000000000, beatAt 1 10000000000), (11000000000, beatAt 2 9000000000)]

/-- Events that arrived out of order are listed out of order. -/
theorem delayedBeats_not_newest_first :
    ¬∀ (agentId : String) (arrivals : List (UInt64 × Event ℚ)),
      NewestFirst agentId (storedOf agentId (arrivals.map fun x => admitted agentId x.1 x.2))
        (writes (arrivals.map fun x => admitted agentId x.1 x.2)) := by
  intro h
  obtain ⟨hpages, -⟩ := h "agent-1" delayedBeats
  have hpage := hpages 2 1 (by decide +kernel)
  have htimes : ((List.range 1).flatMap fun page =>
      (writes (delayedBeats.map fun x => admitted "agent-1" x.1 x.2)).eventsForAgent
        "agent-1" page 2).map EventRow.tsNs = [9000000000, 10000000000] := by
    decide +kernel
  have hsorted : ([9000000000, 10000000000] : List UInt64).Pairwise fun t t' => t' ≤ t := by
    rw [← htimes, List.pairwise_map]
    exact hpage
  revert hsorted
  decide

end Store
end Aegis

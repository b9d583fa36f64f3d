import Aegis.Store

/-!
# The index of an agent's events

`write_event` appends a key to the index of the agent, and `events_for_agent`
pages through it from the newest end. While the index has room, each write is
one more entry, and the pages together list an id as often as the index has it.
-/

namespace Aegis
variable {F : Type}

/-- The pages of a list from its end, one after the other, are its end reversed. -/
theorem pages_from_end {α : Type} (l : List α) (size n : ℕ) :
    (List.range n).flatMap (fun page =>
      if l.length ≤ page * size then [] else
        ((l.take (l.length - page * size)).drop (l.length - page * size - size)).reverse) =
      (l.drop (l.length - n * size)).reverse := by
  induction n with
  | zero => simp
  | succ n ih =>
      rw [List.range_succ, List.flatMap_append, ih, List.flatMap_singleton]
      have hnext : l.length - (n + 1) * size = l.length - n * size - size := by
        rw [Nat.succ_mul, Nat.sub_add_eq]
      rw [hnext]
      split_ifs with hend
      · have hzero : l.length - n * size = 0 := Nat.sub_eq_zero_of_le hend
        simp [hzero]
      · -- the next page ends where the ones before it begin
        have hsplit : ∀ a b, b ≤ a → a ≤ l.length →
            l.drop b = (l.take a).drop b ++ l.drop a := by
          intro a b hba hal
          have hlen : b ≤ (l.take a).length := by
            rw [List.length_take]
            omega
          rw [← List.drop_append_of_le_length hlen, List.take_append_drop]
        rw [hsplit (l.length - n * size) (l.length - n * size - size) (Nat.sub_le _ _)
          (Nat.sub_le _ _)]
        rw [List.reverse_append]

namespace Store

/-- The keys of an agent's events, oldest first. -/
def indexOf (s : Store F) (agentId : String) : List CompositeKey :=
  (s.eventsByAgent.get? agentId).getD []

/-- How often an id is in an agent's index. -/
def entries (s : Store F) (agentId : String) (id : Uuid) : ℕ :=
  (s.indexOf agentId).countP fun k => (ofLex k).2 = id

/-- How often the first pages of an agent's events list an id. -/
def listed (s : Store F) (agentId : String) (pageSize pages : ℕ) (id : Uuid) : ℕ :=
  ((List.range pages).flatMap fun page => s.eventsForAgent agentId page pageSize).countP
    fun r => r.id = id

/-- Every index entry has a row. -/
def Indexed (s : Store F) : Prop :=
  ∀ agentId, ∀ k ∈ s.indexOf agentId, (s.events.get? k).isSome

theorem pages_eq (s : Store F) (agentId : String) (pageSize pages : ℕ) :
    ((List.range pages).flatMap fun page => s.eventsForAgent agentId page pageSize) =
      ((s.indexOf agentId).drop
        ((s.indexOf agentId).length - pages * pageSize)).reverse.filterMap s.events.get? := by
  rw [← pages_from_end, List.filterMap_flatMap]
  apply List.flatMap_congr
  intro page _
  simp only [eventsForAgent, indexOf]
  by_cases hend : ((s.eventsByAgent.get? agentId).getD []).length ≤ page * pageSize
  · simp only [hend, if_true, List.filterMap_nil]
  · simp only [hend, if_false]

theorem countP_resolved {s : Store F} (keys : List CompositeKey)
    (h : ∀ k ∈ keys, (s.events.get? k).isSome) (id : Uuid) :
    ((keys.filterMap s.events.get?).countP fun r => r.id = id) =
      keys.countP fun k => (ofLex k).2 = id := by
  induction keys with
  | nil => rfl
  | cons k keys ih =>
      obtain ⟨hk, hkeys⟩ := List.forall_mem_cons.mp h
      obtain ⟨row, hrow⟩ := Option.isSome_iff_exists.mp hk
      have hid : row.id = (ofLex k).2 := by
        have hkey : k = compositeKey row.tsNs row.id :=
          s.keyed _ (OrderedTable.get?_eq_some_iff.mp hrow)
        rw [hkey]
        rfl
      rw [List.filterMap_cons_some hrow, List.countP_cons, List.countP_cons, ih hkeys, hid]

theorem listed_eq_entries {s : Store F} (h : s.Indexed) {agentId : String} {pageSize pages : ℕ}
    (hall : (s.indexOf agentId).length ≤ pages * pageSize) (id : Uuid) :
    s.listed agentId pageSize pages id = s.entries agentId id := by
  rw [listed, pages_eq, Nat.sub_eq_zero_of_le hall, List.drop_zero, countP_resolved, entries]
  · exact List.countP_reverse
  · intro k hk
    exact h agentId k (List.mem_reverse.mp hk)

theorem indexOf_congr {s t : Store F} (h : t.eventsByAgent = s.eventsByAgent) (agentId : String) :
    t.indexOf agentId = s.indexOf agentId := by
  rw [indexOf, indexOf, h]

theorem entries_congr {s t : Store F} (h : t.eventsByAgent = s.eventsByAgent) (agentId : String)
    (id : Uuid) : t.entries agentId id = s.entries agentId id := by
  rw [entries, entries, indexOf_congr h]

theorem Indexed.congr {s t : Store F} (h : s.Indexed) (hi : t.eventsByAgent = s.eventsByAgent)
    (he : t.events = s.events) : t.Indexed := by
  intro agentId k hk
  rw [indexOf_congr hi] at hk
  rw [he]
  exact h agentId k hk

theorem drop_of_room {α : Type} {l : List α} {x : α} {limit : ℕ} (h : l.length < limit) :
    (l ++ [x]).drop ((l ++ [x]).length - limit) = l ++ [x] := by
  have hzero : (l ++ [x]).length - limit = 0 := by
    rw [List.length_append, List.length_singleton]
    omega
  rw [hzero, List.drop_zero]

variable [JsonFloat F]

theorem writeEvent_eventsByAgent {s s' : Store F} {ev : Event F} (h : s.writeEvent ev = some s') :
    s'.eventsByAgent = s.eventsByAgent.insert ev.agentId
      ((s.indexOf ev.agentId ++ [compositeKey ev.tsNs ev.id]).drop
        ((s.indexOf ev.agentId ++ [compositeKey ev.tsNs ev.id]).length -
          agentEventIndexLimit)) := by
  obtain ⟨payloadJson, -, rfl⟩ := Option.map_eq_some_iff.mp h
  rfl

theorem writeEvent_indexOf {s s' : Store F} {ev : Event F} (h : s.writeEvent ev = some s')
    (hroom : (s.indexOf ev.agentId).length < agentEventIndexLimit) (agentId : String) :
    s'.indexOf agentId = s.indexOf agentId ++
      if agentId = ev.agentId then [compositeKey ev.tsNs ev.id] else [] := by
  rw [indexOf, writeEvent_eventsByAgent h, drop_of_room hroom]
  split_ifs with hagent
  · rw [hagent, OrderedTable.get?_insert_self, Option.getD_some]
  · rw [OrderedTable.get?_insert_ne _ _ hagent, indexOf, List.append_nil]

theorem writeEvent_entries {s s' : Store F} {ev : Event F} (h : s.writeEvent ev = some s')
    (hroom : (s.indexOf ev.agentId).length < agentEventIndexLimit) (agentId : String) (id : Uuid) :
    s'.entries agentId id =
      s.entries agentId id + if agentId = ev.agentId ∧ id = ev.id then 1 else 0 := by
  rw [entries, writeEvent_indexOf h hroom, List.countP_append, entries]
  congr 1
  by_cases hagent : agentId = ev.agentId
  · by_cases hid : id = ev.id
    · simp [hagent, hid, compositeKey]
    · simp [hagent, hid, compositeKey, Ne.symm hid]
  · simp [hagent]

theorem Indexed.writeEvent {s s' : Store F} {ev : Event F} (h : s.Indexed)
    (hw : s.writeEvent ev = some s')
    (hroom : (s.indexOf ev.agentId).length < agentEventIndexLimit) : s'.Indexed := by
  intro agentId k hk
  rw [writeEvent_indexOf hw hroom] at hk
  obtain ⟨payloadJson, -, rfl⟩ := Option.map_eq_some_iff.mp hw
  by_cases hkey : k = compositeKey ev.tsNs ev.id
  · rw [hkey, OrderedTable.get?_insert_self]
    rfl
  · rw [OrderedTable.get?_insert_ne _ _ hkey]
    rcases List.mem_append.mp hk with hk | hk
    · exact h agentId k hk
    · split_ifs at hk
      · exact (hkey (List.mem_singleton.mp hk)).elim
      · cases hk

end Store
end Aegis

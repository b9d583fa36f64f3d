import Aegis.EventIndex
import Aegis.GuardedRun

/-!
# Retention of the event log

`Store::compact` prunes the log by a range of keys and each agent's index by the
decoded time of its keys, and `write_event` caps the index. The rows an index
points to are there after any run of the two, and its pages list them from the
newest entry to the oldest.
-/

namespace Aegis
variable {F : Type}

theorem not_lt_of_forall₂_le {l m : List Char} (h : List.Forall₂ (· ≤ ·) m l) : ¬l < m := by
  induction h with
  | nil => exact lt_irrefl _
  | @cons a b m l hab _ ih =>
      rw [List.cons_lt_cons_iff]
      rintro (hlt | ⟨-, hlt⟩)
      · exact absurd hlt (not_lt.mpr hab)
      · exact ih hlt

def nilChar (i : ℕ) : Char := if i = 8 ∨ i = 13 ∨ i = 18 ∨ i = 23 then '-' else '0'

theorem nil_chars : Uuid.nil.text.toList = (List.range 36).map nilChar := by decide +kernel

theorem Uuid.nil_le (u : Uuid) : Uuid.nil ≤ u := by
  have hshape := u.hyphenated
  rw [isHyphenated, Bool.and_eq_true, List.all_eq_true] at hshape
  obtain ⟨hlen, hchars⟩ := hshape
  have hlen : u.text.toList.length = 36 := by simpa using hlen
  rw [← not_lt]
  intro hlt
  have htext : u.text.toList < Uuid.nil.text.toList := by
    apply String.lt_iff_toList_lt.mp
    exact hlt
  apply not_lt_of_forall₂_le _ htext
  rw [nil_chars, List.forall₂_iff_get]
  refine ⟨by simp [hlen], ?_⟩
  intro i hi hi'
  have hmem : (u.text.toList[i], i) ∈ u.text.toList.zipIdx := by
    rw [List.mem_zipIdx_iff_getElem?]
    exact List.getElem?_eq_getElem hi'
  have hchar := hchars _ hmem
  simp only [List.get_eq_getElem, List.getElem_map, List.getElem_range, nilChar]
  dsimp only at hchar
  split_ifs with hhyphen
  · rw [if_pos hhyphen] at hchar
    exact (of_decide_eq_true hchar).ge
  · rw [if_neg hhyphen] at hchar
    simp only [Bool.or_eq_true, Bool.and_eq_true, decide_eq_true_eq] at hchar
    rcases hchar with ⟨hlow, -⟩ | ⟨hlow, -⟩
    · exact hlow
    · exact le_trans (by decide) hlow

/-- The time of a key. -/
def keyTs (k : CompositeKey) : ℕ := (ofLex k).1

theorem lt_cutoff_iff {k : CompositeKey} {cutoff : ℕ} :
    k < toLex (cutoff, Uuid.nil) ↔ keyTs k < cutoff := by
  rw [Prod.Lex.lt_iff]
  constructor
  · rintro (hlt | ⟨-, hlt⟩)
    · exact hlt
    · exact absurd hlt (not_lt.mpr (Uuid.nil_le _))
  · exact Or.inl

namespace Store

/-- The newest keys, as many as an index may hold. -/
def capped (keys : List CompositeKey) : List CompositeKey :=
  keys.drop (keys.length - agentEventIndexLimit)

/-- The new index of an agent that loses keys to the cutoff. -/
def rewrite (cutoff : ℕ) (r : String × List CompositeKey) :
    Option (String × List CompositeKey) :=
  let kept := r.2.filter fun k => cutoff ≤ keyTs k
  if kept.length ≠ r.2.length then some (r.1, kept) else none

def applyRewrite (index : OrderedTable String (List CompositeKey))
    (r : String × List CompositeKey) : OrderedTable String (List CompositeKey) :=
  if r.2.isEmpty then index.erase r.1 else index.insert r.1 r.2

def compactIndex (index : OrderedTable String (List CompositeKey)) (cutoff : ℕ) :
    OrderedTable String (List CompositeKey) :=
  (index.rows.filterMap (rewrite cutoff)).foldl applyRewrite index

/-- Drops what is older than the retention; nothing while the clock is below it. -/
def compact (s : Store F) (now retentionNs : UInt64) : Store F :=
  if retentionNs ≤ now then
    let cutoff := now.toNat - retentionNs.toNat
    { s with
      events := s.events.restrict fun k => ¬k < toLex (cutoff, Uuid.nil)
      alerts := s.alerts.restrict fun k => ¬k < toLex (cutoff, Uuid.nil)
      eventsByAgent := compactIndex s.eventsByAgent cutoff
      keyed := fun r hr => s.keyed r (List.mem_of_mem_filter hr) }
  else s

/-- The index of an agent, empty where it has none. -/
def keysOf (index : OrderedTable String (List CompositeKey)) (agentId : String) :
    List CompositeKey :=
  (index.get? agentId).getD []

theorem keysOf_applyRewrite (index : OrderedTable String (List CompositeKey))
    (r : String × List CompositeKey) (agentId : String) :
    keysOf (applyRewrite index r) agentId =
      if agentId = r.1 then r.2 else keysOf index agentId := by
  unfold applyRewrite keysOf
  split_ifs with hempty hagent hagent
  · rw [hagent, OrderedTable.get?_erase_self, Option.getD_none, List.isEmpty_iff.mp hempty]
  · rw [OrderedTable.get?_erase_ne _ hagent]
  · rw [hagent, OrderedTable.get?_insert_self, Option.getD_some]
  · rw [OrderedTable.get?_insert_ne _ _ hagent]

/-- Rewrites of different agents' indexes do not disturb each other. -/
theorem keysOf_rewrites {rewrites : List (String × List CompositeKey)}
    (hdistinct : rewrites.Pairwise fun r r' => r.1 ≠ r'.1)
    (index : OrderedTable String (List CompositeKey)) (agentId : String) :
    (∀ kept, (agentId, kept) ∈ rewrites →
      keysOf (rewrites.foldl applyRewrite index) agentId = kept) ∧
    ((∀ r ∈ rewrites, r.1 ≠ agentId) →
      keysOf (rewrites.foldl applyRewrite index) agentId = keysOf index agentId) := by
  induction rewrites generalizing index with
  | nil => exact ⟨nofun, fun _ => rfl⟩
  | cons r rest ih =>
      obtain ⟨hr, hrest⟩ := List.pairwise_cons.mp hdistinct
      obtain ⟨hmem, hnone⟩ := ih hrest (applyRewrite index r)
      rw [List.foldl_cons]
      constructor
      · intro kept hkept
        rcases List.mem_cons.mp hkept with rfl | hkept
        · rw [hnone fun r' hr' => (hr r' hr').symm, keysOf_applyRewrite, if_pos rfl]
        · exact hmem kept hkept
      · intro hne
        rw [hnone fun r' hr' => hne r' (List.mem_cons_of_mem _ hr'), keysOf_applyRewrite,
          if_neg (hne r List.mem_cons_self).symm]

theorem rewrite_fst {cutoff : ℕ} {r r' : String × List CompositeKey}
    (h : rewrite cutoff r = some r') : r'.1 = r.1 := by
  unfold rewrite at h
  dsimp only at h
  split_ifs at h
  cases h
  rfl

theorem keysOf_compactIndex (index : OrderedTable String (List CompositeKey)) (cutoff : ℕ)
    (agentId : String) : keysOf (compactIndex index cutoff) agentId =
      (keysOf index agentId).filter fun k => cutoff ≤ keyTs k := by
  have hdistinct : (index.rows.filterMap (rewrite cutoff)).Pairwise fun r r' => r.1 ≠ r'.1 := by
    rw [List.pairwise_filterMap]
    apply index.sorted.imp
    intro r r' hlt a ha b hb
    rw [rewrite_fst ha, rewrite_fst hb]
    exact hlt.ne
  obtain ⟨hmem, hnone⟩ := keysOf_rewrites hdistinct index agentId
  have hsource : ∀ r' ∈ index.rows.filterMap (rewrite cutoff), r'.1 = agentId →
      ∃ keys, index.get? agentId = some keys ∧ rewrite cutoff (agentId, keys) = some r' := by
    intro r' hr' hagent
    obtain ⟨r, hr, hrewrite⟩ := List.mem_filterMap.mp hr'
    rw [rewrite_fst hrewrite] at hagent
    subst hagent
    exact ⟨r.2, OrderedTable.get?_eq_some_iff.mpr hr, hrewrite⟩
  cases hget : index.get? agentId with
  | none =>
      have hkeys : keysOf index agentId = [] := by rw [keysOf, hget, Option.getD_none]
      rw [compactIndex, hnone, hkeys, List.filter_nil]
      intro r' hr' hagent
      obtain ⟨keys, hkeys, -⟩ := hsource r' hr' hagent
      rw [hget] at hkeys
      cases hkeys
  | some keys =>
      have hkeys : keysOf index agentId = keys := by rw [keysOf, hget, Option.getD_some]
      rw [hkeys]
      by_cases hlen : (keys.filter fun k => decide (cutoff ≤ keyTs k)).length = keys.length
      · have hall : (keys.filter fun k => decide (cutoff ≤ keyTs k)) = keys :=
          List.filter_sublist.eq_of_length hlen
        rw [compactIndex, hnone, hkeys, hall]
        intro r' hr' hagent
        obtain ⟨keys', hkeys', hrewrite⟩ := hsource r' hr' hagent
        rw [hget, Option.some.injEq] at hkeys'
        simp [rewrite, ← hkeys', hlen] at hrewrite
      · apply hmem
        rw [List.mem_filterMap]
        refine ⟨(agentId, keys), OrderedTable.get?_eq_some_iff.mp hget, ?_⟩
        simp [rewrite, hlen]

theorem indexOf_compact {s : Store F} {now retentionNs : UInt64} (h : retentionNs ≤ now)
    (agentId : String) : (s.compact now retentionNs).indexOf agentId =
      (s.indexOf agentId).filter fun k => now.toNat - retentionNs.toNat ≤ keyTs k := by
  rw [compact, if_pos h]
  exact keysOf_compactIndex _ _ _

theorem events_compact {s : Store F} {now retentionNs : UInt64} (h : retentionNs ≤ now)
    (k : CompositeKey) : (s.compact now retentionNs).events.get? k =
      if now.toNat - retentionNs.toNat ≤ keyTs k then s.events.get? k else none := by
  rw [compact, if_pos h]
  simp only [OrderedTable.get?_restrict, lt_cutoff_iff, not_lt, decide_eq_true_eq]

variable [JsonFloat F]

theorem indexOf_writeEvent {s s' : Store F} {ev : Event F} (h : s.writeEvent ev = some s')
    (agentId : String) : s'.indexOf agentId =
      if agentId = ev.agentId then capped (s.indexOf agentId ++ [compositeKey ev.tsNs ev.id])
      else s.indexOf agentId := by
  rw [indexOf, writeEvent_eventsByAgent h]
  split_ifs with hagent
  · rw [hagent, OrderedTable.get?_insert_self, Option.getD_some, capped]
  · rw [OrderedTable.get?_insert_ne _ _ hagent, indexOf]

theorem events_writeEvent {s s' : Store F} {ev : Event F} (h : s.writeEvent ev = some s') :
    (∃ row, s'.events.get? (compositeKey ev.tsNs ev.id) = some row ∧
      row.agentId = ev.agentId) ∧
    ∀ k, k ≠ compositeKey ev.tsNs ev.id → s'.events.get? k = s.events.get? k := by
  obtain ⟨payloadJson, -, rfl⟩ := Option.map_eq_some_iff.mp h
  exact ⟨⟨eventRow ev payloadJson, OrderedTable.get?_insert_self _ _ _, rfl⟩,
    fun k hk => OrderedTable.get?_insert_ne _ _ hk⟩

inductive LogAct (F : Type) where
  | write (ev : Event F)
  | compact (now retentionNs : UInt64)

/-- A write that fails changes nothing. -/
def logStep (s : Store F) : LogAct F → Option (Store F)
  | .write ev => some ((s.writeEvent ev).getD s)
  | .compact now retentionNs => some (s.compact now retentionNs)

omit [JsonFloat F] in
def LogAct.id? : LogAct F → Option Uuid
  | .write ev => some ev.id
  | .compact _ _ => none

/-- The key that a step inserts for an agent. -/
def LogAct.inserted (agentId : String) : LogAct F → Option CompositeKey
  | .write ev => if agentId = ev.agentId ∧ ev.payload.serialize.isSome then
      some (compositeKey ev.tsNs ev.id) else none
  | .compact _ _ => none

/-- What an agent's index should be after one more step: the newest keys in the order of their
insertion, without those that retention dropped. -/
def retain (agentId : String) (keys : List CompositeKey) : LogAct F → List CompositeKey
  | .compact now retentionNs => if retentionNs ≤ now then
      keys.filter fun k => now.toNat - retentionNs.toNat ≤ keyTs k else keys
  | a => match a.inserted agentId with
    | some key => capped (keys ++ [key])
    | none => keys

omit [JsonFloat F] in
theorem capped_sublist (keys : List CompositeKey) : (capped keys).Sublist keys :=
  List.drop_sublist _ _

omit [JsonFloat F] in
theorem capped_length (keys : List CompositeKey) : (capped keys).length ≤ agentEventIndexLimit := by
  rw [capped, List.length_drop]
  omega

theorem retained_sublist (agentId : String) (l : List (LogAct F)) :
    (l.foldl (retain agentId) []).Sublist (l.filterMap (LogAct.inserted agentId)) := by
  induction l using List.reverseRecOn with
  | nil => exact List.Sublist.slnil
  | append_singleton l a ih =>
      rw [List.foldl_append, List.filterMap_append, List.foldl_cons, List.foldl_nil]
      cases a with
      | compact now retentionNs =>
          have hnone : [LogAct.compact now retentionNs].filterMap
              (LogAct.inserted (F := F) agentId) = [] := rfl
          rw [hnone, List.append_nil, retain]
          split_ifs
          · exact List.filter_sublist.trans ih
          · exact ih
      | write ev =>
          cases hkey : (LogAct.write ev).inserted agentId with
          | none =>
              simp only [retain, hkey, List.filterMap_cons, List.filterMap_nil, List.append_nil]
              exact ih
          | some key =>
              simp only [retain, hkey, List.filterMap_cons, List.filterMap_nil]
              exact (capped_sublist _).trans (ih.append_right _)

/-- The index follows its specification, and its keys lead to the agent's rows. -/
structure Kept (l : List (LogAct F)) (s : Store F) : Prop where
  index : ∀ agentId, s.indexOf agentId = l.foldl (retain agentId) []
  resolves : ∀ agentId, ∀ k ∈ s.indexOf agentId,
    ∃ row, s.events.get? k = some row ∧ row.agentId = agentId
  bounded : ∀ agentId, (s.indexOf agentId).length ≤ agentEventIndexLimit
  known : ∀ k, (s.events.get? k).isSome → (ofLex k).2 ∈ l.filterMap LogAct.id?

theorem empty_kept : Kept [] (empty : Store F) where
  index := fun _ => rfl
  resolves := nofun
  bounded := fun _ => Nat.zero_le _
  known := nofun

theorem Kept.compact {l : List (LogAct F)} {s : Store F} (h : Kept l s) (now retentionNs : UInt64) :
    Kept (l ++ [.compact now retentionNs]) (s.compact now retentionNs) := by
  by_cases hclock : retentionNs ≤ now
  · constructor
    · intro agentId
      rw [indexOf_compact hclock, h.index, List.foldl_append, List.foldl_cons, List.foldl_nil,
        retain, if_pos hclock]
    · intro agentId k hk
      rw [indexOf_compact hclock] at hk
      obtain ⟨hmem, hlate⟩ := List.mem_filter.mp hk
      rw [events_compact hclock, if_pos (of_decide_eq_true hlate)]
      exact h.resolves agentId k hmem
    · intro agentId
      rw [indexOf_compact hclock]
      exact (List.length_filter_le _ _).trans (h.bounded agentId)
    · intro k hk
      rw [events_compact hclock] at hk
      split_ifs at hk
      · rw [List.filterMap_append]
        exact List.mem_append_left _ (h.known k hk)
      · cases hk
  · have hsame : s.compact now retentionNs = s := by rw [Store.compact, if_neg hclock]
    rw [hsame]
    refine ⟨?_, h.resolves, h.bounded, ?_⟩
    · intro agentId
      rw [h.index, List.foldl_append, List.foldl_cons, List.foldl_nil, retain, if_neg hclock]
    · intro k hk
      rw [List.filterMap_append]
      exact List.mem_append_left _ (h.known k hk)

theorem Kept.write {l : List (LogAct F)} {s : Store F} (h : Kept l s) {ev : Event F}
    (hfresh : ev.id ∉ l.filterMap LogAct.id?) :
    Kept (l ++ [.write ev]) ((s.writeEvent ev).getD s) := by
  have hknown : ∀ k, (s.events.get? k).isSome →
      (ofLex k).2 ∈ (l ++ [LogAct.write ev]).filterMap LogAct.id? := by
    intro k hk
    rw [List.filterMap_append]
    exact List.mem_append_left _ (h.known k hk)
  cases hwrite : s.writeEvent ev with
  | none =>
      have hser : ev.payload.serialize.isSome = false := by
        have hnone := Option.map_eq_none_iff.mp hwrite
        rw [hnone]
        rfl
      refine ⟨?_, h.resolves, h.bounded, hknown⟩
      intro agentId
      rw [Option.getD_none, h.index, List.foldl_append, List.foldl_cons, List.foldl_nil]
      simp [retain, LogAct.inserted, hser]
  | some s' =>
      have hser : ev.payload.serialize.isSome = true := by
        obtain ⟨payloadJson, hjson, -⟩ := Option.map_eq_some_iff.mp hwrite
        rw [hjson]
        rfl
      obtain ⟨⟨row, hrow, hagent⟩, hothers⟩ := events_writeEvent hwrite
      -- an indexed key resolves, so its id was written before and is not the new one
      have hne : ∀ agentId, ∀ k ∈ s.indexOf agentId, k ≠ compositeKey ev.tsNs ev.id := by
        rintro agentId k hk rfl
        obtain ⟨old, hold, -⟩ := h.resolves agentId _ hk
        exact hfresh (h.known (compositeKey ev.tsNs ev.id) (by rw [hold]; rfl))
      have hmem : ∀ agentId, ∀ k ∈ s'.indexOf agentId, k ∈ s.indexOf agentId ∨
          agentId = ev.agentId ∧ k = compositeKey ev.tsNs ev.id := by
        intro agentId k hk
        rw [indexOf_writeEvent hwrite] at hk
        split_ifs at hk with hsame
        · rcases List.mem_append.mp ((capped_sublist _).subset hk) with hk | hk
          · exact Or.inl hk
          · exact Or.inr ⟨hsame, List.mem_singleton.mp hk⟩
        · exact Or.inl hk
      rw [Option.getD_some]
      constructor
      · intro agentId
        rw [indexOf_writeEvent hwrite, h.index, List.foldl_append, List.foldl_cons,
          List.foldl_nil]
        by_cases hsame : agentId = ev.agentId <;> simp [retain, LogAct.inserted, hser, hsame]
      · intro agentId k hk
        rcases hmem agentId k hk with hk | ⟨rfl, rfl⟩
        · rw [hothers k (hne agentId k hk)]
          exact h.resolves agentId k hk
        · exact ⟨row, hrow, hagent⟩
      · intro agentId
        rw [indexOf_writeEvent hwrite]
        split_ifs
        · exact capped_length _
        · exact h.bounded agentId
      · intro k hk
        by_cases hkey : k = compositeKey ev.tsNs ev.id
        · rw [hkey, List.filterMap_append]
          exact List.mem_append_right _ List.mem_cons_self
        · rw [hothers k hkey] at hk
          exact hknown k hk

theorem run_kept {s u : Store F} {l : List (LogAct F)} (h : FreeRun logStep s l u)
    {before : List (LogAct F)} (hs : Kept before s)
    (hdistinct : ((before ++ l).filterMap LogAct.id?).Nodup) : Kept (before ++ l) u := by
  induction h generalizing before with
  | nil s => rwa [List.append_nil]
  | @cons s u v a l _ ht _ ih =>
      have hassoc : before ++ a :: l = (before ++ [a]) ++ l := by simp
      rw [hassoc] at hdistinct ⊢
      apply ih _ hdistinct
      cases a with
      | compact now retentionNs =>
          cases ht
          exact hs.compact now retentionNs
      | write ev =>
          cases ht
          apply hs.write
          rw [List.append_assoc, List.filterMap_append] at hdistinct
          intro hold
          exact List.disjoint_of_nodup_append hdistinct hold List.mem_cons_self

theorem retained_ids_sublist (agentId : String) (l : List (LogAct F)) :
    ((l.foldl (retain agentId) []).map fun k => (ofLex k).2).Sublist (l.filterMap LogAct.id?) := by
  apply ((retained_sublist agentId l).map _).trans
  rw [List.map_filterMap]
  induction l with
  | nil => exact List.Sublist.slnil
  | cons a l ih =>
      cases a with
      | compact now retentionNs => exact ih
      | write ev =>
          rw [List.filterMap_cons_some (f := LogAct.id?) rfl, List.filterMap_cons]
          by_cases hkey : agentId = ev.agentId ∧ ev.payload.serialize.isSome
          · simp only [LogAct.inserted, if_pos hkey, Option.map_some]
            exact ih.cons_cons _
          · simp only [LogAct.inserted, if_neg hkey, Option.map_none]
            exact ih.cons _

omit [JsonFloat F] in
theorem resolved_keys {s : Store F} {keys : List CompositeKey}
    (h : ∀ k ∈ keys, (s.events.get? k).isSome) :
    ((keys.filterMap s.events.get?).map fun r => compositeKey r.tsNs r.id) = keys := by
  induction keys with
  | nil => rfl
  | cons k keys ih =>
      obtain ⟨hk, hkeys⟩ := List.forall_mem_cons.mp h
      obtain ⟨row, hrow⟩ := Option.isSome_iff_exists.mp hk
      have hkey : k = compositeKey row.tsNs row.id :=
        s.keyed _ (OrderedTable.get?_eq_some_iff.mp hrow)
      rw [List.filterMap_cons_some hrow, List.map_cons, ih hkeys, ← hkey]

omit [JsonFloat F] in
theorem page_length {s : Store F} {agentId : String}
    (h : ∀ k ∈ s.indexOf agentId, (s.events.get? k).isSome) (page pageSize : ℕ) :
    (s.eventsForAgent agentId page pageSize).length =
      min pageSize ((s.indexOf agentId).length - page * pageSize) := by
  by_cases hend : (s.indexOf agentId).length ≤ page * pageSize
  · have hpage : s.eventsForAgent agentId page pageSize = [] := by
      unfold indexOf at hend
      simp only [eventsForAgent, hend, if_true]
    rw [hpage, List.length_nil, Nat.sub_eq_zero_of_le hend, Nat.min_zero]
  · have hpage : s.eventsForAgent agentId page pageSize =
        (((s.indexOf agentId).take ((s.indexOf agentId).length - page * pageSize)).drop
          ((s.indexOf agentId).length - page * pageSize - pageSize)).reverse.filterMap
            s.events.get? := by
      unfold indexOf at hend ⊢
      simp only [eventsForAgent, hend, if_false]
    rw [hpage, ← List.length_map (f := fun r => compositeKey r.tsNs r.id), resolved_keys]
    · rw [List.length_reverse, List.length_drop, List.length_take]
      omega
    · intro k hk
      exact h k (List.mem_of_mem_take (List.mem_of_mem_drop (List.mem_reverse.mp hk)))

omit [JsonFloat F] in
/-- Compaction drops an indexed key exactly when it drops the row. -/
theorem compact_agrees {s : Store F} {agentId : String} {k : CompositeKey}
    (hk : k ∈ s.indexOf agentId) (hrow : (s.events.get? k).isSome) (now retentionNs : UInt64) :
    k ∉ (s.compact now retentionNs).indexOf agentId ↔
      (s.compact now retentionNs).events.get? k = none := by
  by_cases hclock : retentionNs ≤ now
  · rw [indexOf_compact hclock, events_compact hclock, List.mem_filter]
    split_ifs with hlate
    · simp [hk, hlate, Option.isSome_iff_ne_none.mp hrow]
    · simp [hlate]
  · rw [compact, if_neg hclock]
    simp [hk, Option.isSome_iff_ne_none.mp hrow]

/-- After any run of writes of distinct events and compactions, an agent's pages list its
retained events once each, from the newest entry to the oldest, in full pages. -/
theorem pages_list_retained {l : List (LogAct F)} {s : Store F} (h : FreeRun logStep empty l s)
    (hdistinct : (l.filterMap LogAct.id?).Nodup) (agentId : String) :
    (∀ k ∈ s.indexOf agentId, ∃ row, s.events.get? k = some row ∧ row.agentId = agentId ∧
      compositeKey row.tsNs row.id = k) ∧
    s.indexOf agentId = l.foldl (retain agentId) [] ∧
    (s.indexOf agentId).Sublist (l.filterMap (LogAct.inserted agentId)) ∧
    ((s.indexOf agentId).map fun k => (ofLex k).2).Nodup ∧
    (s.indexOf agentId).length ≤ agentEventIndexLimit ∧
    (∀ pageSize pages, (s.indexOf agentId).length ≤ pages * pageSize →
      (((List.range pages).flatMap fun page => s.eventsForAgent agentId page pageSize).map
        fun r => compositeKey r.tsNs r.id) = (s.indexOf agentId).reverse) ∧
    (∀ page pageSize, (s.eventsForAgent agentId page pageSize).length =
      min pageSize ((s.indexOf agentId).length - page * pageSize)) ∧
    ∀ (now retentionNs : UInt64), ∀ k ∈ s.indexOf agentId,
      (k ∉ (s.compact now retentionNs).indexOf agentId ↔
        (s.compact now retentionNs).events.get? k = none) := by
  have hkept : Kept ([] ++ l) s := run_kept h empty_kept hdistinct
  rw [List.nil_append] at hkept
  have hrow : ∀ k ∈ s.indexOf agentId, (s.events.get? k).isSome := by
    intro k hk
    obtain ⟨row, hrow, -⟩ := hkept.resolves agentId k hk
    rw [hrow]
    rfl
  refine ⟨?_, hkept.index agentId, ?_, ?_, hkept.bounded agentId, ?_, page_length hrow, ?_⟩
  · intro k hk
    obtain ⟨row, hget, hagent⟩ := hkept.resolves agentId k hk
    have hkey : k = compositeKey row.tsNs row.id :=
      s.keyed _ (OrderedTable.get?_eq_some_iff.mp hget)
    exact ⟨row, hget, hagent, hkey.symm⟩
  · rw [hkept.index agentId]
    exact retained_sublist agentId l
  · rw [hkept.index agentId]
    exact (retained_ids_sublist agentId l).nodup hdistinct
  · intro pageSize pages hall
    rw [pages_eq, Nat.sub_eq_zero_of_le hall, List.drop_zero, resolved_keys]
    intro k hk
    exact hrow k (List.mem_reverse.mp hk)
  · intro now retentionNs k hk
    exact compact_agrees hk (hrow k hk) now retentionNs

/-- A heartbeat of the one agent. -/
def beatAt (d : Fin 10) (tsNs : UInt64) : Event ℚ :=
  .new (.ofDigit d) tsNs "agent-1" "host" (.heartbeat 60)

/-- Two writes, a compaction that drops the second, and one more write. -/
def retentionRun : List (LogAct ℚ) :=
  [.write (beatAt 1 5), .write (beatAt 2 3), .compact 10 6, .write (beatAt 3 4)]

/-- Two pages of one event list what is left, the last write first. -/
theorem pages_list_retained_after_compaction :
    ∃ s, FreeRun logStep empty retentionRun s ∧
      (((List.range 2).flatMap fun page => s.eventsForAgent "agent-1" page 1).map
        fun r => compositeKey r.tsNs r.id) =
        [compositeKey 4 (.ofDigit 3), compositeKey 5 (.ofDigit 1)] := by
  have hrun : FreeRun logStep empty retentionRun _ :=
    .cons trivial rfl (.cons trivial rfl (.cons trivial rfl (.cons trivial rfl (.nil _))))
  obtain ⟨-, hindex, -, -, -, hpages, -⟩ :=
    pages_list_retained hrun (by decide +kernel) "agent-1"
  have hretained : retentionRun.foldl (retain "agent-1") [] =
      [compositeKey 5 (.ofDigit 1), compositeKey 4 (.ofDigit 3)] := by decide +kernel
  rw [hretained] at hindex
  refine ⟨_, hrun, ?_⟩
  rw [hpages 1 2 (by rw [hindex]; decide), hindex]
  rfl

end Store
end Aegis
